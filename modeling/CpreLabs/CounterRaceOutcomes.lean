import CpreLabs.CounterRace

/-!
# What the race condition programs print

With the mutex or the atomic addition the programs print `numThreads * iterations`. The plain
`counter++` loses writes: with two threads or more, every value from two up to that can come
out, and no other (with one iteration, from one up).
-/
namespace CpreLabs.CounterRace
open ForkJoin Relation

/-- A thread can go from one point to another and add `d` to the counter. -/
def Adds (how : Increment) (iterations : ℕ) (p q : Point) (d : ℕ) : Prop :=
  ∀ (numThreads : ℕ) (t : Fin numThreads) (c : ℕ),
    Runs (code how numThreads iterations) t (none, p, c) (none, q, c + d)

section Adds

variable {how : Increment} {iterations : ℕ} {p q r : Point} {d e : ℕ}

theorem Adds.refl : Adds how iterations p p 0 := fun _ _ _ => .refl

theorem Adds.trans (h : Adds how iterations p q d) (h' : Adds how iterations q r e) :
    Adds how iterations p r (d + e) := by
  intro numThreads t c
  rw [← Nat.add_assoc]
  exact (h numThreads t c).trans (h' numThreads t (c + d))

theorem moves_of_adds {numThreads : ℕ} {point target : Fin numThreads → Point}
    {d : Fin numThreads → ℕ} (h : ∀ t, Adds how iterations (point t) (target t) (d t)) (c : ℕ) :
    Moves (code how numThreads iterations) ⟨none, point, c⟩ ⟨none, target, c + ∑ t, d t⟩ := by
  obtain ⟨c', hc', hmoves⟩ := moves_in_turn Finset.univ (fun B v => v = c + ∑ t ∈ B, d t)
    (fun B t v _ _ ht hv => ⟨v + d t, by rw [hv, Finset.sum_insert ht]; omega,
      h t numThreads t v⟩) (by simp : c = c + ∑ t ∈ ∅, d t)
  simp only [Finset.mem_univ, if_true] at hmoves
  rwa [hc'] at hmoves

end Adds

section Plain

variable {numThreads iterations i v : ℕ} {point : Fin numThreads → Point} {t : Fin numThreads}

theorem runs_load (hi : i < iterations) (c : ℕ) :
    Runs (code .plain numThreads iterations) t (none, .test i, c) (none, .store i c, c) := by
  have htest : Runs (code .plain numThreads iterations) t (none, .test i, c) (none, .load i, c) :=
    .exec rfl (by rw [if_pos hi]; rfl)
  exact htest.trans (.exec rfl rfl)

theorem runs_store (c : ℕ) : Runs (code .plain numThreads iterations) t
    (none, .store i v, c) (none, .test (i + 1), v + 1) := .exec rfl rfl

theorem adds_one (hi : i < iterations) : Adds .plain iterations (.test i) (.test (i + 1)) 1 :=
  fun _ _ c => (runs_load hi c).trans (runs_store c)

theorem adds_test {j : ℕ} (hij : i ≤ j) (hj : j ≤ iterations) :
    Adds .plain iterations (.test i) (.test j) (j - i) := by
  induction j, hij using Nat.le_induction with
  | base =>
    rw [Nat.sub_self]
    exact .refl
  | succ j hij ih =>
    have hstep := (ih (Nat.le_of_succ_le hj)).trans (adds_one hj)
    rwa [← Nat.sub_add_comm hij] at hstep

theorem adds_returned (hi : i ≤ iterations) :
    Adds .plain iterations (.test i) .returned (iterations - i) := by
  have hexit : Adds .plain iterations (.test iterations) .returned 0 := by
    intro numThreads t c
    exact .exec rfl (by rw [if_neg (lt_irrefl iterations)]; rfl)
  exact (adds_test hi le_rfl).trans hexit

/-- The others run while the thread is between its load and its store, and what they write
is lost. -/
theorem moves_overlap {target : Fin numThreads → Point} (ht : point t = .test i)
    (hi : i < iterations)
    (htarget : ∀ u, u ≠ t → ∃ d, Adds .plain iterations (point u) (target u) d) (c : ℕ) :
    Moves (code .plain numThreads iterations) ⟨none, point, c⟩
      ⟨none, Function.update target t (.test (i + 1)), c + 1⟩ := by
  have hothers : ∀ u, ∃ d, Adds .plain iterations (Function.update point t (.store i c) u)
      (Function.update target t (.store i c) u) d := by
    intro u
    by_cases hut : u = t
    · subst hut
      rw [Function.update_self, Function.update_self]
      exact ⟨0, .refl⟩
    · rw [Function.update_of_ne hut, Function.update_of_ne hut]
      exact htarget u hut
  choose d hd using hothers
  have hruns : Runs (code .plain numThreads iterations) t
      (none, .store i c, c + ∑ u, d u) (none, .test (i + 1), c + 1) := runs_store _
  have hstore := hruns (Function.update target t (.store i c)) (Function.update_self ..)
  rw [Function.update_idem] at hstore
  exact ((runs_load hi c point ht).trans (moves_of_adds hd c)).trans hstore

theorem moves_exit (t : Fin numThreads) (c : ℕ) :
    Moves (code .plain numThreads iterations)
      ⟨none, Function.update (fun _ => .returned) t (.test iterations), c⟩
      ⟨none, fun _ => .returned, c⟩ := by
  have hexit := adds_returned (le_refl iterations) numThreads t c
    (Function.update (fun _ => .returned) t (.test iterations)) (Function.update_self ..)
  rwa [Function.update_idem, Nat.sub_self, Function.update_eq_self_iff.mpr rfl] at hexit

theorem moves_prefix (f : Fin numThreads → ℕ) (hf : ∀ t, f t ≤ iterations) :
    Moves (code .plain numThreads iterations) ((code .plain numThreads iterations).start 0)
      ⟨none, fun t => .test (f t), ∑ t, f t⟩ := by
  have hmoves := moves_of_adds (fun t => adds_test (Nat.zero_le (f t)) (hf t)) 0
  simp only [Nat.sub_zero, Nat.zero_add] at hmoves
  exact hmoves

end Plain

/-- A sum of parts below the caps can be any number below the sum of the caps. -/
theorem exists_sum_eq {n : ℕ} (cap : Fin n → ℕ) {m : ℕ} (hm : m ≤ ∑ t, cap t) :
    ∃ f : Fin n → ℕ, (∀ t, f t ≤ cap t) ∧ ∑ t, f t = m := by
  induction m with
  | zero => exact ⟨fun _ => 0, fun _ => Nat.zero_le _, by simp⟩
  | succ m ih =>
    obtain ⟨f, hle, hsum⟩ := ih (Nat.le_of_succ_le hm)
    have hlt : ∑ t, f t < ∑ t, cap t := by omega
    obtain ⟨t, -, ht⟩ := Finset.exists_lt_of_sum_lt hlt
    refine ⟨Function.update f t (f t + 1), fun u => ?_, ?_⟩
    · by_cases hut : u = t
      · subst hut
        rw [Function.update_self]
        exact ht
      · rw [Function.update_of_ne hut]
        exact hle u
    · rw [Finset.sum_update_of_mem (Finset.mem_univ t)]
      have hsplit := Finset.add_sum_erase Finset.univ f (Finset.mem_univ t)
      rw [Finset.sdiff_singleton_eq_erase]
      omega

/-- The iterations before the overlap: `m` in all, and the threads of `A` are not done. -/
theorem exists_prefix {n iterations m : ℕ} (A : Finset (Fin n)) (hpos : 1 ≤ iterations)
    (hm : m + A.card ≤ n * iterations) :
    ∃ f : Fin n → ℕ, (∀ t, f t ≤ iterations) ∧ (∀ t ∈ A, f t < iterations) ∧ ∑ t, f t = m := by
  have hcaps : ∑ t, (if t ∈ A then iterations - 1 else iterations) +
      ∑ t, (if t ∈ A then 1 else 0) = n * iterations := by
    rw [← Finset.sum_add_distrib]
    have heach : ∀ t : Fin n, (if t ∈ A then iterations - 1 else iterations) +
        (if t ∈ A then 1 else 0) = iterations := by
      intro t
      split <;> omega
    simp only [heach, Finset.sum_const, Finset.card_univ, Fintype.card_fin, smul_eq_mul]
  rw [Finset.sum_boole, Finset.filter_mem_eq_inter, Finset.univ_inter, Nat.cast_id] at hcaps
  obtain ⟨f, hle, hsum⟩ :=
    exists_sum_eq (fun t => if t ∈ A then iterations - 1 else iterations) (m := m) (by omega)
  refine ⟨f, fun t => (hle t).trans (by split <;> omega), fun t ht => ?_, hsum⟩
  have hcap := hle t
  rw [if_pos ht] at hcap
  omega

section Outcomes

variable {numThreads iterations : ℕ}

/-- What the threads can leave in the counter. -/
def Leaves (how : Increment) (numThreads iterations v : ℕ) : Prop :=
  ∃ c, Moves (code how numThreads iterations) ((code how numThreads iterations).start 0) c ∧
    Finished (code how numThreads iterations) c ∧ c.memory = v

theorem leaves_of_returned {v : ℕ}
    (h : Moves (code .plain numThreads iterations) ((code .plain numThreads iterations).start 0)
      ⟨none, fun _ => .returned, v⟩) : Leaves .plain numThreads iterations v :=
  ⟨_, h, fun _ => rfl, rfl⟩

theorem leaves_all : Leaves .plain numThreads iterations (numThreads * iterations) := by
  have hmoves : Moves (code .plain numThreads iterations) ⟨none, fun _ => .test 0, 0⟩ _ :=
    moves_of_adds (fun _ => adds_returned (Nat.zero_le iterations)) 0
  simp only [Nat.sub_zero, Nat.zero_add, Finset.sum_const,
    Finset.card_univ, Fintype.card_fin, smul_eq_mul] at hmoves
  exact leaves_of_returned hmoves

/-- With one iteration, one thread overlaps with all those that have not run before it. -/
theorem leaves_one {m : ℕ} (hm : m < numThreads) : Leaves .plain numThreads 1 (m + 1) := by
  obtain ⟨a⟩ : Nonempty (Fin numThreads) := ⟨⟨0, by omega⟩⟩
  obtain ⟨f, hf, hfa, hsum⟩ := exists_prefix {a} le_rfl (m := m)
    (by simpa using Nat.succ_le_of_lt hm)
  have hzero : f a = 0 := Nat.lt_one_iff.mp (hfa a (by simp))
  have hbefore := moves_prefix f hf
  rw [hsum] at hbefore
  have hoverlap : Moves (code .plain numThreads 1) ⟨none, fun t => .test (f t), m⟩
      ⟨none, Function.update (fun _ => .returned) a (.test 1), m + 1⟩ :=
    moves_overlap (by rw [hzero]) Nat.one_pos (fun u _ => ⟨_, adds_returned (hf u)⟩) m
  exact leaves_of_returned ((hbefore.trans hoverlap).trans (moves_exit a (m + 1)))

/-- One thread overlaps with all but the last iteration of a second one, which then overlaps with
the rest of the first. -/
theorem leaves_two {m : ℕ} (hthreads : 2 ≤ numThreads) (hiterations : 1 ≤ iterations)
    (hm : m + 2 ≤ numThreads * iterations) : Leaves .plain numThreads iterations (m + 2) := by
  obtain ⟨a, b, hab⟩ : ∃ a b : Fin numThreads, b ≠ a :=
    ⟨⟨0, by omega⟩, ⟨1, by omega⟩, by simp [Fin.ext_iff]⟩
  obtain ⟨f, hf, hless, hsum⟩ := exists_prefix {a, b} hiterations (m := m)
    (by rwa [Finset.card_pair hab.symm])
  have hfa := hless a (by simp)
  have hfb := hless b (by simp)
  have hbefore := moves_prefix f hf
  rw [hsum] at hbefore
  -- `b` is left with one iteration when `a` stores
  have hfirst : Moves (code .plain numThreads iterations) ⟨none, fun t => .test (f t), m⟩
      ⟨none, Function.update (Function.update (fun _ => .returned) b (.test (iterations - 1))) a
        (.test (f a + 1)), m + 1⟩ := by
    refine moves_overlap rfl hfa (fun u hu => ?_) m
    by_cases hub : u = b
    · subst hub
      rw [Function.update_self]
      exact ⟨_, adds_test (by omega) (Nat.sub_le ..)⟩
    · rw [Function.update_of_ne hub]
      exact ⟨_, adds_returned (hf u)⟩
  have hsecond : Moves (code .plain numThreads iterations)
      ⟨none, Function.update (Function.update (fun _ => .returned) b (.test (iterations - 1))) a
        (.test (f a + 1)), m + 1⟩
      ⟨none, Function.update (fun _ => .returned) b (.test (iterations - 1 + 1)), m + 2⟩ := by
    refine moves_overlap ?_ (by omega) (fun u hu => ?_) (m + 1)
    · rw [Function.update_of_ne hab, Function.update_self]
    · by_cases hua : u = a
      · subst hua
        rw [Function.update_self]
        exact ⟨_, adds_returned (by omega)⟩
      · rw [Function.update_of_ne hua, Function.update_of_ne hu]
        exact ⟨0, .refl⟩
  rw [Nat.sub_add_cancel hiterations] at hsecond
  exact leaves_of_returned
    (((hbefore.trans hfirst).trans hsecond).trans (moves_exit b (m + 2)))

theorem written_eq {how : Increment} {s : Team numThreads Point ℕ}
    (h : Finished (code how numThreads iterations) s) (t : Fin numThreads) :
    (s.point t).written iterations = iterations := by
  rw [eq_returned_of_finished h t]
  rfl

theorem leaves_exact {how : Increment} (hhow : how ≠ .plain ∨ numThreads ≤ 1) {v : ℕ}
    (h : Leaves how numThreads iterations v) : v = numThreads * iterations := by
  obtain ⟨c, hmoves, hfinished, rfl⟩ := h
  have hexact := exact_of_moves (fun s hs => serial_of_invariant hs hhow) hmoves
  rw [hexact.counter, written_of_finished hfinished]

theorem leaves_bounds {how : Increment} {v : ℕ} (hthreads : 0 < numThreads)
    (h : Leaves how numThreads iterations v) :
    min iterations 2 ≤ v ∧ v ≤ numThreads * iterations := by
  obtain ⟨c, hmoves, hfinished, rfl⟩ := h
  have hinv := invariant_of_moves hmoves
  have hwritten := written_eq hfinished
  have hless := hinv.atLeast hthreads
  refine ⟨?_, ?_⟩
  · rcases hless.two with htwo | ⟨t, ht⟩
    · omega
    · rw [hwritten t] at ht
      rcases hless.one with hone | hzero
      · omega
      · have hnone := hzero t
        rw [hwritten t] at hnone
        omega
  · rw [← written_of_finished hfinished]
    exact hinv.atMost.counter

theorem leaves_plain_iff {v : ℕ} : Leaves .plain numThreads iterations v ↔
    (if numThreads ≤ 1 then numThreads * iterations else min iterations 2) ≤ v ∧
      v ≤ numThreads * iterations := by
  by_cases hone : numThreads ≤ 1
  · rw [if_pos hone]
    constructor
    · intro h
      rw [leaves_exact (Or.inr hone) h]
      exact ⟨le_rfl, le_rfl⟩
    · rintro ⟨hle, hge⟩
      rw [← hle.antisymm hge]
      exact leaves_all
  · rw [if_neg hone]
    refine ⟨leaves_bounds (by omega), ?_⟩
    rintro ⟨hle, hge⟩
    rcases Nat.lt_trichotomy iterations 1 with hzero | rfl | hmany
    · obtain rfl : iterations = 0 := by omega
      obtain rfl : v = numThreads * 0 := by omega
      exact leaves_all
    · obtain ⟨m, rfl⟩ : ∃ m, v = m + 1 := ⟨v - 1, by omega⟩
      exact leaves_one (by omega)
    · obtain ⟨m, rfl⟩ : ∃ m, v = m + 2 := ⟨v - 2, by omega⟩
      exact leaves_two (by omega) (by omega) hge

end Outcomes

/-- The counter stays in the range of `int` when the number of all iterations does. -/
theorem counter_le {how : Increment} {numThreads iterations : ℕ} {s : State numThreads Point ℕ}
    (h : Pthread.Reachable (program (code how numThreads iterations))
      (start numThreads Point 0) s) : s.shared.memory ≤ numThreads * iterations := by
  have hinv := invariant_of_moves (moves_of_reachable h)
  exact hinv.atMost.counter.trans (written_le hinv.fits)

/-- What the program without the mutex can print: with one thread the number of iterations; with
more, any value from two to that of all iterations, however many threads there are and however
often they count. -/
theorem plain_prints_iff (numThreads iterations v : ℕ) :
    (∃ s, Pthread.Reachable (program (code .plain numThreads iterations))
      (start numThreads Point 0) s ∧ s.shared.printed = some v) ↔
      (if numThreads ≤ 1 then numThreads * iterations else min iterations 2) ≤ v ∧
        v ≤ numThreads * iterations := by
  exact (prints_iff .refl).trans leaves_plain_iff

/-- The programs with the mutex or the atomic addition print the number of all iterations and
no other, and can always get there. -/
theorem synchronized_prints {how : Increment} (hhow : how ≠ .plain) {numThreads iterations : ℕ}
    {s : State numThreads Point ℕ}
    (h : Pthread.Reachable (program (code how numThreads iterations))
      (start numThreads Point 0) s) :
    (∀ v, s.shared.printed = some v →
      v = numThreads * iterations ∧ verdict numThreads iterations v = "CORRECT") ∧
      ∃ s', Pthread.Reachable (program (code how numThreads iterations)) s s' ∧
        s'.shared.printed = some (numThreads * iterations) := by
  have hprinted : ∀ {s' : State numThreads Point ℕ} {v : ℕ},
      Pthread.Reachable (program (code how numThreads iterations)) (start numThreads Point 0) s' →
      s'.shared.printed = some v → v = numThreads * iterations := fun hs' hv =>
    leaves_exact (Or.inl hhow) ((prints_iff .refl).mp ⟨_, hs', hv⟩)
  refine ⟨fun v hv => ?_, ?_⟩
  · rw [hprinted h hv]
    exact ⟨rfl, if_pos rfl⟩
  · obtain ⟨c, hmoves, hfinished⟩ := can_finish (moves_of_reachable h)
    obtain ⟨s', hreach, hv⟩ := (prints_iff h).mpr ⟨c, hmoves, hfinished, rfl⟩
    obtain hall := hprinted (h.trans hreach) hv
    rw [hall] at hv
    exact ⟨s', hreach, hv⟩

theorem synchronized_prints_benchmark :
    ∃ s', Pthread.Reachable (program (code .locked 4 1000000)) (start 4 Point 0) s' ∧
      s'.shared.printed = some (4 * 1000000) := by
  have hlocked : Increment.locked ≠ .plain := by decide
  exact (synchronized_prints hlocked .refl).2

end CpreLabs.CounterRace
