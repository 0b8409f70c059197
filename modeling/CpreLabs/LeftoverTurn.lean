import CpreLabs.TurnSchedules
import Mathlib.Data.Nat.ModEq

/-!
# A turn left over

The jobs come a second time while the last job of the first time still has the CPU. The second
schedule is that of the first time only when that job is the one long job of the table, or the last
of short ones.
-/
namespace CpreLabs.RoundRobin
open UnitTick

variable {ι : Type*}

/-- The second queue has `c` in it once more. -/
structure InPhase (c : ι) (L R : List ι) (t t' : Turn ι) : Prop where
  queue : t.queue = L ++ R
  queue' : t'.queue = L ++ c :: R
  running : t'.running = t.running

theorem inPhase_serveFirst {c y : ι} {L R : List ι} {t t' : Turn ι}
    (ht : t = serveFirst (y :: (L ++ R))) (ht' : t' = serveFirst (y :: (L ++ c :: R))) :
    InPhase c L R t t' ∧ t.running = some (y, 0) := by
  rw [ht, ht']
  exact ⟨⟨rfl, rfl, rfl⟩, rfl⟩

/-- A tick keeps the queues in phase, or takes the first jobs of both. -/
theorem InPhase.next {L R : List ι} {t t' : Turn ι} {c : ι} (h : InPhase c L R t t') (quantum : ℕ)
    (finished : ι → Bool) (arrived : List ι) :
    (∃ x v, t.running = some (x, v) ∧ finished x = false ∧ v + 1 < quantum ∧
      (t.next quantum finished arrived).running = some (x, v + 1) ∧
      InPhase c L (R ++ arrived) (t.next quantum finished arrived)
        (t'.next quantum finished arrived)) ∨
    ∃ back, (back = [] ∨ ∃ x v, t.running = some (x, v) ∧ finished x = false ∧
        quantum ≤ v + 1 ∧ back = [x]) ∧
      t.next quantum finished arrived = serveFirst (L ++ (R ++ arrived ++ back)) ∧
      t'.next quantum finished arrived = serveFirst (L ++ c :: (R ++ arrived ++ back)) := by
  obtain ⟨queue, r⟩ := t
  obtain ⟨queue', r'⟩ := t'
  obtain ⟨hqueue, hqueue', hrunning⟩ := h
  obtain rfl : queue = L ++ R := hqueue
  obtain rfl : queue' = L ++ c :: R := hqueue'
  obtain rfl : r' = r := hrunning
  rcases next_cases quantum finished arrived r' with
    ⟨x, v, hr, hfin, hlt, hkeep⟩ | ⟨-, hfree⟩ | ⟨x, v, hr, hfin, hge, hexpired⟩
  · refine Or.inl ⟨x, v, hr, hfin, hlt, ?_, ?_⟩
    · rw [hkeep]
    · rw [hkeep, hkeep]
      exact ⟨List.append_assoc .., List.append_assoc .., rfl⟩
  · refine Or.inr ⟨[], Or.inl rfl, ?_, ?_⟩
    · rw [hfree, List.append_nil, List.append_assoc]
    · rw [hfree, List.append_nil, List.append_assoc, List.cons_append]
  · refine Or.inr ⟨[x], Or.inr ⟨x, v, hr, hfin, hge, rfl⟩, ?_, ?_⟩
    · rw [hexpired, List.append_assoc, List.append_assoc, List.append_assoc]
    · rw [hexpired, List.append_assoc, List.append_assoc, List.cons_append, List.append_assoc]

variable [DecidableEq ι] {quantum : ℕ} {arrival : ι → ℕ}

/-- Where a job that has run for `n` ticks stands: it waits for its turn, has it while `x` is on the
CPU, or is not in the list. -/
def Standing (quantum : ℕ) (arrival : ι → ℕ) (L : List ι) (x : ι) (v n : ℕ) (i : ι) : Prop :=
  (arrival i = 0 ∧ i ∈ L ∧ n = 0) ∨ (arrival i = 0 ∧ i = x ∧ n = v + 1) ∨
    (i ∉ L ∧ i ≠ x ∧ (n = 0 ∨ arrival i = 0 ∧ n ≤ quantum))

section Standing

variable {L : List ι} {x y i : ι} {v n : ℕ}

theorem Standing.first (h : ∀ j ∈ x :: L, arrival j = 0) :
    Standing quantum arrival L x 0 (if some x = some i then 1 else 0) i := by
  by_cases hix : i = x
  · rw [if_pos (congrArg some hix.symm)]
    exact Or.inr (Or.inl ⟨h i (hix ▸ List.mem_cons_self), hix, rfl⟩)
  · rw [if_neg (fun heq => hix (Option.some.inj heq).symm)]
    by_cases hi : i ∈ L
    · exact Or.inl ⟨h i (List.mem_cons_of_mem x hi), hi, rfl⟩
    · exact Or.inr (Or.inr ⟨hi, hix, Or.inl rfl⟩)

theorem Standing.keep (h : Standing quantum arrival L x v n i) (hx : x ∉ L) :
    Standing quantum arrival L x (v + 1) (n + if some x = some i then 1 else 0) i := by
  rcases h with ⟨harr, hi, hn⟩ | ⟨harr, rfl, hn⟩ | ⟨hi, hix, hn⟩
  · have hne : ¬some x = some i := fun heq => hx (Option.some.inj heq ▸ hi)
    rw [if_neg hne]
    exact Or.inl ⟨harr, hi, hn⟩
  · rw [if_pos rfl, hn]
    exact Or.inr (Or.inl ⟨harr, rfl, rfl⟩)
  · rw [if_neg (fun heq => hix (Option.some.inj heq).symm)]
    exact Or.inr (Or.inr ⟨hi, hix, hn⟩)

theorem Standing.leave (h : Standing quantum arrival (y :: L) x v n i) (hv : v < quantum)
    (hx : x ∉ y :: L) (hy : y ∉ L) :
    Standing quantum arrival L y 0 (n + if some y = some i then 1 else 0) i := by
  by_cases hiy : i = y
  · subst hiy
    rw [if_pos rfl]
    rcases h with ⟨harr, -, hn⟩ | ⟨-, rfl, -⟩ | ⟨hi, -, -⟩
    · exact Or.inr (Or.inl ⟨harr, rfl, by rw [hn]⟩)
    · exact absurd List.mem_cons_self hx
    · exact absurd List.mem_cons_self hi
  · rw [if_neg (fun heq => hiy (Option.some.inj heq).symm), Nat.add_zero]
    rcases h with ⟨harr, hi, hn⟩ | ⟨harr, rfl, hn⟩ | ⟨hi, -, hn⟩
    · exact Or.inl ⟨harr, (List.mem_cons.mp hi).resolve_left hiy, hn⟩
    · exact Or.inr (Or.inr ⟨fun hi => hx (List.mem_cons_of_mem y hi), hiy,
        Or.inr ⟨harr, by omega⟩⟩)
    · exact Or.inr (Or.inr ⟨fun hmem => hi (List.mem_cons_of_mem y hmem), hiy, hn⟩)

theorem Standing.exhausted (h : Standing quantum arrival [] x v n i) (hv : v < quantum)
    (hi : i ≠ y) : Standing quantum arrival [] y 0 (n + if some y = some i then 1 else 0) i := by
  rw [if_neg (fun heq => hi (Option.some.inj heq).symm), Nat.add_zero]
  rcases h with ⟨-, hmem, -⟩ | ⟨harr, -, hn⟩ | ⟨-, -, hn⟩
  · cases hmem
  · exact Or.inr (Or.inr ⟨List.not_mem_nil, hi, Or.inr ⟨harr, by omega⟩⟩)
  · exact Or.inr (Or.inr ⟨List.not_mem_nil, hi, hn⟩)

end Standing

/-- The states when `c` is on the CPU at the start, as long as the jobs are served as by `σ`. -/
structure Leftover (quantum : ℕ) (length : ι → ℕ) (joining : ℕ → List ι) (σ : ℕ → Option ι) (c : ι)
    (used : ℕ) (s : ℕ → Turn ι) : Prop where
  start : s 0 = ⟨[], some (c, used)⟩
  step : ∀ k, s (k + 1) = (s k).next quantum (finishedBy length σ k) (joining k)

variable {length : ι → ℕ} {joining : ℕ → List ι} {σ : ℕ → Option ι}
variable {s s' : ℕ → Turn ι} {m k used : ℕ} {c : ι}

variable [LinearOrder ι]

/-- The last tick `m` is spent on `c`, and all jobs are finished then. -/
structure Finishing (quantum : ℕ) (arrival length : ι → ℕ) (joining : ℕ → List ι)
    (σ : ℕ → Option ι) (s : ℕ → Turn ι) (m : ℕ) (c : ι) (used : ℕ) : Prop
    extends Schedule quantum arrival length joining σ s where
  quantum_pos : 0 < quantum
  length_pos : ∀ i, 0 < length i
  finished : ∀ i, length i ≤ served σ (m + 1) i
  ending : s (m + 1) = ⟨[], some (c, used)⟩

/-- All jobs but `c` are there at the start and need one turn; `c` needs whole turns, has arrived
when they are finished, and is finished last. -/
structure Seamless [Fintype ι] (quantum : ℕ) (arrival length : ι → ℕ) (c : ι) : Prop where
  others : ∀ i, i ≠ c → arrival i = 0 ∧ length i ≤ quantum
  whole : quantum ∣ length c
  noGap : arrival c ≤ ∑ i ∈ Finset.univ.erase c, length i
  last : 0 < arrival c ∨ quantum < length c ∨ ∀ i, i ≤ c

/-- The last job has the CPU and nobody waits. -/
theorem Schedule.exists_finishing (h : Schedule quantum arrival length joining σ s)
    (hquantum : 0 < quantum) (hlength : ∀ i, 0 < length i)
    (hunfinished : ∃ i, served σ m i < length i) (hfinished : ∀ i, length i ≤ served σ (m + 1) i) :
    ∃ c used, Finishing quantum arrival length joining σ s m c used := by
  obtain ⟨i, hi⟩ := hunfinished
  have hrun : σ m = some i := by
    by_contra hnot
    have hdone := hfinished i
    rw [served_succ, if_neg hnot] at hdone
    omega
  have hqueue : (s (m + 1)).queue = [] := by
    apply List.eq_nil_iff_forall_not_mem.mpr
    intro j hj
    have hlt := (h.ready m j hj).2
    have hdone := hfinished j
    rw [h.served_waiting hj] at hdone
    omega
  have hcurrent := h.choice m
  rw [hrun, Turn.current, eq_comm, Option.map_eq_some_iff] at hcurrent
  obtain ⟨⟨c, used⟩, hr, -⟩ := hcurrent
  refine ⟨c, used, h, hquantum, hlength, hfinished, ?_⟩
  rw [← hqueue, ← hr]

namespace Finishing

theorem choice_last (h : Finishing quantum arrival length joining σ s m c used) : σ m = some c :=
  h.choice_of_running (congrArg Turn.running h.ending)

theorem unfinished_of_le (h : Finishing quantum arrival length joining σ s m c used) (hk : k ≤ m) :
    served σ k c < length c :=
  (served_mono hk).trans_lt (h.unfinished m c h.choice_last)

theorem exists_served (h : Finishing quantum arrival length joining σ s m c used) {i : ι}
    (hi : i ≠ c) : ∃ j, j < m ∧ σ j = some i := by
  obtain ⟨j, hj, hrun⟩ := served_pos_iff.mp ((h.length_pos i).trans_le (h.finished i))
  rcases Nat.lt_succ_iff_lt_or_eq.mp hj with hlt | rfl
  · exact ⟨j, hlt, hrun⟩
  · exact absurd (Option.some.inj (hrun.symm.trans h.choice_last)) hi

theorem ending_running (h : Finishing quantum arrival length joining σ s m c used) :
    (s (m + 1)).running = some (c, used) := congrArg Turn.running h.ending

theorem length_mod (h : Finishing quantum arrival length joining σ s m c used) :
    length c % quantum = (used + 1) % quantum := by
  have hlast : length c = served σ m c + 1 := by
    have hlt := h.unfinished_of_le le_rfl
    have hge := h.finished c
    rw [served_succ, if_pos h.choice_last] at hge
    omega
  rw [hlast, ← Nat.mod_add_mod, (h.served_mod h.quantum_pos m).1 c used h.ending_running]

/-- As long as only `c` runs, the turn that was left over goes on, or a new one begins. -/
theorem leftover_alone (h : Finishing quantum arrival length joining σ s m c used)
    (hl : Leftover quantum length joining σ c used s')
    (hagree : ∀ k, k ≤ m → (s' (k + 1)).current = σ k) (hused : used < quantum) (hk : k ≤ m)
    (halone : ∀ j, j < k → σ j = some c) :
    ∃ v, (s' k).running = some (c, v) ∧ v < quantum ∧ v = (used + k) % quantum := by
  induction k with
  | zero =>
    refine ⟨used, by rw [hl.start], hused, ?_⟩
    rw [Nat.add_zero, Nat.mod_eq_of_lt hused]
  | succ k ih =>
    obtain ⟨v, hr, hv, hmod⟩ := ih (by omega) (fun j hj => halone j (Nat.lt_succ_of_lt hj))
    have hunfinished := h.unfinished_of_le (k := k) (by omega)
    have hsum : (used + (k + 1)) % quantum = (v + 1) % quantum := by
      rw [← Nat.add_assoc, ← Nat.mod_add_mod, hmod]
    have hcurrent := hagree k (by omega)
    rw [halone k (Nat.lt_succ_self k)] at hcurrent
    have hstep := hl.step k
    rcases next_cases quantum (finishedBy length σ k) (joining k)
      (s' k).running with
      ⟨c', v', hr', -, hlt, hkeep⟩ | ⟨hfree, -⟩ | ⟨c', v', hr', -, hge, hexpired⟩
    · rw [hr] at hr'
      cases hr'
      refine ⟨v + 1, by rw [hstep.trans (hkeep _)], hlt, ?_⟩
      rw [hsum, Nat.mod_eq_of_lt hlt]
    · have hdone := finishedBy_eq_true.mp (hfree c v hr)
      omega
    · rw [hr] at hr'
      cases hr'
      have hfull : v + 1 = quantum := by omega
      rw [hstep.trans (hexpired _)] at hcurrent ⊢
      rw [Turn.current, Option.map_eq_some_iff] at hcurrent
      obtain ⟨⟨c', v'⟩, hr', rfl⟩ := hcurrent
      rw [used_serveFirst hr'] at hr'
      refine ⟨0, hr', h.quantum_pos, ?_⟩
      rw [hsum, hfull, Nat.mod_self]

/-- The first schedule takes `c` off the CPU at the end of a turn only. -/
theorem mod_of_leave (h : Finishing quantum arrival length joining σ s m c used) (hk : k ≤ m)
    (halone : ∀ j, j < k → σ j = some c) (hleave : σ k ≠ some c) : k % quantum = 0 := by
  cases k with
  | zero => exact Nat.zero_mod quantum
  | succ k =>
    have hserved := served_of_constant (Nat.zero_le k)
      (fun j _ hj => halone j (Nat.lt_succ_of_lt hj)) c
    rw [served_zero, if_pos rfl, Nat.sub_zero, Nat.zero_add] at hserved
    have hcurrent := h.choice k
    rw [halone k (Nat.lt_succ_self k), Turn.current, eq_comm, Option.map_eq_some_iff] at hcurrent
    obtain ⟨⟨c', v⟩, hr, hc⟩ := hcurrent
    obtain rfl : c' = c := hc
    have hmod := (h.served_mod h.quantum_pos k).1 c' v hr
    have hunfinished := h.unfinished_of_le hk
    have hstep := h.step (k + 1)
    rcases next_cases quantum (finishedBy length σ (k + 1)) (joining (k + 1))
      (s (k + 1)).running with
      ⟨c, v', hr', -, -, hkeep⟩ | ⟨hfree, -⟩ | ⟨c, v', hr', -, hge, -⟩
    · rw [hr] at hr'
      cases hr'
      have hrun : (s (k + 1 + 1)).running = some (c', v + 1) := by
        rw [hstep.trans (hkeep _)]
      exact absurd (h.choice_of_running hrun) hleave
    · have hdone := finishedBy_eq_true.mp (hfree c' v hr)
      omega
    · rw [hr] at hr'
      cases hr'
      have hlt := h.used_lt h.quantum_pos hr
      have hfull : v + 1 = quantum := by omega
      rw [← Nat.mod_add_mod, ← hserved, hmod, hfull, Nat.mod_self]

theorem used_full [Nontrivial ι] (h : Finishing quantum arrival length joining σ s m c used)
    (hl : Leftover quantum length joining σ c used s')
    (hagree : ∀ k, k ≤ m → (s' (k + 1)).current = σ k) : used + 1 = quantum := by
  have hused := h.used_lt h.quantum_pos h.ending_running
  by_contra hne
  have hexists : ∃ k, k ≤ m ∧ σ k ≠ some c := by
    obtain ⟨i, hi⟩ := exists_ne c
    obtain ⟨j, hj, hrun⟩ := h.exists_served hi
    exact ⟨j, hj.le, fun heq => hi (Option.some.inj (hrun.symm.trans heq))⟩
  obtain ⟨hk, hleave⟩ := Nat.find_spec hexists
  have halone : ∀ j, j < Nat.find hexists → σ j = some c := by
    intro j hj
    by_contra hnot
    exact Nat.find_min hexists hj ⟨hj.le.trans hk, hnot⟩
  obtain ⟨v, hr, -, hv⟩ := h.leftover_alone hl hagree hused hk halone
  have hmod := h.mod_of_leave hk halone hleave
  rw [← Nat.add_mod_mod, hmod, Nat.add_zero, Nat.mod_eq_of_lt hused] at hv
  have hfin : finishedBy length σ (Nat.find hexists) c = false :=
    finishedBy_eq_false.mpr (h.unfinished_of_le hk)
  have hkeep := hl.step (Nat.find hexists)
  obtain ⟨queue, hs'⟩ : ∃ queue, s' (Nat.find hexists) = ⟨queue, some (c, used)⟩ :=
    ⟨_, by rw [← hv, ← hr]⟩
  rw [hs', next_of_keep hfin (by omega)] at hkeep
  have hcurrent := hagree (Nat.find hexists) hk
  rw [hkeep] at hcurrent
  exact hleave hcurrent.symm

end Finishing

namespace Finishing

theorem first_tick (h : Finishing quantum arrival length joining σ s m c used)
    (hl : Leftover quantum length joining σ c used s') (hfull : used + 1 = quantum) :
    s 1 = serveFirst (joining 0) ∧ s' 1 = serveFirst (joining 0 ++ [c]) := by
  have hunfinished : finishedBy length σ 0 c = false :=
    finishedBy_eq_false.mpr (h.unfinished_of_le (Nat.zero_le m))
  constructor
  · rw [h.step, h.start, next_of_idle, List.nil_append]
  · rw [hl.step, hl.start, next_of_expired hunfinished hfull.ge, List.nil_append]

/-- The schedules stay in phase, and only jobs that were there at the start run before the list is
used up. -/
theorem phases (h : Finishing quantum arrival length joining σ s m c used)
    (hl : Leftover quantum length joining σ c used s')
    (hagree : ∀ k, k ≤ m → (s' (k + 1)).current = σ k) (hfull : used + 1 = quantum) (hk : k ≤ m) :
    ∃ L R x v, InPhase c L R (s (k + 1)) (s' (k + 1)) ∧ (s (k + 1)).running = some (x, v) ∧
      ∀ i, i ≠ c → Standing quantum arrival L x v (served σ (k + 1) i) i := by
  induction k with
  | zero =>
    obtain ⟨hfirst, hfirst'⟩ := h.first_tick hl hfull
    have hcurrent := hagree 0 hk
    rw [h.choice, hfirst, hfirst'] at hcurrent
    have harrival : ∀ i ∈ joining 0, arrival i = 0 := fun i hi => (h.joining_iff 0 i).mp hi
    cases hjoining : joining 0 with
    | nil =>
      rw [hjoining] at hcurrent
      cases hcurrent
    | cons x L =>
      rw [hjoining] at hfirst hfirst' harrival
      rw [← List.append_nil L] at hfirst
      obtain ⟨hphase, hr⟩ := inPhase_serveFirst (L := L) hfirst hfirst'
      refine ⟨L, [], x, 0, hphase, hr, fun i _ => ?_⟩
      rw [served_succ, served_zero, h.choice_of_running hr, Nat.zero_add]
      exact .first harrival
  | succ k ih =>
    obtain ⟨L, R, x, v, hphase, hr, hstanding⟩ := ih (by omega)
    have hv := h.used_lt h.quantum_pos hr
    have hxL : x ∉ L ++ R := by
      rw [← hphase.queue]
      exact h.apart k x (h.choice_of_running hr)
    have hnodup : (L ++ R).Nodup := by
      rw [← hphase.queue]
      exact h.nodup k
    have hcurrent := hagree (k + 1) hk
    rw [h.choice] at hcurrent
    have hserved : ∀ {y w}, (s (k + 1 + 1)).running = some (y, w) → ∀ i,
        served σ (k + 1 + 1) i = served σ (k + 1) i + if some y = some i then 1 else 0 := by
      intro y w hy i
      rw [served_succ, h.choice_of_running hy]
    have hnext := hphase.next quantum (finishedBy length σ (k + 1)) (joining (k + 1))
    rw [← h.step, ← hl.step] at hnext
    rcases hnext with ⟨x', v', hr', -, -, hkeep, hphase'⟩ | ⟨back, -, hserve, hserve'⟩
    · rw [hr] at hr'
      cases hr'
      refine ⟨L, _, x, v + 1, hphase', hkeep, fun i hi => ?_⟩
      rw [hserved hkeep]
      exact (hstanding i hi).keep (fun hx => hxL (List.mem_append_left R hx))
    · cases L with
      | cons y L =>
        obtain ⟨hphase', hy⟩ := inPhase_serveFirst hserve hserve'
        refine ⟨L, R ++ joining (k + 1) ++ back, y, 0, hphase', hy, fun i hi => ?_⟩
        rw [hserved hy]
        refine (hstanding i hi).leave hv (fun hx => hxL (List.mem_append_left R hx)) ?_
        exact (List.nodup_cons.mp (List.nodup_append.mp hnodup).1).1
      | nil =>
        rw [List.nil_append] at hserve hserve'
        cases hrest : R ++ joining (k + 1) ++ back with
        | nil =>
          rw [hserve, hserve', hrest] at hcurrent
          cases hcurrent
        | cons y rest =>
          rw [hrest] at hserve hserve'
          rw [hserve, hserve'] at hcurrent
          obtain rfl : c = y := Option.some.inj hcurrent
          obtain ⟨hphase', hc⟩ := inPhase_serveFirst (L := []) hserve hserve'
          refine ⟨[], rest, c, 0, hphase', hc, fun i hi => ?_⟩
          rw [hserved hc]
          exact (hstanding i hi).exhausted hv hi

/-- A short job has its turn before a long one has its second. -/
theorem exists_first_turn (h : Finishing quantum arrival length joining σ s m c used)
    (harr : arrival c = 0) (i : ι) :
    ∃ t, t ≤ m ∧ σ t = some c ∧ served σ t c = 0 ∧ served σ t i ≤ quantum := by
  by_cases hrun : σ 0 = some c
  · exact ⟨0, Nat.zero_le m, hrun, served_zero, by rw [served_zero]; exact Nat.zero_le quantum⟩
  · have hunfinished := h.unfinished_of_le (Nat.zero_le m)
    have hmem := (h.all 0 c harr.le hunfinished).resolve_right hrun
    obtain ⟨before, after, hqueue⟩ := List.append_of_mem hmem
    cases hr : (s (0 + 1)).running with
    | none =>
      have hidle := h.choice 0
      rw [Turn.current, hr] at hidle
      exact absurd (h.busy 0 hidle c harr.le) (not_le.mpr hunfinished)
    | some r =>
      obtain ⟨x, v⟩ := r
      have hs : s (0 + 1) = ⟨before ++ c :: after, some (x, v)⟩ := by
        rw [← hqueue, ← hr]
      have hx := h.apart 0 x (h.choice_of_running hr)
      have hnodup := h.nodup 0
      rw [hqueue] at hx hnodup
      obtain ⟨hbefore, -, hapart⟩ := List.nodup_append.mp hnodup
      have hturn : (x :: before).Nodup :=
        List.nodup_cons.mpr ⟨fun hmem => hx (List.mem_append_left _ hmem), hbefore⟩
      have hcx : c ∉ x :: before := by
        intro hmem
        rcases List.mem_cons.mp hmem with rfl | hmem
        · exact hx (List.mem_append_right _ List.mem_cons_self)
        · exact hapart c hmem c List.mem_cons_self rfl
      obtain ⟨t, -, -, hrun', hcount⟩ :=
        h.waits h.quantum_pos hs (h.used_lt h.quantum_pos hr) hturn
      have hzero := (hcount c).2 hcx
      have hle := (hcount i).1
      rw [served_zero] at hzero hle
      refine ⟨t, ?_, hrun', hzero, by omega⟩
      by_contra hlt
      have hmono := served_mono (σ := σ) (i := c) (Nat.succ_le_of_lt (not_le.mp hlt))
      have hpos := h.length_pos c
      have hfinished := h.finished c
      rw [Nat.succ_eq_add_one] at hmono
      omega

theorem last_place (h : Finishing quantum arrival length joining σ s m c used)
    (hfirst : FirstCome arrival length σ) (harr : arrival c = 0) {i : ι} (hi : i ≠ c) :
    arrival i < arrival c ∨ arrival i = arrival c ∧ i ≤ c := by
  obtain ⟨j, hj, hrun⟩ := h.exists_served hi
  exact place_le_iff.mp (hfirst.first j i hrun c (by omega) (h.unfinished_of_le hj.le))

theorem firstCome_of_others (h : Finishing quantum arrival length joining σ s m c used) {d : ι}
    (hothers : ∀ i, i ≠ d → arrival i = 0 ∧ length i ≤ quantum) (hshort : length d ≤ quantum) :
    FirstCome arrival length σ := by
  apply h.firstCome h.quantum_pos
  intro i
  by_cases hi : i = d
  · rw [hi]
    exact hshort
  · exact (hothers i hi).2

theorem others_of_agree (h : Finishing quantum arrival length joining σ s m c used)
    (hl : Leftover quantum length joining σ c used s')
    (hagree : ∀ k, k ≤ m → (s' (k + 1)).current = σ k) (hfull : used + 1 = quantum) {i : ι}
    (hi : i ≠ c) : arrival i = 0 ∧ length i ≤ quantum := by
  obtain ⟨L, R, x, v, hphase, hr, hstanding⟩ := h.phases hl hagree hfull le_rfl
  rw [h.ending_running] at hr
  cases hr
  have hqueue := hphase.queue
  rw [h.ending] at hqueue
  obtain rfl : L = [] := (List.append_eq_nil_iff.mp hqueue.symm).1
  have hpos := h.length_pos i
  have hfinished := h.finished i
  rcases hstanding i hi with ⟨-, hmem, -⟩ | ⟨-, heq, -⟩ | ⟨-, -, hzero | ⟨harr, hle⟩⟩
  · cases hmem
  · exact absurd heq hi
  · omega
  · exact ⟨harr, hfinished.trans hle⟩

variable [Fintype ι]

theorem noGap_of_agree (h : Finishing quantum arrival length joining σ s m c used)
    (hl : Leftover quantum length joining σ c used s')
    (hagree : ∀ k, k ≤ m → (s' (k + 1)).current = σ k) (hfull : used + 1 = quantum) :
    arrival c ≤ ∑ i ∈ Finset.univ.erase c, length i := by
  by_contra hgap
  obtain ⟨total, htotal⟩ : ∃ total, ∑ i ∈ Finset.univ.erase c, length i = total := ⟨_, rfl⟩
  rw [htotal] at hgap
  have harrived := h.arrived m c h.choice_last
  have hbusy : ∀ j, j < total + 1 → σ j ≠ none := by
    intro j hj
    obtain ⟨L, R, x, v, -, hr, -⟩ := h.phases hl hagree hfull (k := j) (by omega)
    rw [h.choice_of_running hr]
    exact Option.some_ne_none x
  have hsum := sum_served hbusy
  rw [← Finset.add_sum_erase Finset.univ _ (Finset.mem_univ c),
    h.served_of_not_arrived (by omega)] at hsum
  have hle : ∑ i ∈ Finset.univ.erase c, served σ (total + 1) i ≤
      ∑ i ∈ Finset.univ.erase c, length i :=
    Finset.sum_le_sum (fun i _ => h.served_le (total + 1) i)
  omega

/-- When the leftover turn makes no difference. -/
theorem seamless_of_agree [Nontrivial ι]
    (h : Finishing quantum arrival length joining σ s m c used)
    (hl : Leftover quantum length joining σ c used s')
    (hagree : ∀ k, k ≤ m → (s' (k + 1)).current = σ k) :
    Seamless quantum arrival length c := by
  have hfull := h.used_full hl hagree
  have hothers : ∀ i, i ≠ c → arrival i = 0 ∧ length i ≤ quantum :=
    fun i hi => h.others_of_agree hl hagree hfull hi
  refine ⟨hothers, ?_, h.noGap_of_agree hl hagree hfull, ?_⟩
  · have hmod := h.length_mod
    rw [hfull, Nat.mod_self] at hmod
    exact Nat.dvd_of_mod_eq_zero hmod
  · by_contra hnot
    push Not at hnot
    obtain ⟨harr, hshort, i, hi⟩ := hnot
    have hfirst := h.firstCome_of_others hothers hshort
    rcases h.last_place hfirst (Nat.le_zero.mp harr) hi.ne' with hlt | ⟨-, hle⟩
    · omega
    · exact absurd hi (not_lt.mpr hle)

theorem busy_of_seamless (h : Finishing quantum arrival length joining σ s m c used)
    (hc : Seamless quantum arrival length c) (hk : k ≤ m) : σ k ≠ none := by
  induction k using Nat.strong_induction_on with
  | h k ih =>
    intro hidle
    have hsum := sum_served (σ := σ) (k := k) (fun j hj => ih j hj (by omega))
    have hnot : k < arrival c := by
      by_contra hle
      have hdone := h.busy k hidle c (not_lt.mp hle)
      have hlt := h.unfinished_of_le hk
      omega
    rw [← Finset.add_sum_erase Finset.univ _ (Finset.mem_univ c),
      h.served_of_not_arrived hnot.le] at hsum
    have hge : ∑ i ∈ Finset.univ.erase c, length i ≤ ∑ i ∈ Finset.univ.erase c, served σ k i := by
      apply Finset.sum_le_sum
      intro i hi
      apply h.busy k hidle i
      rw [(hc.others i (Finset.ne_of_mem_erase hi)).1]
      exact Nat.zero_le k
    have hgap := hc.noGap
    omega

theorem full_of_seamless (h : Finishing quantum arrival length joining σ s m c used)
    (hc : Seamless quantum arrival length c) : used + 1 = quantum := by
  have hused := h.used_lt h.quantum_pos h.ending_running
  have hmod := h.length_mod
  rw [Nat.mod_eq_zero_of_dvd hc.whole] at hmod
  have hle := Nat.le_of_dvd (Nat.succ_pos used) (Nat.dvd_of_mod_eq_zero hmod.symm)
  omega

/-- From then on only `c` comes to the end of the queue. -/
theorem phases_of_seamless [Nontrivial ι]
    (h : Finishing quantum arrival length joining σ s m c used)
    (hl : Leftover quantum length joining σ c used s') (hc : Seamless quantum arrival length c)
    (hk : k ≤ m) :
    ∃ L R, InPhase c L R (s (k + 1)) (s' (k + 1)) ∧ ∀ i ∈ R, i = c := by
  induction k with
  | zero =>
    obtain ⟨hfirst, hfirst'⟩ := h.first_tick hl (h.full_of_seamless hc)
    cases hjoining : joining 0 with
    | nil =>
      have hidle := h.choice 0
      rw [hfirst, hjoining] at hidle
      exact absurd hidle (h.busy_of_seamless hc hk)
    | cons x L =>
      rw [hjoining] at hfirst hfirst'
      rw [← List.append_nil L] at hfirst
      exact ⟨L, [], (inPhase_serveFirst (L := L) hfirst hfirst').1, fun i hi => (nomatch hi)⟩
  | succ k ih =>
    obtain ⟨L, R, hphase, hR⟩ := ih (by omega)
    have hjoining : ∀ i ∈ R ++ joining (k + 1), i = c := by
      intro i hi
      rcases List.mem_append.mp hi with hi | hi
      · exact hR i hi
      · by_contra hne
        have harr := (h.joining_iff (k + 1) i).mp hi
        rw [(hc.others i hne).1] at harr
        omega
    have hnext := hphase.next quantum (finishedBy length σ (k + 1)) (joining (k + 1))
    rw [← h.step, ← hl.step] at hnext
    rcases hnext with ⟨x, v, -, -, -, -, hphase'⟩ | ⟨back, hback, hserve, hserve'⟩
    · exact ⟨L, _, hphase', hjoining⟩
    · have hall : ∀ i ∈ R ++ joining (k + 1) ++ back, i = c := by
        intro i hi
        rcases List.mem_append.mp hi with hi | hi
        · exact hjoining i hi
        · rcases hback with rfl | ⟨x, v, hr, hfin, hge, rfl⟩
          · cases hi
          · rw [List.mem_singleton.mp hi]
            by_contra hne
            have hdone := h.finished_of_short h.quantum_pos hr (hc.others x hne).2 hge
            exact absurd hdone (not_le.mpr (finishedBy_eq_false.mp hfin))
      cases L with
      | cons y L => exact ⟨L, _, (inPhase_serveFirst hserve hserve').1, hall⟩
      | nil =>
        rw [List.nil_append] at hserve hserve'
        cases hrest : R ++ joining (k + 1) ++ back with
        | nil =>
          have hidle := h.choice (k + 1)
          rw [hserve, hrest] at hidle
          exact absurd hidle (h.busy_of_seamless hc hk)
        | cons y rest =>
          rw [hrest] at hserve hserve' hall
          obtain rfl : y = c := hall y List.mem_cons_self
          exact ⟨[], rest, (inPhase_serveFirst (L := []) hserve hserve').1,
            fun i hi => hall i (List.mem_cons_of_mem y hi)⟩

theorem eq_of_seamless (h : Finishing quantum arrival length joining σ s m c used) {d : ι}
    (hd : Seamless quantum arrival length d) : c = d := by
  by_contra hne
  obtain ⟨harr, hlen⟩ := hd.others c hne
  by_cases hshort : length d ≤ quantum
  · have hfirst := h.firstCome_of_others hd.others hshort
    rcases h.last_place hfirst harr (Ne.symm hne) with hlt | ⟨heq, hle⟩
    · omega
    · rcases hd.last with hpos | hlong | hgreatest
      · omega
      · omega
      · exact hne (le_antisymm (hgreatest c) hle)
  · obtain ⟨t, htm, hrun, hzero, hle⟩ := h.exists_first_turn harr d
    have hthrough := h.runs_through h.quantum_pos hlen hrun hzero (length c) le_rfl
    have hlast : m < t + length c := by
      by_contra hge
      have hserved := served_of_constant (Nat.le_add_right t (length c)) hthrough c
      rw [hzero, if_pos rfl] at hserved
      have hmono := served_mono (σ := σ) (i := c) (not_lt.mp hge)
      have hlt := h.unfinished_of_le le_rfl
      omega
    have hserved := served_of_constant (by omega : t ≤ m + 1)
      (fun j htj hjm => hthrough j htj (by omega)) d
    rw [if_neg (fun heq => hne (Option.some.inj heq)), Nat.add_zero] at hserved
    have hfinished := h.finished d
    omega

/-- The two schedules are the same exactly when one job is seamless. -/
theorem agree_iff [Nontrivial ι] (h : Finishing quantum arrival length joining σ s m c used)
    (hl : Leftover quantum length joining σ c used s') :
    (∀ k, k ≤ m → (s' (k + 1)).current = σ k) ↔ ∃ d, Seamless quantum arrival length d := by
  constructor
  · intro hagree
    exact ⟨c, h.seamless_of_agree hl hagree⟩
  · rintro ⟨d, hd⟩ k hk
    obtain rfl : c = d := h.eq_of_seamless hd
    obtain ⟨L, R, hphase, -⟩ := h.phases_of_seamless hl hd hk
    rw [Turn.current, hphase.running, h.choice]
    rfl

theorem running_of_seamless [Nontrivial ι]
    (h : Finishing quantum arrival length joining σ s m c used)
    (hl : Leftover quantum length joining σ c used s') {d : ι}
    (hd : Seamless quantum arrival length d) : (s' (m + 1)).running = some (c, used) := by
  obtain rfl : c = d := h.eq_of_seamless hd
  obtain ⟨L, R, hphase, -⟩ := h.phases_of_seamless hl hd le_rfl
  rw [hphase.running, h.ending_running]

end Finishing

end CpreLabs.RoundRobin
