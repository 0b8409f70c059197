import CpreLabs.ForkJoin

/-!
# The shared counter of the race condition programs

`numThreads` threads increment one counter `iterations` times each. The programs differ in how
a thread increments it: `counter++` alone is a load and a store, between which other threads
may run. The counter never passes `numThreads * iterations`, so it is a natural number here.
-/
namespace CpreLabs.CounterRace
open ForkJoin

inductive Increment where
  /-- `ex1_race.c` and `3_1_buggy.c` -/
  | plain
  /-- `3_1.c` and `ex3_benchmark.c`, under the mutex -/
  | locked
  /-- `5_1.c`, by `__sync_fetch_and_add` -/
  | atomic
  deriving DecidableEq

/-- The program points of a thread in iteration `i`. -/
inductive Point where
  | test (i : ℕ)
  | lock (i : ℕ)
  | load (i : ℕ)
  /-- The counter is to be written as the successor of the value `v` that has been read. -/
  | store (i v : ℕ)
  | unlock (i : ℕ)
  | fetchAndAdd (i : ℕ)
  | returned
  deriving DecidableEq

def Increment.body : Increment → ℕ → Point
  | .plain, i => .load i
  | .locked, i => .lock i
  | .atomic, i => .fetchAndAdd i

def Increment.afterStore : Increment → ℕ → Point
  | .locked, i => .unlock i
  | _, i => .test (i + 1)

/-- `increment`, or `increment_locked`. -/
def increment (how : Increment) (iterations : ℕ) : Point → Stmt Point ℕ
  | .test i => .exec fun counter => (if i < iterations then how.body i else .returned, counter)
  | .lock i => .lock (.load i)
  | .load i => .exec fun counter => (.store i counter, counter)
  | .store i v => .exec fun _ => (how.afterStore i, v + 1)
  | .unlock i => .unlock (.test (i + 1))
  | .fetchAndAdd i => .exec fun counter => (.test (i + 1), counter + 1)
  | .returned => .ret

def code (how : Increment) (numThreads iterations : ℕ) : Code numThreads Point ℕ where
  entry _ := .test 0
  stmt _ := increment how iterations

/-- What `ex3_benchmark.c` prints after the counter. -/
def verdict (numThreads iterations counter : ℕ) : String :=
  if counter = numThreads * iterations then "CORRECT" else "WRONG!"

variable {how : Increment} {numThreads iterations : ℕ} {s s' : Team numThreads Point ℕ}

inductive Advance (how : Increment) (iterations : ℕ) : Point → ℕ → Point → ℕ → Prop
  | loop {i c} (hi : i < iterations) : Advance how iterations (.test i) c (how.body i) c
  | exit {i c} (hi : ¬i < iterations) : Advance how iterations (.test i) c .returned c
  | lock {i c} : Advance how iterations (.lock i) c (.load i) c
  | load {i c} : Advance how iterations (.load i) c (.store i c) c
  | store {i v c} : Advance how iterations (.store i v) c (how.afterStore i) (v + 1)
  | unlock {i c} : Advance how iterations (.unlock i) c (.test (i + 1)) c
  | fetchAndAdd {i c} : Advance how iterations (.fetchAndAdd i) c (.test (i + 1)) (c + 1)

theorem advance_of_move (h : Move (code how numThreads iterations) s s') :
    ∃ t q, s'.point = Function.update s.point t q ∧
      Advance how iterations (s.point t) s.memory q s'.memory := by
  cases h with
  | @lock t l hi hfree =>
    refine ⟨t, l, rfl, ?_⟩
    cases hp : s.point t <;> simp only [code, hp, increment] at hi <;> cases hi
    exact .lock
  | @unlock t l hi howner =>
    refine ⟨t, l, rfl, ?_⟩
    cases hp : s.point t <;> simp only [code, hp, increment] at hi <;> cases hi
    exact .unlock
  | @exec t f hi =>
    refine ⟨t, _, rfl, ?_⟩
    cases hp : s.point t with
    | test i =>
      simp only [code, hp, increment] at hi
      cases hi
      by_cases hlt : i < iterations
      · simp only [hlt, if_true]
        exact .loop hlt
      · simp only [hlt, if_false]
        exact .exit hlt
    | load i | store i v | fetchAndAdd i =>
      simp only [code, hp, increment] at hi
      cases hi
      constructor
    | lock i | unlock i | returned =>
      simp only [code, hp, increment] at hi
      cases hi

/-- How often a thread at a point has written the counter. -/
def Point.written (iterations : ℕ) : Point → ℕ
  | .test i | .lock i | .load i | .store i _ | .fetchAndAdd i => i
  | .unlock i => i + 1
  | .returned => iterations

/-- The points that a thread can get to. -/
def Point.Fits (how : Increment) (iterations : ℕ) : Point → Prop
  | .test i => i ≤ iterations
  | .lock i | .unlock i => how = .locked ∧ i < iterations
  | .load i | .store i _ => how ≠ .atomic ∧ i < iterations
  | .fetchAndAdd i => how = .atomic ∧ i < iterations
  | .returned => True

theorem Advance.fits {p q : Point} {c c' : ℕ} (h : Advance how iterations p c q c')
    (hp : p.Fits how iterations) : q.Fits how iterations := by
  cases h with
  | loop hi => cases how <;> exact ⟨by simp, hi⟩
  | exit hi => trivial
  | lock => exact ⟨by simp [hp.1], hp.2⟩
  | load => exact hp
  | store =>
    cases how with
    | locked => exact ⟨rfl, hp.2⟩
    | plain | atomic => exact hp.2
  | unlock | fetchAndAdd => exact hp.2

/-- A statement leaves the counter alone, or writes the successor of a value that the thread
has read before or reads at the same time. -/
theorem Advance.cases_written {p q : Point} {c c' : ℕ} (h : Advance how iterations p c q c')
    (hp : p.Fits how iterations) :
    (q.written iterations = p.written iterations ∧ c' = c ∧
      ∀ i v, q = .store i v → i = p.written iterations ∧ v = c) ∨
    (q.written iterations = p.written iterations + 1 ∧ (∀ i v, q ≠ .store i v) ∧
      ((∃ v, p = .store (p.written iterations) v ∧ c' = v + 1) ∨
        how = .atomic ∧ c' = c + 1)) := by
  cases h with
  | loop hi =>
    left
    cases how <;> exact ⟨rfl, rfl, fun i v h => by cases h⟩
  | exit hi =>
    left
    exact ⟨by simp only [Point.written, Point.Fits] at *; omega, rfl, fun i v h => by cases h⟩
  | lock => exact Or.inl ⟨rfl, rfl, fun i v h => by cases h⟩
  | load => exact Or.inl ⟨rfl, rfl, fun i v h => by cases h; exact ⟨rfl, rfl⟩⟩
  | store =>
    right
    cases how <;> exact ⟨rfl, by simp [Increment.afterStore], Or.inl ⟨_, rfl, rfl⟩⟩
  | unlock => exact Or.inl ⟨rfl, rfl, fun i v h => by cases h⟩
  | fetchAndAdd => exact Or.inr ⟨rfl, by simp, Or.inr ⟨hp.1, rfl⟩⟩

def Fits (how : Increment) (iterations : ℕ) (s : Team numThreads Point ℕ) : Prop :=
  ∀ t, (s.point t).Fits how iterations

/-- How often the counter has been written. -/
def written (iterations : ℕ) (s : Team numThreads Point ℕ) : ℕ :=
  ∑ t, (s.point t).written iterations

theorem written_update (iterations : ℕ) {t : Fin numThreads} {q : Point} {s' : Team numThreads Point ℕ}
    (hpoint : s'.point = Function.update s.point t q) :
    written iterations s' + (s.point t).written iterations =
      written iterations s + q.written iterations := by
  have hrest : ∑ u ∈ Finset.univ.erase t, (s'.point u).written iterations =
      ∑ u ∈ Finset.univ.erase t, (s.point u).written iterations := by
    apply Finset.sum_congr rfl
    intro u hu
    rw [hpoint, Function.update_of_ne (Finset.ne_of_mem_erase hu)]
  have hself : s'.point t = q := by rw [hpoint, Function.update_self]
  rw [written, written, ← Finset.add_sum_erase _ _ (Finset.mem_univ t),
    ← Finset.add_sum_erase Finset.univ _ (Finset.mem_univ t), hrest, hself]
  omega

theorem fits_move (h : Move (code how numThreads iterations) s s')
    (hs : Fits how iterations s) : Fits how iterations s' := by
  obtain ⟨t, q, hpoint, hadvance⟩ := advance_of_move h
  intro u
  rw [hpoint]
  by_cases hut : u = t
  · subst hut
    rw [Function.update_self]
    exact hadvance.fits (hs u)
  · rw [Function.update_of_ne hut]
    exact hs u

theorem Point.Fits.written_le {p : Point} (h : p.Fits how iterations) :
    p.written iterations ≤ iterations := by
  cases p <;> simp only [Point.Fits, Point.written] at h ⊢ <;> omega

theorem written_le (hs : Fits how iterations s) :
    written iterations s ≤ numThreads * iterations := by
  have hsum := Finset.sum_le_card_nsmul Finset.univ (fun t => (s.point t).written iterations)
    iterations (fun t _ => (hs t).written_le)
  simpa [written] using hsum

theorem eq_returned_of_finished (h : Finished (code how numThreads iterations) s)
    (t : Fin numThreads) : s.point t = .returned := by
  have hret := h t
  cases hp : s.point t <;> simp only [code, hp, increment] at hret <;> cases hret
  rfl

theorem written_of_finished (h : Finished (code how numThreads iterations) s) :
    written iterations s = numThreads * iterations := by
  simp [written, eq_returned_of_finished h, Point.written]

/-- The counter, and what a thread has read of it, is at most the number of writes. -/
structure AtMost (iterations : ℕ) (s : Team numThreads Point ℕ) : Prop where
  counter : s.memory ≤ written iterations s
  read : ∀ t i v, s.point t = .store i v → v ≤ written iterations s

theorem atMost_move (h : Move (code how numThreads iterations) s s')
    (hfits : Fits how iterations s) (hs : AtMost iterations s) : AtMost iterations s' := by
  obtain ⟨t, q, hpoint, hadvance⟩ := advance_of_move h
  have hsum := written_update iterations hpoint
  have hread : ∀ u i v, u ≠ t → s'.point u = .store i v → v ≤ written iterations s := by
    intro u i v hut hu
    rw [hpoint, Function.update_of_ne hut] at hu
    exact hs.read u i v hu
  have hself : s'.point t = q := by rw [hpoint, Function.update_self]
  have hcounter := hs.counter
  rcases hadvance.cases_written (hfits t) with ⟨hw, hc, hq⟩ | ⟨hw, hq, hc⟩
  · refine ⟨by omega, fun u i v hu => ?_⟩
    by_cases hut : u = t
    · subst hut
      rw [hself] at hu
      obtain ⟨-, rfl⟩ := hq i v hu
      omega
    · have hle := hread u i v hut hu
      omega
  · have hbase : s'.memory ≤ written iterations s + 1 := by
      rcases hc with ⟨v, hstore, hc⟩ | ⟨-, hc⟩
      · have hle := hs.read t _ v hstore
        omega
      · omega
    refine ⟨by omega, fun u i v hu => ?_⟩
    by_cases hut : u = t
    · subst hut
      rw [hself] at hu
      exact absurd hu (hq i v)
    · have hle := hread u i v hut hu
      omega

/-- After its first write the counter is not zero, and once all threads have written twice it
is at least two. -/
structure AtLeast (iterations : ℕ) (s : Team numThreads Point ℕ) : Prop where
  one : 1 ≤ s.memory ∨ ∀ t, (s.point t).written iterations = 0
  two : 2 ≤ s.memory ∨ ∃ t, (s.point t).written iterations < 2
  read : ∀ t i v, s.point t = .store i v → 1 ≤ i → 1 ≤ v

theorem atLeast_move (h : Move (code how numThreads iterations) s s')
    (hfits : Fits how iterations s) (hs : AtLeast iterations s) : AtLeast iterations s' := by
  obtain ⟨t, q, hpoint, hadvance⟩ := advance_of_move h
  have hself : s'.point t = q := by rw [hpoint, Function.update_self]
  have hother : ∀ u, u ≠ t → s'.point u = s.point u := by
    intro u hut
    rw [hpoint, Function.update_of_ne hut]
  rcases hadvance.cases_written (hfits t) with ⟨hw, hc, hq⟩ | ⟨hw, hq, hc⟩
  · have hsame : ∀ u, (s'.point u).written iterations = (s.point u).written iterations := by
      intro u
      by_cases hut : u = t
      · subst hut
        rw [hself, hw]
      · rw [hother u hut]
    refine ⟨by simpa only [hsame, hc] using hs.one, by simpa only [hsame, hc] using hs.two,
      fun u i v hu hi => ?_⟩
    by_cases hut : u = t
    · subst hut
      rw [hself] at hu
      obtain ⟨rfl, rfl⟩ := hq i v hu
      exact hs.one.resolve_right (fun hzero => by have := hzero u; omega)
    · exact hs.read u i v (hother u hut ▸ hu) hi
  · -- the thread writes, for the first time or after it has seen the counter above zero
    have hfirst : (s.point t).written iterations = 0 ∨ 2 ≤ s'.memory := by
      rcases Nat.eq_zero_or_pos ((s.point t).written iterations) with hzero | hpos
      · exact Or.inl hzero
      · right
        rcases hc with ⟨v, hstore, hc⟩ | ⟨-, hc⟩
        · have hv := hs.read t _ v hstore hpos
          omega
        · have hone := hs.one.resolve_right (fun hzero => by have := hzero t; omega)
          omega
    have hpos : 1 ≤ s'.memory := by
      rcases hc with ⟨v, -, hc⟩ | ⟨-, hc⟩ <;> omega
    refine ⟨Or.inl hpos, ?_, fun u i v hu hi => ?_⟩
    · rcases hfirst with hzero | htwo
      · exact Or.inr ⟨t, by rw [hself, hw, hzero]; omega⟩
      · exact Or.inl htwo
    · by_cases hut : u = t
      · subst hut
        rw [hself] at hu
        exact absurd hu (hq i v)
      · exact hs.read u i v (hother u hut ▸ hu) hi

/-- At most one thread is between its load and its store. -/
def Serial (s : Team numThreads Point ℕ) : Prop :=
  ∀ t u i j v w, s.point t = .store i v → s.point u = .store j w → t = u

/-- Every write counts. -/
structure Exact (iterations : ℕ) (s : Team numThreads Point ℕ) : Prop where
  counter : s.memory = written iterations s
  read : ∀ t i v, s.point t = .store i v → v = s.memory

theorem exact_move (h : Move (code how numThreads iterations) s s')
    (hfits : Fits how iterations s) (hserial : Serial s) (hs : Exact iterations s) :
    Exact iterations s' := by
  obtain ⟨t, q, hpoint, hadvance⟩ := advance_of_move h
  have hsum := written_update iterations hpoint
  have hself : s'.point t = q := by rw [hpoint, Function.update_self]
  have hother : ∀ u, u ≠ t → s'.point u = s.point u := by
    intro u hut
    rw [hpoint, Function.update_of_ne hut]
  have hcounter := hs.counter
  rcases hadvance.cases_written (hfits t) with ⟨hw, hc, hq⟩ | ⟨hw, hq, hc⟩
  · refine ⟨by omega, fun u i v hu => ?_⟩
    rw [hc]
    by_cases hut : u = t
    · subst hut
      rw [hself] at hu
      exact (hq i v hu).2
    · exact hs.read u i v (hother u hut ▸ hu)
  · have hbase : s'.memory = s.memory + 1 := by
      rcases hc with ⟨v, hstore, hc⟩ | ⟨-, hc⟩
      · rw [hc, hs.read t _ v hstore]
      · exact hc
    refine ⟨by omega, fun u i v hu => ?_⟩
    by_cases hut : u = t
    · subst hut
      rw [hself] at hu
      exact absurd hu (hq i v)
    · rw [hother u hut] at hu
      rcases hc with ⟨w, hstore, -⟩ | ⟨hatomic, -⟩
      · exact absurd (hserial u t i _ v w hu hstore) hut
      · have hstands := hfits u
        rw [hu] at hstands
        exact absurd hatomic hstands.1

def Point.inside : Point → Bool
  | .load _ | .store _ _ | .unlock _ => true
  | _ => false

/-- A thread stands between `pthread_mutex_lock` and `pthread_mutex_unlock` when it has the
mutex. -/
def Locked (s : Team numThreads Point ℕ) : Prop :=
  ∀ t, (s.point t).inside = true ↔ s.owner = some t

theorem locked_update {t : Fin numThreads} {q : Point} {owner : Option (Fin numThreads)} {c : ℕ}
    (hs : Locked s) (hother : ∀ u, u ≠ t → (owner = some u ↔ s.owner = some u))
    (hself : q.inside = true ↔ owner = some t) :
    Locked (⟨owner, Function.update s.point t q, c⟩ : Team numThreads Point ℕ) := by
  intro u
  by_cases hut : u = t
  · subst hut
    simpa using hself
  · simpa only [Function.update_of_ne hut, hother u hut] using hs u

theorem locked_move (h : Move (code .locked numThreads iterations) s s')
    (hfits : Fits .locked iterations s) (hs : Locked s) : Locked s' := by
  cases h with
  | @lock t l hi hfree =>
    refine locked_update hs (fun u hut => ?_) ?_
    · simp [hfree, Ne.symm hut]
    · cases hp : s.point t <;> simp only [code, hp, increment] at hi <;> cases hi
      simp [Point.inside]
  | @unlock t l hi howner =>
    refine locked_update hs (fun u hut => ?_) ?_
    · simp [howner, Ne.symm hut]
    · cases hp : s.point t <;> simp only [code, hp, increment] at hi <;> cases hi
      simp [Point.inside]
  | @exec t f hi =>
    refine locked_update hs (fun u hut => Iff.rfl) ?_
    rw [← hs t]
    have hstands := hfits t
    cases hp : s.point t <;> simp only [code, hp, increment] at hi <;> cases hi
    · split <;> simp [Increment.body, Point.inside]
    · simp [Point.inside]
    · simp [Increment.afterStore, Point.inside]
    · rw [hp] at hstands
      exact absurd hstands.1 (by simp)

theorem serial_of_locked (hs : Locked s) : Serial s := by
  intro t u i j v w ht hu
  have howner := (hs t).mp (by rw [ht]; rfl)
  have howner' := (hs u).mp (by rw [hu]; rfl)
  rw [howner] at howner'
  exact Option.some.inj howner'

/-- How many statements a thread has left, about. -/
def Point.rank (iterations : ℕ) : Point → ℕ
  | .test i => 5 * (iterations - i) + 1
  | .lock i | .fetchAndAdd i => 5 * (iterations - i)
  | .load i => 5 * (iterations - i) - 1
  | .store i _ => 5 * (iterations - i) - 2
  | .unlock i => 5 * (iterations - i) - 3
  | .returned => 0

theorem Advance.rank_lt {p q : Point} {c c' : ℕ} (h : Advance how iterations p c q c')
    (hp : p.Fits how iterations) : q.rank iterations < p.rank iterations := by
  cases h with
  | loop hi => cases how <;> simp only [Increment.body, Point.rank] <;> omega
  | exit hi => simp [Point.rank]
  | lock | load | unlock | fetchAndAdd =>
    have hi := hp.2
    simp only [Point.rank]
    omega
  | store =>
    have hi := hp.2
    cases how <;> simp only [Increment.afterStore, Point.rank] <;> omega

theorem can_move (hfits : Fits how iterations s) (hlocked : how = .locked → Locked s)
    (t : Fin numThreads) : s.point t = .returned ∨ (∃ i, s.point t = .lock i ∧ s.owner ≠ none) ∨
      ∃ s', Move (code how numThreads iterations) s s' := by
  have hstands := hfits t
  have hself : ∀ p, s.point t = p →
      (code how numThreads iterations).stmt t (s.point t) = increment how iterations p := by
    rintro p rfl
    rfl
  cases hp : s.point t with
  | returned => exact Or.inl rfl
  | lock i =>
    right
    by_cases howner : s.owner = none
    · exact Or.inr ⟨_, .lock (hself _ hp) howner⟩
    · exact Or.inl ⟨i, rfl, howner⟩
  | unlock i =>
    rw [hp] at hstands
    have howner := (hlocked hstands.1 t).mp (by rw [hp]; rfl)
    exact Or.inr (Or.inr ⟨_, .unlock (hself _ hp) howner⟩)
  | test i | load i | store i v | fetchAndAdd i => exact Or.inr (Or.inr ⟨_, .exec (hself _ hp)⟩)

theorem progress (hfits : Fits how iterations s) (hlocked : how = .locked → Locked s) :
    Finished (code how numThreads iterations) s ∨
      ∃ s', Move (code how numThreads iterations) s s' := by
  by_cases hall : ∀ t, s.point t = .returned
  · left
    intro t
    simp [code, hall t, increment]
  · right
    obtain ⟨t, ht⟩ := not_forall.mp hall
    rcases can_move hfits hlocked t with hret | ⟨i, hi, howner⟩ | hmove
    · exact absurd hret ht
    · have hstands := hfits t
      rw [hi] at hstands
      obtain ⟨u, hu⟩ := Option.ne_none_iff_exists'.mp howner
      have hinside := (hlocked hstands.1 u).mpr hu
      rcases can_move hfits hlocked u with hret | ⟨j, hj, -⟩ | hmove
      · rw [hret] at hinside
        cases hinside
      · rw [hj] at hinside
        cases hinside
      · exact hmove
    · exact hmove

/-- What holds in every state of the threads, whatever order they run in. -/
structure Invariant (how : Increment) (iterations : ℕ) (s : Team numThreads Point ℕ) :
    Prop where
  fits : Fits how iterations s
  atMost : AtMost iterations s
  atLeast : 0 < numThreads → AtLeast iterations s
  locked : how = .locked → Locked s

theorem invariant_start :
    Invariant how iterations ((code how numThreads iterations).start 0) where
  fits _ := Nat.zero_le _
  atMost := ⟨Nat.zero_le _, by simp [Code.start, code]⟩
  atLeast hpos := ⟨Or.inr fun t => rfl, Or.inr ⟨⟨0, hpos⟩, by simp [Code.start, code, Point.written]⟩,
    by simp [Code.start, code]⟩
  locked _ t := by simp [Code.start, code, Point.inside]

theorem invariant_move (h : Move (code how numThreads iterations) s s')
    (hs : Invariant how iterations s) : Invariant how iterations s' where
  fits := fits_move h hs.fits
  atMost := atMost_move h hs.fits hs.atMost
  atLeast hpos := atLeast_move h hs.fits (hs.atLeast hpos)
  locked := by
    rintro rfl
    exact locked_move h hs.fits (hs.locked rfl)

theorem invariant_of_moves
    (h : Moves (code how numThreads iterations) ((code how numThreads iterations).start 0) s) :
    Invariant how iterations s :=
  h.invariant _ invariant_start (fun _ _ => invariant_move)

theorem can_finish
    (h : Moves (code how numThreads iterations) ((code how numThreads iterations).start 0) s) :
    ∃ s', Moves (code how numThreads iterations) s s' ∧
      Finished (code how numThreads iterations) s' := by
  refine finishes (Invariant how iterations) (Point.rank iterations) (fun _ _ => invariant_move)
    (fun a b hmove ha => ?_) (fun a ha => progress ha.fits ha.locked) (invariant_of_moves h)
  obtain ⟨t, q, hpoint, hadvance⟩ := advance_of_move hmove
  exact ⟨t, q, hpoint, hadvance.rank_lt (ha.fits t)⟩

/-- Where the threads take turns with the counter, no write is lost. -/
theorem exact_of_moves (hserial : ∀ s, Invariant how iterations s →
      Serial (s : Team numThreads Point ℕ))
    (h : Moves (code how numThreads iterations) ((code how numThreads iterations).start 0) s) :
    Exact iterations s := by
  have hboth := h.invariant (fun s => Invariant how iterations s ∧ Exact iterations s)
    ⟨invariant_start, by simp [Code.start, code, written, Point.written],
      by simp [Code.start, code]⟩
    (fun a b hab ha => ⟨invariant_move hab ha.1, exact_move hab ha.1.fits (hserial a ha.1) ha.2⟩)
  exact hboth.2

/-- The threads take turns where the counter is locked, where the hardware adds to it, and where
there is only one thread. -/
theorem serial_of_invariant (hs : Invariant how iterations s)
    (hhow : how ≠ .plain ∨ numThreads ≤ 1) : Serial s := by
  rcases hhow with hhow | hone
  · cases how with
    | plain => exact absurd rfl hhow
    | locked => exact serial_of_locked (hs.locked rfl)
    | atomic =>
      intro t u i j v w ht
      have hstands := hs.fits t
      rw [ht] at hstands
      exact absurd rfl hstands.1
  · intro t u _ _ _ _ _ _
    exact Fin.ext (by omega)

end CpreLabs.CounterRace
