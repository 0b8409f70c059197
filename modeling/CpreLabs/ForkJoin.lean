import CpreLabs.PthreadMonitor
import Mathlib.Algebra.BigOperators.Fin
import Mathlib.Algebra.Order.BigOperators.Group.Finset

/-!
# Programs that create threads and join them

`main` creates `n` threads, joins them in order and then reads the shared memory; the threads
share one mutex. What such a program can print is what its threads alone can leave in the
memory when all have returned, in whatever order they take their statements.
-/
namespace CpreLabs.ForkJoin
open Pthread Relation

/-- A statement of a thread, with the point it continues at. -/
inductive Stmt (L S : Type*) where
  | lock (next : L)
  | unlock (next : L)
  | exec (f : S → L × S)
  | ret

/-- The start routines of the threads. -/
structure Code (n : ℕ) (L S : Type*) where
  entry : Fin n → L
  stmt : Fin n → L → Stmt L S

variable {n : ℕ} {L S : Type*}

structure Team (n : ℕ) (L S : Type*) where
  owner : Option (Fin n)
  point : Fin n → L
  memory : S

def Code.start (code : Code n L S) (memory : S) : Team n L S := ⟨none, code.entry, memory⟩

inductive Move (code : Code n L S) : Team n L S → Team n L S → Prop
  | lock {s t l} (hi : code.stmt t (s.point t) = .lock l) (hfree : s.owner = none) :
      Move code s ⟨some t, Function.update s.point t l, s.memory⟩
  | unlock {s t l} (hi : code.stmt t (s.point t) = .unlock l) (howner : s.owner = some t) :
      Move code s ⟨none, Function.update s.point t l, s.memory⟩
  | exec {s t f} (hi : code.stmt t (s.point t) = .exec f) :
      Move code s ⟨s.owner, Function.update s.point t (f s.memory).1, (f s.memory).2⟩

def Moves (code : Code n L S) : Team n L S → Team n L S → Prop := ReflTransGen (Move code)

/-- All threads have returned. -/
def Finished (code : Code n L S) (s : Team n L S) : Prop := ∀ t, code.stmt t (s.point t) = .ret

/-- What holds at the start and survives every statement holds throughout. -/
theorem Moves.invariant {code : Code n L S} {s s' : Team n L S} (h : Moves code s s')
    (P : Team n L S → Prop) (hs : P s) (hmove : ∀ a b, Move code a b → P a → P b) : P s' := by
  induction h with
  | refl => exact hs
  | tail _ hab ih => exact hmove _ _ hab ih

/-- A thread that comes nearer to its end brings the end of all nearer. -/
theorem sum_rank_lt (rank : L → ℕ) {point point' : Fin n → L} {t : Fin n} {l : L}
    (hpoint : point' = Function.update point t l) (hless : rank l < rank (point t)) :
    ∑ u, rank (point' u) < ∑ u, rank (point u) := by
  refine Finset.sum_lt_sum (fun u _ => ?_) ⟨t, Finset.mem_univ t, ?_⟩
  · rw [hpoint]
    by_cases hut : u = t
    · subst hut
      rw [Function.update_self]
      exact hless.le
    · rw [Function.update_of_ne hut]
  · rwa [hpoint, Function.update_self]

/-- Where some thread can always go on and comes nearer to its end by it, the end can be
reached. -/
theorem finishes {code : Code n L S} (P : Team n L S → Prop) (rank : L → ℕ)
    (hmove : ∀ a b, Move code a b → P a → P b)
    (hrank : ∀ a b, Move code a b → P a → ∃ t l, b.point = Function.update a.point t l ∧
      rank l < rank (a.point t))
    (hprogress : ∀ a, P a → Finished code a ∨ ∃ b, Move code a b)
    {s : Team n L S} (hs : P s) : ∃ s', Moves code s s' ∧ Finished code s' := by
  induction hk : ∑ t, rank (s.point t) using Nat.strong_induction_on generalizing s with
  | _ k ih =>
    subst hk
    rcases hprogress s hs with hdone | ⟨b, hb⟩
    · exact ⟨s, .refl, hdone⟩
    · obtain ⟨t, l, hpoint, hless⟩ := hrank s b hb hs
      obtain ⟨s', hmoves, hdone⟩ :=
        ih _ (sum_rank_lt rank hpoint hless) (hmove s b hb hs) rfl
      exact ⟨s', .head hb hmoves, hdone⟩

/-- By its own statements, and whatever the others are at, the thread brings the mutex, its
point and the memory from `a` to `b`. -/
def Runs (code : Code n L S) (t : Fin n) (a b : Option (Fin n) × L × S) : Prop :=
  ∀ point : Fin n → L, point t = a.2.1 →
    Moves code ⟨a.1, point, a.2.2⟩ ⟨b.1, Function.update point t b.2.1, b.2.2⟩

section Runs

variable {code : Code n L S} {t : Fin n} {a b c : Option (Fin n) × L × S} {l l' : L} {v : S}

theorem Runs.refl : Runs code t a a := by
  intro point hp
  rw [← hp, Function.update_eq_self]
  exact .refl

theorem Runs.trans (h : Runs code t a b) (h' : Runs code t b c) : Runs code t a c := by
  intro point hp
  have hnext := h' (Function.update point t b.2.1) (Function.update_self ..)
  rw [Function.update_idem] at hnext
  exact (h point hp).trans hnext

theorem Runs.lock (hi : code.stmt t l = .lock l') : Runs code t (none, l, v) (some t, l', v) := by
  rintro point rfl
  exact .single (.lock hi rfl)

theorem Runs.unlock (hi : code.stmt t l = .unlock l') :
    Runs code t (some t, l, v) (none, l', v) := by
  rintro point rfl
  exact .single (.unlock hi rfl)

theorem Runs.exec {o : Option (Fin n)} {f : S → L × S} {v' : S} (hi : code.stmt t l = .exec f)
    (hf : f v = (l', v')) : Runs code t (o, l, v) (o, l', v') := by
  rintro point rfl
  have hmove : Move code ⟨o, point, v⟩ ⟨o, Function.update point t (f v).1, (f v).2⟩ := .exec hi
  rw [hf] at hmove
  exact .single hmove

/-- The threads of `A` go one after the other, and `P` says what the memory is when some of them
have gone. -/
theorem moves_in_turn {point target : Fin n → L} (A : Finset (Fin n))
    (P : Finset (Fin n) → S → Prop)
    (h : ∀ B t v, B ⊆ A → t ∈ A → t ∉ B → P B v → ∃ v', P (insert t B) v' ∧
      Runs code t (none, point t, v) (none, target t, v'))
    (hv : P ∅ v) : ∃ v', P A v' ∧ Moves code ⟨none, point, v⟩
      ⟨none, fun t => if t ∈ A then target t else point t, v'⟩ := by
  have hsome : ∀ B : Finset (Fin n), B ⊆ A → ∃ v', P B v' ∧ Moves code ⟨none, point, v⟩
      ⟨none, fun t => if t ∈ B then target t else point t, v'⟩ := by
    intro B
    induction B using Finset.induction_on with
    | empty =>
      intro _
      simp only [Finset.notMem_empty, if_false]
      exact ⟨v, hv, .refl⟩
    | insert t B ht ih =>
      intro hB
      obtain ⟨ht', hB'⟩ := Finset.insert_subset_iff.mp hB
      obtain ⟨v', hv', hmoves⟩ := ih hB'
      obtain ⟨v'', hv'', hruns⟩ := h B t v' hB' ht' ht hv'
      have hself := hruns (fun u => if u ∈ B then target u else point u) (if_neg ht)
      have hpoint : Function.update (fun u => if u ∈ B then target u else point u) t (target t) =
          fun u => if u ∈ insert t B then target u else point u := by
        funext u
        by_cases hut : u = t
        · subst hut
          simp
        · simp [hut]
      rw [hpoint] at hself
      exact ⟨v'', hv'', hmoves.trans hself⟩
  exact hsome A subset_rfl

end Runs

inductive Pc (L : Type*) where
  | create (i : ℕ)
  | join (i : ℕ)
  | exited
  | unborn
  | body (l : L)

structure Shared (S : Type*) where
  created : ℕ
  memory : S
  /-- What `main` reads after it has joined the threads. -/
  printed : Option S

abbrev Thread (n : ℕ) := Option (Fin n)

def mainInstr (n : ℕ) : Pc L → Instr (Thread n) Empty (Pc L) (Shared S)
  | .create i => .exec fun g =>
      if i < n then (.create (i + 1), { g with created := i + 1 }) else (.join 0, g)
  | .join i =>
      if h : i < n then .join (some ⟨i, h⟩) (.join (i + 1))
      else .exec fun g => (.exited, { g with printed := some g.memory })
  | .exited => .halt
  | .unborn | .body _ => .choose fun _ => false

def Stmt.instr : Stmt L S → Instr (Thread n) Empty (Pc L) (Shared S)
  | .lock l => .lock (.body l)
  | .unlock l => .unlock (.body l)
  | .exec f => .exec fun g => (.body (f g.memory).1, { g with memory := (f g.memory).2 })
  | .ret => .halt

def threadInstr (code : Code n L S) (t : Fin n) :
    Pc L → Instr (Thread n) Empty (Pc L) (Shared S)
  | .unborn => .exec fun g => (if t < g.created then .body (code.entry t) else .unborn, g)
  | .body l => (code.stmt t l).instr
  | _ => .choose fun _ => false

def program (code : Code n L S) : Program (Thread n) Empty (Pc L) (Shared S) Empty where
  instr
    | none => mainInstr n
    | some t => threadInstr code t
  env e _ := e.elim

abbrev State (n : ℕ) (L S : Type*) := Config (Thread n) Empty (Pc L) (Shared S)

def start (n : ℕ) (L : Type*) (memory : S) : State n L S where
  owner := none
  status
    | none => .running (.create 0)
    | some _ => .running .unborn
  shared := ⟨0, memory, none⟩

theorem update_other {status : Thread n → Status Empty (Pc L)} {st : Status Empty (Pc L)}
    {t u : Fin n} (h : u ≠ t) : Function.update status (some t) st (some u) = status (some u) :=
  Function.update_of_ne (by simpa using h) ..

/-- What a step of the program is. -/
inductive Effect (code : Code n L S) (s : State n L S) : State n L S → Prop
  | create {i} (hmain : s.status none = .running (.create i)) (hi : i < n) :
      Effect code s ⟨s.owner, Function.update s.status none (.running (.create (i + 1))),
        ⟨i + 1, s.shared.memory, s.shared.printed⟩⟩
  | created {i} (hmain : s.status none = .running (.create i)) (hi : ¬i < n) :
      Effect code s ⟨s.owner, Function.update s.status none (.running (.join 0)), s.shared⟩
  | join {i} (hmain : s.status none = .running (.join i)) (hi : i < n) {l}
      (ht : s.status (some ⟨i, hi⟩) = .running (.body l)) (hret : code.stmt ⟨i, hi⟩ l = .ret) :
      Effect code s ⟨s.owner, Function.update s.status none (.running (.join (i + 1))), s.shared⟩
  | print {i} (hmain : s.status none = .running (.join i)) (hi : ¬i < n) :
      Effect code s ⟨s.owner, Function.update s.status none (.running .exited),
        ⟨s.shared.created, s.shared.memory, some s.shared.memory⟩⟩
  | unborn {t} (ht : s.status (some t) = .running .unborn) (hcreated : ¬t < s.shared.created) :
      Effect code s ⟨s.owner, Function.update s.status (some t) (.running .unborn), s.shared⟩
  | born {t} (ht : s.status (some t) = .running .unborn) (hcreated : t < s.shared.created) :
      Effect code s
        ⟨s.owner, Function.update s.status (some t) (.running (.body (code.entry t))), s.shared⟩
  | lock {t l l'} (ht : s.status (some t) = .running (.body l)) (hi : code.stmt t l = .lock l')
      (hfree : s.owner = none) :
      Effect code s
        ⟨some (some t), Function.update s.status (some t) (.running (.body l')), s.shared⟩
  | unlock {t l l'} (ht : s.status (some t) = .running (.body l))
      (hi : code.stmt t l = .unlock l') (howner : s.owner = some (some t)) :
      Effect code s ⟨none, Function.update s.status (some t) (.running (.body l')), s.shared⟩
  | exec {t l f} (ht : s.status (some t) = .running (.body l)) (hi : code.stmt t l = .exec f) :
      Effect code s ⟨s.owner,
        Function.update s.status (some t) (.running (.body (f s.shared.memory).1)),
        ⟨s.shared.created, (f s.shared.memory).2, s.shared.printed⟩⟩

variable {code : Code n L S} {s s' : State n L S}

/-- Each of these steps can be taken. -/
theorem step_of_effect (h : Effect code s s') : Step (program code) s s' := by
  cases h with
  | create hmain hi =>
    have hstep := Step.exec (p := program code) hmain rfl
    simp only [if_pos hi] at hstep
    exact hstep
  | created hmain hi =>
    have hstep := Step.exec (p := program code) hmain rfl
    simp only [if_neg hi] at hstep
    exact hstep
  | @join i hmain hi l ht hret =>
    refine .join hmain ?_ ht ?_
    · simp only [program, mainInstr, dif_pos hi]
    · simp only [program, threadInstr, hret, Stmt.instr]
  | print hmain hi =>
    refine .exec (f := fun g => (.exited, { g with printed := some g.memory })) hmain ?_
    simp only [program, mainInstr, dif_neg hi]
  | unborn ht hcreated =>
    have hstep := Step.exec (p := program code) ht rfl
    simp only [if_neg hcreated] at hstep
    exact hstep
  | born ht hcreated =>
    have hstep := Step.exec (p := program code) ht rfl
    simp only [if_pos hcreated] at hstep
    exact hstep
  | lock ht hi hfree =>
    refine .lock ht ?_ hfree
    simp only [program, threadInstr, hi, Stmt.instr]
  | unlock ht hi howner =>
    refine .unlock ht ?_ howner
    simp only [program, threadInstr, hi, Stmt.instr]
  | @exec t l f ht hi =>
    have hinstr : (program code).instr (some t) (.body l) = .exec fun g =>
        (.body (f g.memory).1, { g with memory := (f g.memory).2 }) := by
      simp only [program, threadInstr, hi, Stmt.instr]
    exact .exec ht hinstr

/-- What a step of a thread does at an instruction that is not about condition variables. -/
def Ran (code : Code n L S) (s : State n L S) (t : Thread n) (s' : State n L S) :
    Instr (Thread n) Empty (Pc L) (Shared S) → Prop
  | .lock l => s.owner = none ∧ s' = { s.goto t l with owner := some t }
  | .unlock l => s.owner = some t ∧ s' = { s.goto t l with owner := none }
  | .join u l => s' = s.goto t l ∧
      ∃ l', s.status u = .running l' ∧ (program code).instr u l' = .halt
  | .exec f => s' = { s.goto t (f s.shared).1 with shared := (f s.shared).2 }
  | .choose ok => ∃ l, ok l = true
  | _ => False

theorem ran_of_step (h : Step (program code) s s') :
    ∃ t l, s.status t = .running l ∧ Ran code s t s' ((program code).instr t l) := by
  cases h with
  | @lock t l next hs hi hfree => exact ⟨t, l, hs, by rw [hi]; exact ⟨hfree, rfl⟩⟩
  | @unlock t l next hs hi howner => exact ⟨t, l, hs, by rw [hi]; exact ⟨howner, rfl⟩⟩
  | @join t l u next l' hs hi hu hhalt => exact ⟨t, l, hs, by rw [hi]; exact ⟨rfl, l', hu, hhalt⟩⟩
  | @exec t l f hs hi => exact ⟨t, l, hs, by rw [hi]; rfl⟩
  | @choose t l ok l' hs hi hok => exact ⟨t, l, hs, by rw [hi]; exact ⟨l', hok⟩⟩
  | @wait t l c => exact c.elim
  | @signalNone t l c => exact c.elim
  | @signalOne t l c => exact c.elim
  | @broadcast t l c => exact c.elim
  | @spurious t c => exact c.elim
  | @resume t c => exact c.elim
  | env e => exact e.elim

theorem effect_of_main {l : Pc L} (hs : s.status none = .running l)
    (h : Ran code s none s' (mainInstr n l)) : Effect code s s' := by
  cases l with
  | create i =>
    by_cases hi : i < n <;> simp only [mainInstr, Ran, hi, if_true, if_false] at h
    · subst h
      exact .create hs hi
    · subst h
      exact .created hs hi
  | join i =>
    by_cases hi : i < n <;> simp only [mainInstr, hi, dite_true, dite_false, Ran] at h
    · obtain ⟨rfl, l, ht, hhalt⟩ := h
      cases l with
      | body l =>
        cases hstmt : code.stmt ⟨i, hi⟩ l <;>
          simp only [program, threadInstr, hstmt, Stmt.instr] at hhalt
        all_goals cases hhalt
        exact .join hs hi ht hstmt
      | _ => cases hhalt
    · subst h
      exact .print hs hi
  | exited => exact h.elim
  | unborn | body l =>
    obtain ⟨l', hl'⟩ := h
    cases hl'

theorem effect_of_thread {t : Fin n} {l : Pc L} (hs : s.status (some t) = .running l)
    (h : Ran code s (some t) s' (threadInstr code t l)) : Effect code s s' := by
  cases l with
  | unborn =>
    by_cases hcreated : t < s.shared.created <;>
      simp only [threadInstr, Ran, hcreated, if_true, if_false] at h
    · subst h
      exact .born hs hcreated
    · subst h
      exact .unborn hs hcreated
  | body l =>
    cases hstmt : code.stmt t l <;> simp only [threadInstr, hstmt, Stmt.instr, Ran] at h
    · obtain ⟨hfree, rfl⟩ := h
      exact .lock hs hstmt hfree
    · obtain ⟨howner, rfl⟩ := h
      exact .unlock hs hstmt howner
    · subst h
      exact .exec hs hstmt
  | create i | join i | exited =>
    obtain ⟨l', hl'⟩ := h
    cases hl'

/-- There are no other steps. -/
theorem effect_of_step (h : Step (program code) s s') : Effect code s s' := by
  obtain ⟨t, l, hs, hran⟩ := ran_of_step h
  cases t with
  | none => exact effect_of_main hs hran
  | some t => exact effect_of_thread hs hran

def Returned (code : Code n L S) (s : State n L S) (t : Fin n) : Prop :=
  ∃ l, s.status (some t) = .running (.body l) ∧ code.stmt t l = .ret

/-- What `main` has seen when it stands at a point. -/
def MainKnows (code : Code n L S) (s : State n L S) : Pc L → Prop
  | .create i => i ≤ n ∧ s.shared.created = i ∧ s.shared.printed = none
  | .join i => s.shared.created = n ∧ s.shared.printed = none ∧
      ∀ t : Fin n, t < i → Returned code s t
  | .exited => s.shared.printed = some s.shared.memory ∧ ∀ t, Returned code s t
  | .unborn | .body _ => False

structure Standing (code : Code n L S) (s : State n L S) : Prop where
  main : ∃ l, s.status none = .running l ∧ MainKnows code s l
  owner : s.owner ≠ some none
  thread : ∀ t, s.status (some t) = .running .unborn ∨
    ∃ l, s.status (some t) = .running (.body l)

theorem standing_start (code : Code n L S) (memory : S) :
    Standing code (start n L memory) where
  main := ⟨.create 0, rfl, Nat.zero_le n, rfl, rfl⟩
  owner := by simp [start]
  thread _ := Or.inl rfl

theorem Standing.knows (hs : Standing code s) {l : Pc L} (hmain : s.status none = .running l) :
    MainKnows code s l := by
  obtain ⟨l', hl', hknows⟩ := hs.main
  rw [hmain] at hl'
  cases hl'
  exact hknows

/-- A thread that has returned takes no step. -/
theorem Returned.step (h : Effect code s s') {t : Fin n} (ht : Returned code s t) :
    Returned code s' t := by
  obtain ⟨l, hl, hret⟩ := ht
  refine ⟨l, ?_, hret⟩
  cases h with
  | create | created | join | print => simpa using hl
  | @unborn u hu | @born u hu =>
    refine (update_other ?_).trans hl
    rintro rfl
    rw [hl] at hu
    cases hu
  | @lock u l₁ l₂ hu hi | @unlock u l₁ l₂ hu hi | @exec u l₁ f hu hi =>
    refine (update_other ?_).trans hl
    rintro rfl
    rw [hl] at hu
    cases hu
    rw [hret] at hi
    cases hi

/-- `main` stands where it was when a thread moves that has not returned. -/
theorem main_of_thread (hs : Standing code s) (h : Effect code s s') {t : Fin n}
    {st : Status Empty (Pc L)} (hstatus : s'.status = Function.update s.status (some t) st)
    (hcreated : s'.shared.created = s.shared.created)
    (hprinted : s'.shared.printed = s.shared.printed) (hrunning : ¬Returned code s t) :
    ∃ l, s'.status none = .running l ∧ MainKnows code s' l := by
  obtain ⟨l, hmain, hknows⟩ := hs.main
  refine ⟨l, by simpa [hstatus] using hmain, ?_⟩
  cases l with
  | create i => simpa only [MainKnows, hcreated, hprinted] using hknows
  | join i =>
    obtain ⟨hc, hp, hjoined⟩ := hknows
    exact ⟨hcreated.trans hc, hprinted.trans hp, fun u hu => (hjoined u hu).step h⟩
  | exited => exact absurd (hknows.2 t) hrunning
  | unborn | body l => exact hknows

theorem not_returned_of_unborn {t : Fin n} (ht : s.status (some t) = .running .unborn) :
    ¬Returned code s t := by
  rintro ⟨l, hl, -⟩
  rw [ht] at hl
  cases hl

theorem not_returned_of_stmt {t : Fin n} {l : L} (ht : s.status (some t) = .running (.body l))
    (hl : code.stmt t l ≠ .ret) : ¬Returned code s t := by
  rintro ⟨l', hl', hret⟩
  rw [ht] at hl'
  cases hl'
  exact hl hret

theorem standing_step (h : Effect code s s') (hs : Standing code s) : Standing code s' := by
  have hreturned : ∀ t, Returned code s t → Returned code s' t := fun t => Returned.step h
  have hthread : ∀ {t : Fin n} {m : Pc L}, (m = .unborn ∨ ∃ l, m = .body l) → ∀ u : Fin n,
      Function.update s.status (some t) (.running m) (some u) = .running .unborn ∨
        ∃ l, Function.update s.status (some t) (.running m) (some u) = .running (.body l) := by
    intro t m hm u
    by_cases hut : u = t
    · subst hut
      rw [Function.update_self]
      rcases hm with rfl | ⟨l, rfl⟩
      · exact Or.inl rfl
      · exact Or.inr ⟨l, rfl⟩
    · rw [update_other hut]
      exact hs.thread u
  have hcopy := h
  cases h with
  | @create i hm hi =>
    obtain ⟨-, -, hprinted⟩ := hs.knows hm
    exact ⟨⟨.create (i + 1), by simp, hi, rfl, hprinted⟩, hs.owner,
      fun u => by simpa using hs.thread u⟩
  | @created i hm hi =>
    obtain ⟨hle, hcreated, hprinted⟩ := hs.knows hm
    exact ⟨⟨.join 0, by simp, by dsimp only; omega, hprinted, by simp⟩, hs.owner,
      fun u => by simpa using hs.thread u⟩
  | @join i hm hi l ht hret =>
    obtain ⟨hcreated, hprinted, hjoined⟩ := hs.knows hm
    refine ⟨⟨.join (i + 1), by simp, hcreated, hprinted, fun u hu => hreturned u ?_⟩,
      hs.owner, fun u => by simpa using hs.thread u⟩
    rcases Nat.lt_succ_iff_lt_or_eq.mp hu with hlt | heq
    · exact hjoined u hlt
    · obtain rfl : u = ⟨i, hi⟩ := Fin.ext heq
      exact ⟨l, ht, hret⟩
  | @print i hm hi =>
    obtain ⟨-, -, hjoined⟩ := hs.knows hm
    exact ⟨⟨.exited, by simp, rfl, fun u => hreturned u (hjoined u (by omega))⟩,
      hs.owner, fun u => by simpa using hs.thread u⟩
  | unborn ht hcreated =>
    exact ⟨main_of_thread hs hcopy rfl rfl rfl (not_returned_of_unborn ht), hs.owner,
      hthread (Or.inl rfl)⟩
  | born ht hcreated =>
    exact ⟨main_of_thread hs hcopy rfl rfl rfl (not_returned_of_unborn ht), hs.owner,
      hthread (Or.inr ⟨_, rfl⟩)⟩
  | lock ht hi hfree =>
    exact ⟨main_of_thread hs hcopy rfl rfl rfl (not_returned_of_stmt ht (by simp [hi])), by simp,
      hthread (Or.inr ⟨_, rfl⟩)⟩
  | unlock ht hi howner =>
    exact ⟨main_of_thread hs hcopy rfl rfl rfl (not_returned_of_stmt ht (by simp [hi])), by simp,
      hthread (Or.inr ⟨_, rfl⟩)⟩
  | exec ht hi =>
    exact ⟨main_of_thread hs hcopy rfl rfl rfl (not_returned_of_stmt ht (by simp [hi])), hs.owner,
      hthread (Or.inr ⟨_, rfl⟩)⟩

theorem standing_of_reachable {memory : S}
    (h : Reachable (program code) (start n L memory) s) : Standing code s :=
  h.invariant _ (standing_start code memory) (fun _ _ hab => standing_step (effect_of_step hab))

def standsAt (code : Code n L S) (t : Fin n) : Status Empty (Pc L) → L
  | .running (.body l) => l
  | _ => code.entry t

/-- The threads of the program; one that has not been created is at the start of its routine. -/
def team (code : Code n L S) (s : State n L S) : Team n L S :=
  ⟨s.owner.join, fun t => standsAt code t (s.status (some t)), s.shared.memory⟩

theorem team_start (code : Code n L S) (memory : S) :
    team code (start n L memory) = code.start memory := rfl

theorem team_main (o : Option (Thread n)) (st : Status Empty (Pc L)) (v : Shared S) :
    team code ⟨o, Function.update s.status none st, v⟩ =
      ⟨o.join, (team code s).point, v.memory⟩ := by
  simp [team]

theorem team_body {t : Fin n} {l : L} (o : Option (Thread n)) (v : Shared S) :
    team code ⟨o, Function.update s.status (some t) (.running (.body l)), v⟩ =
      ⟨o.join, Function.update (team code s).point t l, v.memory⟩ := by
  have hpoint : (fun u => standsAt code u
      (Function.update s.status (some t) (.running (.body l)) (some u))) =
        Function.update (fun u => standsAt code u (s.status (some u))) t l := by
    funext u
    by_cases hut : u = t
    · subst hut
      simp only [Function.update_self, standsAt]
    · simp only [Function.update_of_ne hut, update_other hut]
  simp only [team, hpoint]

theorem point_of_body {t : Fin n} {l : L} (ht : s.status (some t) = .running (.body l)) :
    (team code s).point t = l := by
  simp only [team, ht, standsAt]

theorem point_of_unborn {t : Fin n} (ht : s.status (some t) = .running .unborn) :
    (team code s).point t = code.entry t := by
  simp only [team, ht, standsAt]

/-- A step of the program is a step of its threads, or none. -/
theorem move_of_effect (h : Effect code s s') :
    team code s' = team code s ∨ Move code (team code s) (team code s') := by
  cases h with
  | create | created | join | print =>
    left
    rw [team_main]
    rfl
  | @unborn t ht hcreated =>
    left
    rw [← ht, Function.update_eq_self]
  | @born t ht hcreated =>
    left
    rw [team_body, ← point_of_unborn ht, Function.update_eq_self]
    rfl
  | @lock t l l' ht hi hfree =>
    right
    rw [team_body]
    refine .lock (by rwa [point_of_body ht]) ?_
    simp [team, hfree]
  | @unlock t l l' ht hi howner =>
    right
    rw [team_body]
    refine .unlock (t := t) (by rwa [point_of_body ht]) ?_
    simp [team, howner]
  | @exec t l f ht hi =>
    right
    rw [team_body]
    exact .exec (by rwa [point_of_body ht])

theorem moves_of_reachable (h : Reachable (program code) s s') :
    Moves code (team code s) (team code s') :=
  h.invariant (fun s' => Moves code (team code s) (team code s')) .refl
    (fun a b hab ha => by
      rcases move_of_effect (effect_of_step hab) with hsame | hmove
      · rw [hsame]
        exact ha
      · exact ha.tail hmove)

theorem finished_of_returned (h : ∀ t, Returned code s t) : Finished code (team code s) := by
  intro t
  obtain ⟨l, ht, hret⟩ := h t
  rwa [point_of_body ht]

/-- What `main` prints is what the threads have left. -/
theorem finished_of_printed {memory v : S}
    (h : Reachable (program code) (start n L memory) s) (hv : s.shared.printed = some v) :
    Finished code (team code s) ∧ (team code s).memory = v := by
  obtain ⟨l, hmain, hknows⟩ := (standing_of_reachable h).main
  cases l with
  | create i =>
    rw [hknows.2.2] at hv
    cases hv
  | join i =>
    rw [hknows.2.1] at hv
    cases hv
  | exited =>
    rw [hknows.1] at hv
    exact ⟨finished_of_returned hknows.2, Option.some.inj hv⟩
  | unborn | body l => exact hknows.elim

/-- All threads have begun. -/
def Born (s : State n L S) : Prop := ∀ t, ∃ l, s.status (some t) = .running (.body l)

/-- What a run of the threads from `s` to `s'` keeps and where it gets. -/
structure Lifts (code : Code n L S) (s s' : State n L S) (c : Team n L S) : Prop where
  reach : Reachable (program code) s s'
  standing : Standing code s'
  main : s'.status none = s.status none
  eq : team code s' = c

theorem Lifts.refl (hs : Standing code s) : Lifts code s s (team code s) :=
  ⟨.refl, hs, rfl, rfl⟩

theorem Lifts.tail {c : Team n L S} (h : Lifts code s s' c) {s'' : State n L S}
    (heffect : Effect code s' s'') (hmain : s''.status none = s'.status none) :
    Lifts code s s'' (team code s'') :=
  ⟨h.reach.tail (step_of_effect heffect), standing_step heffect h.standing, hmain.trans h.main, rfl⟩

theorem born_update (hborn : Born s) (o : Option (Thread n)) (t : Fin n) (l : L) (v : Shared S) :
    Born (⟨o, Function.update s.status (some t) (.running (.body l)), v⟩ : State n L S) := by
  intro u
  by_cases hut : u = t
  · subst hut
    exact ⟨l, by simp⟩
  · simpa only [update_other hut] using hborn u

/-- A step of the threads is one of the program. -/
theorem lift_move (hs : Standing code s) (hborn : Born s) {c : Team n L S}
    (h : Move code (team code s) c) :
    ∃ s', Effect code s s' ∧ Born s' ∧ s'.status none = s.status none ∧ team code s' = c := by
  cases h with
  | @lock t l' hi hfree =>
    obtain ⟨l, ht⟩ := hborn t
    rw [point_of_body ht] at hi
    have howner : s.owner = none := by
      cases ho : s.owner with
      | none => rfl
      | some o =>
        cases o with
        | none => exact absurd ho hs.owner
        | some u =>
          simp only [team, ho] at hfree
          cases hfree
    exact ⟨_, .lock ht hi howner, born_update hborn _ t l' _, by simp, team_body ..⟩
  | @unlock t l' hi howner =>
    obtain ⟨l, ht⟩ := hborn t
    rw [point_of_body ht] at hi
    exact ⟨_, .unlock ht hi (Option.join_eq_some_iff.mp howner), born_update hborn _ t l' _, by simp,
      team_body ..⟩
  | @exec t f hi =>
    obtain ⟨l, ht⟩ := hborn t
    rw [point_of_body ht] at hi
    exact ⟨_, .exec ht hi, born_update hborn _ t _ _, by simp, team_body ..⟩

theorem lift_moves (hs : Standing code s) (hborn : Born s) {c : Team n L S}
    (h : Moves code (team code s) c) : ∃ s', Lifts code s s' c ∧ Born s' := by
  induction h with
  | refl => exact ⟨s, .refl hs, hborn⟩
  | tail _ hmove ih =>
    obtain ⟨s₁, hlifts, hborn₁⟩ := ih
    rw [← hlifts.eq] at hmove
    obtain ⟨s₂, heffect, hborn₂, hmain, rfl⟩ := lift_move hlifts.standing hborn₁ hmove
    exact ⟨s₂, hlifts.tail heffect hmain, hborn₂⟩

/-- Once `main` has created the threads they can begin. -/
theorem lift_births (hs : Standing code s) {i : ℕ} (hmain : s.status none = .running (.join i)) :
    ∃ s', Lifts code s s' (team code s) ∧ Born s' := by
  have hbegin : ∀ k, k ≤ n → ∃ s', Lifts code s s' (team code s) ∧
      ∀ t : Fin n, t < k → ∃ l, s'.status (some t) = .running (.body l) := by
    intro k
    induction k with
    | zero => exact fun _ => ⟨s, .refl hs, fun t ht => absurd ht (Nat.not_lt_zero _)⟩
    | succ k ih =>
      intro hk
      obtain ⟨s₁, hlifts, hborn⟩ := ih (Nat.le_of_succ_le hk)
      have hnext : ∀ t : Fin n, t < k + 1 → t < k ∨ t = ⟨k, hk⟩ := fun t ht =>
        (Nat.lt_succ_iff_lt_or_eq.mp ht).imp_right Fin.ext
      rcases hlifts.standing.thread ⟨k, hk⟩ with hunborn | hself
      · have hcreated : k < s₁.shared.created := by
          rw [(hlifts.standing.knows (hlifts.main.trans hmain)).1]
          exact hk
        have heffect : Effect code s₁ _ := .born hunborn hcreated
        have hlifts' := hlifts.tail heffect (by simp)
        have hsame : team code ⟨s₁.owner, Function.update s₁.status (some ⟨k, hk⟩)
            (.running (.body (code.entry ⟨k, hk⟩))), s₁.shared⟩ = team code s := by
          rw [team_body, ← point_of_unborn hunborn, Function.update_eq_self]
          exact hlifts.eq
        rw [hsame] at hlifts'
        refine ⟨_, hlifts', fun t ht => ?_⟩
        by_cases htk : t = ⟨k, hk⟩
        · subst htk
          exact ⟨_, Function.update_self ..⟩
        · obtain ⟨l, hl⟩ := hborn t ((hnext t ht).resolve_right htk)
          exact ⟨l, (update_other htk).trans hl⟩
      · refine ⟨s₁, hlifts, fun t ht => ?_⟩
        rcases hnext t ht with hlt | rfl
        · exact hborn t hlt
        · exact hself
  obtain ⟨s', hlifts, hborn⟩ := hbegin n le_rfl
  exact ⟨s', hlifts, fun t => hborn t t.isLt⟩

/-- `main` creates the rest of the threads. -/
theorem main_creates (hs : Standing code s) {i : ℕ}
    (hmain : s.status none = .running (.create i)) :
    ∃ s', Reachable (program code) s s' ∧ Standing code s' ∧ team code s' = team code s ∧
      s'.status none = .running (.join 0) := by
  induction hk : n - i generalizing s i with
  | zero =>
    have heffect : Effect code s _ := .created hmain (by omega)
    refine ⟨_, .single (step_of_effect heffect), standing_step heffect hs, team_main ..,
      by simp⟩
  | succ k ih =>
    have heffect : Effect code s _ := .create hmain (by omega)
    obtain ⟨s', hreach, hstanding, hthreads, hjoin⟩ :=
      ih (i := i + 1) (standing_step heffect hs) (by simp) (by omega)
    exact ⟨s', .head (step_of_effect heffect) hreach, hstanding,
      hthreads.trans (team_main ..), hjoin⟩

/-- `main` joins threads that have returned, and prints. -/
theorem main_prints (hs : Standing code s) {i : ℕ} (hmain : s.status none = .running (.join i))
    (hreturned : ∀ t, Returned code s t) :
    ∃ s', Reachable (program code) s s' ∧ s'.shared.printed = some s.shared.memory := by
  induction hk : n - i generalizing s i with
  | zero => exact ⟨_, .single (step_of_effect (.print hmain (by omega))), rfl⟩
  | succ k ih =>
    have hi : i < n := by omega
    obtain ⟨l, ht, hret⟩ := hreturned ⟨i, hi⟩
    have heffect : Effect code s _ := .join hmain hi ht hret
    obtain ⟨s', hreach, hprinted⟩ := ih (i := i + 1) (standing_step heffect hs)
      (by simp) (fun t => (hreturned t).step heffect) (by omega)
    exact ⟨s', .head (step_of_effect heffect) hreach, hprinted⟩

theorem returned_of_finished (hborn : Born s) (h : Finished code (team code s)) (t : Fin n) :
    Returned code s t := by
  obtain ⟨l, ht⟩ := hborn t
  have hret := h t
  rw [point_of_body ht] at hret
  exact ⟨l, ht, hret⟩

/-- Where the threads can get to their end, `main` prints what they leave. -/
theorem prints_of_join (hs : Standing code s) {i : ℕ} (hmain : s.status none = .running (.join i))
    {c : Team n L S} (hmoves : Moves code (team code s) c) (hfinished : Finished code c) :
    ∃ s', Reachable (program code) s s' ∧ s'.shared.printed = some c.memory := by
  obtain ⟨s₁, hbirths, hborn₁⟩ := lift_births hs hmain
  rw [← hbirths.eq] at hmoves
  obtain ⟨s₂, hlifts, hborn₂⟩ := lift_moves hbirths.standing hborn₁ hmoves
  obtain rfl := hlifts.eq
  obtain ⟨s₃, hreach, hprinted⟩ := main_prints hlifts.standing
    ((hlifts.main.trans hbirths.main).trans hmain) (returned_of_finished hborn₂ hfinished)
  exact ⟨s₃, (hbirths.reach.trans hlifts.reach).trans hreach, hprinted⟩

theorem not_move_of_finished {c c' : Team n L S} (h : Finished code c) : ¬Move code c c' := by
  intro hmove
  cases hmove with
  | @lock t l hi | @unlock t l hi | @exec t f hi =>
    rw [h t] at hi
    cases hi

theorem prints_of_moves (hs : Standing code s) {c : Team n L S}
    (hmoves : Moves code (team code s) c) (hfinished : Finished code c) :
    ∃ s', Reachable (program code) s s' ∧ s'.shared.printed = some c.memory := by
  obtain ⟨l, hmain, hknows⟩ := hs.main
  cases l with
  | create i =>
    obtain ⟨s₁, hreach, hstanding, hthreads, hjoin⟩ := main_creates hs hmain
    rw [← hthreads] at hmoves
    obtain ⟨s₂, hreach₂, hprinted⟩ := prints_of_join hstanding hjoin hmoves hfinished
    exact ⟨s₂, hreach.trans hreach₂, hprinted⟩
  | join i => exact prints_of_join hs hmain hmoves hfinished
  | exited =>
    -- the threads have returned, so they take no more steps
    rcases ReflTransGen.cases_head hmoves with rfl | ⟨c₁, hmove, -⟩
    · exact ⟨s, .refl, hknows.1⟩
    · exact absurd hmove (not_move_of_finished (finished_of_returned hknows.2))
  | unborn | body l => exact hknows.elim

/-- From any state the program can print what its threads can leave in the memory. -/
theorem prints_iff {memory v : S} (h : Reachable (program code) (start n L memory) s) :
    (∃ s', Reachable (program code) s s' ∧ s'.shared.printed = some v) ↔
      ∃ c, Moves code (team code s) c ∧ Finished code c ∧ c.memory = v := by
  constructor
  · rintro ⟨s', hreach, hv⟩
    exact ⟨_, moves_of_reachable hreach, finished_of_printed (h.trans hreach) hv⟩
  · rintro ⟨c, hmoves, hfinished, rfl⟩
    exact prints_of_moves (standing_of_reachable h) hmoves hfinished

/-- Every state of the threads comes up in the program. -/
theorem exists_state {memory : S} {c : Team n L S} (h : Moves code (code.start memory) c) :
    ∃ s, Reachable (program code) (start n L memory) s ∧ team code s = c := by
  have hstart := standing_start code memory
  obtain ⟨s₁, hreach, hstanding, hthreads, hjoin⟩ := main_creates hstart rfl
  obtain ⟨s₂, hbirths, hborn⟩ := lift_births hstanding hjoin
  rw [← team_start, ← hthreads, ← hbirths.eq] at h
  obtain ⟨s₃, hlifts, -⟩ := lift_moves hbirths.standing hborn h
  exact ⟨s₃, (hreach.trans hbirths.reach).trans hlifts.reach, hlifts.eq⟩

/-- The program is stuck where its threads are. -/
theorem hangs_iff {memory : S} :
    (∃ s, Reachable (program code) (start n L memory) s ∧
      ∀ s', Reachable (program code) s s' → s'.shared.printed = none) ↔
      ∃ c, Moves code (code.start memory) c ∧ ∀ c', Moves code c c' → ¬Finished code c' := by
  constructor
  · rintro ⟨s, hreach, hnever⟩
    refine ⟨team code s, moves_of_reachable hreach, fun c' hmoves hfinished => ?_⟩
    obtain ⟨s', hreach', hv⟩ := (prints_iff hreach).mpr ⟨c', hmoves, hfinished, rfl⟩
    rw [hnever s' hreach'] at hv
    cases hv
  · rintro ⟨c, hmoves, hnever⟩
    obtain ⟨s, hreach, rfl⟩ := exists_state hmoves
    refine ⟨s, hreach, fun s' hreach' => ?_⟩
    cases hv : s'.shared.printed with
    | none => rfl
    | some v =>
      obtain ⟨c', hmoves', hfinished, -⟩ := (prints_iff hreach).mp ⟨s', hreach', hv⟩
      exact absurd hfinished (hnever c' hmoves')

end CpreLabs.ForkJoin
