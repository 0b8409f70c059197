import Mathlib.Data.Fintype.BigOperators
import Mathlib.Data.List.Chain
import Mathlib.Logic.Relation
import Mathlib.Tactic.Common

/-!
# Threads, one mutex and its condition variables

The semantics of programs over a mutex with Mesa-style condition variables: a signal
moves one sleeper to the threads that have to acquire the mutex again, others may take
it first, and a sleeper may also wake up without a signal. Threads, program points,
condition variables, shared variables and the events of the environment are parameters.

Two rules carry the proofs about programs: `Owned`, which ties the program point of a
thread to the mutex, and `Outline`, the invariant rule for monitors.
-/
namespace CpreLabs.Pthread

/-- What a thread does at a program point. -/
inductive Instr (T C L S : Type*) where
  | lock (next : L)
  | unlock (next : L)
  | wait (c : C) (next : L)
  | signal (c : C) (next : L)
  | broadcast (c : C) (next : L)
  | join (t : T) (next : L)
  /-- Read and write the shared variables, then continue at the computed point. -/
  | exec (f : S → L × S)
  /-- The surroundings decide where to continue. -/
  | choose (ok : L → Bool)
  | halt

inductive Status (C L : Type*) where
  | running (l : L)
  /-- In the wait set of `c`, not signalled; continues at `l` with the mutex held. -/
  | asleep (c : C) (l : L)
  /-- Out of the wait set, but without the mutex yet. -/
  | woken (c : C) (l : L)

namespace Status

variable {C L : Type*} [DecidableEq C]

def isAsleepOn (c : C) : Status C L → Bool
  | .asleep c' _ => decide (c' = c)
  | _ => false

def isWokenOn (c : C) : Status C L → Bool
  | .woken c' _ => decide (c' = c)
  | _ => false

theorem isAsleepOn_iff {c : C} {st : Status C L} :
    st.isAsleepOn c = true ↔ ∃ l, st = .asleep c l := by
  cases st <;> simp [isAsleepOn]

theorem isWokenOn_iff {c : C} {st : Status C L} :
    st.isWokenOn c = true ↔ ∃ l, st = .woken c l := by
  cases st <;> simp [isWokenOn]

theorem not_woken_of_asleep {c c' : C} {st : Status C L} (h : st.isAsleepOn c = true) :
    st.isWokenOn c' = false := by
  cases st with
  | woken c₁ l => cases h
  | _ => rfl

end Status

structure Config (T C L S : Type*) where
  owner : Option T
  status : T → Status C L
  shared : S

structure Program (T C L S E : Type*) where
  instr : T → L → Instr T C L S
  env : E → Config T C L S → S

variable {T C L S E : Type*}

namespace Config

variable [DecidableEq T]

def goto (s : Config T C L S) (t : T) (l : L) : Config T C L S :=
  { s with status := Function.update s.status t (.running l) }

def sleep (s : Config T C L S) (t : T) (c : C) (l : L) : Config T C L S :=
  { s with status := Function.update s.status t (.asleep c l) }

def wake (s : Config T C L S) (t : T) (c : C) (l : L) : Config T C L S :=
  { s with status := Function.update s.status t (.woken c l) }

def wakeAll [DecidableEq C] (s : Config T C L S) (c : C) : Config T C L S :=
  { s with status := fun t => match s.status t with
      | .asleep c' l => if c' = c then .woken c' l else .asleep c' l
      | st => st }

variable {s : Config T C L S} {t u : T} {c : C} {l l' n : L}

omit [DecidableEq T] in
theorem ne_of_asleep (ht : s.status t = .running l) (hu : s.status u = .asleep c l') : t ≠ u := by
  rintro rfl
  rw [ht] at hu
  cases hu

@[simp] theorem goto_self (s : Config T C L S) (t : T) (n : L) :
    (s.goto t n).status t = .running n := Function.update_self ..

theorem goto_of_ne (h : u ≠ t) : (s.goto t n).status u = s.status u :=
  Function.update_of_ne h ..

@[simp] theorem wake_self (s : Config T C L S) (t : T) (c : C) (l : L) :
    (s.wake t c l).status t = .woken c l := Function.update_self ..

theorem wake_of_ne (h : u ≠ t) : (s.wake t c l).status u = s.status u :=
  Function.update_of_ne h ..

/-- Who waits after a thread has moved was waiting before. -/
theorem waiting_of_goto {st : Status C L} (h : (s.goto t n).status u = st)
    (hst : ∀ l, st ≠ .running l) : s.status u = st := by
  by_cases hut : u = t
  · subst hut
    rw [goto_self] at h
    exact absurd h.symm (hst n)
  · rwa [goto_of_ne hut] at h

omit [DecidableEq T] in
/-- A broadcast wakes the sleepers on its variable and leaves the other threads alone. -/
theorem wakeAll_cases [DecidableEq C] (s : Config T C L S) (c : C) (u : T) :
    (∃ l, s.status u = .asleep c l ∧ (s.wakeAll c).status u = .woken c l) ∨
      (s.status u).isAsleepOn c = false ∧ (s.wakeAll c).status u = s.status u := by
  simp only [wakeAll]
  cases s.status u with
  | running l => exact Or.inr ⟨rfl, rfl⟩
  | woken c' l => exact Or.inr ⟨rfl, rfl⟩
  | asleep c' l =>
    by_cases hc : c' = c
    · subst hc
      exact Or.inl ⟨l, rfl, if_pos rfl⟩
    · exact Or.inr ⟨by simp [Status.isAsleepOn, hc], if_neg hc⟩

omit [DecidableEq T] in
theorem wakeAll_running [DecidableEq C] (h : s.status t = .running l) :
    (s.wakeAll c).status t = .running l := by
  rcases s.wakeAll_cases c t with ⟨l', hst, -⟩ | ⟨-, hst⟩
  · rw [h] at hst
    cases hst
  · rw [hst, h]

omit [DecidableEq T] in
theorem not_asleep_wakeAll [DecidableEq C] (s : Config T C L S) (c : C) (u : T) :
    ((s.wakeAll c).status u).isAsleepOn c = false := by
  rcases s.wakeAll_cases c u with ⟨l, -, hst⟩ | ⟨hno, hst⟩
  · rw [hst]
    rfl
  · rw [hst, hno]

end Config

variable [DecidableEq T] [DecidableEq C]

/-- One step of one thread, or of the environment. -/
inductive Step (p : Program T C L S E) : Config T C L S → Config T C L S → Prop
  | lock {s t l next} (hs : s.status t = .running l) (hi : p.instr t l = .lock next)
      (hfree : s.owner = none) : Step p s { s.goto t next with owner := some t }
  | unlock {s t l next} (hs : s.status t = .running l) (hi : p.instr t l = .unlock next)
      (howner : s.owner = some t) : Step p s { s.goto t next with owner := none }
  | wait {s t l c next} (hs : s.status t = .running l) (hi : p.instr t l = .wait c next)
      (howner : s.owner = some t) : Step p s { s.sleep t c next with owner := none }
  | signalNone {s t l c next} (hs : s.status t = .running l) (hi : p.instr t l = .signal c next)
      (hno : ∀ u, (s.status u).isAsleepOn c = false) : Step p s (s.goto t next)
  | signalOne {s t l c next u l'} (hs : s.status t = .running l)
      (hi : p.instr t l = .signal c next) (hu : s.status u = .asleep c l') :
      Step p s ((s.wake u c l').goto t next)
  | broadcast {s t l c next} (hs : s.status t = .running l) (hi : p.instr t l = .broadcast c next) :
      Step p s ((s.wakeAll c).goto t next)
  | join {s t l u next l'} (hs : s.status t = .running l) (hi : p.instr t l = .join u next)
      (hu : s.status u = .running l') (hhalt : p.instr u l' = .halt) : Step p s (s.goto t next)
  | exec {s t l f} (hs : s.status t = .running l) (hi : p.instr t l = .exec f) :
      Step p s { s.goto t (f s.shared).1 with shared := (f s.shared).2 }
  | choose {s t l ok l'} (hs : s.status t = .running l) (hi : p.instr t l = .choose ok)
      (hok : ok l' = true) : Step p s (s.goto t l')
  | spurious {s t c l} (hs : s.status t = .asleep c l) : Step p s (s.wake t c l)
  | resume {s t c l} (hs : s.status t = .woken c l) (hfree : s.owner = none) :
      Step p s { s.goto t l with owner := some t }
  | env {s} (e : E) : Step p s { s with shared := p.env e s }

def Reachable (p : Program T C L S E) (start s : Config T C L S) : Prop :=
  Relation.ReflTransGen (Step p) start s

/-- What holds at the start and survives every step holds in every reachable state. -/
theorem Reachable.invariant {p : Program T C L S E} {start s : Config T C L S}
    (h : Reachable p start s) (P : Config T C L S → Prop) (hstart : P start)
    (hstep : ∀ a b, Step p a b → P a → P b) : P s := by
  induction h with
  | refl => exact hstart
  | tail _ hab ih => exact hstep _ _ hab ih

/-- A scheduling decision. -/
inductive Event (T L E : Type*) where
  | run (t : T)
  | signal (t u : T)
  | choose (t : T) (l : L)
  | spurious (t : T)
  | resume (t : T)
  | env (e : E)

/-- The state after a scheduling decision, if the decision is possible. -/
def next [Fintype T] (p : Program T C L S E) (s : Config T C L S) :
    Event T L E → Option (Config T C L S)
  | .run t => match s.status t with
    | .running l => match p.instr t l with
      | .lock n => if s.owner.isNone then some { s.goto t n with owner := some t } else none
      | .unlock n => if s.owner = some t then some { s.goto t n with owner := none } else none
      | .wait c n => if s.owner = some t then some { s.sleep t c n with owner := none } else none
      | .signal c n =>
          if ∀ u, (s.status u).isAsleepOn c = false then some (s.goto t n) else none
      | .broadcast c n => some ((s.wakeAll c).goto t n)
      | .join u n => match s.status u with
        | .running l' => match p.instr u l' with
          | .halt => some (s.goto t n)
          | _ => none
        | _ => none
      | .exec f => some { s.goto t (f s.shared).1 with shared := (f s.shared).2 }
      | _ => none
    | _ => none
  | .signal t u => match s.status t, s.status u with
    | .running l, .asleep c' l' => match p.instr t l with
      | .signal c n => if c' = c then some ((s.wake u c l').goto t n) else none
      | _ => none
    | _, _ => none
  | .choose t l' => match s.status t with
    | .running l => match p.instr t l with
      | .choose ok => if ok l' then some (s.goto t l') else none
      | _ => none
    | _ => none
  | .spurious t => match s.status t with
    | .asleep c l => some (s.wake t c l)
    | _ => none
  | .resume t => match s.status t with
    | .woken _ l => if s.owner.isNone then some { s.goto t l with owner := some t } else none
    | _ => none
  | .env e => some { s with shared := p.env e s }

/-- The state after a sequence of scheduling decisions. -/
def runSchedule [Fintype T] (p : Program T C L S E) :
    Config T C L S → List (Event T L E) → Option (Config T C L S)
  | s, [] => some s
  | s, e :: es => (next p s e).bind (fun s' => runSchedule p s' es)

theorem step_of_next [Fintype T] {p : Program T C L S E} {s s' : Config T C L S}
    {e : Event T L E} (h : next p s e = some s') : Step p s s' := by
  cases e with
  | run t =>
    simp only [next] at h
    split at h <;> try contradiction
    rename_i l hs
    split at h
    · rename_i n hi
      obtain ⟨ho, h⟩ := Option.ite_none_right_eq_some.mp h
      cases h
      exact .lock hs hi (Option.isNone_iff_eq_none.mp ho)
    · rename_i n hi
      obtain ⟨ho, h⟩ := Option.ite_none_right_eq_some.mp h
      cases h
      exact .unlock hs hi ho
    · rename_i c n hi
      obtain ⟨ho, h⟩ := Option.ite_none_right_eq_some.mp h
      cases h
      exact .wait hs hi ho
    · rename_i c n hi
      obtain ⟨hno, h⟩ := Option.ite_none_right_eq_some.mp h
      cases h
      exact .signalNone hs hi hno
    · rename_i c n hi
      cases h
      exact .broadcast hs hi
    · rename_i u n hi
      split at h <;> try contradiction
      rename_i l' hu
      split at h <;> try contradiction
      rename_i hhalt
      cases h
      exact .join hs hi hu hhalt
    · rename_i f hi
      cases h
      exact .exec hs hi
    · contradiction
  | signal t u =>
    simp only [next] at h
    split at h <;> try contradiction
    rename_i l c' l' hs hu
    split at h <;> try contradiction
    rename_i c n hi
    obtain ⟨rfl, h⟩ := Option.ite_none_right_eq_some.mp h
    cases h
    exact .signalOne hs hi hu
  | choose t l' =>
    simp only [next] at h
    split at h <;> try contradiction
    rename_i l hs
    split at h <;> try contradiction
    rename_i ok hi
    obtain ⟨hok, h⟩ := Option.ite_none_right_eq_some.mp h
    cases h
    exact .choose hs hi hok
  | spurious t =>
    simp only [next] at h
    split at h <;> try contradiction
    rename_i c l hs
    cases h
    exact .spurious hs
  | resume t =>
    simp only [next] at h
    split at h <;> try contradiction
    rename_i c l hs
    obtain ⟨ho, h⟩ := Option.ite_none_right_eq_some.mp h
    cases h
    exact .resume hs (Option.isNone_iff_eq_none.mp ho)
  | env e =>
    cases h
    exact .env e

theorem reachable_of_schedule [Fintype T] {p : Program T C L S E} (es : List (Event T L E))
    {s s' : Config T C L S} (h : runSchedule p s es = some s') : Reachable p s s' := by
  induction es generalizing s with
  | nil =>
    cases h
    exact .refl
  | cons e es ih =>
    obtain ⟨s₁, hs₁, hrest⟩ := Option.bind_eq_some_iff.mp h
    exact .head (step_of_next hs₁) (ih hrest)

/-- The states a sequence of scheduling decisions goes through. -/
def scheduleStates [Fintype T] (p : Program T C L S E) :
    Config T C L S → List (Event T L E) → List (Config T C L S)
  | _, [] => []
  | s, e :: es => match next p s e with
    | some s' => s' :: scheduleStates p s' es
    | none => []

theorem isChain_scheduleStates [Fintype T] (p : Program T C L S E) (s : Config T C L S)
    (es : List (Event T L E)) : (s :: scheduleStates p s es).IsChain (Step p) := by
  induction es generalizing s with
  | nil => exact .singleton s
  | cons e es ih =>
    simp only [scheduleStates]
    cases hnext : next p s e with
    | none => exact .singleton s
    | some s' => exact .cons_cons (step_of_next hnext) (ih s')

/-- What holds at the start of a run and survives its steps holds throughout the run. -/
theorem isChain_invariant {p : Program T C L S E} {s : Config T C L S}
    {run : List (Config T C L S)} (hrun : (s :: run).IsChain (Step p))
    (P : Config T C L S → Prop) (hs : P s)
    (hstep : ∀ a ∈ s :: run, ∀ b, Step p a b → P a → P b) : ∀ a ∈ s :: run, P a := by
  induction run generalizing s with
  | nil => simpa using hs
  | cons b run ih =>
    obtain ⟨hsb, hrest⟩ := List.isChain_cons_cons.mp hrun
    have hb : P b := hstep s (by simp) b hsb hs
    intro a ha
    rcases List.mem_cons.mp ha with rfl | ha
    · exact hs
    · exact ih hrest hb (fun x hx => hstep x (List.mem_cons_of_mem _ hx)) a ha

/-- The instruction respects a division of the program points into those with and those
without the mutex. -/
def Instr.Bracketed (inside : L → Bool) (l : L) : Instr T C L S → Prop
  | .lock n => inside l = false ∧ inside n = true
  | .unlock n => inside l = true ∧ inside n = false
  | .wait _ n => inside l = true ∧ inside n = true
  | .signal _ n | .broadcast _ n | .join _ n => inside n = inside l
  | .exec f => ∀ s, inside (f s).1 = inside l
  | .choose ok => ∀ l', ok l' = true → inside l' = inside l
  | .halt => inside l = false

def Program.Bracketed (p : Program T C L S E) (inside : L → Bool) : Prop :=
  ∀ t l, (p.instr t l).Bracketed inside l

omit [DecidableEq T] [DecidableEq C] in
theorem Program.Bracketed.of_instr {p : Program T C L S E} {inside : L → Bool}
    (hp : p.Bracketed inside) {t : T} {l : L} {i : Instr T C L S} (hi : p.instr t l = i) :
    i.Bracketed inside l :=
  hi ▸ hp t l

/-- The program point of a thread agrees with whether it holds the mutex. -/
def Status.Agrees (inside : L → Bool) (holds : Prop) : Status C L → Prop
  | .running l => inside l = true ↔ holds
  | .asleep _ l | .woken _ l => inside l = true ∧ ¬holds

/-- The mutex belongs to the one thread that runs inside, if any. -/
def Owned (inside : L → Bool) (s : Config T C L S) : Prop :=
  ∀ t, (s.status t).Agrees inside (s.owner = some t)

variable {p : Program T C L S E} {inside : L → Bool}

omit [DecidableEq T] [DecidableEq C] in
theorem Owned.owner_iff {s : Config T C L S} (h : Owned inside s) {t : T} {l : L}
    (ht : s.status t = .running l) : inside l = true ↔ s.owner = some t := by
  have hag := h t
  rwa [ht] at hag

omit [DecidableEq T] [DecidableEq C] in
/-- Two threads running inside are one. -/
theorem Owned.unique {s : Config T C L S} (h : Owned inside s) {t u : T} {l l' : L}
    (ht : s.status t = .running l) (hl : inside l = true)
    (hu : s.status u = .running l') (hl' : inside l' = true) : t = u := by
  have ho := (h.owner_iff ht).mp hl
  have ho' := (h.owner_iff hu).mp hl'
  rw [ho] at ho'
  exact Option.some.inj ho'

omit [DecidableEq C] in
/-- A step that changes one status, and the owner only from or to that thread. -/
theorem Owned.update {s s' : Config T C L S} (h : Owned inside s) {t : T} {st : Status C L}
    (hstatus : s'.status = Function.update s.status t st)
    (hother : ∀ u, u ≠ t → (s'.owner = some u ↔ s.owner = some u))
    (hst : st.Agrees inside (s'.owner = some t)) : Owned inside s' := by
  intro u
  by_cases hu : u = t
  · subst hu
    simpa [hstatus] using hst
  · rw [hstatus, Function.update_of_ne hu, propext (hother u hu)]
    exact h u

omit [DecidableEq C] in
/-- Moving a thread between points on the same side of the mutex. -/
theorem Owned.goto {s : Config T C L S} (h : Owned inside s) {t : T} {l n : L} {v : S}
    (hs : s.status t = .running l) (hn : inside n = inside l) :
    Owned inside { s.goto t n with shared := v } := by
  refine Owned.update h rfl (fun _ _ => Iff.rfl) ?_
  change inside n = true ↔ _
  rw [hn]
  exact h.owner_iff hs

omit [DecidableEq C] in
theorem Owned.wake {s : Config T C L S} (h : Owned inside s) {t : T} {c : C} {l : L}
    (hs : s.status t = .asleep c l) : Owned inside (s.wake t c l) := by
  have hag := h t
  rw [hs] at hag
  exact h.update rfl (fun _ _ => Iff.rfl) hag

omit [DecidableEq T] in
theorem Owned.wakeAll {s : Config T C L S} (h : Owned inside s) (c : C) :
    Owned inside (s.wakeAll c) := by
  intro u
  have hag := h u
  rcases s.wakeAll_cases c u with ⟨l, hst, hst'⟩ | ⟨-, hst'⟩
  · rw [hst] at hag
    rw [hst']
    exact hag
  · rw [hst']
    exact hag

theorem owned_step (hp : p.Bracketed inside) {s s' : Config T C L S} (hstep : Step p s s')
    (h : Owned inside s) : Owned inside s' := by
  cases hstep with
  | @lock t l n hs hi hfree =>
    have hb := hp.of_instr hi
    refine h.update rfl (fun u hu => ?_) ?_
    · simp [hfree, Ne.symm hu]
    · simpa [Status.Agrees] using hb.2
  | @unlock t l n hs hi howner =>
    have hb := hp.of_instr hi
    refine h.update rfl (fun u hu => ?_) ?_
    · simp [howner, Ne.symm hu]
    · simpa [Status.Agrees] using hb.2
  | @wait t l c n hs hi howner =>
    have hb := hp.of_instr hi
    refine h.update rfl (fun u hu => ?_) ?_
    · simp [howner, Ne.symm hu]
    · simpa [Status.Agrees] using hb.2
  | @signalNone t l c n hs hi hno =>
    have hb := hp.of_instr hi
    exact h.goto hs hb
  | @signalOne t l c n u l' hs hi hu =>
    have hb := hp.of_instr hi
    exact (h.wake hu).goto ((Config.wake_of_ne (Config.ne_of_asleep hs hu)).trans hs) hb
  | @broadcast t l c n hs hi =>
    have hb := hp.of_instr hi
    exact (h.wakeAll c).goto (Config.wakeAll_running hs) hb
  | @join t l u n l' hs hi hu hhalt =>
    have hb := hp.of_instr hi
    exact h.goto hs hb
  | @exec t l f hs hi =>
    have hb := hp.of_instr hi
    exact h.goto hs (hb s.shared)
  | @choose t l ok l' hs hi hok =>
    have hb := hp.of_instr hi
    exact h.goto hs (hb l' hok)
  | spurious hs => exact h.wake hs
  | @resume t c l hs hfree =>
    have hag := h t
    rw [hs] at hag
    refine h.update rfl (fun u hu => ?_) ?_
    · simp [hfree, Ne.symm hu]
    · simpa [Status.Agrees] using hag.1
  | env e => exact h

theorem Reachable.owned (hp : p.Bracketed inside) {start s : Config T C L S}
    (h : Reachable p start s) (hstart : Owned inside start) : Owned inside s :=
  h.invariant _ hstart (fun _ _ hstep => owned_step hp hstep)

/-- One instruction keeps the monitor invariant `I` of the shared variables and the
assertions `A` at the points inside the critical section. -/
def Instr.Keeps (inside : L → Bool) (I : S → Prop) (A : L → S → Prop) (l : L) :
    Instr T C L S → Prop
  | .lock n => ∀ s, I s → A n s
  | .unlock _ => ∀ s, A l s → I s
  | .wait _ n => ∀ s, A l s → I s ∧ ∀ w, I w → A n w
  | .signal _ n | .broadcast _ n | .join _ n => inside l = true → ∀ s, A l s → A n s
  | .exec f => if inside l = true then ∀ s, A l s → A (f s).1 (f s).2 else ∀ s, (f s).2 = s
  | .choose ok => inside l = true → ∀ l' s, ok l' = true → A l s → A l' s
  | .halt => True

/-- A proof outline: every instruction and every event of the surroundings keep `I` and `A`. -/
structure Outline (p : Program T C L S E) (inside : L → Bool) (I : S → Prop)
    (A : L → S → Prop) : Prop where
  instr : ∀ t l, (p.instr t l).Keeps inside I A l
  envI : ∀ e s, I s.shared → I (p.env e s)
  envA : ∀ e s l, inside l = true → A l s.shared → A l (p.env e s)

omit [DecidableEq T] [DecidableEq C] in
theorem Outline.of_instr (ho : Outline p inside I A) {t : T} {l : L} {i : Instr T C L S}
    (hi : p.instr t l = i) : i.Keeps inside I A l :=
  hi ▸ ho.instr t l

/-- The assertion of a thread; a waiting one continues from any state that satisfies `I`. -/
def Status.Asserted (inside : L → Bool) (I : S → Prop) (A : L → S → Prop) (v : S) :
    Status C L → Prop
  | .running l => inside l = true → A l v
  | .asleep _ l | .woken _ l => ∀ w, I w → A l w

/-- What an outline gives: `I` while the mutex is free, and `A` where its owner stands. -/
structure Asserts (inside : L → Bool) (I : S → Prop) (A : L → S → Prop)
    (s : Config T C L S) : Prop where
  owned : Owned inside s
  free : s.owner = none → I s.shared
  threads : ∀ t, (s.status t).Asserted inside I A s.shared

variable {I : S → Prop} {A : L → S → Prop}

omit [DecidableEq T] [DecidableEq C] in
theorem Asserts.held {s : Config T C L S} (h : Asserts inside I A s) {t : T} {l : L}
    (ht : s.status t = .running l) (hl : inside l = true) : A l s.shared := by
  have has := h.threads t
  rw [ht] at has
  exact has hl

omit [DecidableEq C] in
/-- A step of one thread that leaves the shared variables alone or holds the mutex. -/
theorem Asserts.update {s s' : Config T C L S} (h : Asserts inside I A s)
    (howned : Owned inside s') {t : T} {st : Status C L}
    (hstatus : s'.status = Function.update s.status t st)
    (hshared : s'.shared = s.shared ∨ s.owner = some t)
    (hfree : s'.owner = none → I s'.shared)
    (hst : st.Asserted inside I A s'.shared) : Asserts inside I A s' := by
  refine ⟨howned, hfree, fun u => ?_⟩
  by_cases hu : u = t
  · subst hu
    simpa [hstatus] using hst
  · have has := h.threads u
    rw [hstatus, Function.update_of_ne hu]
    rcases hshared with hshared | howner
    · rwa [hshared]
    · cases hsu : s.status u with
      | running l =>
        intro hl
        have hu' := (h.owned.owner_iff hsu).mp hl
        rw [howner] at hu'
        exact absurd (Option.some.inj hu').symm hu
      | asleep c l =>
        rw [hsu] at has
        exact has
      | woken c l =>
        rw [hsu] at has
        exact has

omit [DecidableEq C] in
/-- Moving a thread between points on the same side of the mutex. -/
theorem Asserts.goto {s : Config T C L S} (h : Asserts inside I A s) {t : T} {l n : L}
    (hs : s.status t = .running l) (hn : inside n = inside l)
    (hk : inside l = true → ∀ v, A l v → A n v) : Asserts inside I A (s.goto t n) := by
  refine h.update (h.owned.goto hs hn) rfl (Or.inl rfl) h.free (fun hin => ?_)
  have hl : inside l = true := hn.symm.trans hin
  exact hk hl _ (h.held hs hl)

omit [DecidableEq C] in
theorem Asserts.wake {s : Config T C L S} (h : Asserts inside I A s) {t : T} {c : C} {l : L}
    (hs : s.status t = .asleep c l) : Asserts inside I A (s.wake t c l) := by
  have has := h.threads t
  rw [hs] at has
  exact h.update (h.owned.wake hs) rfl (Or.inl rfl) h.free has

omit [DecidableEq T] in
theorem Asserts.wakeAll {s : Config T C L S} (h : Asserts inside I A s) (c : C) :
    Asserts inside I A (s.wakeAll c) := by
  refine ⟨h.owned.wakeAll c, h.free, fun u => ?_⟩
  have has := h.threads u
  rcases s.wakeAll_cases c u with ⟨l, hst, hst'⟩ | ⟨-, hst'⟩
  · rw [hst] at has
    rw [hst']
    exact has
  · rw [hst']
    exact has

theorem Outline.step (ho : Outline p inside I A) (hp : p.Bracketed inside)
    {s s' : Config T C L S} (hstep : Step p s s') (h : Asserts inside I A s) :
    Asserts inside I A s' := by
  have howned := owned_step hp hstep h.owned
  cases hstep with
  | @lock t l n hs hi hfree =>
    have hk := ho.of_instr hi
    exact h.update howned rfl (Or.inl rfl) (by simp) (fun _ => hk _ (h.free hfree))
  | @unlock t l n hs hi howner =>
    have hk := ho.of_instr hi
    have hb := hp.of_instr hi
    refine h.update howned rfl (Or.inl rfl) (fun _ => hk _ (h.held hs hb.1)) ?_
    intro hn
    rw [hb.2] at hn
    cases hn
  | @wait t l c n hs hi howner =>
    have hk := ho.of_instr hi
    have hb := hp.of_instr hi
    obtain ⟨hinv, hback⟩ := hk _ (h.held hs hb.1)
    exact h.update howned rfl (Or.inl rfl) (fun _ => hinv) hback
  | @signalNone t l c n hs hi hno =>
    have hk := ho.of_instr hi
    have hb := hp.of_instr hi
    exact h.goto hs hb hk
  | @signalOne t l c n u l' hs hi hu =>
    have hk := ho.of_instr hi
    have hb := hp.of_instr hi
    exact (h.wake hu).goto ((Config.wake_of_ne (Config.ne_of_asleep hs hu)).trans hs) hb hk
  | @broadcast t l c n hs hi =>
    have hk := ho.of_instr hi
    have hb := hp.of_instr hi
    exact (h.wakeAll c).goto (Config.wakeAll_running hs) hb hk
  | @join t l u n l' hs hi hu hhalt =>
    have hk := ho.of_instr hi
    have hb := hp.of_instr hi
    exact h.goto hs hb hk
  | @exec t l f hs hi =>
    have hk := ho.of_instr hi
    have hb := hp.of_instr hi
    by_cases hl : inside l = true
    · have howner := (h.owned.owner_iff hs).mp hl
      simp only [Instr.Keeps, if_pos hl] at hk
      refine h.update howned rfl (Or.inr howner) ?_ (fun _ => hk _ (h.held hs hl))
      intro hnone
      change s.owner = none at hnone
      rw [howner] at hnone
      cases hnone
    · simp only [Instr.Keeps, if_neg hl] at hk
      refine h.update howned rfl (Or.inl (hk _)) ?_ (fun hn => absurd ((hb _).symm.trans hn) hl)
      intro hnone
      rw [show ({ s.goto t (f s.shared).1 with shared := (f s.shared).2 } : Config T C L S).shared =
        s.shared from hk _]
      exact h.free hnone
  | @choose t l ok l' hs hi hok =>
    have hk := ho.of_instr hi
    have hb := hp.of_instr hi
    exact h.goto hs (hb l' hok) (fun hl v => hk hl l' v hok)
  | spurious hs => exact h.wake hs
  | @resume t c l hs hfree =>
    have has := h.threads t
    rw [hs] at has
    exact h.update howned rfl (Or.inl rfl) (by simp) (fun _ => has _ (h.free hfree))
  | env e =>
    refine ⟨howned, fun hnone => ho.envI e s (h.free hnone), fun u => ?_⟩
    have has := h.threads u
    cases hst : s.status u with
    | running l =>
      rw [hst] at has
      exact fun hl => ho.envA e s l hl (has hl)
    | asleep c l =>
      rw [hst] at has
      exact has
    | woken c l =>
      rw [hst] at has
      exact has

/-- An outline whose invariant holds at the start holds in every reachable state. -/
theorem Outline.reachable (ho : Outline p inside I A) (hp : p.Bracketed inside)
    {start s : Config T C L S} (h : Reachable p start s) (hstart : Asserts inside I A start) :
    Asserts inside I A s :=
  h.invariant _ hstart (fun _ _ hstep => ho.step hp hstep)

variable [Fintype T]

/-- How many threads have a status that satisfies the test. -/
def count (q : Status C L → Bool) (status : T → Status C L) : ℕ :=
  (Finset.univ.filter (fun t => q (status t) = true)).card

omit [DecidableEq C] in
theorem count_update (q : Status C L → Bool) (status : T → Status C L) (t : T) (st : Status C L) :
    count q (Function.update status t st) + (if q (status t) then 1 else 0) =
      count q status + if q st then 1 else 0 := by
  have hnew := Finset.add_sum_erase Finset.univ
    (fun u => if q (Function.update status t st u) = true then 1 else 0) (Finset.mem_univ t)
  have hold := Finset.add_sum_erase Finset.univ
    (fun u => if q (status u) = true then 1 else 0) (Finset.mem_univ t)
  have hrest : ∑ u ∈ Finset.univ.erase t,
      (if q (Function.update status t st u) = true then 1 else 0) =
      ∑ u ∈ Finset.univ.erase t, (if q (status u) = true then 1 else 0) := by
    apply Finset.sum_congr rfl
    intro u hu
    rw [Function.update_of_ne (Finset.ne_of_mem_erase hu)]
  unfold count
  rw [Finset.card_filter, Finset.card_filter, ← hnew, ← hold, hrest, Function.update_self]
  omega

omit [DecidableEq T] [DecidableEq C] in
theorem count_eq_zero {q : Status C L → Bool} {status : T → Status C L}
    (h : ∀ t, q (status t) = false) : count q status = 0 := by
  simp [count, h]

omit [DecidableEq T] [DecidableEq C] in
/-- A thread that fails the test may be left out. -/
theorem count_option {q : Status C L → Bool} {status : Option T → Status C L}
    (h : q (status none) = false) : count q status = count q (fun t => status (some t)) := by
  simp only [count, Finset.card_filter, Fintype.sum_option, h, Bool.false_eq_true, if_false, zero_add]

end CpreLabs.Pthread
