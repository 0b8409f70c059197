import Mathlib.Data.Fintype.Basic
import Mathlib.Data.Nat.Notation
import Mathlib.Logic.Relation

/-!
# Threads under one readers-writer lock

Any number of threads run operations step by step over a memory and some counters. An
operation takes the lock in shared or exclusive mode, commits at one of its steps, and
changes the counters only by adding to them. Operations, memory, counters and results are
parameters.
-/
namespace CpreLabs.Rwlock

inductive Mode where
  | shared
  | exclusive
  deriving DecidableEq

/-- The code of the operations between lock and unlock. A frame is a program point with the
local variables; `step` is given the clock, and what it adds to the counters. -/
structure Code (Op F H N O : Type*) where
  reads : Op → Bool
  entry : Op → F
  step : ℕ → F → H → F → H → N → Prop
  /-- The next step fixes the place of the operation in the serial order. -/
  commits : F → Bool
  result : F → Option O

inductive Thread (Op F : Type*) where
  | idle
  | waiting (op : Op)
  /-- `ticket` is the number of the lock grant. -/
  | inside (ticket : ℕ) (op : Op) (f : F)

/-- An operation that has committed, and the clock it has read. -/
structure Entry (Op : Type*) where
  ticket : ℕ
  op : Op
  now : ℕ

structure Config (T Op F H N O : Type*) where
  clock : ℕ
  memory : H
  counters : N
  held : T → Option Mode
  thread : T → Thread Op F
  /-- History: the operations in the order of the lock grants, those that have committed in
  that order, and the results by ticket. -/
  grants : List Op
  committed : List (Entry Op)
  returned : ℕ → Option O

variable {T Op F H N O : Type*}

def Code.mode (c : Code Op F H N O) (op : Op) : Mode :=
  if c.reads op then .shared else .exclusive

/-- `pthread_rwlock`: a writer excludes all other holders. -/
def Config.available (s : Config T Op F H N O) : Mode → Prop
  | .shared => ∀ u, s.held u ≠ some .exclusive
  | .exclusive => ∀ u, s.held u = none

def Thread.call : Thread Op F → Option (ℕ × Op)
  | .inside n op _ => some (n, op)
  | _ => none

namespace Config

/-- The ticket and the operation of a thread that holds the lock. -/
def call (s : Config T Op F H N O) (t : T) : Option (ℕ × Op) := (s.thread t).call

def tickets (s : Config T Op F H N O) : List ℕ := s.committed.map Entry.ticket

def Quiescent (s : Config T Op F H N O) : Prop := ∀ t, s.held t = none

end Config

section Semantics

variable [DecidableEq T] [Add N]

/-- One step of one thread, or of the clock. -/
inductive Step (c : Code Op F H N O) : Config T Op F H N O → Config T Op F H N O → Prop
  | tick {s now} (hle : s.clock ≤ now) : Step c s { s with clock := now }
  | call {s t} (op : Op) (ht : s.thread t = .idle) :
      Step c s { s with thread := Function.update s.thread t (.waiting op) }
  | lock {s t op} (ht : s.thread t = .waiting op) (hfree : s.available (c.mode op)) :
      Step c s { s with
        held := Function.update s.held t (some (c.mode op))
        thread := Function.update s.thread t (.inside s.grants.length op (c.entry op))
        grants := s.grants ++ [op] }
  | run {s t n op f f' h' d} (ht : s.thread t = .inside n op f)
      (hstep : c.step s.clock f s.memory f' h' d) :
      Step c s { s with
        memory := h'
        counters := s.counters + d
        thread := Function.update s.thread t (.inside n op f')
        committed := if c.commits f then s.committed ++ [⟨n, op, s.clock⟩] else s.committed }
  | unlock {s t n op f o} (ht : s.thread t = .inside n op f) (ho : c.result f = some o) :
      Step c s { s with
        held := Function.update s.held t none
        thread := Function.update s.thread t .idle
        returned := Function.update s.returned n (some o) }

def Reachable (c : Code Op F H N O) (start s : Config T Op F H N O) : Prop :=
  Relation.ReflTransGen (Step c) start s

/-- A scheduling decision; `x` is what the step of a thread leaves open. -/
inductive Event (T Op X : Type*) where
  | tick (now : ℕ)
  | call (t : T) (op : Op)
  | lock (t : T)
  | run (t : T) (x : X)
  | unlock (t : T)

instance [Fintype T] (s : Config T Op F H N O) : (mode : Mode) → Decidable (s.available mode)
  | .shared => inferInstanceAs (Decidable (∀ u, s.held u ≠ some .exclusive))
  | .exclusive => inferInstanceAs (Decidable (∀ u, s.held u = none))

/-- The state after a scheduling decision, if it is possible; `advance` executes a frame. -/
def next [Fintype T] {X : Type*} (c : Code Op F H N O)
    (advance : X → ℕ → F → H → Option (F × H × N)) (s : Config T Op F H N O) :
    Event T Op X → Option (Config T Op F H N O)
  | .tick now => if s.clock ≤ now then some { s with clock := now } else none
  | .call t op => match s.thread t with
    | .idle => some { s with thread := Function.update s.thread t (.waiting op) }
    | _ => none
  | .lock t => match s.thread t with
    | .waiting op => if s.available (c.mode op) then some { s with
        held := Function.update s.held t (some (c.mode op))
        thread := Function.update s.thread t (.inside s.grants.length op (c.entry op))
        grants := s.grants ++ [op] } else none
    | _ => none
  | .run t x => match s.thread t with
    | .inside n op f => (advance x s.clock f s.memory).map fun (f', h', d) => { s with
        memory := h'
        counters := s.counters + d
        thread := Function.update s.thread t (.inside n op f')
        committed := if c.commits f then s.committed ++ [⟨n, op, s.clock⟩] else s.committed }
    | _ => none
  | .unlock t => match s.thread t with
    | .inside n _ f => (c.result f).map fun o => { s with
        held := Function.update s.held t none
        thread := Function.update s.thread t .idle
        returned := Function.update s.returned n (some o) }
    | _ => none

def runSchedule [Fintype T] {X : Type*} (c : Code Op F H N O)
    (advance : X → ℕ → F → H → Option (F × H × N)) :
    Config T Op F H N O → List (Event T Op X) → Option (Config T Op F H N O)
  | s, [] => some s
  | s, e :: es => (next c advance s e).bind (fun s' => runSchedule c advance s' es)

section Schedules

variable [Fintype T] {X : Type*} {c : Code Op F H N O}
  {advance : X → ℕ → F → H → Option (F × H × N)}

theorem step_of_next (hadvance : ∀ x now f h f' h' d, advance x now f h = some (f', h', d) →
    c.step now f h f' h' d) {s s' : Config T Op F H N O} {e : Event T Op X}
    (h : next c advance s e = some s') : Step c s s' := by
  cases e with
  | tick now =>
    obtain ⟨hle, h⟩ := Option.ite_none_right_eq_some.mp h
    cases h
    exact .tick hle
  | call t op =>
    simp only [next] at h
    split at h <;> try contradiction
    cases h
    exact .call op ‹_›
  | lock t =>
    simp only [next] at h
    split at h <;> try contradiction
    obtain ⟨hfree, h⟩ := Option.ite_none_right_eq_some.mp h
    cases h
    exact .lock ‹_› hfree
  | run t x =>
    simp only [next] at h
    split at h <;> try contradiction
    obtain ⟨⟨f', h', d⟩, hstep, h⟩ := Option.map_eq_some_iff.mp h
    cases h
    exact .run ‹_› (hadvance _ _ _ _ _ _ _ hstep)
  | unlock t =>
    simp only [next] at h
    split at h <;> try contradiction
    obtain ⟨o, ho, h⟩ := Option.map_eq_some_iff.mp h
    cases h
    exact .unlock ‹_› ho

theorem reachable_of_schedule (hadvance : ∀ x now f h f' h' d,
    advance x now f h = some (f', h', d) → c.step now f h f' h' d) (es : List (Event T Op X))
    {s s' : Config T Op F H N O} (h : runSchedule c advance s es = some s') :
    Reachable c s s' := by
  induction es generalizing s with
  | nil =>
    cases h
    exact .refl
  | cons e es ih =>
    obtain ⟨s₁, hs₁, hrest⟩ := Option.bind_eq_some_iff.mp h
    exact .head (step_of_next hadvance hs₁) (ih hrest)

end Schedules

end Semantics

def initial (counters₀ : N) (memory : H) (clock : ℕ) : Config T Op F H N O where
  clock := clock
  memory := memory
  counters := counters₀
  held _ := none
  thread _ := .idle
  grants := []
  committed := []
  returned _ := none

section Calls

variable {s s' : Config T Op F H N O} {t u : T}

theorem call_of_inside {n : ℕ} {op : Op} {f : F} (ht : s.thread t = .inside n op f) :
    s.call t = some (n, op) := by
  rw [Config.call, ht]
  rfl

variable [DecidableEq T]

theorem call_update (s : Config T Op F H N O) (t : T) (th : Thread Op F) (u : T) :
    (Function.update s.thread t th u).call = if u = t then th.call else s.call u := by
  by_cases hu : u = t
  · subst hu
    simp
  · rw [Function.update_of_ne hu, if_neg hu]
    rfl

theorem inside_update {th : Thread Op F} {n : ℕ} {op : Op} {f : F}
    (hth : th.call = none) (hu : Function.update s.thread t th u = .inside n op f) :
    u ≠ t ∧ s.thread u = .inside n op f := by
  by_cases hut : u = t
  · subst hut
    rw [Function.update_self] at hu
    rw [hu] at hth
    cases hth
  · rw [Function.update_of_ne hut] at hu
    exact ⟨hut, hu⟩

theorem inside_cases {n m : ℕ} {op op' : Op} {f g : F}
    (hu : Function.update s.thread t (.inside n op f) u = .inside m op' g) :
    (u = t ∧ m = n ∧ op' = op ∧ g = f) ∨ (u ≠ t ∧ s.thread u = .inside m op' g) := by
  by_cases hut : u = t
  · subst hut
    rw [Function.update_self] at hu
    cases hu
    exact Or.inl ⟨rfl, rfl, rfl, rfl⟩
  · rw [Function.update_of_ne hut] at hu
    exact Or.inr ⟨hut, hu⟩

theorem call_of_idle (op : Op) (ht : s.thread t = .idle) :
    Config.call { s with thread := Function.update s.thread t (.waiting op) } = s.call := by
  funext u
  rw [Config.call, call_update]
  split
  · rename_i hut
    rw [hut, Config.call, ht]
    rfl
  · rfl

theorem call_of_run {n : ℕ} {op : Op} {f f' : F}
    (ht : s.thread t = .inside n op f)
    (hthread : s'.thread = Function.update s.thread t (.inside n op f')) : s'.call = s.call := by
  funext u
  rw [Config.call, hthread, call_update]
  split
  · rename_i hut
    rw [hut, call_of_inside ht]
    rfl
  · rfl

end Calls

end CpreLabs.Rwlock
