import CpreLabs.RwlockThreads

/-!
# Who takes the steps under a readers-writer lock

The steps of `Step` with the thread that takes them and what it does, so that other parts of a
program can say when a thread calls an operation and what it makes of the result.
-/
namespace CpreLabs.Rwlock

/-- What a thread does. -/
inductive Action (Op O : Type*) where
  | call (op : Op)
  | lock
  | run
  | unlock (o : O)

variable {T Op F H N O : Type*} [DecidableEq T] [Add N]

/-- One step of the thread `t`. -/
inductive Moves (c : Code Op F H N O) (t : T) :
    Action Op O → Config T Op F H N O → Config T Op F H N O → Prop
  | call {s} (op : Op) (ht : s.thread t = .idle) :
      Moves c t (.call op) s { s with thread := Function.update s.thread t (.waiting op) }
  | lock {s op} (ht : s.thread t = .waiting op) (hfree : s.available (c.mode op)) :
      Moves c t .lock s { s with
        held := Function.update s.held t (some (c.mode op))
        thread := Function.update s.thread t (.inside s.grants.length op (c.entry op))
        grants := s.grants ++ [op] }
  | run {s n op f f' h' d} (ht : s.thread t = .inside n op f)
      (hstep : c.step s.clock f s.memory f' h' d) :
      Moves c t .run s { s with
        memory := h'
        counters := s.counters + d
        thread := Function.update s.thread t (.inside n op f')
        committed := if c.commits f then s.committed ++ [⟨n, op, s.clock⟩] else s.committed }
  | unlock {s n op f o} (ht : s.thread t = .inside n op f) (ho : c.result f = some o) :
      Moves c t (.unlock o) s { s with
        held := Function.update s.held t none
        thread := Function.update s.thread t .idle
        returned := Function.update s.returned n (some o) }

namespace Moves

variable {c : Code Op F H N O} {t u : T} {a : Action Op O} {s s' : Config T Op F H N O}

theorem step (h : Moves c t a s s') : Step c s s' := by
  cases h with
  | call op ht => exact .call op ht
  | lock ht hfree => exact .lock ht hfree
  | run ht hstep => exact .run ht hstep
  | unlock ht ho => exact .unlock ht ho

theorem thread_of_ne (h : Moves c t a s s') (hu : u ≠ t) : s'.thread u = s.thread u := by
  cases h <;> exact Function.update_of_ne hu ..

theorem idle_of_unlock {o : O} (h : Moves c t (.unlock o) s s') : s'.thread t = .idle := by
  cases h
  exact Function.update_self ..

/-- A step inside keeps the ticket and the operation, and may be the one that commits. -/
theorem run_cases (h : Moves c t .run s s') : ∃ n op f f', s.thread t = .inside n op f ∧
    s'.thread t = .inside n op f' ∧
    ((c.commits f = true ∧ s'.committed = s.committed ++ [⟨n, op, s.clock⟩]) ∨
      (c.commits f = false ∧ s'.committed = s.committed)) := by
  cases h with
  | @run _ n op f f' h' d ht hstep =>
    refine ⟨n, op, f, f', ht, Function.update_self .., ?_⟩
    cases hf : c.commits f with
    | true => exact Or.inl ⟨rfl, rfl⟩
    | false => exact Or.inr ⟨rfl, rfl⟩

theorem clock_eq (h : Moves c t a s s') : s'.clock = s.clock := by
  cases h <;> rfl

theorem committed_of_ne_run (h : Moves c t a s s') (ha : a ≠ .run) :
    s'.committed = s.committed := by
  cases h with
  | run ht hstep => exact absurd rfl ha
  | _ => rfl

end Moves

/-- What a scheduling decision makes a thread do. -/
theorem moves_of_next [Fintype T] {X : Type*} {c : Code Op F H N O}
    {advance : X → ℕ → F → H → Option (F × H × N)}
    (hadvance : ∀ x now f h f' h' d, advance x now f h = some (f', h', d) →
      c.step now f h f' h' d) {s s' : Config T Op F H N O} {e : Event T Op X}
    (h : next c advance s e = some s') :
    match e with
    | .tick _ => True
    | .call t op => Moves c t (.call op) s s'
    | .lock t => Moves c t .lock s s'
    | .run t _ => Moves c t .run s s'
    | .unlock t => ∃ o, Moves c t (.unlock o) s s' := by
  cases e with
  | tick now => trivial
  | call t op =>
    simp only [next] at h
    split at h <;> try contradiction
    cases h
    exact .call op ‹_›
  | lock t =>
    simp only [next] at h
    split at h <;> try contradiction
    obtain ⟨hfree, h⟩ := Option.ite_none_right_eq_some.mp h
    cases h
    exact .lock ‹_› hfree
  | run t x =>
    simp only [next] at h
    split at h <;> try contradiction
    obtain ⟨⟨f', h', d⟩, hstep, h⟩ := Option.map_eq_some_iff.mp h
    cases h
    exact .run ‹_› (hadvance _ _ _ _ _ _ _ hstep)
  | unlock t =>
    simp only [next] at h
    split at h <;> try contradiction
    obtain ⟨o, ho, h⟩ := Option.map_eq_some_iff.mp h
    cases h
    exact ⟨o, .unlock ‹_› ho⟩

end CpreLabs.Rwlock
