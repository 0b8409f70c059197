import CpreLabs.RwlockSerialization
import Mathlib.Data.List.Sort

/-!
# Serial orders of the operations under a readers-writer lock

The order of the commits is a serial order in which the clock never runs backwards.
Moving readers past each other changes nothing, so the order of the lock grants is one too.
-/
namespace CpreLabs.Rwlock

variable {T Op F H N O A : Type*}

section Reorder

variable {reads : Op → Bool} {spec : Op → ℕ → A → Effect A N O}

def ticketLE (x y : Entry Op) : Prop := x.ticket ≤ y.ticket

instance : DecidableRel (@ticketLE Op) := fun x y => Nat.decLe x.ticket y.ticket

instance : Std.Total (@ticketLE Op) := ⟨fun x y => Nat.le_total x.ticket y.ticket⟩

instance : IsTrans (Entry Op) ticketLE := ⟨fun _ _ _ => Nat.le_trans⟩

/-- The entries in the order of the lock grants. -/
def byGrant (es : List (Entry Op)) : List (Entry Op) := es.insertionSort ticketLE

/-- Two serial executions with the same state, the same results and the same additions. -/
structure SameRun [AddCommMonoid N] (spec : Op → ℕ → A → Effect A N O)
    (es es' : List (Entry Op)) (a : A) : Prop where
  state : serialState spec es a = serialState spec es' a
  results : (serialResults spec es a).Perm (serialResults spec es' a)
  added : serialAdded spec es a = serialAdded spec es' a

variable [AddCommMonoid N]

theorem SameRun.cons {es es' : List (Entry Op)} (e : Entry Op) {a : A}
    (h : SameRun spec es es' (spec e.op e.now a).state) : SameRun spec (e :: es) (e :: es') a :=
  ⟨h.state, h.results.cons _, by simp only [serialAdded, h.added]⟩

theorem SameRun.trans {es es' es'' : List (Entry Op)} {a : A} (h : SameRun spec es es' a)
    (h' : SameRun spec es' es'' a) : SameRun spec es es'' a :=
  ⟨h.state.trans h'.state, h.results.trans h'.results, h.added.trans h'.added⟩

/-- Two readers in a row may change places. -/
theorem SameRun.swap (hspec : ∀ op now a, reads op = true → (spec op now a).state = a)
    {x y : Entry Op} (hx : reads x.op = true) (hy : reads y.op = true)
    (es : List (Entry Op)) (a : A) : SameRun spec (x :: y :: es) (y :: x :: es) a := by
  refine ⟨?_, ?_, ?_⟩
  · simp only [serialState, hspec _ _ _ hx, hspec _ _ _ hy]
  · simp only [serialResults, hspec _ _ _ hx, hspec _ _ _ hy]
    exact List.Perm.swap ..
  · simp only [serialAdded, hspec _ _ _ hx, hspec _ _ _ hy]
    exact add_left_comm ..

theorem sameRun_orderedInsert
    (hspec : ∀ op now a, reads op = true → (spec op now a).state = a) (e : Entry Op)
    (es : List (Entry Op)) (a : A)
    (h : ∀ x ∈ es, e.ticket < x.ticket ∨ reads e.op = true ∧ reads x.op = true) :
    SameRun spec (es.orderedInsert ticketLE e) (e :: es) a := by
  induction es generalizing a with
  | nil => exact ⟨rfl, .refl _, rfl⟩
  | cons x es ih =>
    by_cases hle : ticketLE e x
    · rw [List.orderedInsert_cons_of_le _ _ hle]
      exact ⟨rfl, .refl _, rfl⟩
    · rw [List.orderedInsert_of_not_le _ _ hle]
      rcases h x (by simp) with hlt | ⟨he, hx⟩
      · exact absurd hlt.le hle
      · have hrest := ih (spec x.op x.now a).state (fun y hy => h y (List.mem_cons_of_mem _ hy))
        exact (hrest.cons x).trans (.swap hspec hx he es a)

theorem sameRun_byGrant
    (hspec : ∀ op now a, reads op = true → (spec op now a).state = a)
    {es : List (Entry Op)} (a : A)
    (h : es.Pairwise (fun x y => x.ticket < y.ticket ∨ reads x.op = true ∧ reads y.op = true)) :
    SameRun spec (byGrant es) es a := by
  induction es generalizing a with
  | nil => exact ⟨rfl, .refl _, rfl⟩
  | cons e es ih =>
    obtain ⟨he, hes⟩ := List.pairwise_cons.mp h
    have hinsert := sameRun_orderedInsert hspec e (byGrant es) a
      (fun x hx => he x ((List.mem_insertionSort ticketLE).mp hx))
    exact hinsert.trans ((ih _ hes).cons e)

end Reorder

/-- Executing `order` one after the other gives the results returned so far, and once nobody
holds the lock every operation granted, the memory and the counters. -/
structure SerializedBy [AddCommGroup N] (spec : Op → ℕ → A → Effect A N O) (Rep : H → A → Prop)
    (a₀ : A) (counters₀ : N) (s : Config T Op F H N O) (order : List (Entry Op)) : Prop where
  granted : ∀ e ∈ order, s.grants[e.ticket]? = some e.op
  nodup : (order.map Entry.ticket).Nodup
  returned : ∀ n o, s.returned n = some o → (n, o) ∈ serialResults spec order a₀
  complete : s.Quiescent → ∀ n, n < s.grants.length →
    n ∈ order.map Entry.ticket ∧ ∃ o, s.returned n = some o
  memory : s.Quiescent → Rep s.memory (serialState spec order a₀)
  counters : s.Quiescent → s.counters = counters₀ + serialAdded spec order a₀

section Main

variable [DecidableEq T] [AddCommGroup N] {c : Code Op F H N O}
  {spec : Op → ℕ → A → Effect A N O} {Rep : H → A → Prop} {Early : Op → F → H → A → Prop}
  {Late : Op → F → H → A → O → N → Prop} {a₀ : A} {counters₀ : N} {s : Config T Op F H N O}

omit [DecidableEq T] [AddCommGroup N] in
theorem Books.call_of_quiescent (hb : Books c s) (hq : s.Quiescent) (t : T) : s.call t = none := by
  have hheld := hb.held t
  rw [hq t] at hheld
  cases hcall : s.call t with
  | none => rfl
  | some x =>
    rw [hcall] at hheld
    cases hheld

omit [DecidableEq T] in
theorem serializedBy_committed {owed : ℕ → N} (hb : Books c s)
    (hs : Sim c spec Rep Early Late a₀ counters₀ s owed) :
    SerializedBy spec Rep a₀ counters₀ s s.committed := by
  refine ⟨hb.entries, hb.nodup, hs.returned, fun hq n hn => ?_, fun hq => ?_, fun hq => ?_⟩
  · rcases hb.finished n hn with ⟨t, op, ht⟩ | hdone
    · rw [hb.call_of_quiescent hq t] at ht
      cases ht
    · exact hdone
  · refine hs.rep (fun t n op ht => ?_)
    rw [hb.call_of_quiescent hq t] at ht
    cases ht
  · have hzero : ∑ n ∈ Finset.range s.grants.length, owed n = 0 := by
      refine Finset.sum_eq_zero (fun n _ => hs.owed_done n (fun t op ht => ?_))
      rw [hb.call_of_quiescent hq t] at ht
      cases ht
    rw [hs.counters, hzero, add_zero]

omit [DecidableEq T] in
theorem SerializedBy.of_sameRun {es es' : List (Entry Op)}
    (h : SerializedBy spec Rep a₀ counters₀ s es) (hperm : es'.Perm es)
    (hrun : SameRun spec es' es a₀) : SerializedBy spec Rep a₀ counters₀ s es' := by
  have htickets : (es'.map Entry.ticket).Perm (es.map Entry.ticket) := hperm.map _
  refine ⟨fun e he => h.granted e (hperm.mem_iff.mp he), htickets.nodup_iff.mpr h.nodup,
    fun n o ho => hrun.results.mem_iff.mpr (h.returned n o ho), fun hq n hn => ?_,
    fun hq => ?_, fun hq => ?_⟩
  · obtain ⟨hmem, ho⟩ := h.complete hq n hn
    exact ⟨htickets.mem_iff.mpr hmem, ho⟩
  · rw [hrun.state]
    exact h.memory hq
  · rw [hrun.added]
    exact h.counters hq

/-- Every interleaving is serialized by the order of the commits, in which the clock does not
run backwards and which differs from the order of the lock grants only in readers that held
the lock together, and by the order of the lock grants. -/
theorem serializedBy_of_reachable (hc : Correct c spec Rep Early Late) {memory : H} {clock : ℕ}
    (h₀ : Rep memory a₀) (h : Reachable c (initial counters₀ memory clock) s) :
    SerializedBy spec Rep a₀ counters₀ s s.committed ∧
      s.committed.Pairwise (fun x y => x.now ≤ y.now) ∧
      s.committed.Pairwise
        (fun x y => x.ticket < y.ticket ∨ c.reads x.op = true ∧ c.reads y.op = true) ∧
      SerializedBy spec Rep a₀ counters₀ s (byGrant s.committed) := by
  obtain ⟨hb, owed, hs⟩ := books_sim_of_reachable hc h₀ h
  have hserial := serializedBy_committed hb hs
  exact ⟨hserial, hb.clocked, hb.ordered, hserial.of_sameRun (List.perm_insertionSort ..)
    (sameRun_byGrant hc.reads_state a₀ hb.ordered)⟩

omit [DecidableEq T] in
/-- Once nobody holds the lock, the grant order executes exactly the operations granted. -/
theorem SerializedBy.byGrant_ops {es : List (Entry Op)}
    (h : SerializedBy spec Rep a₀ counters₀ s (byGrant es)) (hq : s.Quiescent) :
    (byGrant es).map Entry.ticket = List.range s.grants.length ∧
      (byGrant es).map Entry.op = s.grants := by
  have hsorted : ((byGrant es).map Entry.ticket).Pairwise (· ≤ ·) :=
    List.pairwise_map.mpr (List.pairwise_insertionSort ticketLE es)
  have hmem : ∀ n, n ∈ (byGrant es).map Entry.ticket ↔ n ∈ List.range s.grants.length := by
    intro n
    rw [List.mem_range]
    refine ⟨fun hn => ?_, fun hn => (h.complete hq n hn).1⟩
    obtain ⟨e, he, rfl⟩ := List.mem_map.mp hn
    exact (List.getElem?_eq_some_iff.mp (h.granted e he)).1
  have htickets : (byGrant es).map Entry.ticket = List.range s.grants.length :=
    ((List.perm_ext_iff_of_nodup h.nodup List.nodup_range).mpr hmem).eq_of_pairwise' hsorted
      List.pairwise_le_range
  refine ⟨htickets, List.ext_getElem? (fun i => ?_)⟩
  have hlength : (byGrant es).length = s.grants.length := by
    simpa using congrArg List.length htickets
  have hi : ((byGrant es).map Entry.ticket)[i]? = (List.range s.grants.length)[i]? := by
    rw [htickets]
  rcases Nat.lt_or_ge i s.grants.length with hlt | hge
  · rw [List.getElem?_map, List.getElem?_range hlt] at hi
    obtain ⟨e, he, hticket⟩ := Option.map_eq_some_iff.mp hi
    have hgranted := h.granted e (List.mem_of_getElem? he)
    rw [List.getElem?_map, he, ← hticket, hgranted]
    rfl
  · rw [List.getElem?_eq_none (by simpa [hlength] using hge), List.getElem?_eq_none hge]

end Main

end CpreLabs.Rwlock
