import CpreLabs.NodeAccounting

/-!
# `kv_destroy`

The loop of `kv_destroy` frees the nodes of a bucket from the front and leaves the pointers to
them behind. What remains to be freed at a program point are the buckets after the current one
and the rest of its chain; at the end of the loop the memory is that of `kv_init`.
-/
namespace CpreLabs

open Linked Relation

variable {numBuckets : ℕ+} {base : Addr → Option KvNode}

/-- The statements of `kv_destroy` for a table that is not `NULL`. -/
inductive DestroyPoint (numBuckets : ℕ+) where
  | wrlock
  | readHead (i : Fin numBuckets)
  | visit (i : Fin numBuckets) (curr : Option Addr)
  | free (i : Fin numBuckets) (curr : Addr) (next : Option Addr)
  | freeBuckets
  | unlock
  | destroyLock
  | freeTable
  | fault

namespace DestroyPoint

/-- The two loops. Reading or freeing what is not allocated ends in `fault`. -/
def advance (st : Store numBuckets) :
    DestroyPoint numBuckets → Option (DestroyPoint numBuckets × Store numBuckets)
  | .readHead i => some (.visit i (st.buckets i), st)
  | .visit i none => some (match nextBucket i with
    | some j => .readHead j
    | none => .freeBuckets, st)
  | .visit i (some curr) => some (match st.heap curr with
    | some node => (.free i curr node.next, st)
    | none => (.fault, st))
  | .free i curr next => some (match st.heap curr with
    | some _ => (.visit i next, st.write curr none)
    | none => (.fault, st))
  | _ => none

def Advances (x y : DestroyPoint numBuckets × Store numBuckets) : Prop :=
  x.1.advance x.2 = some y

end DestroyPoint

/-- The first nodes still to be freed, with `curr` in bucket `i`. -/
def headsLeft (st : Store numBuckets) (i : Fin numBuckets) (curr : Option Addr)
    (j : Fin numBuckets) : Option Addr :=
  if j < i then none else if j = i then curr else st.buckets j

section Remaining

variable {st : Store numBuckets} {i : Fin numBuckets} {curr next : Option Addr}

theorem headsLeft_self : headsLeft st i curr i = curr := by
  rw [headsLeft, if_neg (lt_irrefl i), if_pos rfl]

theorem headsLeft_zero (st : Store numBuckets) :
    headsLeft st ⟨0, numBuckets.pos⟩ (st.buckets ⟨0, numBuckets.pos⟩) = st.buckets := by
  funext j
  have hj : ¬j < ⟨0, numBuckets.pos⟩ := Nat.not_lt_zero _
  rw [headsLeft, if_neg hj]
  split
  · rename_i h
    rw [h]
  · rfl

theorem headsLeft_update :
    Function.update (headsLeft st i curr) i next = headsLeft st i next := by
  funext j
  by_cases hj : j = i
  · subst hj
    rw [Function.update_self, headsLeft_self]
  · rw [Function.update_of_ne hj, headsLeft, headsLeft, if_neg hj, if_neg hj]

theorem headsLeft_next {j : Fin numBuckets} (h : nextBucket i = some j) :
    headsLeft st i none = headsLeft st j (st.buckets j) := by
  obtain ⟨hlt, rfl⟩ : ∃ hlt : (i : ℕ) + 1 < numBuckets, ⟨i + 1, hlt⟩ = j := by
    unfold nextBucket at h
    split at h
    · exact ⟨_, Option.some.inj h⟩
    · cases h
  funext k
  simp only [headsLeft, Fin.lt_def, Fin.ext_iff]
  rcases lt_trichotomy (k : ℕ) i with hk | hk | hk
  · rw [if_pos hk, if_pos (by omega)]
  · rw [if_neg (by omega), if_pos hk, if_pos (by omega)]
  · rw [if_neg (by omega), if_neg (by omega), if_neg (by omega)]
    split
    · rename_i heq
      rw [show k = ⟨i + 1, hlt⟩ from Fin.ext heq]
    · rfl

theorem headsLeft_last (h : nextBucket i = none) (k : Fin numBuckets) :
    headsLeft st i none k = none := by
  have hi : ¬(i : ℕ) + 1 < numBuckets := by
    intro hlt
    rw [nextBucket, dif_pos hlt] at h
    cases h
  have hk := k.isLt
  simp only [headsLeft, Fin.lt_def, Fin.ext_iff]
  split
  · rfl
  · rw [if_pos (by omega)]

end Remaining

/-- Nodes of the table are left in the chains that remain, and nowhere else. -/
def Remains (base : Addr → Option KvNode) (st : Store numBuckets) (i : Fin numBuckets)
    (curr : Option Addr) : Prop :=
  ∃ cells, Owned base st.heap (headsLeft st i curr) cells none

theorem Accounts.remains {st : Store numBuckets} (h : Accounts base st none) :
    Remains base st ⟨0, numBuckets.pos⟩ (st.buckets ⟨0, numBuckets.pos⟩) := by
  rw [Remains, headsLeft_zero]
  exact h

section Steps

variable {st : Store numBuckets} {i : Fin numBuckets}

theorem Remains.next {j : Fin numBuckets} (h : Remains base st i none)
    (hj : nextBucket i = some j) : Remains base st j (st.buckets j) := by
  rwa [Remains, ← headsLeft_next hj]

theorem Remains.last (h : Remains base st i none) (hi : nextBucket i = none) :
    st.heap = base := by
  obtain ⟨cells, howned⟩ := h
  exact howned.heap_eq (headsLeft_last hi)

/-- The current node is the first of its chain, and is there. -/
theorem Remains.node {a : Addr} (h : Remains base st i (some a)) :
    ∃ d next, st.heap a = some ⟨d, next⟩ := by
  obtain ⟨cells, howned⟩ := h
  obtain ⟨d, next, rest, -, hnode⟩ := howned.first_cell headsLeft_self
  exact ⟨d, next, hnode⟩

theorem Remains.free {a : Addr} {d : KvEntry} {next : Option Addr}
    (h : Remains base st i (some a)) (hnode : st.heap a = some ⟨d, next⟩) :
    Remains base (st.write a none) i next := by
  obtain ⟨cells, howned⟩ := h
  obtain ⟨d', next', rest, hcells, hnode'⟩ := howned.first_cell headsLeft_self
  rw [hnode] at hnode'
  cases hnode'
  have hfreed := howned.free_first hcells hnode
  rw [headsLeft_update] at hfreed
  exact ⟨_, hfreed⟩

end Steps

/-- What holds in `kv_destroy`, at each of its program points. -/
def DestroyPoint.Holds (base : Addr → Option KvNode) (st : Store numBuckets) :
    DestroyPoint numBuckets → Prop
  | .wrlock => Accounts base st none
  | .readHead i => Remains base st i (st.buckets i)
  | .visit i curr => Remains base st i curr
  | .free i curr next => Remains base st i (some curr) ∧ ∃ d, st.heap curr = some ⟨d, next⟩
  | .freeBuckets | .unlock | .destroyLock | .freeTable => st.heap = base
  | .fault => False

theorem DestroyPoint.Holds.advance {p p' : DestroyPoint numBuckets} {st st' : Store numBuckets}
    (h : p.Holds base st) (hstep : p.advance st = some (p', st')) : p'.Holds base st' := by
  cases p with
  | readHead i =>
    cases hstep
    exact h
  | visit i curr =>
    cases curr with
    | none =>
      simp only [DestroyPoint.advance, Option.some.injEq, Prod.mk.injEq] at hstep
      obtain ⟨hp, rfl⟩ := hstep
      cases hi : nextBucket i with
      | some j =>
        rw [hi] at hp
        cases hp
        exact h.next hi
      | none =>
        rw [hi] at hp
        cases hp
        exact h.last hi
    | some curr =>
      obtain ⟨d, next, hnode⟩ := Remains.node h
      simp only [DestroyPoint.advance, hnode, Option.some.injEq] at hstep
      cases hstep
      exact ⟨h, d, hnode⟩
  | free i curr next =>
    obtain ⟨hrest, d, hnode⟩ := h
    simp only [DestroyPoint.advance, hnode, Option.some.injEq] at hstep
    cases hstep
    exact hrest.free hnode
  | _ => cases hstep

/-- The chain of the current bucket is freed to its end. -/
theorem destroys_chain {st : Store numBuckets} {i : Fin numBuckets} {curr : Option Addr}
    {cells : Cells numBuckets} (h : Owned base st.heap (headsLeft st i curr) cells none) :
    ∃ st', st'.buckets = st.buckets ∧ Remains base st' i none ∧
      ReflTransGen DestroyPoint.Advances (.visit i curr, st) (.visit i none, st') := by
  induction hn : (cells i).length generalizing st curr cells with
  | zero =>
    have hsegment := h.chains.segment i
    rw [headsLeft_self, List.length_eq_zero_iff.mp hn] at hsegment
    cases hsegment
    exact ⟨st, rfl, ⟨cells, h⟩, .refl⟩
  | succ n ih =>
    obtain ⟨⟨a, d⟩, rest, hcells⟩ := List.exists_cons_of_length_eq_add_one hn
    have hsegment := h.chains.segment i
    rw [headsLeft_self, hcells] at hsegment
    obtain ⟨rfl, next, hnode, -⟩ := hsegment
    have hfreed := h.free_first hcells hnode
    rw [headsLeft_update] at hfreed
    have hlength : (Function.update cells i rest i).length = n := by
      rw [Function.update_self]
      rw [hcells, List.length_cons] at hn
      omega
    obtain ⟨st', hbuckets, hrest, hsteps⟩ :
        ∃ st', st'.buckets = (st.write a none).buckets ∧ Remains base st' i none ∧
          ReflTransGen DestroyPoint.Advances (.visit i next, st.write a none)
            (.visit i none, st') := ih hfreed hlength
    have hvisit : DestroyPoint.Advances (.visit i (some a), st) (.free i a next, st) := by
      simp only [DestroyPoint.Advances, DestroyPoint.advance, hnode]
    have hfree : DestroyPoint.Advances (.free i a next, st) (.visit i next, st.write a none) := by
      simp only [DestroyPoint.Advances, DestroyPoint.advance, hnode]
    exact ⟨st', hbuckets, hrest, .head hvisit (.head hfree hsteps)⟩

/-- From every bucket on the outer loop comes to its end. -/
theorem destroys_buckets {st : Store numBuckets} {i : Fin numBuckets} {curr : Option Addr}
    (h : Remains base st i curr) : ∃ st',
      ReflTransGen DestroyPoint.Advances (.visit i curr, st) (.freeBuckets, st') := by
  induction hn : (numBuckets : ℕ) - i generalizing st i curr with
  | zero =>
    have hi := i.isLt
    omega
  | succ n ih =>
    obtain ⟨cells, howned⟩ := h
    obtain ⟨st₁, hbuckets, hrest, hchain⟩ := destroys_chain howned
    cases hi : nextBucket i with
    | none =>
      refine ⟨st₁, hchain.tail ?_⟩
      simp only [DestroyPoint.Advances, DestroyPoint.advance, hi]
    | some j =>
      have hj : (j : ℕ) = i + 1 := by
        unfold nextBucket at hi
        split at hi
        · rw [← Option.some.inj hi]
        · cases hi
      obtain ⟨st', hsteps⟩ := ih (hrest.next hi) (by omega)
      have hvisit : DestroyPoint.Advances (.visit i none, st₁) (.readHead j, st₁) := by
        simp only [DestroyPoint.Advances, DestroyPoint.advance, hi]
      exact ⟨st', (hchain.tail hvisit).trans (.head rfl hsteps)⟩

theorem destroys_all {p : DestroyPoint numBuckets} {st : Store numBuckets} (h : p.Holds base st)
    (hloop : (p.advance st).isSome) :
    ∃ st', ReflTransGen DestroyPoint.Advances (p, st) (.freeBuckets, st') := by
  cases p with
  | readHead i =>
    obtain ⟨st', hsteps⟩ := destroys_buckets h
    exact ⟨st', .head rfl hsteps⟩
  | visit i curr => exact destroys_buckets h
  | free i curr next =>
    obtain ⟨hrest, d, hnode⟩ := h
    obtain ⟨st', hsteps⟩ := destroys_buckets (hrest.free hnode)
    refine ⟨st', .head ?_ hsteps⟩
    simp only [DestroyPoint.Advances, DestroyPoint.advance, hnode]
  | _ => cases hloop

end CpreLabs
