import Mathlib.Data.List.Nodup
import Mathlib.Logic.Function.Basic
import Mathlib.Tactic.Common

/-!
# Singly linked chains in a heap

A heap maps addresses to nodes; a family of chains is given by the address of the first
node of each. `Segment` is the part of a chain between two pointers, with the addresses and
the data of its nodes. `Chains` says that the chains of the family share no node; it survives
writing data, linking a node in at the front and unlinking a node behind a given place.
-/
namespace CpreLabs.Linked

structure Node (A D : Type*) where
  data : D
  next : Option A

variable {A D I : Type*}

def Segment (heap : A → Option (Node A D)) : Option A → List (A × D) → Option A → Prop
  | start, [], stop => start = stop
  | start, (a, d) :: cells, stop =>
      start = some a ∧ ∃ next, heap a = some ⟨d, next⟩ ∧ Segment heap next cells stop

section Segments

variable {heap heap' : A → Option (Node A D)} {start stop : Option A} {cells : List (A × D)}

theorem segment_append {cells' : List (A × D)} :
    Segment heap start (cells ++ cells') stop ↔
      ∃ mid, Segment heap start cells mid ∧ Segment heap mid cells' stop := by
  induction cells generalizing start with
  | nil => simp [Segment]
  | cons c cells ih =>
    simp only [List.cons_append, Segment, ih]
    constructor
    · rintro ⟨hs, next, hnode, mid, hcells, hcells'⟩
      exact ⟨mid, ⟨hs, next, hnode, hcells⟩, hcells'⟩
    · rintro ⟨mid, ⟨hs, next, hnode, hcells⟩, hcells'⟩
      exact ⟨hs, next, hnode, mid, hcells, hcells'⟩

theorem Segment.congr (h : Segment heap start cells stop)
    (hsame : ∀ a ∈ cells.map Prod.fst, heap' a = heap a) : Segment heap' start cells stop := by
  induction cells generalizing start with
  | nil => exact h
  | cons c cells ih =>
    obtain ⟨hs, next, hnode, hcells⟩ := h
    refine ⟨hs, next, (hsame c.1 (by simp)).trans hnode, ih hcells (fun a ha => hsame a ?_)⟩
    exact List.mem_cons_of_mem _ ha

theorem Segment.node (h : Segment heap start cells stop) {a : A} (ha : a ∈ cells.map Prod.fst) :
    ∃ node, heap a = some node := by
  induction cells generalizing start with
  | nil => cases ha
  | cons c cells ih =>
    obtain ⟨-, next, hnode, hcells⟩ := h
    rcases List.mem_cons.mp ha with rfl | ha
    · exact ⟨_, hnode⟩
    · exact ih hcells ha

/-- The address of the last node, if any. -/
def lastAddr (cells : List (A × D)) : Option A := cells.getLast?.map Prod.fst

@[simp] theorem lastAddr_nil : lastAddr ([] : List (A × D)) = none := rfl

@[simp] theorem lastAddr_concat (cells : List (A × D)) (c : A × D) :
    lastAddr (cells ++ [c]) = some c.1 := by
  simp [lastAddr]

/-- What is stored in the place after the node `ptr`, or in the place of the first pointer. -/
def readLink (heap : A → Option (Node A D)) (first : Option A) : Option A → Option (Option A)
  | none => some first
  | some a => (heap a).map Node.next

theorem Segment.readLink (h : Segment heap start cells stop) :
    readLink heap start (lastAddr cells) = some stop := by
  rcases List.eq_nil_or_concat cells with rfl | ⟨cells, c, rfl⟩
  · exact congrArg some h
  · rw [List.concat_eq_append] at h ⊢
    obtain ⟨mid, -, -, next, hnode, rfl⟩ := segment_append.mp h
    simp [Linked.readLink, hnode]

end Segments

/-- Chains that end, visit no node twice and share none. -/
structure Chains (heap : A → Option (Node A D)) (first : I → Option A) (cells : I → List (A × D)) :
    Prop where
  segment : ∀ i, Segment heap (first i) (cells i) none
  nodup : ∀ i, ((cells i).map Prod.fst).Nodup
  disjoint : ∀ i j a, a ∈ (cells i).map Prod.fst → a ∈ (cells j).map Prod.fst → i = j

namespace Chains

variable {heap : A → Option (Node A D)} {first : I → Option A} {cells : I → List (A × D)}

theorem fresh (h : Chains heap first cells) {a : A} (ha : heap a = none) (i : I) :
    a ∉ (cells i).map Prod.fst := by
  intro hmem
  obtain ⟨node, hnode⟩ := (h.segment i).node hmem
  rw [ha] at hnode
  cases hnode

theorem ne_of_ne (h : Chains heap first cells) {i j : I} (hji : j ≠ i) {a b : A}
    (ha : a ∈ (cells i).map Prod.fst) (hb : b ∈ (cells j).map Prod.fst) : b ≠ a := by
  rintro rfl
  exact hji (h.disjoint j i b hb ha)

theorem split (h : Chains heap first cells) {i : I} {before after : List (A × D)} {a : A} {d : D}
    {next : Option A} (hcells : cells i = before ++ (a, d) :: after)
    (hnode : heap a = some ⟨d, next⟩) :
    Segment heap (first i) before (some a) ∧ Segment heap next after none ∧
      a ∉ before.map Prod.fst ∧ a ∉ after.map Prod.fst ∧ a ∈ (cells i).map Prod.fst := by
  have hsegment := h.segment i
  have hnodup := h.nodup i
  rw [hcells] at hsegment hnodup
  obtain ⟨mid, hbefore, rfl, next', hnode', hafter⟩ := segment_append.mp hsegment
  rw [hnode] at hnode'
  cases hnode'
  simp only [List.map_append, List.map_cons] at hnodup
  obtain ⟨-, hcons, hdisjoint⟩ := List.nodup_append.mp hnodup
  exact ⟨hbefore, hafter, fun ha => hdisjoint a ha a (by simp) rfl, (List.nodup_cons.mp hcons).1,
    by simp [hcells]⟩

/-- Replacing one chain by one of its own and of unused nodes, the others as before. -/
theorem replace [DecidableEq I] (h : Chains heap first cells) {heap' : A → Option (Node A D)}
    {first' : I → Option A} {i : I} {new : List (A × D)}
    (hnew : Segment heap' (first' i) new none) (hnodup : (new.map Prod.fst).Nodup)
    (hsub : ∀ a ∈ new.map Prod.fst, a ∈ (cells i).map Prod.fst ∨
      ∀ j, a ∉ (cells j).map Prod.fst)
    (hfirst : ∀ j, j ≠ i → first' j = first j)
    (hheap : ∀ j, j ≠ i → ∀ a ∈ (cells j).map Prod.fst, heap' a = heap a) :
    Chains heap' first' (Function.update cells i new) := by
  refine ⟨fun j => ?_, fun j => ?_, fun j k a hj hk => ?_⟩
  · by_cases hji : j = i
    · subst hji
      simpa using hnew
    · rw [Function.update_of_ne hji, hfirst j hji]
      exact (h.segment j).congr (hheap j hji)
  · by_cases hji : j = i
    · subst hji
      simpa using hnodup
    · rw [Function.update_of_ne hji]
      exact h.nodup j
  · by_cases hji : j = i
    · by_cases hki : k = i
      · exact hji.trans hki.symm
      · subst hji
        rw [Function.update_self] at hj
        rw [Function.update_of_ne hki] at hk
        rcases hsub a hj with hmem | hout
        · exact h.disjoint _ _ _ hmem hk
        · exact absurd hk (hout k)
    · rw [Function.update_of_ne hji] at hj
      by_cases hki : k = i
      · subst hki
        rw [Function.update_self] at hk
        rcases hsub a hk with hmem | hout
        · exact h.disjoint _ _ _ hj hmem
        · exact absurd hj (hout j)
      · rw [Function.update_of_ne hki] at hk
        exact h.disjoint j k a hj hk

variable [DecidableEq A]

/-- Writing, allocating or freeing a node that is in no chain. -/
theorem write_fresh (h : Chains heap first cells) {a : A}
    (ha : ∀ i, a ∉ (cells i).map Prod.fst) (node : Option (Node A D)) :
    Chains (Function.update heap a node) first cells := by
  refine ⟨fun i => (h.segment i).congr (fun b hb => ?_), h.nodup, h.disjoint⟩
  have hba : b ≠ a := by
    rintro rfl
    exact ha i hb
  exact Function.update_of_ne hba _ _

variable [DecidableEq I]

theorem write_data (h : Chains heap first cells) {i : I} {before after : List (A × D)} {a : A}
    {d : D} {next : Option A} (hcells : cells i = before ++ (a, d) :: after)
    (hnode : heap a = some ⟨d, next⟩) (d' : D) :
    Chains (Function.update heap a (some ⟨d', next⟩)) first
      (Function.update cells i (before ++ (a, d') :: after)) := by
  obtain ⟨hbefore, hafter, hout, hout', hmem⟩ := h.split hcells hnode
  have hnodup := h.nodup i
  rw [hcells] at hnodup
  refine h.replace ?_ (by simpa using hnodup) (fun b hb => Or.inl ?_) (fun _ _ => rfl)
    (fun j hji b hb => Function.update_of_ne (h.ne_of_ne hji hmem hb) _ _)
  · refine segment_append.mpr ⟨some a, hbefore.congr (fun b hb => ?_), rfl, next,
      Function.update_self .., hafter.congr (fun b hb => ?_)⟩
    · exact Function.update_of_ne (fun heq => hout (by rwa [heq] at hb)) _ _
    · exact Function.update_of_ne (fun heq => hout' (by rwa [heq] at hb)) _ _
  · simpa [hcells] using hb

omit [DecidableEq A] in
theorem link (h : Chains heap first cells) {i : I} {a : A} {d : D}
    (ha : ∀ j, a ∉ (cells j).map Prod.fst) (hnode : heap a = some ⟨d, first i⟩) :
    Chains heap (Function.update first i (some a)) (Function.update cells i ((a, d) :: cells i)) := by
  refine h.replace ?_ ?_ (fun b hb => ?_) (fun j hji => Function.update_of_ne hji _ _)
    (fun _ _ _ _ => rfl)
  · exact ⟨Function.update_self .., first i, hnode, h.segment i⟩
  · exact List.nodup_cons.mpr ⟨ha i, h.nodup i⟩
  · rcases List.mem_cons.mp hb with rfl | hb
    · exact Or.inr ha
    · exact Or.inl hb

end Chains

section Cursor

variable {heap : A → Option (Node A D)} {first : I → Option A} {cells : I → List (A × D)}

/-- The pointer `curr` stands in chain `i` between the nodes `before` and `after`. -/
structure Cursor (heap : A → Option (Node A D)) (first : I → Option A) (cells : I → List (A × D))
    (i : I) (curr : Option A) (before after : List (A × D)) : Prop where
  chains : Chains heap first cells
  cells_eq : cells i = before ++ after
  rest : Segment heap curr after none

theorem Chains.cursor (h : Chains heap first cells) (i : I) :
    Cursor heap first cells i (first i) [] (cells i) :=
  ⟨h, rfl, h.segment i⟩

variable {i : I} {curr : Option A} {before after : List (A × D)}

theorem Chains.cursor_between (h : Chains heap first cells) (hcells : cells i = before ++ after) :
    ∃ curr, Cursor heap first cells i curr before after := by
  have hsegment := h.segment i
  rw [hcells] at hsegment
  obtain ⟨curr, -, hrest⟩ := segment_append.mp hsegment
  exact ⟨curr, h, hcells, hrest⟩

theorem Cursor.at_end (h : Cursor heap first cells i none before after) : after = [] := by
  cases after with
  | nil => rfl
  | cons c after => cases h.rest.1

theorem Cursor.at_node {a : A} (h : Cursor heap first cells i (some a) before after) :
    ∃ d next rest, after = (a, d) :: rest ∧ heap a = some ⟨d, next⟩ ∧
      Cursor heap first cells i next (before ++ [(a, d)]) rest := by
  cases after with
  | nil => cases h.rest
  | cons c rest =>
    obtain ⟨hc, next, hnode, hrest⟩ := h.rest
    cases hc
    exact ⟨c.2, next, rest, rfl, hnode, h.chains, by rw [h.cells_eq]; simp, hrest⟩

/-- The place that holds the pointer. -/
theorem Cursor.readLink (h : Cursor heap first cells i curr before after) :
    Linked.readLink heap (first i) (lastAddr before) = some curr := by
  have hsegment := h.chains.segment i
  rw [h.cells_eq] at hsegment
  obtain ⟨mid, hbefore, hafter⟩ := segment_append.mp hsegment
  have hmid : mid = curr := by
    cases after with
    | nil => exact Eq.trans hafter (Eq.symm h.rest)
    | cons c after => exact hafter.1.trans h.rest.1.symm
  rw [← hmid]
  exact hbefore.readLink

end Cursor

/-- Writing the place after the node `ptr`, or the place of the first pointer of chain `i`. -/
def writeLink [DecidableEq A] [DecidableEq I] (heap : A → Option (Node A D))
    (first : I → Option A) (i : I) (target : Option A) :
    Option A → (A → Option (Node A D)) × (I → Option A)
  | none => (heap, Function.update first i target)
  | some p =>
      (Function.update heap p ((heap p).map (fun node => { node with next := target })), first)

/-- Unlinking a node: the place before it gets its `next`, and the node is in no chain. -/
theorem Chains.unlink [DecidableEq A] [DecidableEq I] {heap : A → Option (Node A D)}
    {first : I → Option A} {cells : I → List (A × D)} (h : Chains heap first cells) {i : I}
    {before after : List (A × D)} {a : A} {d : D} {next : Option A}
    (hcells : cells i = before ++ (a, d) :: after) (hnode : heap a = some ⟨d, next⟩) :
    Chains (writeLink heap first i next (lastAddr before)).1
        (writeLink heap first i next (lastAddr before)).2
        (Function.update cells i (before ++ after)) ∧
      (∀ j, a ∉ (Function.update cells i (before ++ after) j).map Prod.fst) ∧
      (writeLink heap first i next (lastAddr before)).1 a = some ⟨d, next⟩ := by
  obtain ⟨hbefore, hafter, hout, hout', hmem⟩ := h.split hcells hnode
  have hnodup := h.nodup i
  rw [hcells] at hnodup
  have hnodup' : ((before ++ after).map Prod.fst).Nodup := by
    refine hnodup.sublist (List.Sublist.map _ ?_)
    exact List.Sublist.append_left (List.sublist_cons_self ..) _
  have hsub : ∀ b ∈ (before ++ after).map Prod.fst, b ∈ (cells i).map Prod.fst := by
    intro b hb
    simp only [hcells, List.map_append, List.map_cons, List.mem_append, List.mem_cons] at hb ⊢
    rcases hb with hb | hb
    · exact Or.inl hb
    · exact Or.inr (Or.inr hb)
  have hfree : ∀ j, a ∉ (Function.update cells i (before ++ after) j).map Prod.fst := by
    intro j hj
    by_cases hji : j = i
    · subst hji
      rw [Function.update_self, List.map_append, List.mem_append] at hj
      exact hj.elim hout hout'
    · rw [Function.update_of_ne hji] at hj
      exact h.ne_of_ne hji hmem hj rfl
  rcases List.eq_nil_or_concat before with rfl | ⟨front, ⟨p, dp⟩, rfl⟩
  · refine ⟨h.replace ?_ hnodup' (fun b hb => Or.inl (hsub b hb))
      (fun j hji => Function.update_of_ne hji _ _) (fun _ _ _ _ => rfl), hfree, hnode⟩
    simpa [writeLink] using hafter
  · rw [List.concat_eq_append] at *
    obtain ⟨mid, hfront, rfl, next', hp, rfl⟩ := segment_append.mp hbefore
    have hcells' : cells i = front ++ (p, dp) :: ((a, d) :: after) := by simp [hcells]
    obtain ⟨-, -, hpfront, hpafter, hpmem⟩ := h.split hcells' hp
    have hpa : a ≠ p := by
      rintro rfl
      exact hout (by simp)
    simp only [lastAddr_concat, writeLink, hp, Option.map_some]
    refine ⟨h.replace ?_ hnodup' (fun b hb => Or.inl (hsub b hb)) (fun _ _ => rfl)
      (fun j hji b hb => Function.update_of_ne (h.ne_of_ne hji hpmem hb) _ _), hfree, ?_⟩
    · refine segment_append.mpr ⟨next, segment_append.mpr ⟨some p, hfront.congr (fun b hb => ?_),
        rfl, next, Function.update_self .., rfl⟩, hafter.congr (fun b hb => ?_)⟩
      · exact Function.update_of_ne (fun heq => hpfront (by rwa [heq] at hb)) _ _
      · refine Function.update_of_ne (fun heq => hpafter ?_) _ _
        rw [heq] at hb
        exact List.mem_cons_of_mem _ hb
    · rw [Function.update_of_ne hpa]
      exact hnode

end CpreLabs.Linked
