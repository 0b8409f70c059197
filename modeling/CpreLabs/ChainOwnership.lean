import CpreLabs.LinkedChains

/-!
# Who owns the nodes of a heap

Against the heap at the start, the nodes allocated since are those of the chains and at most
one node that is held outside of them; what was there at the start is untouched. Allocating,
linking, unlinking and freeing a node keep this, so nothing is ever leaked.
-/
namespace CpreLabs.Linked

variable {A D I : Type*}

section Unique

variable {heap : A → Option (Node A D)}

theorem Segment.unique {start : Option A} {cells cells' : List (A × D)}
    (h : Segment heap start cells none) (h' : Segment heap start cells' none) :
    cells = cells' := by
  induction cells generalizing start cells' with
  | nil =>
    cases h
    cases cells' with
    | nil => rfl
    | cons c cells' => cases h'.1
  | cons c cells ih =>
    obtain ⟨a, d⟩ := c
    obtain ⟨rfl, next, hnode, hrest⟩ := h
    cases cells' with
    | nil => cases h'
    | cons c' cells' =>
      obtain ⟨a', d'⟩ := c'
      obtain ⟨ha, next', hnode', hrest'⟩ := h'
      cases ha
      rw [hnode] at hnode'
      cases hnode'
      rw [ih hrest hrest']

theorem Chains.unique {first : I → Option A} {cells cells' : I → List (A × D)}
    (h : Chains heap first cells) (h' : Chains heap first cells') : cells = cells' :=
  funext fun i => (h.segment i).unique (h'.segment i)

end Unique

/-- The nodes allocated since `base` are those of the chains, and the node `held`. -/
structure Owned (base heap : A → Option (Node A D)) (first : I → Option A)
    (cells : I → List (A × D)) (held : Option A) : Prop where
  chains : Chains heap first cells
  allocated : ∀ a, (∃ i, a ∈ (cells i).map Prod.fst) ∨ held = some a ↔
    base a = none ∧ heap a ≠ none
  untouched : ∀ a, base a ≠ none → heap a = base a
  apart : ∀ a, held = some a → ∀ i, a ∉ (cells i).map Prod.fst

namespace Owned

variable {base heap : A → Option (Node A D)} {first : I → Option A} {cells : I → List (A × D)}
  {held : Option A}

theorem initial (base : A → Option (Node A D)) :
    Owned base base (fun _ : I => none) (fun _ => []) none where
  chains := ⟨fun _ => rfl, fun _ => List.nodup_nil, fun _ _ _ h => by cases h⟩
  allocated a := by
    refine ⟨fun h => ?_, fun h => absurd h.1 h.2⟩
    rcases h with ⟨_, hmem⟩ | hheld
    · cases hmem
    · cases hheld
  untouched _ _ := rfl
  apart _ h := by cases h

theorem heap_eq (h : Owned base heap first cells none) (hfirst : ∀ i, first i = none) :
    heap = base := by
  have hcells : ∀ i, cells i = [] := by
    intro i
    have hsegment := h.chains.segment i
    rw [hfirst i] at hsegment
    exact hsegment.unique (show Segment heap none [] none from rfl)
  funext a
  by_cases ha : base a = none
  · rw [ha]
    by_contra hheap
    rcases (h.allocated a).mpr ⟨ha, hheap⟩ with ⟨i, hmem⟩ | hheld
    · rw [hcells i] at hmem
      cases hmem
    · cases hheld
  · exact h.untouched a ha

variable [DecidableEq A]

theorem alloc (h : Owned base heap first cells none) {a : A} (ha : heap a = none)
    (node : Node A D) :
    Owned base (Function.update heap a (some node)) first cells (some a) := by
  have hout := h.chains.fresh ha
  have hbase : base a = none := by
    by_contra hbase
    rw [h.untouched a hbase] at ha
    exact hbase ha
  refine ⟨h.chains.write_fresh hout _, fun b => ?_, fun b hb => ?_, fun b hb => ?_⟩
  · by_cases hba : b = a
    · subst hba
      simp [hbase]
    · rw [Function.update_of_ne hba, ← h.allocated b]
      simp [Ne.symm hba]
  · have hba : b ≠ a := by
      rintro rfl
      exact hb hbase
    rw [Function.update_of_ne hba]
    exact h.untouched b hb
  · cases hb
    exact hout

theorem write_held {a : A} (h : Owned base heap first cells (some a)) (node : Node A D) :
    Owned base (Function.update heap a (some node)) first cells (some a) := by
  obtain ⟨hbase, hheap⟩ := (h.allocated a).mp (Or.inr rfl)
  refine ⟨h.chains.write_fresh (h.apart a rfl) _, fun b => ?_, fun b hb => ?_, h.apart⟩
  · by_cases hba : b = a
    · subst hba
      simp [hbase]
    · rw [Function.update_of_ne hba]
      exact h.allocated b
  · have hba : b ≠ a := by
      rintro rfl
      exact hb hbase
    rw [Function.update_of_ne hba]
    exact h.untouched b hb

theorem free {a : A} (h : Owned base heap first cells (some a)) :
    Owned base (Function.update heap a none) first cells none := by
  obtain ⟨hbase, hheap⟩ := (h.allocated a).mp (Or.inr rfl)
  refine ⟨h.chains.write_fresh (h.apart a rfl) _, fun b => ?_, fun b hb => ?_,
    fun b hb => by cases hb⟩
  · by_cases hba : b = a
    · subst hba
      have hout := h.apart b rfl
      simp only [Function.update_self, ne_eq, not_true_eq_false, and_false, iff_false, not_or,
        not_exists]
      exact ⟨hout, fun hno => by cases hno⟩
    · rw [Function.update_of_ne hba, ← h.allocated b]
      simp [Ne.symm hba]
  · have hba : b ≠ a := by
      rintro rfl
      exact hb hbase
    rw [Function.update_of_ne hba]
    exact h.untouched b hb

variable [DecidableEq I]

omit [DecidableEq A] in
theorem link {a : A} (h : Owned base heap first cells (some a)) {i : I} {d : D}
    (hnode : heap a = some ⟨d, first i⟩) :
    Owned base heap (Function.update first i (some a))
      (Function.update cells i ((a, d) :: cells i)) none := by
  refine ⟨h.chains.link (h.apart a rfl) hnode, fun b => ?_, h.untouched,
    fun b hb => by cases hb⟩
  rw [← h.allocated b]
  constructor
  · rintro (⟨j, hj⟩ | hno)
    · by_cases hji : j = i
      · subst hji
        rw [Function.update_self] at hj
        rcases List.mem_cons.mp hj with rfl | hj
        · exact Or.inr rfl
        · exact Or.inl ⟨j, hj⟩
      · rw [Function.update_of_ne hji] at hj
        exact Or.inl ⟨j, hj⟩
    · cases hno
  · rintro (⟨j, hj⟩ | hb)
    · refine Or.inl ⟨j, ?_⟩
      by_cases hji : j = i
      · subst hji
        rw [Function.update_self]
        exact List.mem_cons_of_mem _ hj
      · rwa [Function.update_of_ne hji]
    · cases hb
      exact Or.inl ⟨i, by simp⟩

theorem write_data (h : Owned base heap first cells held) {i : I} {before after : List (A × D)}
    {a : A} {d : D} {next : Option A} (hcells : cells i = before ++ (a, d) :: after)
    (hnode : heap a = some ⟨d, next⟩) (d' : D) :
    Owned base (Function.update heap a (some ⟨d', next⟩)) first
      (Function.update cells i (before ++ (a, d') :: after)) held := by
  have hmem : ∀ j b, b ∈ (Function.update cells i (before ++ (a, d') :: after) j).map Prod.fst ↔
      b ∈ (cells j).map Prod.fst := by
    intro j b
    by_cases hji : j = i
    · subst hji
      simp [hcells]
    · rw [Function.update_of_ne hji]
  obtain ⟨hbase, -⟩ := (h.allocated a).mp (Or.inl ⟨i, by simp [hcells]⟩)
  refine ⟨h.chains.write_data hcells hnode d', fun b => ?_, fun b hb => ?_, fun b hb j hj => ?_⟩
  · simp only [hmem]
    by_cases hba : b = a
    · subst hba
      refine ⟨fun _ => ⟨hbase, by simp⟩, fun _ => Or.inl ⟨i, by simp [hcells]⟩⟩
    · rw [Function.update_of_ne hba]
      exact h.allocated b
  · have hba : b ≠ a := by
      rintro rfl
      exact hb hbase
    rw [Function.update_of_ne hba]
    exact h.untouched b hb
  · exact h.apart b hb j ((hmem j b).mp hj)

/-- A node taken out of its chain is held. -/
theorem unlink (h : Owned base heap first cells none) {i : I} {before after : List (A × D)}
    {a : A} {d : D} {next : Option A} (hcells : cells i = before ++ (a, d) :: after)
    (hnode : heap a = some ⟨d, next⟩) :
    Owned base (writeLink heap first i next (lastAddr before)).1
      (writeLink heap first i next (lastAddr before)).2
      (Function.update cells i (before ++ after)) (some a) := by
  obtain ⟨hchains, hout, hnode'⟩ := h.chains.unlink hcells hnode
  -- the link is written to the node before, which stays in the chain
  have hsame : ∀ b, ((writeLink heap first i next (lastAddr before)).1 b ≠ none ↔
      heap b ≠ none) ∧ (base b ≠ none → (writeLink heap first i next (lastAddr before)).1 b =
        heap b) := by
    intro b
    rcases List.eq_nil_or_concat before with rfl | ⟨front, ⟨p, dp⟩, rfl⟩
    · exact ⟨Iff.rfl, fun _ => rfl⟩
    · rw [List.concat_eq_append] at *
      simp only [lastAddr_concat, writeLink]
      have hp : p ∈ (cells i).map Prod.fst := by simp [hcells]
      obtain ⟨hbase, hheap⟩ := (h.allocated p).mp (Or.inl ⟨i, hp⟩)
      by_cases hbp : b = p
      · subst hbp
        refine ⟨?_, fun hb => absurd hbase hb⟩
        rw [Function.update_self]
        simp
      · rw [Function.update_of_ne hbp]
        exact ⟨Iff.rfl, fun _ => rfl⟩
  have hmem : ∀ b, (∃ j, b ∈ (Function.update cells i (before ++ after) j).map Prod.fst) ∨
      some a = some b ↔ ∃ j, b ∈ (cells j).map Prod.fst := by
    intro b
    constructor
    · rintro (⟨j, hj⟩ | hab)
      · refine ⟨j, ?_⟩
        by_cases hji : j = i
        · subst hji
          rw [Function.update_self, List.map_append, List.mem_append] at hj
          simp only [hcells, List.map_append, List.map_cons, List.mem_append, List.mem_cons]
          exact hj.imp id Or.inr
        · rwa [Function.update_of_ne hji] at hj
      · cases hab
        exact ⟨i, by simp [hcells]⟩
    · rintro ⟨j, hj⟩
      by_cases hji : j = i
      · subst hji
        simp only [hcells, List.map_append, List.map_cons, List.mem_append, List.mem_cons] at hj
        rcases hj with hj | rfl | hj
        · exact Or.inl ⟨j, by simp only [Function.update_self, List.map_append, List.mem_append, hj, true_or]⟩
        · exact Or.inr rfl
        · exact Or.inl ⟨j, by simp only [Function.update_self, List.map_append, List.mem_append, hj, or_true]⟩
      · exact Or.inl ⟨j, by rwa [Function.update_of_ne hji]⟩
  refine ⟨hchains, fun b => ?_, fun b hb => ?_, fun b hb => ?_⟩
  · rw [hmem b, (hsame b).1, ← h.allocated b]
    simp
  · rw [(hsame b).2 hb]
    exact h.untouched b hb
  · cases hb
    exact hout

omit [DecidableEq A] [DecidableEq I] in
theorem first_cell (h : Owned base heap first cells held) {i : I} {a : A}
    (hfirst : first i = some a) : ∃ d next rest,
      cells i = (a, d) :: rest ∧ heap a = some ⟨d, next⟩ := by
  have hsegment := h.chains.segment i
  rw [hfirst] at hsegment
  cases hcells : cells i with
  | nil =>
    rw [hcells] at hsegment
    cases hsegment
  | cons c rest =>
    rw [hcells] at hsegment
    obtain ⟨hc, next, hnode, -⟩ := hsegment
    cases hc
    exact ⟨c.2, next, rest, rfl, hnode⟩

theorem free_first (h : Owned base heap first cells none) {i : I} {a : A} {d : D}
    {next : Option A} {rest : List (A × D)} (hcells : cells i = (a, d) :: rest)
    (hnode : heap a = some ⟨d, next⟩) :
    Owned base (Function.update heap a none) (Function.update first i next)
      (Function.update cells i rest) none := by
  have hcells' : cells i = [] ++ (a, d) :: rest := hcells
  exact (h.unlink hcells' hnode).free

end Owned

end CpreLabs.Linked
