import CpreLabs.FirstInFirstOut
import CpreLabs.LeastRecentlyUsed

/-!
# How many faults there are at least, and when there are no more

The first reference to a page faults under every policy. With a frame for every value in the string
no other reference does, since all three policies fill the empty frames first. A reference to `-1`
finds an empty frame as long as there is one.
-/
namespace CpreLabs.PageSim
open DemandPaging

variable {n : ℕ+} {S : Type*} {policy : Policy n S} {refString : List ℤ} {i : ℕ} {page : ℤ}

/-- The pages of a string without the one that cannot be told from an empty frame. -/
def distinctPages (refString : List ℤ) : Finset ℤ := refString.toFinset.erase (-1)

theorem distinctPages_of_mem (h : page = -1 ∨ page ∈ refString) :
    distinctPages (refString ++ [page]) = distinctPages refString := by
  ext x
  simp only [distinctPages, Finset.mem_erase, List.mem_toFinset, List.mem_append,
    List.mem_singleton]
  constructor
  · rintro ⟨hx, hmem | rfl⟩
    · exact ⟨hx, hmem⟩
    · exact ⟨hx, h.resolve_left hx⟩
  · rintro ⟨hx, hmem⟩
    exact ⟨hx, Or.inl hmem⟩

theorem distinctPages_of_ne (h : page ≠ -1) :
    distinctPages (refString ++ [page]) = insert page (distinctPages refString) := by
  ext x
  simp only [distinctPages, Finset.mem_erase, List.mem_toFinset, List.mem_append,
    List.mem_singleton, Finset.mem_insert]
  constructor
  · rintro ⟨hx, hmem | rfl⟩
    · exact Or.inr ⟨hx, hmem⟩
    · exact Or.inl rfl
  · rintro (rfl | ⟨hx, hmem⟩)
    · exact ⟨h, Or.inr rfl⟩
    · exact ⟨hx, Or.inl hmem⟩

theorem mem_distinctPages : page ∈ distinctPages refString ↔ page ≠ -1 ∧ page ∈ refString := by
  rw [distinctPages, Finset.mem_erase, List.mem_toFinset]

/-- What is in a frame has been referenced. -/
theorem frames_after (policy : Policy n S) (hi : i ≤ refString.length) (j : Fin n) :
    (policy.after refString i).frames j = -1 ∨
      (policy.after refString i).frames j ∈ refString.take i := by
  revert j
  refine after_induction (P := fun i s => ∀ j, s.frames j = -1 ∨ s.frames j ∈ refString.take i)
    policy refString (fun _ => Or.inl rfl) ?_ hi
  intro i page s hget hs j
  rw [take_succ_eq hget, List.mem_append, List.mem_singleton]
  rcases access_cases policy refString s i page with ⟨-, -, hframes, -⟩ | ⟨-, hframes, -⟩
  · rw [hframes]
    exact (hs j).imp_right Or.inl
  · rw [hframes]
    by_cases hj : j = (policy.replace refString i s.frames s.kept).1
    · rw [hj, Function.update_self]
      exact Or.inr (Or.inr rfl)
    · rw [Function.update_of_ne hj]
      exact (hs j).imp_right Or.inl

theorem not_resident_of_first (policy : Policy n S) (hi : i ≤ refString.length)
    (hfirst : page ∉ refString.take i) (hpage : page ≠ -1) (j : Fin n) :
    (policy.after refString i).frames j ≠ page := by
  rintro rfl
  exact (frames_after policy hi j).elim hpage hfirst

theorem distinctPages_le_faults (policy : Policy n S) (hi : i ≤ refString.length) :
    (distinctPages (refString.take i)).card ≤ (policy.after refString i).faults := by
  induction i with
  | zero => exact Nat.zero_le _
  | succ i ih =>
    have hi' := Nat.le_of_succ_le hi
    have hget : refString[i]? = some refString[i] := List.getElem?_eq_getElem hi
    rw [take_succ_eq hget, after_succ policy hget]
    rcases access_cases policy refString (policy.after refString i) i refString[i] with
      ⟨j, hj, -, hfaults⟩ | ⟨-, -, hfaults⟩
    · have hold := frames_after policy hi' j
      rw [hj] at hold
      rw [hfaults, distinctPages_of_mem hold]
      exact ih hi'
    · rw [hfaults]
      by_cases hpage : refString[i] = -1
      · rw [distinctPages_of_mem (Or.inl hpage)]
        exact (ih hi').trans (Nat.le_succ _)
      · rw [distinctPages_of_ne hpage]
        exact (Finset.card_insert_le _ _).trans (Nat.succ_le_succ (ih hi'))

/-- The policy does not evict while fewer pages have been loaded than there are frames; one frame
more is left where the string has `-1` in it. -/
def FillsFirst (policy : Policy n S) (refString : List ℤ) : Prop :=
  ∀ i ≤ refString.length,
    (resident (policy.after refString i).frames).card = (policy.after refString i).faults →
    (policy.after refString i).faults + (if -1 ∈ refString then 1 else 0) < n →
    (policy.after refString i).frames (policy.replace refString i
      (policy.after refString i).frames (policy.after refString i).kept).1 = -1

theorem exists_empty {frames : Frames n} (h : Distinct frames) (hroom : (resident frames).card < n) :
    ∃ j, frames j = -1 := by
  by_contra hnone
  push Not at hnone
  exact absurd (h.card_resident hnone) hroom.ne

theorem card_distinctPages (refString : List ℤ) :
    (distinctPages refString).card + (if -1 ∈ refString then 1 else 0) =
      refString.toFinset.card := by
  by_cases hmem : -1 ∈ refString
  · rw [if_pos hmem, distinctPages, Finset.card_erase_add_one (List.mem_toFinset.mpr hmem)]
  · rw [if_neg hmem, distinctPages, Finset.erase_eq_of_notMem (mt List.mem_toFinset.mp hmem),
      Nat.add_zero]

/-- With enough frames everything that was referenced stays. -/
theorem FillsFirst.after (h : FillsFirst policy refString) (hroom : refString.toFinset.card ≤ n)
    (hi : i ≤ refString.length) :
    resident (policy.after refString i).frames = distinctPages (refString.take i) ∧
      (policy.after refString i).faults = (distinctPages (refString.take i)).card := by
  induction i with
  | zero => exact ⟨resident_empty, rfl⟩
  | succ i ih =>
    have hi' := Nat.le_of_succ_le hi
    obtain ⟨hresident, hfaults⟩ := ih hi'
    have hget : refString[i]? = some refString[i] := List.getElem?_eq_getElem hi
    have hdistinct := distinct_after policy refString hi'
    have hcard := card_distinctPages refString
    have hsub : ∀ k, distinctPages (refString.take k) ⊆ distinctPages refString := by
      intro k x hx
      rw [mem_distinctPages] at hx ⊢
      exact ⟨hx.1, List.mem_of_mem_take hx.2⟩
    rw [after_succ policy hget, take_succ_eq hget]
    rcases access_cases policy refString (policy.after refString i) i refString[i] with
      ⟨j, hj, hframes', hfaults'⟩ | ⟨hnone, hframes', hfaults'⟩
    · have hold := frames_after policy hi' j
      rw [hj] at hold
      rw [hframes', hfaults', distinctPages_of_mem hold]
      exact ⟨hresident, hfaults⟩
    · have hpage : refString[i] ≠ -1 := by
        intro hpage
        have hmem : -1 ∈ refString := hpage ▸ List.getElem_mem hi
        have hle := Finset.card_le_card (hsub i)
        rw [if_pos hmem] at hcard
        rw [← hresident] at hle
        obtain ⟨j, hj⟩ := exists_empty hdistinct (by omega)
        exact hnone j (hj.trans hpage.symm)
      have hnew : refString[i] ∉ distinctPages (refString.take i) := by
        rw [← hresident, mem_resident]
        rintro ⟨-, j, hj⟩
        exact hnone j hj
      have hle := Finset.card_le_card (hsub (i + 1))
      rw [take_succ_eq hget, distinctPages_of_ne hpage, Finset.card_insert_of_notMem hnew] at hle
      have hempty := h i hi' (by rw [hresident, hfaults]) (by omega)
      have hout : (-1 : ℤ) ∉ resident (policy.after refString i).frames :=
        fun hmem => (mem_resident.mp hmem).1 rfl
      rw [hframes', hfaults', hdistinct.resident_update hpage hnone, hempty,
        Finset.erase_eq_of_notMem hout, hresident, hfaults, distinctPages_of_ne hpage,
        Finset.card_insert_of_notMem hnew]
      exact ⟨rfl, rfl⟩

theorem fillsFirst_fifo (n : ℕ+) (refString : List ℤ) : FillsFirst (fifo n) refString := by
  intro i hi _ hroom
  have hlength := length_faulted (fifo n) hi
  exact (ring_after refString hi).next_empty (by omega)

theorem fillsFirst_opt (n : ℕ+) (refString : List ℤ) : FillsFirst (opt n) refString := by
  intro i hi hcard hroom
  obtain ⟨j, hj⟩ := exists_empty (distinct_after (opt n) refString hi) (by omega)
  cases hfind : findFrame ((opt n).after refString i).frames (-1) with
  | some j' => exact opt_replace_empty hfind _
  | none => exact absurd hj (findFrame_none hfind j)

/-- With `-1` in the string a frame other than the first is empty, and the scan stops there;
without it the first frame has not been used as long as it is empty. -/
theorem fillsFirst_lru (n : ℕ+) (refString : List ℤ) : FillsFirst (lru n) refString := by
  intro i hi hcard hroom
  have hdistinct := distinct_after (lru n) refString hi
  by_cases hmem : -1 ∈ refString
  · rw [if_pos hmem] at hroom
    rcases lru_replace refString i ((lru n).after refString i).frames
      ((lru n).after refString i).kept with hempty | ⟨hused, -⟩
    · exact hempty
    · have hinj : Set.InjOn ((lru n).after refString i).frames
          (Finset.univ.erase (0 : Fin n) : Finset (Fin n)) := by
        intro j hj j' _ heq
        exact (hdistinct j j' heq).resolve_left (hused j (Finset.ne_of_mem_erase hj))
      have hsub : (Finset.univ.erase (0 : Fin n)).image ((lru n).after refString i).frames ⊆
          resident ((lru n).after refString i).frames := by
        intro x hx
        obtain ⟨j, hj, rfl⟩ := Finset.mem_image.mp hx
        exact mem_resident.mpr ⟨hused j (Finset.ne_of_mem_erase hj), j, rfl⟩
      have hle := Finset.card_le_card hsub
      rw [Finset.card_image_of_injOn hinj, Finset.card_erase_of_mem (Finset.mem_univ _),
        Finset.card_fin] at hle
      omega
  · rw [if_neg hmem] at hroom
    have hpages : ∀ page ∈ refString, page ≠ -1 := fun page hpage heq => hmem (heq ▸ hpage)
    obtain ⟨js, hjs, -⟩ := recent_after (n := n) hpages hi
    rcases hjs.replace refString with hempty | ⟨hall, -⟩
    · exact hempty
    · obtain ⟨j, hj⟩ := exists_empty hdistinct (by omega)
      exact absurd hj ((hjs.mem j).mp (hall j))

/-- First references fault, so there are as many faults as pages, and with a frame for every value
in the string no more. -/
structure FaultFloor (policy : Policy n S) (refString : List ℤ) : Prop where
  first : ∀ i page, refString[i]? = some page → page ∉ refString.take i → page ≠ -1 →
    ∃ line, (policy.simulate refString).printed[i]? = some line ∧ line.page = page ∧
      line.isFault = true
  floor : (distinctPages refString).card ≤ (policy.simulate refString).faults
  enough : refString.toFinset.card ≤ n →
    (policy.simulate refString).faults = (distinctPages refString).card

theorem faultFloor_of_fillsFirst (h : FillsFirst policy refString) : FaultFloor policy refString := by
  have hall : refString.take refString.length = refString := List.take_length
  refine ⟨fun i page hget hfirst hpage => ?_, ?_, fun hroom => ?_⟩
  · have hi := (List.getElem?_eq_some_iff.mp hget).1.le
    exact ⟨_, printed_simulate policy hget, rfl,
      decide_eq_true (not_resident_of_first policy hi hfirst hpage)⟩
  · have hle : (distinctPages (refString.take refString.length)).card ≤ _ :=
      distinctPages_le_faults policy le_rfl
    rw [hall, after_length] at hle
    exact hle
  · have hfaults := (h.after hroom le_rfl).2
    rw [hall, after_length] at hfaults
    exact hfaults

/-- For every string of integers and every number of frames. -/
theorem fault_floor (refString : List ℤ) (n : ℕ+) :
    FaultFloor (fifo n) refString ∧ FaultFloor (lru n) refString ∧
      FaultFloor (opt n) refString :=
  ⟨faultFloor_of_fillsFirst (fillsFirst_fifo n refString),
    faultFloor_of_fillsFirst (fillsFirst_lru n refString),
    faultFloor_of_fillsFirst (fillsFirst_opt n refString)⟩

/-- The one page of this string is referenced without a fault. -/
theorem reference_to_marker :
    ¬ ([-1] : List ℤ).toFinset.card ≤ simulateFifo [-1] 1 ∧
      ¬ ([-1] : List ℤ).toFinset.card ≤ simulateLru [-1] 1 ∧
      ¬ ([-1] : List ℤ).toFinset.card ≤ simulateOpt [-1] 1 := by
  decide

end CpreLabs.PageSim
