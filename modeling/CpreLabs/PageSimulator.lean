import CpreLabs.ReplacementLists
import Mathlib.Data.Fintype.Card
import Mathlib.Data.List.FinRange
import Mathlib.Data.PNat.Basic

/-!
# The page replacement simulator

`simulate_fifo`, `simulate_lru` and `simulate_opt` share the loop over the references; each has
its own choice of the frame to replace.
-/
namespace CpreLabs.PageSim
open DemandPaging

def maxRefLength : ℕ := 1000

/-- `-1` marks an empty frame. -/
abbrev Frames (n : ℕ+) := Fin n → ℤ

/-- The arguments of `print_step`. -/
structure StepLine (n : ℕ+) where
  step : ℕ
  page : ℤ
  frames : Frames n
  isFault : Bool

/-- The variables of a simulation; `kept` are those that only its policy has. -/
structure Simulation (n : ℕ+) (S : Type*) where
  frames : Frames n
  kept : S
  faults : ℕ
  printed : List (StepLine n)

/-- What differs between the policies: `replace` chooses a frame, given the reference string and
the position in it. -/
structure Policy (n : ℕ+) (S : Type*) where
  init : S
  hit : S → ℕ → Fin n → S
  replace : List ℤ → ℕ → Frames n → S → Fin n × S

variable {n : ℕ+} {S : Type*}

/-- The scan for a page, which breaks at the first frame that holds it. -/
def findFrame (frames : Frames n) (page : ℤ) : Option (Fin n) :=
  (List.finRange n).find? (fun j => frames j = page)

/-- The body of the loop, at `page = ref_string[i]`. -/
def Policy.access (policy : Policy n S) (refString : List ℤ) (s : Simulation n S) (i : ℕ)
    (page : ℤ) : Simulation n S :=
  match findFrame s.frames page with
  | some j => { s with
      kept := policy.hit s.kept i j
      printed := s.printed ++ [⟨i + 1, page, s.frames, false⟩] }
  | none =>
    let (idx, kept) := policy.replace refString i s.frames s.kept
    let frames := Function.update s.frames idx page
    ⟨frames, kept, s.faults + 1, s.printed ++ [⟨i + 1, page, frames, true⟩]⟩

/-- The loop over the references `rest` from position `i` on. -/
def Policy.run (policy : Policy n S) (refString : List ℤ) (s : Simulation n S) (i : ℕ)
    (rest : List ℤ) : Simulation n S :=
  (rest.zipIdx i).foldl (fun s (page, i) => policy.access refString s i page) s

def Policy.simulate (policy : Policy n S) (refString : List ℤ) : Simulation n S :=
  policy.run refString ⟨fun _ => -1, policy.init, 0, []⟩ 0 refString

/-- `next_replace` goes round. -/
def fifo (n : ℕ+) : Policy n (Fin n) where
  init := 0
  hit nextReplace _ _ := nextReplace
  replace _ _ _ nextReplace := (nextReplace, nextReplace + 1)

def simulateFifo (refString : List ℤ) (numFrames : ℕ+) : ℕ :=
  ((fifo numFrames).simulate refString).faults

/-- The scan of the frames from the second on; it breaks at an empty one. -/
def scanLru (frames lastUsed : Frames n) : Fin n → List (Fin n) → Fin n
  | lruIdx, [] => lruIdx
  | lruIdx, j :: js =>
    if frames j = -1 then j
    else scanLru frames lastUsed (if lastUsed j < lastUsed lruIdx then j else lruIdx) js

/-- `last_used` has the position of the latest reference, `-1` at first. -/
def lru (n : ℕ+) : Policy n (Frames n) where
  init := fun _ => -1
  hit lastUsed i j := Function.update lastUsed j i
  replace _ i frames lastUsed :=
    let lruIdx := scanLru frames lastUsed 0 (List.finRange n).tail
    (lruIdx, Function.update lastUsed lruIdx i)

def simulateLru (refString : List ℤ) (numFrames : ℕ+) : ℕ :=
  ((lru numFrames).simulate refString).faults

/-- The scan of `ref_string` after position `i`, with `1000000` for infinity. -/
def nextUse (refString : List ℤ) (i : ℕ) (page : ℤ) : ℤ :=
  match (List.range' (i + 1) (refString.length - (i + 1))).find?
      (fun k => refString[k]? = some page) with
  | some k => k
  | none => 1000000

/-- One step of the scan for the greatest `next_use`; the pair is `farthest` and `replace_idx`. -/
def scanFarthest (use : Fin n → ℤ) (found : ℤ × Option (Fin n)) (j : Fin n) :
    ℤ × Option (Fin n) :=
  if use j > found.1 then (use j, some j) else found

def opt (n : ℕ+) : Policy n Unit where
  init := ()
  hit _ _ _ := ()
  replace refString i frames _ :=
    match findFrame frames (-1) with
    | some j => (j, ())
    | none =>
      let found := (List.finRange n).foldl
        (scanFarthest (fun j => nextUse refString i (frames j))) (-1, none)
      (found.2.getD 0, ())

def simulateOpt (refString : List ℤ) (numFrames : ℕ+) : ℕ :=
  ((opt numFrames).simulate refString).faults

example : simulateFifo [7, 0, 1, 2, 0, 3, 0, 4, 2, 3, 0, 3, 2] 3 = 10 := by decide

/-- The pages in memory. -/
def resident (frames : Frames n) : Finset ℤ := (Finset.univ.image frames).erase (-1)

@[simp] theorem mem_resident {frames : Frames n} {page : ℤ} :
    page ∈ resident frames ↔ page ≠ -1 ∧ ∃ j, frames j = page := by
  simp [resident]

theorem resident_empty : resident (fun _ : Fin n => -1) = ∅ := by
  ext page
  simp only [mem_resident, exists_const, Finset.notMem_empty, iff_false, not_and]
  exact fun hne heq => hne heq.symm

theorem findFrame_some {frames : Frames n} {page : ℤ} {j : Fin n}
    (h : findFrame frames page = some j) : frames j = page := by
  have hj := List.find?_some h
  exact of_decide_eq_true hj

theorem findFrame_none {frames : Frames n} {page : ℤ} (h : findFrame frames page = none)
    (j : Fin n) : frames j ≠ page := by
  have hj := List.find?_eq_none.mp h j (List.mem_finRange j)
  exact fun heq => hj (decide_eq_true heq)

variable {policy : Policy n S} {refString : List ℤ} {s : Simulation n S} {i : ℕ} {page : ℤ}

/-- A hit leaves the frames alone, a fault loads the page into the frame of the policy. -/
theorem access_cases (policy : Policy n S) (refString : List ℤ) (s : Simulation n S) (i : ℕ)
    (page : ℤ) :
    (∃ j, s.frames j = page ∧ (policy.access refString s i page).frames = s.frames ∧
      (policy.access refString s i page).faults = s.faults) ∨
    (∀ j, s.frames j ≠ page) ∧
      (policy.access refString s i page).frames =
        Function.update s.frames (policy.replace refString i s.frames s.kept).1 page ∧
      (policy.access refString s i page).faults = s.faults + 1 := by
  cases h : findFrame s.frames page with
  | some j =>
    refine Or.inl ⟨j, findFrame_some h, ?_⟩
    simp only [Policy.access, h, and_self]
  | none =>
    refine Or.inr ⟨findFrame_none h, ?_⟩
    simp only [Policy.access, h, and_self]

theorem run_cons (rest : List ℤ) :
    policy.run refString s i (page :: rest) =
      policy.run refString (policy.access refString s i page) (i + 1) rest := rfl

theorem mem_resident_update {frames : Frames n} {idx : Fin n} (hpage : page ≠ -1) :
    page ∈ resident (Function.update frames idx page) :=
  mem_resident.mpr ⟨hpage, idx, Function.update_self ..⟩

theorem resident_update_subset {frames : Frames n} {idx : Fin n} :
    resident (Function.update frames idx page) ⊆ insert page (resident frames) := by
  intro x hx
  obtain ⟨hne, j, hj⟩ := mem_resident.mp hx
  by_cases hji : j = idx
  · rw [hji, Function.update_self] at hj
    exact Finset.mem_insert.mpr (Or.inl hj.symm)
  · rw [Function.update_of_ne hji] at hj
    exact Finset.mem_insert_of_mem (mem_resident.mpr ⟨hne, j, hj⟩)

theorem card_resident_le (frames : Frames n) : (resident frames).card ≤ n := by
  calc (resident frames).card ≤ (Finset.univ.image frames).card := Finset.card_erase_le
    _ ≤ (Finset.univ : Finset (Fin n)).card := Finset.card_image_le
    _ = n := Finset.card_fin n

/-- What one reference does to the resident pages and to the count, under any policy. -/
theorem loads_access (policy : Policy n S) (refString : List ℤ) (s : Simulation n S) (i : ℕ)
    (hpage : page ≠ -1) :
    Loads n (resident s.frames) page (resident (policy.access refString s i page).frames) ∧
      (policy.access refString s i page).faults = s.faults + cost (resident s.frames) page := by
  rcases access_cases policy refString s i page with ⟨j, hj, hframes, hfaults⟩ |
    ⟨hnone, hframes, hfaults⟩
  · have hmem : page ∈ resident s.frames := mem_resident.mpr ⟨hpage, j, hj⟩
    rw [hframes, hfaults, cost, if_pos hmem]
    exact ⟨⟨hmem, Finset.subset_insert _ _, card_resident_le _⟩, rfl⟩
  · have hnot : page ∉ resident s.frames := by
      intro hmem
      obtain ⟨-, j, hj⟩ := mem_resident.mp hmem
      exact hnone j hj
    rw [hframes, hfaults, cost, if_neg hnot]
    exact ⟨⟨mem_resident_update hpage, resident_update_subset, card_resident_le _⟩, rfl⟩

/-- Every policy serves the string by demand paging. -/
theorem serves_run (policy : Policy n S) (refString : List ℤ) (s : Simulation n S) (i : ℕ)
    {rest : List ℤ} (hpages : ∀ page ∈ rest, 0 ≤ page) :
    ∃ f, (policy.run refString s i rest).faults = s.faults + f ∧
      Serves n (resident s.frames) rest f := by
  induction rest generalizing s i with
  | nil => exact ⟨0, rfl, .nil _⟩
  | cons page rest ih =>
    have hpage : page ≠ -1 := by
      have hnonneg := hpages page List.mem_cons_self
      omega
    obtain ⟨hload, hfaults⟩ := loads_access policy refString s i hpage
    obtain ⟨f, hf, hrest⟩ := ih (policy.access refString s i page) (i + 1)
      (fun x hx => hpages x (List.mem_cons_of_mem _ hx))
    refine ⟨cost (resident s.frames) page + f, ?_, .cons hload hrest⟩
    rw [run_cons, hf, hfaults, Nat.add_assoc]

theorem serves_simulate (policy : Policy n S) (hpages : ∀ page ∈ refString, 0 ≤ page) :
    Serves n ∅ refString (policy.simulate refString).faults := by
  obtain ⟨f, hf, hserves⟩ :=
    serves_run policy refString ⟨fun _ => -1, policy.init, 0, []⟩ 0 hpages
  rw [resident_empty] at hserves
  rw [Policy.simulate, hf, Nat.zero_add]
  exact hserves

/-- The state after the first `i` references. -/
def Policy.after (policy : Policy n S) (refString : List ℤ) (i : ℕ) : Simulation n S :=
  policy.run refString ⟨fun _ => -1, policy.init, 0, []⟩ 0 (refString.take i)

theorem after_zero (policy : Policy n S) (refString : List ℤ) :
    policy.after refString 0 = ⟨fun _ => -1, policy.init, 0, []⟩ := rfl

theorem after_length (policy : Policy n S) (refString : List ℤ) :
    policy.after refString refString.length = policy.simulate refString := by
  rw [Policy.after, List.take_length, Policy.simulate]

theorem take_succ_eq (h : refString[i]? = some page) :
    refString.take (i + 1) = refString.take i ++ [page] := by
  rw [List.take_add_one, h, Option.toList_some]

theorem after_succ (policy : Policy n S) (h : refString[i]? = some page) :
    policy.after refString (i + 1) =
      policy.access refString (policy.after refString i) i page := by
  have hlt := (List.getElem?_eq_some_iff.mp h).1
  have hlen : (refString.take i).length = i := List.length_take_of_le hlt.le
  rw [Policy.after, take_succ_eq h, Policy.run, List.zipIdx_append, List.foldl_append, hlen,
    Nat.zero_add]
  rfl

theorem access_of_some {j : Fin n} (h : findFrame s.frames page = some j) :
    policy.access refString s i page = { s with
      kept := policy.hit s.kept i j
      printed := s.printed ++ [⟨i + 1, page, s.frames, false⟩] } := by
  simp only [Policy.access, h]

theorem access_of_none (h : findFrame s.frames page = none) :
    policy.access refString s i page =
      ⟨Function.update s.frames (policy.replace refString i s.frames s.kept).1 page,
        (policy.replace refString i s.frames s.kept).2, s.faults + 1, s.printed ++ [⟨i + 1, page,
          Function.update s.frames (policy.replace refString i s.frames s.kept).1 page, true⟩]⟩ := by
  simp only [Policy.access, h]

/-- What holds of the empty frames and is kept by every reference holds after each of them. -/
theorem after_induction {P : ℕ → Simulation n S → Prop} (policy : Policy n S)
    (refString : List ℤ) (hstart : P 0 ⟨fun _ => -1, policy.init, 0, []⟩)
    (hstep : ∀ i page s, refString[i]? = some page → P i s →
      P (i + 1) (policy.access refString s i page)) {i : ℕ} (hi : i ≤ refString.length) :
    P i (policy.after refString i) := by
  induction i with
  | zero => exact hstart
  | succ i ih =>
    have hget : refString[i]? = some refString[i] := List.getElem?_eq_getElem hi
    rw [after_succ policy hget]
    exact hstep i _ _ hget (ih (Nat.le_of_succ_le hi))

/-- Every reference prints one line, with the frames it leaves. -/
theorem printed_access (policy : Policy n S) (refString : List ℤ) (s : Simulation n S) (i : ℕ)
    (page : ℤ) :
    (policy.access refString s i page).printed = s.printed ++
      [⟨i + 1, page, (policy.access refString s i page).frames, decide (∀ j, s.frames j ≠ page)⟩] := by
  cases h : findFrame s.frames page with
  | some j =>
    have hfault : decide (∀ j, s.frames j ≠ page) = false :=
      decide_eq_false fun hall => hall j (findFrame_some h)
    rw [access_of_some h, hfault]
  | none =>
    have hfault : decide (∀ j, s.frames j ≠ page) = true := decide_eq_true (findFrame_none h)
    rw [access_of_none h, hfault]

theorem length_printed_after (policy : Policy n S) (hi : i ≤ refString.length) :
    (policy.after refString i).printed.length = i := by
  refine after_induction (P := fun i s => s.printed.length = i) policy refString rfl ?_ hi
  intro i page s _ hs
  rw [printed_access, List.length_append, hs, List.length_singleton]

/-- The line that the whole simulation prints for the reference at position `i`. -/
theorem printed_simulate (policy : Policy n S) (h : refString[i]? = some page) :
    (policy.simulate refString).printed[i]? = some ⟨i + 1, page,
      (policy.after refString (i + 1)).frames,
      decide (∀ j, (policy.after refString i).frames j ≠ page)⟩ := by
  have hlt := (List.getElem?_eq_some_iff.mp h).1
  have hlater : ∀ k, i + 1 ≤ k → k ≤ refString.length →
      (policy.after refString k).printed[i]? = (policy.after refString (i + 1)).printed[i]? := by
    intro k hk
    induction k, hk using Nat.le_induction with
    | base => exact fun _ => rfl
    | succ k hk ih =>
      intro hle
      have hget : refString[k]? = some refString[k] := List.getElem?_eq_getElem hle
      have hlen : (policy.after refString k).printed.length = k :=
        length_printed_after policy (Nat.le_of_succ_le hle)
      rw [after_succ policy hget, printed_access, List.getElem?_append_left (by omega)]
      exact ih (Nat.le_of_succ_le hle)
  have hlen : (policy.after refString i).printed.length = i := length_printed_after policy hlt.le
  rw [← after_length, hlater _ hlt le_rfl, after_succ policy h, printed_access,
    List.getElem?_append_right hlen.le, hlen, Nat.sub_self]
  rfl

/-- If the frames hold what the list holds after every reference, the faults are its misses. -/
theorem faults_eq_listFaults (policy : Policy n S) {step : List ℤ → ℤ → List ℤ}
    (hpages : ∀ page ∈ refString, page ≠ -1)
    (hlist : ∀ i ≤ refString.length, ∀ page,
      page ∈ resident (policy.after refString i).frames ↔ page ∈ listRun step [] (refString.take i)) :
    (policy.simulate refString).faults = listFaults step [] refString := by
  have hafter : ∀ i ≤ refString.length,
      (policy.after refString i).faults = listFaults step [] (refString.take i) := by
    intro i hi
    induction i with
    | zero => rfl
    | succ i ih =>
      have hget : refString[i]? = some refString[i] := List.getElem?_eq_getElem hi
      have hpage := hpages _ (List.getElem_mem hi)
      obtain ⟨-, hfaults⟩ := loads_access policy refString (policy.after refString i) i hpage
      rw [after_succ policy hget, hfaults, ih (Nat.le_of_succ_le hi), take_succ_eq hget,
        listFaults_concat, cost]
      simp only [hlist i (Nat.le_of_succ_le hi)]
  rw [← after_length, hafter _ le_rfl, List.take_length]

end CpreLabs.PageSim
