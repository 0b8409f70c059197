import CpreLabs.OptimalReplacement
import Mathlib.Data.Nat.ModEq

/-!
# `simulate_fifo` is a queue

The frames are a ring into which every fault writes once: the pages in it are the last ones that
faulted, and `next_replace` is at the earliest of them.
-/
namespace CpreLabs.PageSim
open DemandPaging

variable {n : ℕ+} {S : Type*} {refString : List ℤ} {i k m : ℕ} {page : ℤ}

/-- The pages of the lines that report a fault. -/
def faulted (s : Simulation n S) : List ℤ := (s.printed.filter StepLine.isFault).map StepLine.page

/-- The last of them, as many as there are frames. -/
def lastLoads (s : Simulation n S) : List ℤ := (faulted s).drop ((faulted s).length - n)

variable {policy : Policy n S} {s : Simulation n S}

theorem faulted_of_some {j : Fin n} (h : findFrame s.frames page = some j) :
    faulted (policy.access refString s i page) = faulted s := by
  rw [access_of_some h, faulted, List.filter_append, List.filter_cons_of_neg (by simp),
    List.filter_nil, List.append_nil]
  rfl

theorem faulted_of_none (h : findFrame s.frames page = none) :
    faulted (policy.access refString s i page) = faulted s ++ [page] := by
  rw [access_of_none h, faulted, List.filter_append, List.filter_cons_of_pos rfl, List.filter_nil,
    List.map_append]
  rfl

theorem length_faulted (policy : Policy n S) (hi : i ≤ refString.length) :
    (faulted (policy.after refString i)).length = (policy.after refString i).faults := by
  refine after_induction (P := fun _ s => (faulted s).length = s.faults) policy refString rfl ?_ hi
  intro i page s _ hs
  cases hfind : findFrame s.frames page with
  | some j => rw [faulted_of_some hfind, access_of_some hfind, hs]
  | none => rw [faulted_of_none hfind, access_of_none hfind, List.length_append, hs,
      List.length_singleton]

/-- The frame that the load number `k` goes to. -/
def cell (n : ℕ+) (k : ℕ) : Fin n := ⟨k % n, Nat.mod_lt _ n.pos⟩

theorem cell_ne (hk : k < m) (hm : m < k + n) : cell n k ≠ cell n m := by
  intro heq
  have hmod : k ≡ m [MOD n] := congrArg Fin.val heq
  have hdvd : (n : ℕ) ∣ m - k := (Nat.modEq_iff_dvd' hk.le).mp hmod
  have hle := Nat.le_of_dvd (by omega) hdvd
  omega

theorem cell_succ (n : ℕ+) (k : ℕ) : cell n k + 1 = cell n (k + 1) := by
  apply Fin.ext
  simp [cell, Fin.val_add, Nat.add_mod]

/-- The last load into a frame. -/
theorem exists_cell (j : Fin n) (hj : (j : ℕ) < m) : ∃ k < m, m ≤ k + n ∧ cell n k = j := by
  have hpos := n.pos
  have hdiv := Nat.div_add_mod (m - 1 - j) n
  have hmod := Nat.mod_lt (m - 1 - j) hpos
  refine ⟨j + n * ((m - 1 - j) / n), by omega, by omega, Fin.ext ?_⟩
  simp [cell, Nat.add_mul_mod_self_left, Nat.mod_eq_of_lt j.isLt]

/-- The frames hold the last of the loads, and `next_replace` comes after them. -/
structure Ring (frames : Frames n) (nextReplace : Fin n) (loads : List ℤ) : Prop where
  next : nextReplace = cell n loads.length
  loaded : ∀ k (hk : k < loads.length), loads.length ≤ k + n → frames (cell n k) = loads[k]
  empty : ∀ j : Fin n, loads.length ≤ j → frames j = -1

variable {frames : Frames n} {nextReplace : Fin n} {loads : List ℤ}

theorem ring_init : Ring (fun _ : Fin n => -1) 0 [] := by
  refine ⟨Fin.ext ?_, fun k hk => absurd hk (Nat.not_lt_zero k), fun _ _ => rfl⟩
  simp [cell]

theorem Ring.load (h : Ring frames nextReplace loads) (page : ℤ) :
    Ring (Function.update frames nextReplace page) (nextReplace + 1) (loads ++ [page]) := by
  rw [h.next]
  constructor
  · rw [cell_succ, List.length_append, List.length_singleton]
  · intro k hk hlast
    rw [List.length_append, List.length_singleton] at hk hlast
    by_cases hnew : k = loads.length
    · subst hnew
      rw [Function.update_self, List.getElem_concat_length rfl]
    · have hold : k < loads.length := by omega
      rw [Function.update_of_ne (cell_ne hold (by omega)), List.getElem_append_left hold]
      exact h.loaded k hold (by omega)
  · intro j hj
    rw [List.length_append, List.length_singleton] at hj
    have hne : j ≠ cell n loads.length := by
      rintro rfl
      rw [cell, Fin.val_mk] at hj
      have hle := Nat.mod_le loads.length n
      omega
    rw [Function.update_of_ne hne]
    exact h.empty j (by omega)

theorem Ring.mem_iff (h : Ring frames nextReplace loads) (hpage : page ≠ -1) :
    (∃ j, frames j = page) ↔ page ∈ loads.drop (loads.length - n) := by
  rw [List.mem_drop_iff_getElem]
  constructor
  · rintro ⟨j, hj⟩
    have hlt : (j : ℕ) < loads.length := by
      by_contra hle
      exact hpage (hj.symm.trans (h.empty j (not_lt.mp hle)))
    obtain ⟨k, hk, hlast, rfl⟩ := exists_cell j hlt
    refine ⟨k - (loads.length - n), by omega, ?_⟩
    rw [← hj, h.loaded k hk hlast]
    congr 1
    omega
  · rintro ⟨i, hi, hi'⟩
    exact ⟨cell n (loads.length - n + i), (h.loaded _ (by omega) (by omega)).trans hi'⟩

/-- While a frame has not been used, `next_replace` is at an empty one. -/
theorem Ring.next_empty (h : Ring frames nextReplace loads) (hroom : loads.length < n) :
    frames nextReplace = -1 := by
  refine h.empty _ (le_of_eq ?_)
  rw [h.next, cell, Fin.val_mk, Nat.mod_eq_of_lt hroom]

/-- From then on it is at the earliest load. -/
theorem Ring.next_oldest (h : Ring frames nextReplace loads) (hfull : n ≤ loads.length) :
    (loads.drop (loads.length - n)).head? = some (frames nextReplace) := by
  have hpos := n.pos
  have hcell : cell n loads.length = cell n (loads.length - n) := by
    apply Fin.ext
    have hmod := Nat.add_mod_right (loads.length - n) n
    rw [Nat.sub_add_cancel hfull] at hmod
    exact hmod
  rw [List.head?_drop, h.next, hcell, h.loaded _ (by omega) (by omega), List.getElem?_eq_getElem]

theorem Ring.full (h : Ring frames nextReplace loads) (hfull : ∀ j, frames j ≠ -1) :
    n ≤ loads.length := by
  by_contra hroom
  exact hfull nextReplace (h.next_empty (not_le.mp hroom))

/-- The pages in the ring are distinct. -/
theorem Ring.nodup (h : Ring frames nextReplace loads) (hdistinct : Distinct frames)
    (hloads : ∀ page ∈ loads, page ≠ -1) : (loads.drop (loads.length - n)).Nodup := by
  rw [List.Nodup, List.pairwise_iff_getElem]
  intro a b ha hb hab heq
  rw [List.length_drop] at ha hb
  rw [List.getElem_drop, List.getElem_drop] at heq
  have hframes : frames (cell n (loads.length - n + a)) = frames (cell n (loads.length - n + b)) := by
    rw [h.loaded _ (by omega) (by omega), h.loaded _ (by omega) (by omega), heq]
  rcases hdistinct _ _ hframes with hempty | hcell
  · rw [h.loaded _ (by omega) (by omega)] at hempty
    exact hloads _ (List.getElem_mem _) hempty
  · exact cell_ne (by omega) (by omega) hcell

theorem ring_after (refString : List ℤ) (hi : i ≤ refString.length) :
    Ring ((fifo n).after refString i).frames ((fifo n).after refString i).kept
      (faulted ((fifo n).after refString i)) := by
  refine after_induction (P := fun _ s => Ring s.frames s.kept (faulted s)) (fifo n) refString
    ring_init ?_ hi
  intro i page s _ hs
  cases hfind : findFrame s.frames page with
  | some j =>
    rw [faulted_of_some hfind, access_of_some hfind]
    exact hs
  | none =>
    rw [faulted_of_none hfind, access_of_none hfind]
    exact hs.load page

theorem faulted_subset (policy : Policy n S) (hi : i ≤ refString.length) :
    ∀ page ∈ faulted (policy.after refString i), page ∈ refString := by
  refine after_induction (P := fun _ s => ∀ page ∈ faulted s, page ∈ refString) policy refString
    (fun page hpage => absurd hpage List.not_mem_nil) ?_ hi
  intro i page s hget hs x hx
  cases hfind : findFrame s.frames page with
  | some j =>
    rw [faulted_of_some hfind] at hx
    exact hs x hx
  | none =>
    rw [faulted_of_none hfind] at hx
    rcases List.mem_append.mp hx with hx | hx
    · exact hs x hx
    · rw [List.mem_singleton.mp hx]
      exact List.mem_of_getElem? hget

variable (hpages : ∀ page ∈ refString, page ≠ -1)
include hpages

theorem nodup_lastLoads (hi : i ≤ refString.length) :
    (lastLoads ((fifo n).after refString i)).Nodup :=
  (ring_after refString hi).nodup (distinct_after (fifo n) refString hi) fun page hpage =>
    hpages page (faulted_subset (fifo n) hi page hpage)

theorem resident_fifo (hi : i ≤ refString.length) :
    resident ((fifo n).after refString i).frames =
      (lastLoads ((fifo n).after refString i)).toFinset := by
  have hring := ring_after (n := n) refString hi
  ext x
  rw [List.mem_toFinset, mem_resident]
  constructor
  · rintro ⟨hne, hx⟩
    exact (hring.mem_iff hne).mp hx
  · intro hx
    have hne := hpages x (faulted_subset (fifo n) hi x (List.mem_of_mem_drop hx))
    exact ⟨hne, (hring.mem_iff hne).mpr hx⟩

/-- The last loads are the queue of the policy, the latest at its front. -/
theorem listRun_fifoStep (hi : i ≤ refString.length) :
    listRun (fifoStep n) [] (refString.take i) =
      (lastLoads ((fifo n).after refString i)).reverse := by
  have hreverse : ∀ s : Simulation n (Fin n), (lastLoads s).reverse = (faulted s).reverse.take n :=
    fun s => List.take_reverse.symm
  rw [hreverse]
  induction i with
  | zero => exact List.take_nil.symm
  | succ i ih =>
    have hi' := Nat.le_of_succ_le hi
    have hget : refString[i]? = some refString[i] := List.getElem?_eq_getElem hi
    have hmem := (ring_after (n := n) refString hi').mem_iff (hpages _ (List.getElem_mem hi))
    rw [← lastLoads, ← List.mem_reverse, hreverse, ← ih hi'] at hmem
    rw [take_succ_eq hget, listRun_concat, after_succ (fifo n) hget, fifoStep]
    cases hfind : findFrame ((fifo n).after refString i).frames refString[i] with
    | some j =>
      rw [if_pos (hmem.mp ⟨j, findFrame_some hfind⟩), faulted_of_some hfind, ih hi']
    | none =>
      have hnot : ¬ refString[i] ∈ listRun (fifoStep n) [] (refString.take i) := fun hin => by
        obtain ⟨j, hj⟩ := hmem.mpr hin
        exact findFrame_none hfind j hj
      rw [if_neg hnot, faulted_of_none hfind, ih hi', List.reverse_append, List.reverse_singleton,
        List.singleton_append, List.take_cons n.pos, List.take_cons n.pos, List.take_take,
        Nat.min_eq_left (Nat.sub_le _ _)]

theorem simulateFifo_eq : simulateFifo refString n = listFaults (fifoStep n) [] refString := by
  refine faults_eq_listFaults (fifo n) hpages fun i hi page => ?_
  rw [listRun_fifoStep hpages hi, resident_fifo hpages hi, List.mem_toFinset, List.mem_reverse]

omit hpages

/-- After every reference the frames hold, each in one frame, the last pages that faulted, which are
the queue of the policy, and `next_replace` goes round to an empty frame or to the earliest of them. A
hit changes nothing, and a fault with full frames evicts the earliest. -/
theorem simulateFifo_refines_queue (hpages : ∀ page ∈ refString, 0 ≤ page) (n : ℕ+) :
    (∀ i ≤ refString.length,
      let s := (fifo n).after refString i
      lastLoads s = (listRun (fifoStep n) [] (refString.take i)).reverse ∧
        (lastLoads s).length = min (n : ℕ) s.faults ∧ (lastLoads s).Nodup ∧
        resident s.frames = (lastLoads s).toFinset ∧
        (∀ page ∈ lastLoads s, ∃! j, s.frames j = page) ∧
        (s.kept : ℕ) = s.faults % n ∧
        (s.frames s.kept = -1 ∨ (lastLoads s).head? = some (s.frames s.kept))) ∧
    ∀ i page, refString[i]? = some page →
      let s := (fifo n).after refString i
      let s' := (fifo n).after refString (i + 1)
      ((∃ j, s.frames j = page) →
        s'.frames = s.frames ∧ s'.kept = s.kept ∧ s'.faults = s.faults) ∧
      ((∀ j, s.frames j ≠ page) → s'.faults = s.faults + 1 ∧
        ((∀ j, s.frames j ≠ -1) → ∃ oldest, (lastLoads s).head? = some oldest ∧
          resident s'.frames = insert page ((resident s.frames).erase oldest))) := by
  have hne : ∀ page ∈ refString, page ≠ -1 := fun page hmem => by
    have hnonneg := hpages page hmem
    omega
  refine ⟨fun i hi => ?_, fun i page hget => ?_⟩
  · have hring := ring_after (n := n) refString hi
    have hresident := resident_fifo (n := n) hne hi
    have hlength := length_faulted (fifo n) hi
    refine ⟨?_, ?_, nodup_lastLoads hne hi, hresident, fun page hmem => ?_, ?_, ?_⟩
    · rw [listRun_fifoStep hne hi, List.reverse_reverse]
    · rw [lastLoads, List.length_drop, hlength]
      omega
    · rw [← List.mem_toFinset, ← hresident] at hmem
      exact (distinct_after (fifo n) refString hi).existsUnique hmem
    · rw [hring.next, hlength, cell]
    · rcases Nat.lt_or_ge (faulted ((fifo n).after refString i)).length n with hroom | hfull
      · exact Or.inl (hring.next_empty hroom)
      · exact Or.inr (hring.next_oldest hfull)
  · have hi := (List.getElem?_eq_some_iff.mp hget).1.le
    have hring := ring_after (n := n) refString hi
    dsimp only
    rw [after_succ (fifo n) hget]
    refine ⟨fun ⟨j, hj⟩ => ?_, fun hnone => ?_⟩
    · cases hfind : findFrame ((fifo n).after refString i).frames page with
      | some j' =>
        rw [access_of_some hfind]
        exact ⟨rfl, rfl, rfl⟩
      | none => exact absurd hj (findFrame_none hfind j)
    · cases hfind : findFrame ((fifo n).after refString i).frames page with
      | some j => exact absurd (findFrame_some hfind) (hnone j)
      | none =>
        rw [access_of_none hfind]
        refine ⟨rfl, fun hfull => ⟨_, hring.next_oldest (hring.full hfull), ?_⟩⟩
        exact (distinct_after (fifo n) refString hi).resident_update
          (hne page (List.mem_of_getElem? hget)) hnone

/-- Three frames, seven references: the page loaded second is evicted last. -/
theorem simulateFifo_queue_usage :
    lastLoads ((fifo 3).after [7, 0, 1, 2, 0, 3] 6) = [1, 2, 3] := by
  have hpages : ∀ page ∈ ([7, 0, 1, 2, 0, 3] : List ℤ), 0 ≤ page := by decide
  rw [((simulateFifo_refines_queue hpages 3).1 6 le_rfl).1]
  decide

end CpreLabs.PageSim
