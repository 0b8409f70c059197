import CpreLabs.FaultFloor
import CpreLabs.PhasePartition

/-!
# Loops over one page more than there are frames

A list policy gives up each page just before it is needed, and misses at every reference. A memory
of `k` pages can do with one miss in `k` references after the first `k`, and not with fewer.
-/
namespace CpreLabs.DemandPaging

variable {α : Type*} [DecidableEq α] {k i j r f t : ℕ} {page : ℕ → α} {R : Finset α}
  {step : List α → α → List α}

/-- The references go round `k + 1` pages. -/
def Loop (k : ℕ) (page : ℕ → α) : Prop := ∀ i j, page i = page j ↔ i ≡ j [MOD k + 1]

/-- The `r` references from position `i` on. -/
def references (page : ℕ → α) (i r : ℕ) : List α := (List.range' i r).map page

def recentPages (k : ℕ) (page : ℕ → α) (i : ℕ) : List α := ((List.range i).map page).reverse.take k

omit [DecidableEq α] in
theorem references_succ (page : ℕ → α) (i r : ℕ) :
    references page i (r + 1) = page i :: references page (i + 1) r := by
  rw [references, List.range'_succ, List.map_cons, ← references]

omit [DecidableEq α] in
theorem Loop.ne (h : Loop k page) (hij : i < j) (hj : j ≤ i + k) : page i ≠ page j := by
  intro heq
  have hdvd : k + 1 ∣ j - i := (Nat.modEq_iff_dvd' hij.le).mp ((h i j).mp heq)
  have hle := Nat.le_of_dvd (by omega) hdvd
  omega

omit [DecidableEq α] in
theorem Loop.mod (h : Loop k page) (i : ℕ) : page (i % (k + 1)) = page i :=
  (h _ _).mpr (Nat.mod_modEq i (k + 1))

theorem Loop.card_window (h : Loop k page) (i : ℕ) {n : ℕ} (hn : n ≤ k + 1) :
    ((Finset.range n).image (fun t => page (i + t))).card = n := by
  rw [Finset.card_image_of_injOn, Finset.card_range]
  intro a ha b hb heq
  have ha := Finset.mem_range.mp ha
  have hb := Finset.mem_range.mp hb
  by_contra hne
  rcases Nat.lt_or_gt_of_ne hne with hlt | hlt
  · exact h.ne (i := i + a) (j := i + b) (by omega) (by omega) heq
  · exact h.ne (i := i + b) (j := i + a) (by omega) (by omega) heq.symm

theorem Loop.notMem_image (h : Loop k page) (hi : i ≤ k) : page i ∉ (Finset.range i).image page := by
  intro hmem
  obtain ⟨j, hj, heq⟩ := Finset.mem_image.mp hmem
  exact h.ne (Finset.mem_range.mp hj) (by omega) heq

omit [DecidableEq α] in
theorem take_cons_take (k : ℕ) (x : α) (l : List α) : (x :: l.take k).take k = (x :: l).take k := by
  cases k with
  | zero => rfl
  | succ k => rw [List.take_succ_cons, List.take_succ_cons, List.take_take, Nat.min_eq_left k.le_succ]

omit [DecidableEq α] in
theorem recentPages_succ (k : ℕ) (page : ℕ → α) (i : ℕ) :
    recentPages k page (i + 1) = (page i :: recentPages k page i).take k := by
  rw [recentPages, recentPages, take_cons_take, List.range_succ, List.map_append,
    List.reverse_append]
  rfl

omit [DecidableEq α] in
theorem Loop.notMem_recentPages (h : Loop k page) (i : ℕ) : page i ∉ recentPages k page i := by
  intro hmem
  obtain ⟨t, ht, heq⟩ := List.mem_take_iff_getElem.mp hmem
  rw [List.length_reverse, List.length_map, List.length_range] at ht
  rw [List.getElem_reverse, List.getElem_map, List.getElem_range, List.length_map,
    List.length_range] at heq
  exact h.ne (by omega) (by omega) heq

/-- The memory is what was referenced last, and the next page is the one before. -/
theorem Loop.misses (h : Loop k page) (hstep : Conservative k step) (i r : ℕ) :
    listFaults step (recentPages k page i) (references page i r) = r := by
  induction r generalizing i with
  | zero => rfl
  | succ r ih =>
    have hout := h.notMem_recentPages i
    rw [references_succ, listFaults, if_neg hout, hstep.miss _ _ hout, ← recentPages_succ, ih,
      Nat.add_comm]

/-- Some page is not in the memory, and its turn comes within `k` references. -/
theorem Loop.exists_missing (h : Loop k page) (hi : page i ∈ R) (hR : R.card ≤ k) :
    ∃ t < k, page (i + 1 + t) ∉ R := by
  by_contra hall
  push Not at hall
  have hsub : (Finset.range (k + 1)).image (fun t => page (i + t)) ⊆ R := by
    intro x hx
    obtain ⟨t, ht, rfl⟩ := Finset.mem_image.mp hx
    have ht := Finset.mem_range.mp ht
    cases t with
    | zero => exact hi
    | succ t =>
      have hmem := hall t (by omega)
      rwa [Nat.add_right_comm] at hmem
  have hle := Finset.card_le_card hsub
  rw [h.card_window i le_rfl] at hle
  omega

theorem Loop.length_le (h : Loop k page) (hs : Serves k R (references page i r) f)
    (ht : page (i + t) ∉ R) : r ≤ k * f + t := by
  induction r generalizing i R f t with
  | zero => exact Nat.zero_le _
  | succ r ih =>
    rw [references_succ] at hs
    cases hs with
    | @cons _ R' _ _ f hload hrest =>
      rw [cost]
      split
      · have hmem : page i ∈ R := ‹page i ∈ R›
        cases t with
        | zero => exact absurd hmem ht
        | succ t =>
          have hsub : R' ⊆ R := by
            rw [← Finset.insert_eq_of_mem hmem]
            exact hload.sub
          have hout : page (i + 1 + t) ∉ R' := by
            rw [Nat.add_right_comm]
            exact fun hin => ht (hsub hin)
          have hle := ih hrest hout
          rw [Nat.zero_add]
          omega
      · obtain ⟨t', ht', hout⟩ := h.exists_missing hload.mem hload.room
        have hle := ih hrest hout
        rw [Nat.mul_add, Nat.mul_one]
        omega

/-- The first `k` references miss, and from there on one in `k`. -/
theorem Loop.faults_ge (h : Loop k page) (hs : Serves k R (references page i r) f) (hi : i ≤ k)
    (hR : R ⊆ (Finset.range i).image page) :
    ∃ g, f = min r (k - i) + g ∧ r - (k - i) ≤ k * g := by
  have hout : page i ∉ R := fun hmem => h.notMem_image hi (hR hmem)
  induction r generalizing i R f with
  | zero =>
    cases hs
    exact ⟨0, by omega, by omega⟩
  | succ r ih =>
    rcases Nat.lt_or_ge i k with hlt | hge
    · rw [references_succ] at hs
      cases hs with
      | @cons _ R' _ _ f hload hrest =>
        have hR' : R' ⊆ (Finset.range (i + 1)).image page := by
          rw [Finset.range_add_one, Finset.image_insert]
          exact hload.sub.trans (Finset.insert_subset_insert _ hR)
        have hout' : page (i + 1) ∉ R' := fun hmem => h.notMem_image hlt (hR' hmem)
        obtain ⟨g, hf, hg⟩ := ih hrest hlt hR' hout'
        rw [cost, if_neg hout]
        exact ⟨g, by omega, by omega⟩
    · have hle := h.length_le (t := 0) hs hout
      exact ⟨f, by omega, by omega⟩

/-- The memory is without the page that was referenced before the last miss. -/
theorem Loop.serves (h : Loop k page) (ht : t < k) (i r : ℕ) :
    ∃ f, Serves k (((Finset.range (k + 1)).image page).erase (page (i + t)))
      (references page i r) f ∧ k * f + t < r + k := by
  have hpage : ∀ j, page j ∈ (Finset.range (k + 1)).image page := fun j =>
    Finset.mem_image.mpr ⟨j % (k + 1), Finset.mem_range.mpr (Nat.mod_lt _ k.succ_pos), h.mod j⟩
  have hcard : ∀ j, (((Finset.range (k + 1)).image page).erase (page j)).card ≤ k := by
    intro j
    have hwindow := h.card_window 0 le_rfl
    simp only [Nat.zero_add] at hwindow
    rw [Finset.card_erase_of_mem (hpage j), hwindow]
    exact le_rfl
  induction r generalizing i t with
  | zero => exact ⟨0, .nil _, by omega⟩
  | succ r ih =>
    rw [references_succ]
    cases t with
    | zero =>
      obtain ⟨f, hf, hlt⟩ := ih (t := k - 1) (by omega) (i + 1)
      have hmem : page i ∈ ((Finset.range (k + 1)).image page).erase (page (i + 1 + (k - 1))) :=
        Finset.mem_erase.mpr ⟨h.ne (by omega) (by omega), hpage i⟩
      rw [Nat.add_zero i]
      refine ⟨_, .cons ⟨hmem, ?_, hcard _⟩ hf, ?_⟩
      · rw [Finset.insert_erase (hpage i)]
        exact Finset.erase_subset _ _
      · rw [cost, if_neg (Finset.notMem_erase _ _), Nat.mul_add]
        omega
    | succ t =>
      obtain ⟨f, hf, hlt⟩ := ih (t := t) (by omega) (i + 1)
      rw [Nat.add_assoc, Nat.add_comm 1 t] at hf
      have hmem : page i ∈ ((Finset.range (k + 1)).image page).erase (page (i + (t + 1))) :=
        Finset.mem_erase.mpr ⟨h.ne (by omega) (by omega), hpage i⟩
      refine ⟨_, .cons ⟨hmem, Finset.subset_insert _ _, hcard _⟩ hf, ?_⟩
      rw [cost, if_pos hmem, Nat.zero_add]
      omega

theorem Loop.exists_serves (h : Loop k page) (hk : 0 < k) (hi : i ≤ k) (r : ℕ) :
    ∃ g, Serves k ((Finset.range i).image page) (references page i r) (min r (k - i) + g) ∧
      k * g < r - (k - i) + k := by
  have hout := h.notMem_image hi
  induction r generalizing i with
  | zero => exact ⟨0, by rw [Nat.zero_min]; exact .nil _, by omega⟩
  | succ r ih =>
    rcases Nat.lt_or_ge i k with hlt | hge
    · obtain ⟨g, hg, hle⟩ := ih (i := i + 1) hlt (h.notMem_image hlt)
      have hload : Loads k ((Finset.range i).image page) (page i)
          ((Finset.range (i + 1)).image page) := by
        rw [Finset.range_add_one, Finset.image_insert]
        refine ⟨Finset.mem_insert_self _ _, Finset.Subset.refl _, ?_⟩
        have hcard := Finset.card_insert_le (page i) ((Finset.range i).image page)
        have himage := Finset.card_image_le (s := Finset.range i) (f := page)
        rw [Finset.card_range] at himage
        omega
      have hserves := Serves.cons hload hg
      rw [← references_succ, cost, if_neg hout] at hserves
      have hsum : 1 + (min r (k - (i + 1)) + g) = min (r + 1) (k - i) + g := by omega
      rw [hsum] at hserves
      exact ⟨g, hserves, by omega⟩
    · obtain rfl : i = k := Nat.le_antisymm hi hge
      obtain ⟨f, hf, hle⟩ := h.serves hk i (r + 1)
      rw [Nat.add_zero i, Finset.range_add_one, Finset.image_insert, Finset.erase_insert hout] at hf
      refine ⟨f, ?_, by omega⟩
      rwa [Nat.sub_self, Nat.min_zero, Nat.zero_add]

theorem Loop.least (h : Loop k page) (hk : 0 < k) (hf : Serves k ∅ (references page 0 r) f)
    (hleast : ∀ g, Serves k ∅ (references page 0 r) g → f ≤ g) : f = min r k + (r - 1) / k := by
  obtain ⟨g, hg, hle⟩ := h.faults_ge hf (Nat.zero_le k) (Finset.empty_subset _)
  obtain ⟨g', hserves, hlt⟩ := h.exists_serves hk (Nat.zero_le k) r
  have hbest := hleast _ hserves
  rw [Nat.sub_zero] at hg hle hlt hbest
  have hscaled : k * g ≤ k * g' := Nat.mul_le_mul_left k (by omega)
  have hlower : (r - 1) / k ≤ g := by
    apply Nat.le_of_lt_succ
    apply Nat.div_lt_of_lt_mul
    rw [Nat.mul_succ]
    omega
  have hupper : g ≤ (r - 1) / k := by
    rcases Nat.lt_or_ge r k with hshort | hlong
    · have hzero : g = 0 := by
        by_contra hpos
        have hone := Nat.mul_le_mul_left k (Nat.one_le_iff_ne_zero.mpr hpos)
        omega
      rw [hzero]
      exact Nat.zero_le _
    · apply (Nat.le_div_iff_mul_le hk).mpr
      rw [Nat.mul_comm]
      omega
  omega

theorem Loop.card_toFinset (h : Loop k page) (r : ℕ) :
    (references page 0 r).toFinset.card = min r (k + 1) := by
  have himage : (references page 0 r).toFinset =
      (Finset.range (min r (k + 1))).image (fun t => page (0 + t)) := by
    ext x
    rw [List.mem_toFinset, references, List.mem_map, Finset.mem_image]
    constructor
    · intro ⟨i, hi, heq⟩
      have hi := List.mem_range'_1.mp hi
      have hle := Nat.mod_le i (k + 1)
      have hlt : i % (k + 1) < k + 1 := Nat.mod_lt i k.succ_pos
      refine ⟨i % (k + 1), Finset.mem_range.mpr (by omega), ?_⟩
      rw [Nat.zero_add, h.mod, heq]
    · intro ⟨i, hi, heq⟩
      have hi := Finset.mem_range.mp hi
      rw [Nat.zero_add] at heq
      exact ⟨i, List.mem_range'_1.mpr (by omega), heq⟩
  rw [himage, h.card_window 0 (Nat.min_le_right _ _)]

end CpreLabs.DemandPaging

namespace CpreLabs.PageSim
open DemandPaging

variable {k : ℕ+} {page : ℕ → ℤ}

/-- Both online policies miss at every reference where `simulate_opt` misses at one in `k`, and with
one frame more nothing misses twice. -/
theorem loop_faults (h : Loop k page) (hpages : ∀ i, 0 ≤ page i) {len : ℕ}
    (hlen : len ≤ maxRefLength) :
    simulateLru (references page 0 len) k = len ∧ simulateFifo (references page 0 len) k = len ∧
      simulateOpt (references page 0 len) k = min len k + (len - 1) / k ∧
      simulateLru (references page 0 len) (k + 1) = min len (k + 1) ∧
      simulateFifo (references page 0 len) (k + 1) = min len (k + 1) ∧
      simulateOpt (references page 0 len) (k + 1) = min len (k + 1) := by
  have hnonneg : ∀ x ∈ references page 0 len, 0 ≤ x := by
    intro x hx
    obtain ⟨i, -, rfl⟩ := List.mem_map.mp hx
    exact hpages i
  have hne : ∀ x ∈ references page 0 len, x ≠ -1 := fun x hx => by
    have hx := hnonneg x hx
    omega
  have hlength : (references page 0 len).length ≤ maxRefLength := by
    rw [references, List.length_map, List.length_range']
    exact hlen
  have hstart : recentPages k page 0 = [] := List.take_nil
  have hcard := h.card_toFinset len
  have hroom : (references page 0 len).toFinset.card ≤ (k + 1 : ℕ+) := by
    rw [hcard, PNat.add_coe, PNat.one_coe]
    exact Nat.min_le_right _ _
  have hdistinct : (distinctPages (references page 0 len)).card = min len (k + 1) := by
    have hout : (-1 : ℤ) ∉ (references page 0 len).toFinset :=
      fun hmem => hne _ (List.mem_toFinset.mp hmem) rfl
    rw [distinctPages, Finset.erase_eq_of_notMem hout, hcard]
  refine ⟨?_, ?_, ?_, ?_, ?_, ?_⟩
  · have hmisses := h.misses (conservative_lruStep k) 0 len
    rwa [hstart, ← simulateLru_eq hne] at hmisses
  · have hmisses := h.misses (conservative_fifoStep k) 0 len
    rwa [hstart, ← simulateFifo_eq hne] at hmisses
  · apply h.least k.pos
    · exact serves_simulate (opt k) hnonneg
    · intro g hg
      exact farthest_le (farthestServes_simulateOpt hnonneg hlength) hg
  · rw [← hdistinct]
    exact (faultFloor_of_fillsFirst (fillsFirst_lru (k + 1) _)).enough hroom
  · rw [← hdistinct]
    exact (faultFloor_of_fillsFirst (fillsFirst_fifo (k + 1) _)).enough hroom
  · rw [← hdistinct]
    exact (faultFloor_of_fillsFirst (fillsFirst_opt (k + 1) _)).enough hroom

/-- Round 101 pages with 100 frames. -/
theorem loop_faults_hundred :
    simulateLru (references (fun i => ((i % 101 : ℕ) : ℤ)) 0 1000) 100 = 1000 :=
  (loop_faults (k := 100) (fun _ _ => Int.ofNat_inj) (fun _ => Int.natCast_nonneg _) (by decide)).1

end CpreLabs.PageSim
