import CpreLabs.FirstInFirstOut
import CpreLabs.LeastRecentlyUsed
import CpreLabs.MemorySizes

/-!
# What more frames are worth

The two online policies with `k` frames against any schedule with `n`, and `simulate_opt` against
itself: a reference that faults faults with fewer frames as well.
-/
namespace CpreLabs.PageSim
open DemandPaging

variable {refString : List ℤ} {n m : ℕ+} {i : ℕ} {page : ℤ}

/-- The last inequality bounds what Belady's anomaly can cost. -/
theorem lru_fifo_augmented (hpages : ∀ page ∈ refString, 0 ≤ page) (k n : ℕ+) :
    (∀ f, Serves n ∅ refString f →
      (k + 1 - n) * simulateLru refString k ≤ k * f ∧
        (k + 1 - n) * simulateFifo refString k ≤ k * f) ∧
      (k + 1 - n) * simulateLru refString k ≤ k * simulateOpt refString n ∧
      (k + 1 - n) * simulateFifo refString k ≤ k * simulateOpt refString n ∧
      (k + 1 - n) * simulateFifo refString k ≤ k * simulateFifo refString n := by
  have hne : ∀ page ∈ refString, page ≠ -1 := fun page hmem => by
    have hnonneg := hpages page hmem
    omega
  have hlru : ∀ f, Serves n ∅ refString f → (k + 1 - n) * simulateLru refString k ≤ k * f := by
    intro f hf
    rw [simulateLru_eq hne]
    exact (conservative_lruStep k).augmented n.pos k.pos hf
  have hfifo : ∀ f, Serves n ∅ refString f → (k + 1 - n) * simulateFifo refString k ≤ k * f := by
    intro f hf
    rw [simulateFifo_eq hne]
    exact (conservative_fifoStep k).augmented n.pos k.pos hf
  refine ⟨fun f hf => ⟨hlru f hf, hfifo f hf⟩, ?_, ?_, ?_⟩
  · apply hlru
    exact serves_simulate (opt n) hpages
  · apply hfifo
    exact serves_simulate (opt n) hpages
  · apply hfifo
    exact serves_simulate (fifo n) hpages

/-- The string on which first in, first out has more faults with a frame more. -/
theorem fifo_anomaly_bounded :
    (4 + 1 - 3) * simulateFifo [1, 2, 3, 4, 1, 2, 5, 1, 2, 3, 4, 5] 4 ≤
      4 * simulateFifo [1, 2, 3, 4, 1, 2, 5, 1, 2, 3, 4, 5] 3 :=
  (lru_fifo_augmented (by decide) 4 3).2.2.2

theorem farthest_after (n : ℕ+) (hpages : ∀ page ∈ refString, 0 ≤ page)
    (hlen : refString.length ≤ maxRefLength) (hget : refString[i]? = some page) :
    Farthest n (refString.drop (i + 1)) (resident ((opt n).after refString i).frames) page
      (resident ((opt n).after refString (i + 1)).frames) := by
  obtain ⟨hi, rfl⟩ := List.getElem?_eq_some_iff.mp hget
  have hpage : refString[i] ≠ -1 := by
    have hnonneg := hpages _ (List.getElem_mem hi)
    omega
  have hsplit : refString = refString.take i ++ refString[i] :: refString.drop (i + 1) := by
    rw [← List.drop_eq_getElem_cons hi, List.take_append_drop]
  have hfar := farthest_access (distinct_after (opt n) refString hi.le) hpage hsplit hlen
  rw [List.length_take_of_le hi.le] at hfar
  rw [after_succ (opt n) hget]
  exact hfar

theorem retains_after (hpages : ∀ page ∈ refString, 0 ≤ page)
    (hlen : refString.length ≤ maxRefLength) (hnm : n ≤ m) (hi : i ≤ refString.length) :
    Retains n (refString.drop i) (resident ((opt n).after refString i).frames)
      (resident ((opt m).after refString i).frames) := by
  induction i with
  | zero =>
    rw [after_zero, after_zero, resident_empty, resident_empty]
    exact ⟨fun x hx _ => hx, le_rfl, fun _ => Finset.Subset.refl _⟩
  | succ i ih =>
    have hget : refString[i]? = some refString[i] := List.getElem?_eq_getElem hi
    have hrest := ih (Nat.le_of_succ_le hi)
    rw [List.drop_eq_getElem_cons hi] at hrest
    exact hrest.next hnm (farthest_after n hpages hlen hget) (farthest_after m hpages hlen hget)
      (card_resident_le _)

/-- Whatever is in `n` frames and is referenced again is in more frames too, however ties between
the other pages are broken; so no reference faults only with more frames. -/
theorem simulateOpt_inclusion (hpages : ∀ page ∈ refString, 0 ≤ page)
    (hlen : refString.length ≤ maxRefLength) (hnm : n ≤ m) :
    (∀ i ≤ refString.length, ∀ page ∈ resident ((opt n).after refString i).frames,
      page ∈ refString.drop i → page ∈ resident ((opt m).after refString i).frames) ∧
    ∀ (i : ℕ) (page : ℤ), refString[i]? = some page →
      (((opt m).simulate refString).printed[i]?).map StepLine.isFault = some true →
      (((opt n).simulate refString).printed[i]?).map StepLine.isFault = some true := by
  refine ⟨fun i hi => (retains_after hpages hlen hnm hi).live, fun i page hget hfault => ?_⟩
  obtain ⟨hi, rfl⟩ := List.getElem?_eq_some_iff.mp hget
  have hpage : refString[i] ≠ -1 := by
    have hnonneg := hpages _ (List.getElem_mem hi)
    omega
  rw [printed_simulate (opt m) hget, Option.map_some, Option.some.injEq, decide_eq_true_eq]
    at hfault
  rw [printed_simulate (opt n) hget, Option.map_some, Option.some.injEq, decide_eq_true_eq]
  intro j hj
  have hnext : refString[i] ∈ refString.drop i := by
    rw [List.drop_eq_getElem_cons hi]
    exact List.mem_cons_self
  have hmem := (retains_after hpages hlen hnm hi.le).live _ (mem_resident.mpr ⟨hpage, j, hj⟩) hnext
  obtain ⟨-, j', hj'⟩ := mem_resident.mp hmem
  exact hfault j' hj'

theorem simulateOpt_inclusion_usage :
    (((opt 2).simulate [1, 2, 3, 1, 2, 4]).printed[5]?).map StepLine.isFault = some true :=
  (simulateOpt_inclusion (n := 2) (m := 3) (by decide) (by decide) (by decide)).2 5 4 rfl (by decide)

end CpreLabs.PageSim
