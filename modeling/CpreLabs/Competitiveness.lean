import CpreLabs.FirstInFirstOut
import CpreLabs.LeastRecentlyUsed
import CpreLabs.PhasePartition

/-!
# How far the two online policies are from Belady's

Both bring a page that faults to the front of their list, and `simulate_opt` is a schedule like any
other.
-/
namespace CpreLabs.PageSim
open DemandPaging

variable {refString : List ℤ}

theorem listFaults_le_simulateOpt (hpages : ∀ page ∈ refString, 0 ≤ page) {k : ℕ+}
    {step : List ℤ → ℤ → List ℤ} (h : Conservative k step) :
    listFaults step [] refString ≤ k * simulateOpt refString k :=
  h.competitive k.pos (serves_simulate (opt k) hpages)

/-- With `k` frames neither faults more than `k` times as often. -/
theorem lru_fifo_competitive (hpages : ∀ page ∈ refString, 0 ≤ page) (k : ℕ+) :
    simulateLru refString k ≤ k * simulateOpt refString k ∧
      simulateFifo refString k ≤ k * simulateOpt refString k := by
  have hne : ∀ page ∈ refString, page ≠ -1 := fun page hmem => by
    have hnonneg := hpages page hmem
    omega
  rw [simulateLru_eq hne, simulateFifo_eq hne]
  exact ⟨listFaults_le_simulateOpt hpages (conservative_lruStep k),
    listFaults_le_simulateOpt hpages (conservative_fifoStep k)⟩

/-- Going round three pages with two frames, both fault at every reference. -/
theorem lru_fifo_competitive_usage :
    simulateLru [1, 2, 3, 1, 2, 3] 2 ≤ 2 * simulateOpt [1, 2, 3, 1, 2, 3] 2 :=
  (lru_fifo_competitive (by decide) 2).1

end CpreLabs.PageSim
