import Mathlib.Data.Finset.Card
import Mathlib.Data.List.Basic
import Mathlib.Order.Bounds.Basic

/-!
# Demand paging

A string of references is served with a memory of `n` pages. The policy that gives up the page
whose next reference is farthest away has no more faults than any other schedule.
-/
namespace CpreLabs.DemandPaging

variable {α : Type*} [DecidableEq α] {n k : ℕ} {p : α} {σ : List α}

/-- After a reference to `p` the memory holds `p`, and of the rest only what it held before. -/
structure Loads (n : ℕ) (R : Finset α) (p : α) (R' : Finset α) : Prop where
  mem : p ∈ R'
  sub : R' ⊆ insert p R
  room : R'.card ≤ n

def cost (R : Finset α) (p : α) : ℕ := if p ∈ R then 0 else 1

/-- A memory of `n` pages that holds `R` can serve the string with this number of faults. -/
inductive Serves (n : ℕ) : Finset α → List α → ℕ → Prop
  | nil (R : Finset α) : Serves n R [] 0
  | cons {R R' : Finset α} {p : α} {σ : List α} {f : ℕ} (hload : Loads n R p R')
      (hrest : Serves n R' σ f) : Serves n R (p :: σ) (cost R p + f)

/-- At a fault a full memory gives up a page whose next reference in the rest `σ` of the string is
as far away as any; `List.idxOf` puts those that are not referenced again last. -/
inductive Farthest (n : ℕ) (σ : List α) (R : Finset α) (p : α) : Finset α → Prop
  | hit (hp : p ∈ R) : Farthest n σ R p R
  | room (hp : p ∉ R) : Farthest n σ R p (insert p R)
  | evict {v : α} (hp : p ∉ R) (hfull : R.card = n) (hv : v ∈ R)
      (hfar : ∀ u ∈ R, σ.idxOf u ≤ σ.idxOf v) : Farthest n σ R p (insert p (R.erase v))

inductive FarthestServes (n : ℕ) : Finset α → List α → ℕ → Prop
  | nil (R : Finset α) : FarthestServes n R [] 0
  | cons {R R' : Finset α} {p : α} {σ : List α} {f : ℕ} (hload : Farthest n σ R p R')
      (hrest : FarthestServes n R' σ f) : FarthestServes n R (p :: σ) (cost R p + f)

theorem Loads.mono {m : ℕ} {R R' : Finset α} (h : Loads m R p R') (hmn : m ≤ n) : Loads n R p R' :=
  ⟨h.mem, h.sub, h.room.trans hmn⟩

theorem Serves.mono {m f : ℕ} {R : Finset α} (h : Serves m R σ f) (hmn : m ≤ n) :
    Serves n R σ f := by
  induction h with
  | nil R => exact .nil R
  | cons hload hrest ih => exact .cons (hload.mono hmn) ih

/-- How many of the pages are referenced among the next `d` references. -/
def soon (σ : List α) (d : ℕ) (X : Finset α) : ℕ := (X.filter (fun x => σ.idxOf x < d)).card

variable {d : ℕ} {X Y : Finset α}

theorem soon_mono (h : X ⊆ Y) : soon σ d X ≤ soon σ d Y :=
  Finset.card_le_card (Finset.filter_subset_filter _ h)

theorem soon_le_card : soon σ d X ≤ X.card := Finset.card_filter_le _ _

theorem soon_erase (hp : p ∈ X) :
    soon σ d X = (if σ.idxOf p < d then 1 else 0) + soon σ d (X.erase p) := by
  rw [soon, soon, Finset.filter_erase]
  by_cases hlt : σ.idxOf p < d
  · have hmem : p ∈ X.filter (fun x => σ.idxOf x < d) := Finset.mem_filter.mpr ⟨hp, hlt⟩
    have hcard := Finset.card_erase_add_one hmem
    rw [if_pos hlt]
    omega
  · have hnot : p ∉ X.filter (fun x => σ.idxOf x < d) := fun h => hlt (Finset.mem_filter.mp h).2
    rw [if_neg hlt, Finset.erase_eq_of_notMem hnot]
    omega

/-- One reference less to wait for. -/
theorem soon_cons : soon (p :: σ) (d + 1) X + cost X p = soon σ d (X.erase p) + 1 := by
  have hrest : soon (p :: σ) (d + 1) (X.erase p) = soon σ d (X.erase p) := by
    apply congrArg Finset.card
    apply Finset.filter_congr
    intro x hx
    rw [List.idxOf_cons_ne _ (Ne.symm (Finset.ne_of_mem_erase hx))]
    omega
  by_cases hp : p ∈ X
  · rw [soon_erase hp, hrest, cost, if_pos hp, List.idxOf_cons_self, if_pos (Nat.succ_pos d)]
    omega
  · rw [Finset.erase_eq_of_notMem hp] at hrest ⊢
    rw [hrest, cost, if_neg hp]

/-- If the page that is needed last is needed within `d` references, so are all. -/
theorem soon_of_last {v : α} (hfar : ∀ u ∈ X, σ.idxOf u ≤ σ.idxOf v) (hv : σ.idxOf v < d)
    (hY : Y ⊆ X) : soon σ d Y = Y.card := by
  rw [soon, Finset.filter_true_of_mem]
  intro u hu
  exact (hfar u (hY hu)).trans_lt hv

/-- For every distance `A` holds, up to `k`, as many of the pages referenced within it as `B`. -/
def Ahead (k : ℕ) (σ : List α) (A B : Finset α) : Prop :=
  ∀ d, soon σ d B ≤ soon σ d A + k

variable {A A' B B' : Finset α}

theorem Ahead.erase (h : Ahead k (p :: σ) A B) :
    ∃ k', cost A p + k' = cost B p + k ∧
      ∀ d, soon σ d (B.erase p) ≤ soon σ d (A.erase p) + k' := by
  have hle : ∀ d, soon σ d (B.erase p) + cost A p ≤ soon σ d (A.erase p) + (cost B p + k) := by
    intro d
    have hA := soon_cons (p := p) (σ := σ) (d := d) (X := A)
    have hB := soon_cons (p := p) (σ := σ) (d := d) (X := B)
    have hd := h (d + 1)
    omega
  have hcost : cost A p ≤ cost B p + k := by
    have h0 := hle 0
    simp only [soon, Nat.not_lt_zero, Finset.filter_false, Finset.card_empty, Nat.zero_add] at h0
    exact h0
  refine ⟨cost B p + k - cost A p, by omega, fun d => ?_⟩
  have hd := hle d
  omega

/-- Each reference changes the difference of the faults as it changes what `k` has to be. -/
theorem Ahead.step (h : Ahead k (p :: σ) A B) (hfar : Farthest n σ A p A')
    (hload : Loads n B p B') :
    ∃ k', cost A p + k' = cost B p + k ∧ Ahead k' σ A' B' := by
  obtain ⟨k', hk, hle⟩ := h.erase
  refine ⟨k', hk, fun d => ?_⟩
  have hB : B'.erase p ⊆ B.erase p := by
    intro x hx
    obtain ⟨hne, hx⟩ := Finset.mem_erase.mp hx
    exact Finset.mem_erase.mpr ⟨hne, (Finset.mem_insert.mp (hload.sub hx)).resolve_left hne⟩
  have hsub : soon σ d (B'.erase p) ≤ soon σ d (A.erase p) + k' := (soon_mono hB).trans (hle d)
  rw [soon_erase hload.mem]
  cases hfar with
  | hit hp =>
    rw [soon_erase hp]
    omega
  | room hp =>
    rw [soon_erase (Finset.mem_insert_self p A), Finset.erase_insert hp]
    rw [Finset.erase_eq_of_notMem hp] at hsub
    omega
  | @evict v hp hfull hv hfar =>
    have hpv : p ∉ A.erase v := fun hmem => hp (Finset.mem_of_mem_erase hmem)
    rw [soon_erase (Finset.mem_insert_self p (A.erase v)), Finset.erase_insert hpv]
    by_cases hlast : σ.idxOf v < d
    · -- everything else in the memory is needed sooner, and there is no room for more in `B'`
      have hall := soon_of_last hfar hlast (Finset.erase_subset v A)
      have hcard := Finset.card_erase_add_one hv
      have hcard' := Finset.card_erase_add_one hload.mem
      have hroom := hload.room
      have hle' := soon_le_card (σ := σ) (d := d) (X := B'.erase p)
      omega
    · have hsame : soon σ d A = soon σ d (A.erase v) := by
        rw [soon_erase hv, if_neg hlast, Nat.zero_add]
      rw [Finset.erase_eq_of_notMem hp] at hsub
      omega

theorem Ahead.faults_le {f g : ℕ} (h : Ahead k σ A B) (hf : FarthestServes n A σ f)
    (hg : Serves n B σ g) : f ≤ g + k := by
  induction hf generalizing B g k with
  | nil R => exact Nat.zero_le _
  | cons hfar hrest ih =>
    cases hg with
    | cons hload hg =>
      obtain ⟨k', hk, h'⟩ := h.step hfar hload
      have hle := ih h' hg
      omega

theorem farthest_le {f g : ℕ} (hf : FarthestServes n A σ f) (hg : Serves n A σ g) : f ≤ g :=
  Ahead.faults_le (k := 0) (fun _ => le_rfl) hf hg

end CpreLabs.DemandPaging
