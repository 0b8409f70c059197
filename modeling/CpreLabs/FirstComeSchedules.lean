import CpreLabs.UnitTickScheduling
import Mathlib.Data.Prod.Lex

/-!
# First-come schedules

A schedule that runs at every tick the job that came first runs the jobs one after the other, each
without a break, and no other schedule does so.
-/
namespace CpreLabs.UnitTick

variable {ι : Type*}

/-- The place of a job in the order of arrival; of those that arrive together the least is
first. -/
def place (arrival : ι → ℕ) (i : ι) : ℕ ×ₗ ι := toLex (arrival i, i)

theorem place_injective (arrival : ι → ℕ) : Function.Injective (place arrival) := by
  intro i l h
  exact (Prod.ext_iff.mp (toLex.injective h)).2

section Order

variable [LinearOrder ι] {arrival : ι → ℕ} {i l : ι}

theorem place_lt_iff :
    place arrival i < place arrival l ↔ arrival i < arrival l ∨ arrival i = arrival l ∧ i < l :=
  Prod.Lex.toLex_lt_toLex

theorem place_le_iff :
    place arrival i ≤ place arrival l ↔ arrival i < arrival l ∨ arrival i = arrival l ∧ i ≤ l :=
  Prod.Lex.toLex_le_toLex

theorem arrival_le_of_place_le (h : place arrival i ≤ place arrival l) : arrival i ≤ arrival l := by
  rcases place_le_iff.mp h with hlt | ⟨heq, -⟩
  · exact hlt.le
  · exact heq.le

end Order

variable [DecidableEq ι] [LinearOrder ι]

/-- The job that runs came first of all that could. -/
structure FirstCome (arrival length : ι → ℕ) (σ : ℕ → Option ι) : Prop
    extends Feasible arrival length σ where
  first : ∀ k i, σ k = some i → ∀ l, arrival l ≤ k → served σ k l < length l →
    place arrival i ≤ place arrival l
  busy : Busy arrival length σ

/-- The jobs of the list run one after the other, each for its whole length as soon as it has
arrived and the one before it has ended. -/
def Bursts (arrival length : ι → ℕ) (σ : ℕ → Option ι) : ℕ → List ι → Prop
  | _, [] => True
  | prevEnd, p :: ps =>
    (∀ k, max (arrival p) prevEnd ≤ k → k < max (arrival p) prevEnd + length p → σ k = some p) ∧
      Bursts arrival length σ (max (arrival p) prevEnd + length p) ps

namespace FirstCome

variable {arrival length : ι → ℕ} {σ τ : ℕ → Option ι} {k : ℕ}

theorem choice_eq (h : FirstCome arrival length σ) {i : ι} (harr : arrival i ≤ k)
    (hlt : served σ k i < length i)
    (hfirst : ∀ l, arrival l ≤ k → served σ k l < length l → place arrival i ≤ place arrival l) :
    σ k = some i := by
  cases hrun : σ k with
  | none => exact absurd (h.busy k hrun i harr) (not_le.mpr hlt)
  | some j =>
    have hij := hfirst j (h.arrived k j hrun) (h.unfinished k j hrun)
    have hji := h.first k j hrun i harr hlt
    rw [place_injective arrival (hji.antisymm hij)]

theorem unique (hσ : FirstCome arrival length σ) (hτ : FirstCome arrival length τ) : σ = τ := by
  funext k
  induction k using Nat.strong_induction_on with
  | h k ih =>
    have hserved : ∀ i, served σ k i = served τ k i := by
      intro i
      exact served_congr ih
    cases hrun : τ k with
    | some i =>
      apply hσ.choice_eq (hτ.arrived k i hrun)
      · rw [hserved]
        exact hτ.unfinished k i hrun
      · intro l harr hlt
        rw [hserved] at hlt
        exact hτ.first k i hrun l harr hlt
    | none =>
      cases hrun' : σ k with
      | none => rfl
      | some i =>
        have hle := hτ.busy k hrun i (hσ.arrived k i hrun')
        rw [← hserved] at hle
        exact absurd (hσ.unfinished k i hrun') (not_lt.mpr hle)

/-- The first of the jobs that are left has the CPU from its arrival on without a break. -/
theorem burst (h : FirstCome arrival length σ) {p : ι} {now start : ℕ}
    (hbehind : ∀ m, now ≤ m → ∀ l, served σ m l < length l → place arrival p ≤ place arrival l)
    (hnone : served σ now p = 0) (hstart : max (arrival p) now = start) :
    (∀ m, now ≤ m → m < start → σ m = none) ∧
      ∀ m, start ≤ m → m < start + length p → σ m = some p := by
  have hnow : now ≤ start := by omega
  have hidle : ∀ m, now ≤ m → m < start → σ m = none := by
    intro m hm hms
    cases hrun : σ m with
    | none => rfl
    | some j =>
      have harr := h.arrived m j hrun
      have hle := arrival_le_of_place_le (hbehind m hm j (h.unfinished m j hrun))
      omega
  have hzero : served σ start p = 0 := by
    rw [served_of_constant hnow hidle, hnone, if_neg (by simp)]
  have hburst : ∀ n, n ≤ length p → ∀ m, start ≤ m → m < start + n → σ m = some p := by
    intro n hn
    induction n with
    | zero =>
      intro m hm hmn
      omega
    | succ n ihn =>
      intro m hm hmn
      rcases Nat.lt_or_ge m (start + n) with hlt | hge
      · exact ihn (by omega) m hm hlt
      · have hserved := served_of_constant hm
          (fun j hj hjm => ihn (by omega) j hj (by omega)) p
        rw [hzero, if_pos rfl] at hserved
        apply h.choice_eq
        · omega
        · omega
        · exact fun l _ hlt => hbehind m (hnow.trans hm) l hlt
  exact ⟨hidle, hburst _ le_rfl⟩

/-- When the jobs before the tick are finished and those behind it have not begun. -/
theorem bursts (h : FirstCome arrival length σ) (before after : List ι) (now : ℕ)
    (hsorted : (before ++ after).Pairwise (fun i l => place arrival i < place arrival l))
    (hall : ∀ i, i ∈ before ++ after) (hdone : ∀ i ∈ before, length i ≤ served σ now i)
    (hnone : ∀ i ∈ after, served σ now i = 0) : Bursts arrival length σ now after := by
  induction after generalizing before now with
  | nil => trivial
  | cons p ps ih =>
    have hlater : ∀ l ∈ p :: ps, place arrival p ≤ place arrival l := by
      intro l hl
      rcases List.mem_cons.mp hl with rfl | hl
      · exact le_rfl
      · exact (List.rel_of_pairwise_cons (List.pairwise_append.mp hsorted).2.1 hl).le
    have hbehind : ∀ m, now ≤ m → ∀ l, served σ m l < length l → place arrival p ≤ place arrival l := by
      intro m hm l hlt
      rcases List.mem_append.mp (hall l) with hl | hl
      · have hle := (hdone l hl).trans (served_mono hm)
        omega
      · exact hlater l hl
    obtain ⟨start, hstart⟩ : ∃ start, max (arrival p) now = start := ⟨_, rfl⟩
    have hnow : now ≤ start := by omega
    obtain ⟨hidle, hburst⟩ := h.burst hbehind (hnone p List.mem_cons_self) hstart
    have hend : ∀ i, served σ (start + length p) i =
        served σ now i + if some p = some i then length p else 0 := by
      intro i
      rw [served_of_constant (Nat.le_add_right start _) hburst,
        served_of_constant hnow hidle, if_neg (by simp), Nat.add_zero, Nat.add_sub_cancel_left]
    rw [Bursts, hstart]
    refine ⟨hburst, ih (before ++ [p]) _ ?_ ?_ ?_ ?_⟩
    · rw [List.append_assoc]
      exact hsorted
    · rw [List.append_assoc]
      exact hall
    · intro i hi
      rw [hend]
      rcases List.mem_append.mp hi with hi | hi
      · exact (hdone i hi).trans (Nat.le_add_right _ _)
      · rw [List.mem_singleton.mp hi, if_pos rfl]
        exact Nat.le_add_left _ _
    · intro i hi
      have hlt := List.rel_of_pairwise_cons (List.pairwise_append.mp hsorted).2.1 hi
      have hne : some p ≠ some i := fun heq => hlt.ne (by rw [Option.some.inj heq])
      rw [hend, if_neg hne, Nat.add_zero]
      exact hnone i (List.mem_cons_of_mem p hi)

end FirstCome

end CpreLabs.UnitTick
