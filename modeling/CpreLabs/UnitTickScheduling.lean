import Mathlib.Algebra.BigOperators.Ring.Finset
import Mathlib.Algebra.Order.BigOperators.Group.Finset
import Mathlib.Data.Finset.BooleanAlgebra
import Mathlib.Data.Fintype.BigOperators
import Mathlib.Data.Nat.Count
import Mathlib.Order.Lattice.Nat
import Mathlib.Tactic.Common

/-!
# Preemptive schedules in unit ticks

At every tick a schedule runs one job or none. To run a job with the shortest remaining length
leaves at every time the fewest jobs unfinished, hence has the least total turnaround.
-/
namespace CpreLabs.UnitTick

variable {ι : Type*} [DecidableEq ι]

/-- For how many of the first `k` ticks the job has run. -/
def served (σ : ℕ → Option ι) (k : ℕ) (i : ι) : ℕ := Nat.count (fun j => σ j = some i) k

/-- Only jobs that have arrived and are not finished run. -/
structure Feasible (arrival length : ι → ℕ) (σ : ℕ → Option ι) : Prop where
  arrived : ∀ k i, σ k = some i → arrival i ≤ k
  unfinished : ∀ k i, σ k = some i → served σ k i < length i

/-- Moreover every job runs for its whole length. -/
structure Valid (arrival length : ι → ℕ) (σ : ℕ → Option ι) : Prop
    extends Feasible arrival length σ where
  complete : ∀ i, ∃ k, served σ k i = length i

/-- No tick is idle when a job could run. -/
def Busy (arrival length : ι → ℕ) (σ : ℕ → Option ι) : Prop :=
  ∀ k, σ k = none → ∀ l, arrival l ≤ k → length l ≤ served σ k l

/-- The job that runs has the least remaining length of all that could. -/
structure ShortestFirst (arrival length : ι → ℕ) (σ : ℕ → Option ι) : Prop where
  least : ∀ k i, σ k = some i → ∀ l, arrival l ≤ k → served σ k l < length l →
    length i - served σ k i ≤ length l - served σ k l
  busy : Busy arrival length σ

noncomputable def completion (length : ι → ℕ) (σ : ℕ → Option ι) (i : ι) : ℕ :=
  sInf {k | served σ k i = length i}

noncomputable def turnaround [Fintype ι] (arrival length : ι → ℕ) (σ : ℕ → Option ι) : ℤ :=
  ∑ i, ((completion length σ i : ℤ) - arrival i)

variable {arrival length : ι → ℕ} {σ τ : ℕ → Option ι} {k : ℕ} {i : ι}

@[simp] theorem served_zero : served σ 0 i = 0 := Nat.count_zero _

theorem served_succ (σ : ℕ → Option ι) (k : ℕ) (i : ι) :
    served σ (k + 1) i = served σ k i + if σ k = some i then 1 else 0 := Nat.count_succ _ _

theorem served_mono {m : ℕ} (h : k ≤ m) : served σ k i ≤ served σ m i := Nat.count_monotone _ h

theorem served_pos_iff : 0 < served σ k i ↔ ∃ j, j < k ∧ σ j = some i := by
  rw [Nat.pos_iff_ne_zero, served, Nat.count_ne_iff_exists]

theorem served_congr (h : ∀ j, j < k → σ j = τ j) : served σ k i = served τ k i := by
  induction k with
  | zero => rw [served_zero, served_zero]
  | succ k ih =>
    rw [served_succ, served_succ, ih (fun j hj => h j (Nat.lt_succ_of_lt hj)),
      h k (Nat.lt_succ_self k)]

theorem served_of_constant {c : Option ι} {m : ℕ} (hkm : k ≤ m)
    (h : ∀ j, k ≤ j → j < m → σ j = c) (i : ι) :
    served σ m i = served σ k i + if c = some i then m - k else 0 := by
  induction m, hkm using Nat.le_induction with
  | base => rw [Nat.sub_self, ite_self, Nat.add_zero]
  | succ m hkm ih =>
    rw [served_succ, ih (fun j hkj hjm => h j hkj (Nat.lt_succ_of_lt hjm)),
      h m hkm (Nat.lt_succ_self m)]
    split <;> omega

namespace Feasible

theorem served_le (h : Feasible arrival length σ) (k : ℕ) (i : ι) : served σ k i ≤ length i := by
  induction k with
  | zero => exact Nat.zero_le _
  | succ k ih =>
    rw [served_succ]
    by_cases hi : σ k = some i
    · have hlt := h.unfinished k i hi
      rw [if_pos hi]
      omega
    · rw [if_neg hi]
      exact ih

theorem served_of_not_arrived (h : Feasible arrival length σ) (hk : k ≤ arrival i) :
    served σ k i = 0 := by
  induction k with
  | zero => exact served_zero
  | succ k ih =>
    have hi : σ k ≠ some i := fun hi => by
      have ha := h.arrived k i hi
      omega
    rw [served_succ, if_neg hi, ih (by omega)]

end Feasible

theorem completion_of_finish (hlt : served σ k i < length i) (hdone : served σ (k + 1) i = length i) :
    completion length σ i = k + 1 := by
  refine le_antisymm (Nat.sInf_le hdone) ?_
  by_contra hle
  have hmem : served σ (completion length σ i) i = length i :=
    Nat.sInf_mem (s := {m | served σ m i = length i}) ⟨k + 1, hdone⟩
  have hmono := served_mono (σ := σ) (i := i) (Nat.lt_succ_iff.mp (not_le.mp hle))
  omega

theorem Valid.completion_le (h : Valid arrival length σ) (hk : length i ≤ served σ k i) :
    completion length σ i ≤ k :=
  Nat.sInf_le (le_antisymm (h.served_le k i) hk)

theorem Valid.arrival_le_completion (h : Valid arrival length σ) (hpos : 0 < length i) :
    arrival i ≤ completion length σ i := by
  have hdone : served σ (completion length σ i) i = length i := Nat.sInf_mem (h.complete i)
  by_contra hle
  have hnone := h.served_of_not_arrived (not_le.mp hle).le
  omega

variable [Fintype ι]

/-- Without an idle tick the jobs share all ticks. -/
theorem sum_served (h : ∀ j, j < k → σ j ≠ none) : ∑ i, served σ k i = k := by
  induction k with
  | zero => exact Finset.sum_eq_zero (fun i _ => served_zero)
  | succ k ih =>
    obtain ⟨c, hc⟩ := Option.ne_none_iff_exists'.mp (h k (Nat.lt_succ_self k))
    simp only [served_succ, hc, Option.some.injEq, Finset.sum_add_distrib,
      ih (fun j hj => h j (Nat.lt_succ_of_lt hj)), Finset.sum_ite_eq, Finset.mem_univ, if_true]

/-- While a job is unfinished, only ticks before the last arrival are idle. -/
theorem Busy.le_of_unfinished (h : Busy arrival length σ)
    (hk : ∀ j, j < k → ∃ i, served σ j i < length i) :
    k ≤ Finset.univ.sup arrival + ∑ i, served σ k i := by
  induction k with
  | zero => exact Nat.zero_le _
  | succ k ih =>
    have hle := ih (fun j hj => hk j (Nat.lt_succ_of_lt hj))
    cases hrun : σ k with
    | none =>
      obtain ⟨i, hi⟩ := hk k (Nat.lt_succ_self k)
      have hlate : k < arrival i := by
        by_contra hnot
        exact absurd hi (not_lt.mpr (h k hrun i (not_lt.mp hnot)))
      have hsup := Finset.le_sup (f := arrival) (Finset.mem_univ i)
      omega
    | some c =>
      have hsum : ∑ i, served σ (k + 1) i = ∑ i, served σ k i + 1 := by
        simp only [served_succ, hrun, Option.some.injEq, Finset.sum_add_distrib,
          Finset.sum_ite_eq, Finset.mem_univ, if_true]
      omega

/-- How many jobs are not finished before tick `k`. -/
def pending (length : ι → ℕ) (σ : ℕ → Option ι) (k : ℕ) : ℕ :=
  (Finset.univ.filter (fun i => served σ k i < length i)).card

/-- The jobs that have run for their whole length. -/
def done (length : ι → ℕ) (σ : ℕ → Option ι) (k : ℕ) : Finset ι :=
  Finset.univ.filter (fun i => length i ≤ served σ k i)

@[simp] theorem mem_done : i ∈ done length σ k ↔ length i ≤ served σ k i := by
  simp [done]

theorem done_succ_of_none (h : ∀ i, σ k = some i → served σ k i + 1 < length i) :
    done length σ (k + 1) = done length σ k := by
  ext i
  rw [mem_done, mem_done, served_succ]
  by_cases hi : σ k = some i
  · have hlt := h i hi
    rw [if_pos hi]
    omega
  · rw [if_neg hi, Nat.add_zero]

theorem done_succ_of_finish (hi : σ k = some i) (hlast : served σ k i + 1 = length i) :
    i ∉ done length σ k ∧ done length σ (k + 1) = insert i (done length σ k) := by
  refine ⟨by rw [mem_done]; omega, ?_⟩
  ext l
  rw [Finset.mem_insert, mem_done, mem_done, served_succ]
  by_cases hl : σ k = some l
  · obtain rfl : i = l := Option.some.inj (hi.symm.trans hl)
    rw [if_pos hl]
    exact ⟨fun _ => Or.inl rfl, fun _ => hlast.ge⟩
  · have hne : l ≠ i := fun heq => hl (heq ▸ hi)
    rw [if_neg hl, Nat.add_zero]
    exact ⟨Or.inr, fun h => h.resolve_left hne⟩

omit [Fintype ι] in
theorem Valid.completion_eq (h : Valid arrival length σ) (i : ι) {last : ℕ}
    (hlast : length i ≤ served σ last i) :
    completion length σ i =
      ((Finset.range last).filter (fun k => served σ k i < length i)).card := by
  obtain ⟨k, hk⟩ : ∃ k, completion length σ i = k := ⟨_, rfl⟩
  have hmem : served σ (completion length σ i) i = length i := Nat.sInf_mem (h.complete i)
  have hlt : ∀ j, served σ j i < length i ↔ j < completion length σ i := by
    intro j
    constructor
    · intro hj
      by_contra hle
      have hmono := served_mono (σ := σ) (i := i) (not_lt.mp hle)
      omega
    · intro hj
      have hne : served σ j i ≠ length i := fun heq => Nat.notMem_of_lt_sInf hj heq
      exact lt_of_le_of_ne (h.served_le j i) hne
  have hle : completion length σ i ≤ last := by
    by_contra hnot
    have := (hlt last).mpr (not_le.mp hnot)
    omega
  have hset : (Finset.range last).filter (fun k => served σ k i < length i) =
      Finset.range (completion length σ i) := by
    ext j
    simp only [Finset.mem_filter, Finset.mem_range, hlt]
    omega
  rw [hset, Finset.card_range]

/-- Every tick adds one to the turnaround of each job that is not finished. -/
theorem Valid.sum_completion (h : Valid arrival length σ) {last : ℕ}
    (hlast : ∀ i, length i ≤ served σ last i) :
    ∑ i, completion length σ i = ∑ k ∈ Finset.range last, pending length σ k := by
  simp only [h.completion_eq _ (hlast _), pending, Finset.card_filter]
  exact Finset.sum_comm

theorem Valid.turnaround_eq (h : Valid arrival length σ) {last : ℕ}
    (hlast : ∀ i, length i ≤ served σ last i) :
    turnaround arrival length σ =
      ∑ k ∈ Finset.range last, (pending length σ k : ℤ) - ∑ i, (arrival i : ℤ) := by
  rw [turnaround, Finset.sum_sub_distrib, ← Nat.cast_sum, h.sum_completion hlast, Nat.cast_sum]

theorem Valid.exists_last (h : Valid arrival length σ) : ∃ last, ∀ i, length i ≤ served σ last i := by
  choose finish hfinish using h.complete
  refine ⟨Finset.univ.sup finish, fun i => ?_⟩
  have hmono := served_mono (σ := σ) (i := i) (Finset.le_sup (f := finish) (Finset.mem_univ i))
  rw [hfinish i] at hmono
  exact hmono

def remaining (length : ι → ℕ) (σ : ℕ → Option ι) (k : ℕ) (i : ι) : ℕ := length i - served σ k i

omit [Fintype ι] in
theorem remaining_succ_le (length : ι → ℕ) (σ : ℕ → Option ι) (k : ℕ) (i : ι) :
    remaining length σ (k + 1) i ≤ remaining length σ k i := by
  rw [remaining, remaining, served_succ]
  omega

omit [Fintype ι] in
theorem sum_remaining_succ_le (length : ι → ℕ) (σ : ℕ → Option ι) (k : ℕ) (S : Finset ι) :
    ∑ i ∈ S, remaining length σ (k + 1) i ≤ ∑ i ∈ S, remaining length σ k i :=
  Finset.sum_le_sum (fun i _ => remaining_succ_le length σ k i)

omit [Fintype ι] in
theorem Feasible.sum_remaining_run (h : Feasible arrival length σ) {S : Finset ι} (hi : σ k = some i)
    (hS : i ∈ S) :
    ∑ l ∈ S, remaining length σ (k + 1) l + 1 = ∑ l ∈ S, remaining length σ k l := by
  have hothers : ∑ l ∈ S.erase i, remaining length σ (k + 1) l =
      ∑ l ∈ S.erase i, remaining length σ k l := by
    apply Finset.sum_congr rfl
    intro l hl
    have hne : σ k ≠ some l := by
      rw [hi]
      exact fun heq => Finset.ne_of_mem_erase hl (Option.some.inj heq).symm
    rw [remaining, remaining, served_succ, if_neg hne, Nat.add_zero]
  have hone : remaining length σ (k + 1) i + 1 = remaining length σ k i := by
    have hlt := h.unfinished k i hi
    rw [remaining, remaining, served_succ, if_pos hi]
    omega
  rw [← Finset.add_sum_erase S _ hS, ← Finset.add_sum_erase S _ hS, hothers, ← hone]
  omega

/-- Once all jobs have arrived, a schedule that is never idle without need finishes them. -/
theorem Feasible.valid_of_busy (h : Feasible arrival length σ) (hbusy : Busy arrival length σ) :
    Valid arrival length σ := by
  refine ⟨h, fun i => ?_⟩
  let all := Finset.univ.sup arrival
  have hall : ∀ l, arrival l ≤ all := fun l => Finset.le_sup (Finset.mem_univ l)
  have hless : ∀ m, ∑ l, remaining length σ (all + m) l ≤ ∑ l, remaining length σ all l - m := by
    intro m
    induction m with
    | zero => exact le_rfl
    | succ m ih =>
      cases hrun : σ (all + m) with
      | some j =>
        have hstep := h.sum_remaining_run hrun (Finset.mem_univ j)
        rw [← Nat.add_assoc]
        omega
      | none =>
        have hzero : ∑ l, remaining length σ (all + (m + 1)) l = 0 := by
          refine Finset.sum_eq_zero (fun l _ => ?_)
          have hdone := hbusy _ hrun l ((hall l).trans (Nat.le_add_right _ m))
          have hle := remaining_succ_le length σ (all + m) l
          have hnow : remaining length σ (all + m) l = 0 := Nat.sub_eq_zero_of_le hdone
          rw [← Nat.add_assoc]
          omega
        omega
  obtain ⟨last, hlast⟩ : ∃ last, ∑ l, remaining length σ last l = 0 :=
    ⟨_, Nat.le_zero.mp ((hless _).trans (Nat.sub_self _).le)⟩
  have hi := Finset.sum_eq_zero_iff.mp hlast i (Finset.mem_univ i)
  have hle := h.served_le last i
  rw [remaining] at hi
  exact ⟨last, by omega⟩

/-- Whatever jobs are left out for `τ`, as many can be left out for `σ`, among them the same of
those that have not arrived, such that no more work remains in the others. -/
def Ahead (arrival length : ι → ℕ) (σ τ : ℕ → Option ι) (k : ℕ) : Prop :=
  ∀ J : Finset ι, ∃ J' : Finset ι, J'.card ≤ J.card ∧
    (∀ i, k < arrival i → (i ∈ J' ↔ i ∈ J)) ∧
    ∑ i ∈ J'ᶜ, remaining length σ k i ≤ ∑ i ∈ Jᶜ, remaining length τ k i

/-- When `σ` has finished all arrived jobs that count, what remains remains in `τ` as well. -/
theorem sum_remaining_of_finished (hσ : Valid arrival length σ) (hτ : Valid arrival length τ)
    {J J' : Finset ι} (hout : ∀ l, k < arrival l → (l ∈ J' ↔ l ∈ J))
    (hdone : ∀ l, l ∉ J' → arrival l ≤ k → remaining length σ k l = 0) {j : ι}
    (hj : τ k = some j) (hJ : j ∉ J) :
    ∑ l ∈ J'ᶜ, remaining length σ k l + 1 ≤ ∑ l ∈ Jᶜ, remaining length τ k l := by
  have hjpos : 1 ≤ remaining length τ k j := by
    have hlt := hτ.unfinished k j hj
    rw [remaining]
    omega
  have hrest : ∑ l ∈ J'ᶜ, remaining length σ k l ≤ ∑ l ∈ Jᶜ.erase j, remaining length τ k l := by
    calc ∑ l ∈ J'ᶜ, remaining length σ k l
        ≤ ∑ l ∈ (Jᶜ.erase j).filter (fun l => k < arrival l), remaining length σ k l := by
          apply Finset.sum_le_sum_of_ne_zero
          intro l hl hne
          have hl' := Finset.mem_compl.mp hl
          have harr : k < arrival l := by
            by_contra hle
            exact hne (hdone l hl' (not_lt.mp hle))
          have hjl : l ≠ j := by
            rintro rfl
            have ha := hτ.arrived k l hj
            omega
          refine Finset.mem_filter.mpr ⟨Finset.mem_erase.mpr ⟨hjl, Finset.mem_compl.mpr ?_⟩, harr⟩
          exact fun hmem => hl' ((hout l harr).mpr hmem)
      _ = ∑ l ∈ (Jᶜ.erase j).filter (fun l => k < arrival l), remaining length τ k l := by
          apply Finset.sum_congr rfl
          intro l hl
          have harr := (Finset.mem_filter.mp hl).2
          rw [remaining, remaining, hσ.served_of_not_arrived harr.le,
            hτ.served_of_not_arrived harr.le]
      _ ≤ ∑ l ∈ Jᶜ.erase j, remaining length τ k l :=
          Finset.sum_le_sum_of_subset (Finset.filter_subset _ _)
  rw [← Finset.add_sum_erase Jᶜ _ (Finset.mem_compl.mpr hJ)]
  omega

/-- Leaving out `l` in place of `i`. -/
theorem sum_compl_swap {J' : Finset ι} {l : ι} (f : ι → ℕ) (hi : i ∈ J') (hl : l ∉ J')
    (hle : f i ≤ f l) :
    ∑ x ∈ (insert l (J'.erase i))ᶜ, f x ≤ ∑ x ∈ J'ᶜ, f x := by
  have hil : i ≠ l := fun heq => hl (heq ▸ hi)
  have hset : (insert l (J'.erase i))ᶜ = insert i (J'ᶜ.erase l) := by
    ext x
    simp only [Finset.mem_compl, Finset.mem_insert, Finset.mem_erase, not_or, not_and]
    constructor
    · rintro ⟨hxl, hx⟩
      by_cases hxi : x = i
      · exact Or.inl hxi
      · exact Or.inr ⟨hxl, fun hmem => hx hxi hmem⟩
    · rintro (rfl | ⟨hxl, hx⟩)
      · exact ⟨hil, fun hne => absurd rfl hne⟩
      · exact ⟨hxl, fun _ hmem => hx hmem⟩
  have hnot : i ∉ J'ᶜ.erase l := fun hmem =>
    Finset.mem_compl.mp (Finset.mem_of_mem_erase hmem) hi
  rw [hset, Finset.sum_insert hnot, ← Finset.add_sum_erase J'ᶜ _ (Finset.mem_compl.mpr hl)]
  omega

theorem Ahead.step (h : Ahead arrival length σ τ k) (hσ : Valid arrival length σ)
    (hshort : ShortestFirst arrival length σ) (hτ : Valid arrival length τ) :
    Ahead arrival length σ τ (k + 1) := by
  intro J
  obtain ⟨J', hcard, hout, hsum⟩ := h J
  have hout' : ∀ i, k + 1 < arrival i → (i ∈ J' ↔ i ∈ J) := fun i hi => hout i (by omega)
  have hle := sum_remaining_succ_le length σ k J'ᶜ
  by_cases hrun : ∃ j, τ k = some j ∧ j ∉ J
  · -- `τ` works on what counts
    obtain ⟨j, hj, hjJ⟩ := hrun
    have hτrun := hτ.sum_remaining_run hj (Finset.mem_compl.mpr hjJ)
    by_cases hdone : ∀ l, l ∉ J' → arrival l ≤ k → remaining length σ k l = 0
    · have hfinished := sum_remaining_of_finished hσ hτ hout hdone hj hjJ
      exact ⟨J', hcard, hout', by omega⟩
    · push Not at hdone
      obtain ⟨l, hlJ, hla, hlpos⟩ := hdone
      have hlt : served σ k l < length l := by
        rw [remaining] at hlpos
        omega
      cases hi : σ k with
      | none =>
        have hbusy := hshort.busy k hi l hla
        omega
      | some i =>
        by_cases hiJ : i ∈ J'
        · have hshorter := hshort.least k i hi l hla hlt
          have hswap := sum_compl_swap (remaining length σ k) hiJ hlJ hshorter
          have hia := hσ.arrived k i hi
          have hil : i ≠ l := fun heq => hlJ (heq ▸ hiJ)
          have hmem : i ∈ (insert l (J'.erase i))ᶜ := by
            simp [hil]
          have hσrun := hσ.sum_remaining_run hi hmem
          refine ⟨insert l (J'.erase i), ?_, fun x hx => ?_, by omega⟩
          · have hinsert := Finset.card_insert_le l (J'.erase i)
            have herase := Finset.card_erase_add_one hiJ
            omega
          · have hxl : x ≠ l := fun heq => by
              rw [heq] at hx
              omega
            have hxi : x ≠ i := fun heq => by
              rw [heq] at hx
              omega
            rw [Finset.mem_insert, Finset.mem_erase, ← hout' x hx]
            exact ⟨fun hmem => (hmem.resolve_left hxl).2, fun hmem => Or.inr ⟨hxi, hmem⟩⟩
        · have hσrun := hσ.sum_remaining_run hi (Finset.mem_compl.mpr hiJ)
          exact ⟨J', hcard, hout', by omega⟩
  · -- `τ` leaves what counts as it is
    have hsame : ∑ i ∈ Jᶜ, remaining length τ (k + 1) i = ∑ i ∈ Jᶜ, remaining length τ k i := by
      apply Finset.sum_congr rfl
      intro i hi
      have hne : τ k ≠ some i := fun heq => hrun ⟨i, heq, Finset.mem_compl.mp hi⟩
      rw [remaining, remaining, served_succ, if_neg hne, Nat.add_zero]
    exact ⟨J', hcard, hout', by omega⟩

theorem ahead (hσ : Valid arrival length σ) (hshort : ShortestFirst arrival length σ)
    (hτ : Valid arrival length τ) (k : ℕ) : Ahead arrival length σ τ k := by
  induction k with
  | zero =>
    intro J
    refine ⟨J, le_rfl, fun _ _ => Iff.rfl, ?_⟩
    simp only [remaining, served_zero, le_refl]
  | succ k ih => exact ih.step hσ hshort hτ

theorem pending_le (hσ : Valid arrival length σ) (hshort : ShortestFirst arrival length σ)
    (hτ : Valid arrival length τ) (k : ℕ) : pending length σ k ≤ pending length τ k := by
  obtain ⟨J', hcard, -, hsum⟩ :=
    ahead hσ hshort hτ k (Finset.univ.filter (fun i => served τ k i < length i))
  refine (Finset.card_le_card ?_).trans hcard
  have hzero : ∑ i ∈ J'ᶜ, remaining length σ k i = 0 := by
    refine Nat.le_zero.mp (hsum.trans (Finset.sum_eq_zero ?_).le)
    intro i hi
    have hnot : ¬served τ k i < length i := by simpa using hi
    rw [remaining]
    omega
  intro i hi
  by_contra hnot
  have hi0 := Finset.sum_eq_zero_iff.mp hzero i (Finset.mem_compl.mpr hnot)
  have hlt := (Finset.mem_filter.mp hi).2
  rw [remaining] at hi0
  omega

/-- No schedule has a smaller total turnaround. -/
theorem turnaround_le (hσ : Valid arrival length σ) (hshort : ShortestFirst arrival length σ)
    (hτ : Valid arrival length τ) :
    turnaround arrival length σ ≤ turnaround arrival length τ := by
  obtain ⟨m, hm⟩ := hσ.exists_last
  obtain ⟨m', hm'⟩ := hτ.exists_last
  have hlast : ∀ i, length i ≤ served σ (max m m') i := fun i =>
    (hm i).trans (served_mono (le_max_left m m'))
  have hlast' : ∀ i, length i ≤ served τ (max m m') i := fun i =>
    (hm' i).trans (served_mono (le_max_right m m'))
  rw [hσ.turnaround_eq hlast, hτ.turnaround_eq hlast']
  have hsum : ∑ k ∈ Finset.range (max m m'), (pending length σ k : ℤ) ≤
      ∑ k ∈ Finset.range (max m m'), (pending length τ k : ℤ) :=
    Finset.sum_le_sum (fun k _ => Int.ofNat_le.mpr (pending_le hσ hshort hτ k))
  omega

/-- The work that remains in the jobs that have arrived. -/
def work (arrival length : ι → ℕ) (σ : ℕ → Option ι) (k : ℕ) : ℕ :=
  ∑ i with arrival i ≤ k, remaining length σ k i

/-- A schedule that is never idle without need is idle when no work has arrived, and only then. -/
theorem Feasible.idle_iff (h : Feasible arrival length σ) (hbusy : Busy arrival length σ) (k : ℕ) :
    σ k = none ↔ work arrival length σ k = 0 := by
  constructor
  · intro hnone
    refine Finset.sum_eq_zero (fun i hi => ?_)
    exact Nat.sub_eq_zero_of_le (hbusy k hnone i (Finset.mem_filter.mp hi).2)
  · intro hzero
    cases hrun : σ k with
    | none => rfl
    | some i =>
      have hmem : i ∈ Finset.univ.filter (fun l => arrival l ≤ k) :=
        Finset.mem_filter.mpr ⟨Finset.mem_univ i, h.arrived k i hrun⟩
      have hi := Finset.sum_eq_zero_iff.mp hzero i hmem
      have hlt := h.unfinished k i hrun
      rw [remaining] at hi
      omega

/-- What a tick does to the work of the jobs that had arrived when it began. -/
theorem Feasible.sum_remaining_succ (h : Feasible arrival length σ) (k : ℕ) :
    ∑ i with arrival i ≤ k, remaining length σ (k + 1) i + (if σ k = none then 0 else 1) =
      work arrival length σ k := by
  cases hrun : σ k with
  | none =>
    refine Finset.sum_congr rfl (fun i _ => ?_)
    rw [remaining, remaining, served_succ, hrun, if_neg (by simp), Nat.add_zero]
  | some i =>
    have hmem : i ∈ Finset.univ.filter (fun l => arrival l ≤ k) :=
      Finset.mem_filter.mpr ⟨Finset.mem_univ i, h.arrived k i hrun⟩
    exact h.sum_remaining_run hrun hmem

/-- A tick removes a unit of work unless it is idle, and the jobs that arrive at its end add their
lengths. -/
theorem Feasible.work_succ (h : Feasible arrival length σ) (k : ℕ) :
    work arrival length σ (k + 1) + (if σ k = none then 0 else 1) =
      work arrival length σ k + ∑ i with arrival i = k + 1, length i := by
  have hsplit : Finset.univ.filter (fun i => arrival i ≤ k + 1) =
      Finset.univ.filter (fun i => arrival i ≤ k) ∪
        Finset.univ.filter (fun i => arrival i = k + 1) := by
    ext i
    simp only [Finset.mem_filter, Finset.mem_union, Finset.mem_univ, true_and]
    omega
  have hdisjoint : Disjoint (Finset.univ.filter (fun i => arrival i ≤ k))
      (Finset.univ.filter (fun i => arrival i = k + 1)) := by
    apply Finset.disjoint_filter.mpr
    intro i _ hle heq
    omega
  have hnew : ∑ i with arrival i = k + 1, remaining length σ (k + 1) i =
      ∑ i with arrival i = k + 1, length i := by
    apply Finset.sum_congr rfl
    intro i hi
    rw [remaining, h.served_of_not_arrived (Finset.mem_filter.mp hi).2.ge, Nat.sub_zero]
  have hold := h.sum_remaining_succ k
  rw [work, hsplit, Finset.sum_union hdisjoint, hnew]
  omega

/-- All schedules that are never idle without need have the same work left at every time. -/
theorem work_eq (hσ : Feasible arrival length σ) (hσbusy : Busy arrival length σ)
    (hτ : Feasible arrival length τ) (hτbusy : Busy arrival length τ) (k : ℕ) :
    work arrival length σ k = work arrival length τ k := by
  induction k with
  | zero =>
    refine Finset.sum_congr rfl (fun i _ => ?_)
    rw [remaining, remaining, served_zero, served_zero]
  | succ k ih =>
    have hidle : σ k = none ↔ τ k = none := by
      rw [hσ.idle_iff hσbusy, hτ.idle_iff hτbusy, ih]
    have hσstep := hσ.work_succ k
    have hτstep := hτ.work_succ k
    simp only [hidle] at hσstep
    omega

theorem Feasible.done_iff (h : Feasible arrival length σ) (k : ℕ) :
    done length σ k = Finset.univ ↔
      work arrival length σ k = 0 ∧ ∀ i, k < arrival i → length i = 0 := by
  rw [Finset.eq_univ_iff_forall]
  constructor
  · intro hall
    refine ⟨Finset.sum_eq_zero (fun i _ => Nat.sub_eq_zero_of_le (mem_done.mp (hall i))), ?_⟩
    intro i hi
    have hle := mem_done.mp (hall i)
    rw [h.served_of_not_arrived hi.le] at hle
    exact Nat.le_zero.mp hle
  · rintro ⟨hzero, hlater⟩ i
    rw [mem_done]
    by_cases hi : arrival i ≤ k
    · have hmem : i ∈ Finset.univ.filter (fun l => arrival l ≤ k) :=
        Finset.mem_filter.mpr ⟨Finset.mem_univ i, hi⟩
      exact Nat.sub_eq_zero_iff_le.mp (Finset.sum_eq_zero_iff.mp hzero i hmem)
    · rw [hlater i (not_le.mp hi)]
      exact Nat.zero_le _

theorem done_univ_iff (hσ : Feasible arrival length σ) (hσbusy : Busy arrival length σ)
    (hτ : Feasible arrival length τ) (hτbusy : Busy arrival length τ) (k : ℕ) :
    done length σ k = Finset.univ ↔ done length τ k = Finset.univ := by
  rw [hσ.done_iff, hτ.done_iff, work_eq hσ hσbusy hτ hτbusy]

end CpreLabs.UnitTick
