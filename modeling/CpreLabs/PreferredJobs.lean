import CpreLabs.FirstComeSchedules

/-!
# Jobs that go first

A schedule that runs a job of some set whenever one could run leaves at every time the least work
of that set undone. First-come schedules do so for all that came no later than a given job, hence
their longest turnaround is the least.
-/
namespace CpreLabs.UnitTick

variable {ι : Type*} [DecidableEq ι]

/-- While a job of the set could run, one of the set does. -/
def Prefers (arrival length : ι → ℕ) (σ : ℕ → Option ι) (S : Finset ι) : Prop :=
  ∀ k, ∀ i ∈ S, arrival i ≤ k → served σ k i < length i → ∃ j ∈ S, σ k = some j

/-- The work that remains in the jobs of the set that have arrived. -/
def workOf (arrival length : ι → ℕ) (σ : ℕ → Option ι) (S : Finset ι) (k : ℕ) : ℕ :=
  ∑ i ∈ S with arrival i ≤ k, remaining length σ k i

variable {arrival length : ι → ℕ} {σ τ : ℕ → Option ι} {S : Finset ι} {k : ℕ} {i : ι}

theorem sum_remaining_of_others (h : ∀ j ∈ S, σ k ≠ some j) :
    ∑ j ∈ S, remaining length σ (k + 1) j = ∑ j ∈ S, remaining length σ k j := by
  apply Finset.sum_congr rfl
  intro j hj
  rw [remaining, remaining, served_succ, if_neg (h j hj), Nat.add_zero]

theorem Feasible.sum_remaining_le (h : Feasible arrival length σ) (S : Finset ι) (k : ℕ) :
    ∑ j ∈ S, remaining length σ k j ≤ ∑ j ∈ S, remaining length σ (k + 1) j + 1 := by
  by_cases hrun : ∃ j ∈ S, σ k = some j
  · obtain ⟨j, hj, hjk⟩ := hrun
    exact (h.sum_remaining_run hjk hj).ge
  · have hothers : ∀ j ∈ S, σ k ≠ some j := fun j hj hjk => hrun ⟨j, hj, hjk⟩
    rw [sum_remaining_of_others hothers]
    exact Nat.le_succ _

/-- The jobs that arrive at the end of a tick add their lengths. -/
theorem Feasible.workOf_succ (h : Feasible arrival length σ) (S : Finset ι) (k : ℕ) :
    workOf arrival length σ S (k + 1) =
      ∑ i ∈ S with arrival i ≤ k, remaining length σ (k + 1) i +
        ∑ i ∈ S with arrival i = k + 1, length i := by
  have hsplit : S.filter (fun i => arrival i ≤ k + 1) =
      S.filter (fun i => arrival i ≤ k) ∪ S.filter (fun i => arrival i = k + 1) := by
    ext i
    have hle : arrival i ≤ k + 1 ↔ arrival i ≤ k ∨ arrival i = k + 1 := by omega
    rw [Finset.mem_union, Finset.mem_filter, Finset.mem_filter, Finset.mem_filter, hle, and_or_left]
  have hdisjoint : Disjoint (S.filter (fun i => arrival i ≤ k))
      (S.filter (fun i => arrival i = k + 1)) := by
    apply Finset.disjoint_filter.mpr
    intro i _ hle heq
    omega
  have hnew : ∑ i ∈ S with arrival i = k + 1, remaining length σ (k + 1) i =
      ∑ i ∈ S with arrival i = k + 1, length i := by
    apply Finset.sum_congr rfl
    intro i hi
    rw [remaining, h.served_of_not_arrived (Finset.mem_filter.mp hi).2.ge, Nat.sub_zero]
  rw [workOf, hsplit, Finset.sum_union hdisjoint, hnew]

theorem Prefers.workOf_le (hσ : Feasible arrival length σ) (hS : Prefers arrival length σ S)
    (hτ : Feasible arrival length τ) (k : ℕ) :
    workOf arrival length σ S k ≤ workOf arrival length τ S k := by
  induction k with
  | zero =>
    apply le_of_eq
    apply Finset.sum_congr rfl
    intro i _
    rw [remaining, remaining, served_zero, served_zero]
  | succ k ih =>
    rw [hσ.workOf_succ, hτ.workOf_succ]
    apply Nat.add_le_add_right
    have hless := hτ.sum_remaining_le (S.filter (fun i => arrival i ≤ k)) k
    by_cases hrun : ∃ j ∈ S, σ k = some j
    · obtain ⟨j, hj, hjk⟩ := hrun
      have hmem : j ∈ S.filter (fun i => arrival i ≤ k) :=
        Finset.mem_filter.mpr ⟨hj, hσ.arrived k j hjk⟩
      have hstep := hσ.sum_remaining_run hjk hmem
      unfold workOf at ih
      omega
    · -- no job of the set could run, so `σ` has finished those that have arrived
      have hzero : ∑ i ∈ S with arrival i ≤ k, remaining length σ (k + 1) i = 0 := by
        apply Finset.sum_eq_zero
        intro i hi
        obtain ⟨hi, harr⟩ := Finset.mem_filter.mp hi
        have hdone : length i ≤ served σ k i := by
          by_contra hnot
          exact hrun (hS k i hi harr (not_le.mp hnot))
        exact Nat.sub_eq_zero_of_le (hdone.trans (served_mono (Nat.le_succ k)))
      rw [hzero]
      exact Nat.zero_le _

/-- While a job of the set waits or runs, no other schedule has finished the set. -/
theorem Prefers.exists_unfinished (hσ : Feasible arrival length σ)
    (hS : Prefers arrival length σ S) (hτ : Feasible arrival length τ) (hi : i ∈ S)
    (harr : arrival i ≤ k) (hlt : served σ k i < length i) :
    ∃ j ∈ S, arrival j ≤ k ∧ served τ k j < length j := by
  have hmem : i ∈ S.filter (fun i => arrival i ≤ k) := Finset.mem_filter.mpr ⟨hi, harr⟩
  have hone : remaining length σ k i ≤ workOf arrival length σ S k :=
    Finset.single_le_sum (f := remaining length σ k) (fun j _ => Nat.zero_le _) hmem
  have hle := hS.workOf_le hσ hτ k
  have hpos : workOf arrival length τ S k ≠ 0 := by
    rw [remaining] at hone
    omega
  obtain ⟨j, hj, hne⟩ := Finset.exists_ne_zero_of_sum_ne_zero hpos
  obtain ⟨hjS, hjarr⟩ := Finset.mem_filter.mp hj
  rw [remaining] at hne
  exact ⟨j, hjS, hjarr, by omega⟩

/-- No schedule is through with the set earlier. -/
theorem Prefers.finished (hσ : Feasible arrival length σ) (hS : Prefers arrival length σ S)
    (hτ : Feasible arrival length τ) (hdone : ∀ j ∈ S, length j ≤ served τ k j) :
    ∀ i ∈ S, length i ≤ served σ k i := by
  intro i hi
  by_contra hnot
  have hlt := not_le.mp hnot
  by_cases harr : arrival i ≤ k
  · obtain ⟨j, hj, -, hj'⟩ := hS.exists_unfinished hσ hτ hi harr hlt
    exact absurd (hdone j hj) (not_le.mpr hj')
  · have hzero := hτ.served_of_not_arrived (not_le.mp harr).le
    have hle := hdone i hi
    omega

theorem Valid.last_tick (h : Valid arrival length σ) (hk : completion length σ i = k + 1) :
    σ k = some i ∧ served σ k i + 1 = length i := by
  have hend : served σ (k + 1) i = length i := by
    have hmem : served σ (completion length σ i) i = length i := Nat.sInf_mem (h.complete i)
    rwa [hk] at hmem
  have hnot : served σ k i ≠ length i := by
    intro heq
    have hle : completion length σ i ≤ k := Nat.sInf_le heq
    omega
  rw [served_succ] at hend
  by_cases hrun : σ k = some i
  · rw [if_pos hrun] at hend
    exact ⟨hrun, hend⟩
  · rw [if_neg hrun] at hend
    exact absurd hend hnot

theorem Valid.lt_completion (h : Valid arrival length σ) (hlt : served σ k i < length i) :
    k < completion length σ i := by
  by_contra hle
  have hmem : served σ (completion length σ i) i = length i := Nat.sInf_mem (h.complete i)
  have hmono := served_mono (σ := σ) (i := i) (not_lt.mp hle)
  omega

variable [Fintype ι]

theorem card_done_add_pending (length : ι → ℕ) (σ : ℕ → Option ι) (k : ℕ) :
    (done length σ k).card + pending length σ k = Fintype.card ι := by
  have hsplit := Finset.card_filter_add_card_filter_not (s := (Finset.univ : Finset ι))
    (fun i => length i ≤ served σ k i)
  simp only [not_le] at hsplit
  exact hsplit

variable [LinearOrder ι]

theorem FirstCome.prefers (h : FirstCome arrival length σ) (i : ι) :
    Prefers arrival length σ (Finset.univ.filter fun l => place arrival l ≤ place arrival i) := by
  intro k l hl harr hlt
  cases hrun : σ k with
  | none => exact absurd (h.busy k hrun l harr) (not_le.mpr hlt)
  | some j =>
    have hle := (h.first k j hrun l harr hlt).trans (Finset.mem_filter.mp hl).2
    exact ⟨j, Finset.mem_filter.mpr ⟨Finset.mem_univ j, hle⟩, rfl⟩

/-- In every schedule some job that came no later has to wait as long. -/
theorem FirstCome.exists_turnaround_ge (hσ : FirstCome arrival length σ)
    (hσ' : Valid arrival length σ) (hτ : Valid arrival length τ) (i : ι) :
    ∃ j, arrival j ≤ arrival i ∧ (completion length σ i : ℤ) - arrival i ≤
      (completion length τ j : ℤ) - arrival j := by
  cases hk : completion length σ i with
  | zero => exact ⟨i, le_rfl, by omega⟩
  | succ k =>
    obtain ⟨hrun, hlast⟩ := hσ'.last_tick hk
    have hself : i ∈ Finset.univ.filter (fun l => place arrival l ≤ place arrival i) :=
      Finset.mem_filter.mpr ⟨Finset.mem_univ i, le_rfl⟩
    obtain ⟨j, hj, -, hlt⟩ := (hσ.prefers i).exists_unfinished hσ.toFeasible hτ.toFeasible hself
      (hσ.arrived k i hrun) (by omega)
    have hle := arrival_le_of_place_le (Finset.mem_filter.mp hj).2
    have hlate := hτ.lt_completion hlt
    exact ⟨j, hle, by omega⟩

end CpreLabs.UnitTick
