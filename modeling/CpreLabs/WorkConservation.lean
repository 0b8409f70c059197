import CpreLabs.ShortestRemaining

/-!
# The schedulers are equally work-conserving

Which process runs differs from scheduler to scheduler at almost every tick, but whether one runs
does not, and neither does the work that is left.
-/
namespace CpreLabs.Lab4
open UnitTick

variable {w : Workload} {func func' : SchedulerFunc} {Inv Inv' : Globals → Table → ℤ → Prop}

/-- The sum of `remainingtime` over the processes that have arrived. -/
def Simulation.arrivedWork (s : Simulation) : ℤ :=
  ∑ i with (s.procCopy i).arrivaltime ≤ s.currentTime, (s.procCopy i).remainingtime

theorem arrivedWork_run (hs : Sound func Inv) (w : Workload) (k : ℕ) :
    (w.run func k).arrivedWork = work w.arrivaltime w.runtime (w.choices func) k := by
  have hbooks := (run_of_sound hs w k).1
  have harrived : Finset.univ.filter (fun i =>
      ((w.run func k).procCopy i).arrivaltime ≤ (w.run func k).currentTime) =
        Finset.univ.filter (fun i => w.arrivaltime i ≤ k) := by
    ext i
    rw [Finset.mem_filter, Finset.mem_filter, hbooks.arrivaltime, hbooks.time, Int.ofNat_le]
  rw [Simulation.arrivedWork, harrived, work, Nat.cast_sum]
  apply Finset.sum_congr rfl
  intro i _
  rw [hbooks.remaining, remaining, Nat.cast_sub (hbooks.served_le i)]

theorem choices_eq_none_iff (hs : Sound func Inv) (hs' : Sound func' Inv') (w : Workload) (k : ℕ) :
    w.choices func k = none ↔ w.choices func' k = none := by
  obtain ⟨hfeasible, hbusy⟩ := feasible_of_sound hs w
  obtain ⟨hfeasible', hbusy'⟩ := feasible_of_sound hs' w
  rw [hfeasible.idle_iff hbusy, hfeasible'.idle_iff hbusy', work_eq hfeasible hbusy hfeasible' hbusy']

theorem numFinished_alike (hs : Sound func Inv) (hs' : Sound func' Inv') (w : Workload) (k : ℕ) :
    numProcesses ≤ (w.run func k).numFinished ↔ numProcesses ≤ (w.run func' k).numFinished := by
  obtain ⟨hfeasible, hbusy⟩ := feasible_of_sound hs w
  obtain ⟨hfeasible', hbusy'⟩ := feasible_of_sound hs' w
  rw [numFinished_iff hs, numFinished_iff hs', done_univ_iff hfeasible hbusy hfeasible' hbusy']

theorem currentTime_of_ends (hs : Sound func Inv) (hs' : Sound func' Inv') {s s' : Simulation}
    (h : w.Ends func s) (h' : w.Ends func' s') : s.currentTime = s'.currentTime := by
  obtain ⟨k, rfl, rfl⟩ := exists_run_of_ends (numFinished_alike hs hs' w) h h'
  rw [(run_of_sound hs w k).1.time, (run_of_sound hs' w k).1.time]

/-- Any two of the schedulers idle at the same ticks, have the same work left before every tick and
end at the same time. -/
theorem equally_workConserving (w : Workload) (n m : Fin numSchedulers) :
    (∀ k, (w.run (schedulers n).func k).currentTime = k ∧
        (w.choices (schedulers n).func k = none ↔ w.choices (schedulers m).func k = none) ∧
        (w.run (schedulers n).func k).arrivedWork = (w.run (schedulers m).func k).arrivedWork) ∧
      (∃ s, w.Ends (schedulers n).func s) ∧
      ∀ s s', w.Ends (schedulers n).func s → w.Ends (schedulers m).func s' →
        s.currentTime = s'.currentTime := by
  obtain ⟨Inv, hs⟩ := schedulers_sound n
  obtain ⟨Inv', hs'⟩ := schedulers_sound m
  refine ⟨fun k => ⟨(run_of_sound hs w k).1.time, choices_eq_none_iff hs hs' w k, ?_⟩,
    exists_ends hs w, fun s s' h h' => currentTime_of_ends hs hs' h h'⟩
  obtain ⟨hfeasible, hbusy⟩ := feasible_of_sound hs w
  obtain ⟨hfeasible', hbusy'⟩ := feasible_of_sound hs' w
  rw [arrivedWork_run hs, arrivedWork_run hs', work_eq hfeasible hbusy hfeasible' hbusy']

end CpreLabs.Lab4
