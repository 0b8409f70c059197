import CpreLabs.SimulationTimes

/-!
# The integers of the simulation

The loop ends by the last arrival plus all the runtimes, so that no time or total in it comes near
the limits of an `int`.
-/
namespace CpreLabs.Lab4
open UnitTick

/-- The `int`s that the loop writes: no time is after `latest`. -/
structure Simulation.InRange (latest : ℤ) (s : Simulation) : Prop where
  currentTime : 0 ≤ s.currentTime ∧ s.currentTime ≤ latest
  starttime : ∀ i, -1 ≤ (s.procCopy i).starttime ∧ (s.procCopy i).starttime ≤ latest
  endtime : ∀ i, -1 ≤ (s.procCopy i).endtime ∧ (s.procCopy i).endtime ≤ latest
  remainingtime : ∀ i, 0 ≤ (s.procCopy i).remainingtime ∧ (s.procCopy i).remainingtime ≤ latest
  totalTurnaroundTime : 0 ≤ s.totalTurnaroundTime ∧ s.totalTurnaroundTime ≤ numProcesses * latest

theorem Simulation.InRange.mono {s : Simulation} {a b : ℤ} (h : s.InRange a) (hab : a ≤ b) :
    s.InRange b where
  currentTime := ⟨h.currentTime.1, h.currentTime.2.trans hab⟩
  starttime i := ⟨(h.starttime i).1, (h.starttime i).2.trans hab⟩
  endtime i := ⟨(h.endtime i).1, (h.endtime i).2.trans hab⟩
  remainingtime i := ⟨(h.remainingtime i).1, (h.remainingtime i).2.trans hab⟩
  totalTurnaroundTime := ⟨h.totalTurnaroundTime.1,
    h.totalTurnaroundTime.2.trans (mul_le_mul_of_nonneg_left hab (Int.natCast_nonneg _))⟩

/-- No process starts or ends in the future. -/
structure Simulation.Stamped (s : Simulation) : Prop where
  starttime : ∀ i, -1 ≤ (s.procCopy i).starttime ∧ (s.procCopy i).starttime ≤ s.currentTime
  endtime : ∀ i, -1 ≤ (s.procCopy i).endtime ∧ (s.procCopy i).endtime ≤ s.currentTime

/-- The last arrival and all the work after it. -/
def Workload.latest (w : Workload) : ℕ := Finset.univ.sup w.arrivaltime + ∑ i, w.runtime i

section Range

variable {w : Workload} {func : SchedulerFunc} {Inv : Globals → Table → ℤ → Prop} {k : ℕ}

/-- While the loop runs, some process is not finished. -/
theorem Books.exists_unfinished {σ : ℕ → Option Pid} {s : Simulation} (h : Books w σ k s)
    (hloop : s.numFinished < numProcesses) : ∃ i, served σ k i < w.runtime i := by
  by_contra hall
  have huniv : done w.runtime σ k = Finset.univ :=
    Finset.eq_univ_of_forall (fun i => mem_done.mpr (not_lt.mp (fun hi => hall ⟨i, hi⟩)))
  rw [h.numFinished, huniv, Finset.card_univ, Fintype.card_fin] at hloop
  exact lt_irrefl _ hloop

/-- The loop ends by the time `latest`. -/
theorem rounds_le_latest (hs : Sound func Inv)
    (hloop : ∀ j, j < k → (w.run func j).numFinished < numProcesses) : k ≤ w.latest := by
  have hbusy := (feasible_of_sound hs w).2.le_of_unfinished
    (fun j hj => (run_of_sound hs w j).1.exists_unfinished (hloop j hj))
  have hwork : ∑ i, served (w.choices func) k i ≤ ∑ i, w.runtime i :=
    Finset.sum_le_sum (fun i _ => (feasible_of_sound hs w).1.served_le k i)
  rw [Workload.latest]
  omega

theorem Simulation.Stamped.idle {s : Simulation} (h : s.Stamped) {g : Globals} :
    Simulation.Stamped { s with globals := g, currentTime := s.currentTime + 1 } := by
  refine ⟨fun i => ⟨(h.starttime i).1, ?_⟩, fun i => ⟨(h.endtime i).1, ?_⟩⟩
  · exact (h.starttime i).2.trans (le_add_of_nonneg_right Int.one_nonneg)
  · exact (h.endtime i).2.trans (le_add_of_nonneg_right Int.one_nonneg)

theorem Simulation.Stamped.ran {s : Simulation} (h : s.Stamped) (hnow : 0 ≤ s.currentTime)
    {pid : Pid} (hpos : 0 < (s.procCopy pid).remainingtime) : (s.runProcess pid).Stamped := by
  have htime := (runProcess_ranOnce s hpos).time
  refine ⟨fun i => ?_, fun i => ?_⟩
  · obtain ⟨hlow, hhigh⟩ := h.starttime i
    rw [(runProcess_times s hpos i).1, htime]
    split <;> omega
  · obtain ⟨hlow, hhigh⟩ := h.endtime i
    rw [(runProcess_times s hpos i).2, htime]
    split <;> omega

theorem stamped_of_sound (hs : Sound func Inv) (w : Workload) (k : ℕ) : (w.run func k).Stamped := by
  induction k with
  | zero =>
    have hnever : (-1 : ℤ) ≤ 0 := by decide
    exact ⟨fun _ => ⟨le_rfl, hnever⟩, fun _ => ⟨le_rfl, hnever⟩⟩
  | succ k ih =>
    have hbooks := (run_of_sound hs w k).1
    rw [Workload.run]
    cases hc : (w.run func k).choice func with
    | none =>
      rw [tick_of_none hc]
      exact ih.idle
    | some pid =>
      have hlt := (feasible_of_sound hs w).1.unfinished k pid hc
      have hpos : 0 < ((w.run func k).procCopy pid).remainingtime := by
        rw [hbooks.remaining]
        omega
      have hnow : 0 ≤ (w.run func k).currentTime := by
        rw [hbooks.time]
        exact Int.natCast_nonneg k
      have hbefore : Simulation.Stamped { w.run func k with
          globals := (func (w.run func k).globals (w.run func k).procCopy
            (w.run func k).currentTime).2 } := ⟨ih.starttime, ih.endtime⟩
      rw [tick_of_some hc]
      exact hbefore.ran hnow hpos

theorem turnaround_range (hs : Sound func Inv) (w : Workload) (k : ℕ) :
    0 ≤ (w.run func k).totalTurnaroundTime ∧
      (w.run func k).totalTurnaroundTime ≤ numProcesses * k := by
  have hvalid := valid_of_sound hs w
  have hbooks := (run_of_sound hs w k).1
  rw [hbooks.turnaround]
  constructor
  · refine Finset.sum_nonneg (fun i _ => ?_)
    have hle := hvalid.arrival_le_completion (w.runtime_pos i)
    omega
  · have hterm : ∀ i ∈ done w.runtime (w.choices func) k,
        ((completion w.runtime (w.choices func) i : ℤ) - w.arrivaltime i) ≤ k := by
      intro i hi
      have hle := hvalid.completion_le (mem_done.mp hi)
      omega
    have hcard : (done w.runtime (w.choices func) k).card ≤ numProcesses :=
      (Finset.card_le_univ _).trans (Fintype.card_fin numProcesses).le
    calc ∑ i ∈ done w.runtime (w.choices func) k,
          ((completion w.runtime (w.choices func) i : ℤ) - w.arrivaltime i)
        ≤ (done w.runtime (w.choices func) k).card • (k : ℤ) := Finset.sum_le_card_nsmul _ _ _ hterm
      _ ≤ numProcesses * k := by
        rw [nsmul_eq_mul]
        exact mul_le_mul_of_nonneg_right (Nat.cast_le.mpr hcard) (Int.natCast_nonneg k)

theorem inRange_of_sound (hs : Sound func Inv)
    (hloop : ∀ j, j < k → (w.run func j).numFinished < numProcesses) :
    (w.run func k).InRange w.latest := by
  have hbooks := (run_of_sound hs w k).1
  have hk := rounds_le_latest hs hloop
  have htime : (w.run func k).currentTime ≤ w.latest := by
    rw [hbooks.time]
    exact Nat.cast_le.mpr hk
  refine ⟨⟨?_, htime⟩, fun i => ?_, fun i => ?_, fun i => ?_, (turnaround_range hs w k).1, ?_⟩
  · rw [hbooks.time]
    exact Int.natCast_nonneg k
  · obtain ⟨hlow, hhigh⟩ := (stamped_of_sound hs w k).starttime i
    exact ⟨hlow, hhigh.trans htime⟩
  · obtain ⟨hlow, hhigh⟩ := (stamped_of_sound hs w k).endtime i
    exact ⟨hlow, hhigh.trans htime⟩
  · have hserved := hbooks.served_le i
    have hruntime := Finset.single_le_sum (fun j _ => Nat.zero_le (w.runtime j)) (Finset.mem_univ i)
    rw [hbooks.remaining, Workload.latest]
    omega
  · exact (turnaround_range hs w k).2.trans
      (mul_le_mul_of_nonneg_left (Nat.cast_le.mpr hk) (Int.natCast_nonneg _))

/-- The loop of any scheduler on any table. -/
theorem loop_inRange (w : Workload) (n : Fin numSchedulers)
    (hloop : ∀ j, j < k → (w.run (schedulers n).func j).numFinished < numProcesses) :
    (w.run (schedulers n).func k).InRange w.latest := by
  obtain ⟨Inv, hs⟩ := schedulers_sound n
  exact inRange_of_sound hs hloop

theorem latest_le (harrival : ∀ i, w.arrivaltime i < 100) (hruntime : ∀ i, w.runtime i < 30 + 10) :
    w.latest ≤ 879 := by
  have hlast : Finset.univ.sup w.arrivaltime ≤ 99 :=
    Finset.sup_le (fun i _ => Nat.le_of_lt_succ (harrival i))
  have hwork : ∑ i, w.runtime i ≤ Fintype.card Pid • 39 :=
    Finset.sum_le_card_nsmul _ _ _ (fun i _ => Nat.le_of_lt_succ (hruntime i))
  have hcard : Fintype.card Pid = 20 := Fintype.card_fin _
  rw [hcard, nsmul_eq_mul, Nat.cast_ofNat] at hwork
  rw [Workload.latest]
  omega

/-- For the tables that `main` draws no time exceeds 879 and no total 17580: an `int` holds
them all. -/
theorem main_inRange (harrival : ∀ i, w.arrivaltime i < 100)
    (hruntime : ∀ i, w.runtime i < 30 + 10) (n : Fin numSchedulers)
    (hloop : ∀ j, j < k → (w.run (schedulers n).func j).numFinished < numProcesses) :
    (w.run (schedulers n).func k).InRange 879 :=
  (loop_inRange w n hloop).mono (Nat.cast_le.mpr (latest_le harrival hruntime))

end Range

end CpreLabs.Lab4
