import CpreLabs.FirstComeFirstServed
import CpreLabs.PreferredJobs
import CpreLabs.PriorityRotation

/-!
# What each scheduler does best

First come, first served has the least longest turnaround, shortest remaining time has the most
processes finished at every tick, and round robin with priority leaves at every tick the least
work at and above each priority: no schedule of the table does better in any of these.
-/
namespace CpreLabs.Lab4
open UnitTick Rotation

section Ends

variable {w : Workload} {func : SchedulerFunc} {Inv : Globals → Table → ℤ → Prop}

theorem endtime_of_ends (hs : Sound func Inv) {s : Simulation} (h : w.Ends func s) (i : Pid) :
    (s.procCopy i).endtime = completion w.runtime (w.choices func) i := by
  obtain ⟨rounds, hloop⟩ := h
  obtain ⟨last, rfl, hfinished, -⟩ := run_of_loop rounds 0 hloop
  have hmem : i ∈ done w.runtime (w.choices func) last :=
    (numFinished_iff hs w last).mp hfinished ▸ Finset.mem_univ i
  have hserved := mem_done.mp hmem
  cases hk : completion w.runtime (w.choices func) i with
  | zero =>
    have hzero : served (w.choices func) (completion w.runtime (w.choices func) i) i =
        w.runtime i := Nat.sInf_mem ((valid_of_sound hs w).complete i)
    have hpos := w.runtime_pos i
    rw [hk, served_zero] at hzero
    omega
  | succ k =>
    obtain ⟨hrun, hlast⟩ := (valid_of_sound hs w).last_tick hk
    have hlt : k < last := by
      by_contra hle
      have hmono := served_mono (σ := w.choices func) (i := i) (not_lt.mp hle)
      omega
    rw [(times_of_sound hs w last).endtime i k hlt hrun hlast]
    rfl

theorem starttime_of_ends (hs : Sound func Inv) {s : Simulation} (h : w.Ends func s) (i : Pid) :
    ∃ j : ℕ, w.choices func j = some i ∧ served (w.choices func) j i = 0 ∧
      (s.procCopy i).starttime = j := by
  obtain ⟨rounds, hloop⟩ := h
  obtain ⟨last, rfl, hfinished, -⟩ := run_of_loop rounds 0 hloop
  have hmem : i ∈ done w.runtime (w.choices func) last :=
    (numFinished_iff hs w last).mp hfinished ▸ Finset.mem_univ i
  have hpos : 0 < served (w.choices func) last i :=
    (Nat.lt_of_lt_of_le one_pos (w.runtime_pos i)).trans_le (mem_done.mp hmem)
  have hran := served_pos_iff.mp hpos
  obtain ⟨hlt, hrun⟩ := Nat.find_spec hran
  have hnone : served (w.choices func) (Nat.find hran) i = 0 := by
    by_contra hne
    obtain ⟨j, hj, hj'⟩ := served_pos_iff.mp (Nat.pos_of_ne_zero hne)
    exact Nat.find_min hran hj ⟨hj.trans hlt, hj'⟩
  exact ⟨_, hrun, hnone, (times_of_sound hs w last).starttime i _ hlt hrun hnone⟩

end Ends

/-- Whatever the schedule, for every process there is one that came no later and has to wait at
least as long as it does in the order of arrival. -/
theorem firstComeFirstServed_least_longest (w : Workload) :
    (∃ s, w.Ends firstComeFirstServed s) ∧
      ∀ s, w.Ends firstComeFirstServed s → ∀ i,
        (∀ τ, Valid w.arrivaltime w.runtime τ → ∃ j, w.arrivaltime j ≤ w.arrivaltime i ∧
          (s.procCopy i).endtime - w.arrivaltime i ≤
            (completion w.runtime τ j : ℤ) - w.arrivaltime j) ∧
        ∀ n s', w.Ends (schedulers n).func s' → ∃ j, w.arrivaltime j ≤ w.arrivaltime i ∧
          (s.procCopy i).endtime - w.arrivaltime i ≤
            (s'.procCopy j).endtime - w.arrivaltime j := by
  refine ⟨exists_ends sound_firstComeFirstServed w, fun s hends i => ?_⟩
  have hleast : ∀ τ, Valid w.arrivaltime w.runtime τ → ∃ j, w.arrivaltime j ≤ w.arrivaltime i ∧
      (s.procCopy i).endtime - w.arrivaltime i ≤
        (completion w.runtime τ j : ℤ) - w.arrivaltime j := by
    intro τ hτ
    rw [endtime_of_ends sound_firstComeFirstServed hends]
    exact (firstCome_choices w).exists_turnaround_ge
      (valid_of_sound sound_firstComeFirstServed w) hτ i
  refine ⟨hleast, fun n s' hends' => ?_⟩
  obtain ⟨Inv, hs⟩ := schedulers_sound n
  obtain ⟨j, harr, hle⟩ := hleast _ (valid_of_sound hs w)
  rw [← endtime_of_ends hs hends'] at hle
  exact ⟨j, harr, hle⟩

theorem numFinished_eq {func : SchedulerFunc} {Inv : Globals → Table → ℤ → Prop}
    (hs : Sound func Inv) (w : Workload) (k : ℕ) :
    (w.run func k).numFinished + pending w.runtime (w.choices func) k = numProcesses := by
  have hsplit := card_done_add_pending w.runtime (w.choices func) k
  rw [Fintype.card_fin] at hsplit
  rw [(run_of_sound hs w k).1.numFinished]
  exact hsplit

/-- No schedule has more processes finished, at whatever tick. -/
theorem shortestRemainingTime_most_finished (w : Workload) (k : ℕ) :
    (∀ τ, Valid w.arrivaltime w.runtime τ →
      (done w.runtime τ k).card ≤ (w.run shortestRemainingTime k).numFinished) ∧
      ∀ n, (w.run (schedulers n).func k).numFinished ≤
        (w.run shortestRemainingTime k).numFinished := by
  have hmost : ∀ τ, Valid w.arrivaltime w.runtime τ →
      (done w.runtime τ k).card ≤ (w.run shortestRemainingTime k).numFinished := by
    intro τ hτ
    have hpending := pending_le (valid_of_sound sound_shortestRemainingTime w)
      (shortestFirst_choices w) hτ k
    have hcount := numFinished_eq sound_shortestRemainingTime w k
    have hsplit := card_done_add_pending w.runtime τ k
    rw [Fintype.card_fin] at hsplit
    omega
  refine ⟨hmost, fun n => ?_⟩
  obtain ⟨Inv, hs⟩ := schedulers_sound n
  have hbooks := (run_of_sound hs w k).1
  rw [hbooks.numFinished]
  exact hmost _ (valid_of_sound hs w)

/-- The process on the CPU has to leave it before it has finished. -/
def Preempted (w : Workload) (func : SchedulerFunc) (k : ℕ) (p q : Pid) : Prop :=
  w.choices func k = some p ∧ w.choices func (k + 1) = some q ∧ q ≠ p ∧
    served (w.choices func) (k + 1) p < w.runtime p

/-- Only a process that arrives at that very tick takes the CPU from another, and it needs less
time than the other has left, or as much and comes first in the table. -/
theorem preempted_for (w : Workload) {k : ℕ} {p q : Pid}
    (h : Preempted w shortestRemainingTime k p q) :
    w.arrivaltime q = k + 1 ∧
      (w.runtime q < w.runtime p - served (w.choices shortestRemainingTime) (k + 1) p ∨
        w.runtime q = w.runtime p - served (w.choices shortestRemainingTime) (k + 1) p ∧ q < p) := by
  obtain ⟨hp, hq, hne, hunfinished⟩ := h
  have hshort := shortestFirst_choices w
  have hfeasible := (feasible_of_sound sound_shortestRemainingTime w).1
  have hqlt := hfeasible.unfinished (k + 1) q hq
  have hqarr := hfeasible.arrived (k + 1) q hq
  have hparr := hfeasible.arrived k p hp
  have hpq : w.choices shortestRemainingTime k ≠ some q := by
    rw [hp]
    exact fun heq => hne (Option.some.inj heq).symm
  have hsame : served (w.choices shortestRemainingTime) (k + 1) q =
      served (w.choices shortestRemainingTime) k q := by
    rw [served_succ, if_neg hpq, Nat.add_zero]
  have hone : served (w.choices shortestRemainingTime) (k + 1) p =
      served (w.choices shortestRemainingTime) k p + 1 := by
    rw [served_succ, if_pos hp]
  have hleast := hshort.least (k + 1) q hq p (hparr.trans (Nat.le_succ k)) hunfinished
  have harr : w.arrivaltime q = k + 1 := by
    by_contra hearly
    have hbefore := hshort.least k p hp q (by omega) (hsame ▸ hqlt)
    omega
  have hzero : served (w.choices shortestRemainingTime) (k + 1) q = 0 :=
    hfeasible.served_of_not_arrived harr.ge
  refine ⟨harr, ?_⟩
  have hbooks := (run_of_sound sound_shortestRemainingTime w (k + 1)).1
  have hfirst := firstReady_scan Process.remainingtime (w.run shortestRemainingTime (k + 1)).procCopy
    (w.run shortestRemainingTime (k + 1)).currentTime
  rw [show List.foldl _ _ _ = some q from hq] at hfirst
  have hready : ReadyAt (w.run shortestRemainingTime (k + 1)).procCopy
      (w.run shortestRemainingTime (k + 1)).currentTime p := by
    refine ⟨?_, hbooks.unfinished.mpr hunfinished⟩
    rw [hbooks.arrivaltime, hbooks.time]
    exact Int.ofNat_le.mpr (hparr.trans (Nat.le_succ k))
  have hchosen := hfirst.2 p (List.mem_finRange p) hready
  rw [hbooks.remaining, hbooks.remaining] at hchosen
  rcases hchosen with hlt | ⟨heq, hle⟩
  · exact Or.inl (by omega)
  · exact Or.inr ⟨by omega, lt_of_le_of_ne hle hne⟩

/-- What takes the CPU from another process has just arrived, so each process does so at most once,
and the one that came first never does. -/
theorem shortestRemainingTime_preempts (w : Workload) :
    (∀ k p q, Preempted w shortestRemainingTime k p q → w.arrivaltime q = k + 1 ∧
      (w.runtime q < w.runtime p - served (w.choices shortestRemainingTime) (k + 1) p ∨
        w.runtime q = w.runtime p - served (w.choices shortestRemainingTime) (k + 1) p ∧ q < p)) ∧
      ∀ ticks : Finset ℕ, (∀ k ∈ ticks, ∃ p q, Preempted w shortestRemainingTime k p q) →
        ticks.card < numProcesses := by
  refine ⟨fun k p q h => preempted_for w h, fun ticks hticks => ?_⟩
  choose! p q hpq using hticks
  obtain ⟨first, -, hfirst⟩ := Finset.exists_min_image Finset.univ w.arrivaltime
    (Finset.univ_nonempty (α := Pid))
  have harr : ∀ k ∈ ticks, w.arrivaltime (q k) = k + 1 := fun k hk => (preempted_for w (hpq k hk)).1
  have hmaps : ∀ k ∈ ticks, q k ∈ Finset.univ.erase first := by
    intro k hk
    apply Finset.mem_erase.mpr
    refine ⟨fun heq => ?_, Finset.mem_univ _⟩
    have hold := (feasible_of_sound sound_shortestRemainingTime w).1.arrived k _ (hpq k hk).1
    have hmin := hfirst (p k) (Finset.mem_univ _)
    have hnew := harr k hk
    rw [heq] at hnew
    omega
  have hinj : Set.InjOn q ticks := by
    intro k hk k' hk' heq
    have hsame := harr k hk
    rw [heq, harr k' hk'] at hsame
    omega
  have hcard := Finset.card_le_card_of_injOn q hmaps hinj
  rw [Finset.card_erase_of_mem (Finset.mem_univ first), Finset.card_univ, Fintype.card_fin] at hcard
  exact hcard.trans_lt (Nat.sub_lt numProcesses_pos one_pos)

def Workload.atLeast (w : Workload) (level : Fin numPriorities) : Finset Pid :=
  Finset.univ.filter fun i => level ≤ w.priority i

/-- The sum of `remainingtime` over the processes of the priority or a higher one that have
arrived. -/
def Workload.left (w : Workload) (func : SchedulerFunc) (level : Fin numPriorities) (k : ℕ) : ℤ :=
  ∑ i ∈ w.atLeast level with w.arrivaltime i ≤ k, ((w.run func k).procCopy i).remainingtime

theorem left_eq {func : SchedulerFunc} {Inv : Globals → Table → ℤ → Prop} (hs : Sound func Inv)
    (w : Workload) (level : Fin numPriorities) (k : ℕ) :
    w.left func level k =
      workOf w.arrivaltime w.runtime (w.choices func) (w.atLeast level) k := by
  have hbooks := (run_of_sound hs w k).1
  rw [Workload.left, workOf, Nat.cast_sum]
  apply Finset.sum_congr rfl
  intro i _
  rw [hbooks.remaining, remaining, Nat.cast_sub (hbooks.served_le i)]

theorem roundRobinPriority_prefers (w : Workload) (level : Fin numPriorities) :
    Prefers w.arrivaltime w.runtime (w.choices roundRobinPriority) (w.atLeast level) := by
  intro k i hi harr hlt
  have hbooks := (run_of_sound sound_roundRobinPriority w k).1
  have hready : (w.run roundRobinPriority k).Ready i := by
    refine ⟨?_, hbooks.unfinished.mpr hlt⟩
    rw [hbooks.arrivaltime, hbooks.time]
    exact Int.ofNat_le.mpr harr
  obtain ⟨j, hj, hle⟩ := (levelRun_levels w).strict priorities_sorted
    (mem_priorities (w.priority i)) (levels_own w k) (levels_ready w k hready) hready.2
  have hlevel := (Finset.mem_filter.mp hi).2.trans hle
  exact ⟨j, Finset.mem_filter.mpr ⟨Finset.mem_univ j, hlevel⟩, hj⟩

/-- At and above any priority no schedule has less work left, at whatever tick, or is through with
the processes earlier. -/
theorem roundRobinPriority_least_left (w : Workload) (level : Fin numPriorities) (k : ℕ) :
    (∀ τ, Feasible w.arrivaltime w.runtime τ → w.left roundRobinPriority level k ≤
      workOf w.arrivaltime w.runtime τ (w.atLeast level) k) ∧
      ∀ n, w.left roundRobinPriority level k ≤ w.left (schedulers n).func level k ∧
        ((∀ i ∈ w.atLeast level, ((w.run (schedulers n).func k).procCopy i).finished = true) →
          ∀ i ∈ w.atLeast level, ((w.run roundRobinPriority k).procCopy i).finished = true) := by
  have hfeasible := (feasible_of_sound sound_roundRobinPriority w).1
  have hprefers := roundRobinPriority_prefers w level
  refine ⟨fun τ hτ => ?_, fun n => ?_⟩
  · rw [left_eq sound_roundRobinPriority]
    exact Int.ofNat_le.mpr (hprefers.workOf_le hfeasible hτ k)
  · obtain ⟨Inv, hs⟩ := schedulers_sound n
    have hother := (feasible_of_sound hs w).1
    constructor
    · rw [left_eq sound_roundRobinPriority, left_eq hs]
      exact Int.ofNat_le.mpr (hprefers.workOf_le hfeasible hother k)
    · intro hdone i hi
      apply ((run_of_sound sound_roundRobinPriority w k).1.finished i).mpr
      apply hprefers.finished hfeasible hother _ i hi
      exact fun j hj => ((run_of_sound hs w k).1.finished j).mp (hdone j hj)

end CpreLabs.Lab4
