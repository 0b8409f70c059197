import CpreLabs.SchedulersSound

/-!
# Shortest remaining time has the least turnaround

`total_turnaround_time` at the end of the loop is the turnaround of the choices, and those of
`shortest_remaining_time` run at every tick a job with the least remaining length.
-/
namespace CpreLabs.Lab4
open UnitTick

/-- The loop, started by `main` for this scheduler, ends in the state `s`. -/
def Workload.Ends (w : Workload) (func : SchedulerFunc) (s : Simulation) : Prop :=
  ∃ rounds, (w.start .start).loop func rounds = some s

section Turnaround

variable {w : Workload} {func : SchedulerFunc} {Inv : Globals → Table → ℤ → Prop}

/-- The loop ends with the first state in which all processes have finished. -/
theorem run_of_loop (rounds j : ℕ) {s : Simulation} (h : (w.run func j).loop func rounds = some s) :
    ∃ k, s = w.run func k ∧ numProcesses ≤ (w.run func k).numFinished ∧
      ∀ i, j ≤ i → i < k → (w.run func i).numFinished < numProcesses := by
  induction rounds generalizing j with
  | zero =>
    rw [Simulation.loop] at h
    split at h
    · cases h
    · cases h
      exact ⟨j, rfl, not_lt.mp ‹_›, fun i hi hij => absurd hij (not_lt.mpr hi)⟩
  | succ rounds ih =>
    rw [Simulation.loop] at h
    split at h
    · obtain ⟨k, hs, hfinished, hbefore⟩ := ih (j + 1) h
      refine ⟨k, hs, hfinished, fun i hi hik => ?_⟩
      rcases Nat.eq_or_lt_of_le hi with rfl | hlt
      · assumption
      · exact hbefore i hlt hik
    · cases h
      exact ⟨j, rfl, not_lt.mp ‹_›, fun i hi hij => absurd hij (not_lt.mpr hi)⟩

theorem exists_run_of_ends {func' : SchedulerFunc}
    (halike : ∀ k, numProcesses ≤ (w.run func k).numFinished ↔
      numProcesses ≤ (w.run func' k).numFinished) {s s' : Simulation} (h : w.Ends func s)
    (h' : w.Ends func' s') : ∃ k, s = w.run func k ∧ s' = w.run func' k := by
  obtain ⟨rounds, hloop⟩ := h
  obtain ⟨rounds', hloop'⟩ := h'
  obtain ⟨k, rfl, hfinished, hbefore⟩ := run_of_loop rounds 0 hloop
  obtain ⟨k', rfl, hfinished', hbefore'⟩ := run_of_loop rounds' 0 hloop'
  have hk : k = k' := by
    apply le_antisymm
    · by_contra hlt
      have hearly := hbefore k' (Nat.zero_le _) (not_le.mp hlt)
      exact absurd ((halike k').mpr hfinished') (not_le.mpr hearly)
    · by_contra hlt
      have hearly := hbefore' k (Nat.zero_le _) (not_le.mp hlt)
      exact absurd ((halike k).mp hfinished) (not_le.mpr hearly)
  exact ⟨k, rfl, by rw [hk]⟩

theorem numFinished_iff (hs : Sound func Inv) (w : Workload) (k : ℕ) :
    numProcesses ≤ (w.run func k).numFinished ↔
      done w.runtime (w.choices func) k = Finset.univ := by
  have hbooks := (run_of_sound hs w k).1
  rw [hbooks.numFinished, ← Finset.card_eq_iff_eq_univ, Fintype.card_fin]
  have hle := Finset.card_le_univ (done w.runtime (w.choices func) k)
  rw [Fintype.card_fin] at hle
  exact ⟨fun hge => le_antisymm hle hge, fun heq => heq.ge⟩

theorem total_of_ends (hs : Sound func Inv) {s : Simulation} (h : w.Ends func s) :
    s.totalTurnaroundTime = turnaround w.arrivaltime w.runtime (w.choices func) := by
  obtain ⟨rounds, hloop⟩ := h
  obtain ⟨k, rfl, hfinished, -⟩ := run_of_loop rounds 0 hloop
  rw [(run_of_sound hs w k).1.turnaround, (numFinished_iff hs w k).mp hfinished]
  rfl

theorem exists_ends (hs : Sound func Inv) (w : Workload) : ∃ s, w.Ends func s := by
  obtain ⟨last, hloop, -⟩ := exists_end hs w
  exact ⟨_, last, hloop⟩

end Turnaround

theorem shortestFirst_choices (w : Workload) :
    ShortestFirst w.arrivaltime w.runtime (w.choices shortestRemainingTime) := by
  refine ⟨fun k i hi l hl hlt => ?_, (feasible_of_sound sound_shortestRemainingTime w).2⟩
  obtain ⟨hbooks, -⟩ := run_of_sound sound_shortestRemainingTime w k
  have hleast := leastReady_scan Process.remainingtime (w.run shortestRemainingTime k).procCopy
    (w.run shortestRemainingTime k).currentTime
  rw [show List.foldl _ _ _ = some i from hi] at hleast
  have hready : ReadyAt (w.run shortestRemainingTime k).procCopy
      (w.run shortestRemainingTime k).currentTime l := by
    refine ⟨?_, hbooks.unfinished.mpr hlt⟩
    rw [hbooks.arrivaltime, hbooks.time]
    exact Int.ofNat_le.mpr hl
  have hle := hleast.2 l trivial hready
  rw [hbooks.remaining, hbooks.remaining] at hle
  have hi' := hbooks.served_le i
  omega

/-- Shortest remaining time accumulates no more than any schedule of the table needs, and no more
than the other schedulers. -/
theorem shortestRemainingTime_minimises (w : Workload) :
    (∀ n, ∃ s, w.Ends (schedulers n).func s) ∧
      ∀ s, w.Ends shortestRemainingTime s →
        (∀ τ, Valid w.arrivaltime w.runtime τ →
          s.totalTurnaroundTime ≤ turnaround w.arrivaltime w.runtime τ) ∧
        ∀ n s', w.Ends (schedulers n).func s' → s.totalTurnaroundTime ≤ s'.totalTurnaroundTime := by
  refine ⟨fun n => ?_, fun s hends => ?_⟩
  · obtain ⟨Inv, hs⟩ := schedulers_sound n
    exact exists_ends hs w
  · have hleast : ∀ τ, Valid w.arrivaltime w.runtime τ →
        s.totalTurnaroundTime ≤ turnaround w.arrivaltime w.runtime τ := by
      intro τ hτ
      rw [total_of_ends sound_shortestRemainingTime hends]
      exact turnaround_le (valid_of_sound sound_shortestRemainingTime w) (shortestFirst_choices w) hτ
    refine ⟨hleast, fun n s' hends' => ?_⟩
    obtain ⟨Inv, hs⟩ := schedulers_sound n
    rw [total_of_ends hs hends']
    exact hleast _ (valid_of_sound hs w)

end CpreLabs.Lab4
