import CpreLabs.ShortestRemaining

/-!
# What the choices make of the table

The state of a simulation, but for what the scheduler keeps, depends on the choices only;
`starttime` and `endtime` are the ticks before the first and after the last that a process ran.
-/
namespace CpreLabs.Lab4
open UnitTick

namespace Simulation

/-- The state without what the scheduler keeps. -/
def ledger (s : Simulation) : Simulation := { s with globals := .start }

/-- A round in which `c` was chosen. -/
def record (s : Simulation) : Option Pid → Simulation
  | none => { s with currentTime := s.currentTime + 1 }
  | some nextPid => s.runProcess nextPid

theorem runProcess_ledger (s : Simulation) (pid : Pid) :
    (s.runProcess pid).ledger = s.ledger.runProcess pid := by
  have hdispatch : s.ledger.dispatch pid = s.dispatch pid := rfl
  simp only [runProcess, hdispatch]
  rw [apply_ite ledger, apply_ite ledger]
  rfl

theorem fields_of_ledger {s s' : Simulation} (h : s.ledger = s'.ledger) :
    s.procCopy = s'.procCopy ∧ s.numFinished = s'.numFinished ∧ s.currentTime = s'.currentTime ∧
      s.totalTurnaroundTime = s'.totalTurnaroundTime := by
  have hproc : s.ledger.procCopy = s'.ledger.procCopy := congrArg procCopy h
  have hnum : s.ledger.numFinished = s'.ledger.numFinished := congrArg numFinished h
  have htime : s.ledger.currentTime = s'.ledger.currentTime := congrArg currentTime h
  have htotal : s.ledger.totalTurnaroundTime = s'.ledger.totalTurnaroundTime :=
    congrArg totalTurnaroundTime h
  exact ⟨hproc, hnum, htime, htotal⟩

theorem tick_ledger (func : SchedulerFunc) (s : Simulation) :
    (s.tick func).ledger = s.ledger.record (s.choice func) := by
  cases hc : s.choice func with
  | none =>
    rw [tick_of_none hc]
    rfl
  | some i =>
    rw [tick_of_some hc, runProcess_ledger]
    rfl

end Simulation

/-- The state before round `k`, when `main` enters the loop with `g`. -/
def Workload.runFrom (w : Workload) (g : Globals) (func : SchedulerFunc) : ℕ → Simulation
  | 0 => w.start g
  | k + 1 => (w.runFrom g func k).tick func

section Ledger

variable {w : Workload} {g g' : Globals} {func func' : SchedulerFunc} {k : ℕ}

theorem run_eq_runFrom (w : Workload) (func : SchedulerFunc) (k : ℕ) :
    w.run func k = w.runFrom .start func k := by
  induction k with
  | zero => rfl
  | succ k ih => rw [Workload.run, Workload.runFrom, ih]

theorem ledger_congr (h : ∀ j, j < k →
    (w.runFrom g func j).choice func = (w.runFrom g' func' j).choice func') :
    (w.runFrom g func k).ledger = (w.runFrom g' func' k).ledger := by
  induction k with
  | zero => rfl
  | succ k ih =>
    rw [Workload.runFrom, Workload.runFrom, Simulation.tick_ledger, Simulation.tick_ledger,
      ih (fun j hj => h j (Nat.lt_succ_of_lt hj)), h k (Nat.lt_succ_self k)]

/-- Loops with the same choices end with the same table and counters. -/
theorem ends_ledger (h : ∀ k, w.choices func k = w.choices func' k) {s s' : Simulation}
    (hs : w.Ends func s) (hs' : w.Ends func' s') : s.ledger = s'.ledger := by
  have hledger : ∀ k, (w.run func k).ledger = (w.run func' k).ledger := by
    intro k
    rw [run_eq_runFrom, run_eq_runFrom]
    apply ledger_congr
    intro j _
    rw [← run_eq_runFrom, ← run_eq_runFrom]
    exact h j
  have halike : ∀ k, numProcesses ≤ (w.run func k).numFinished ↔
      numProcesses ≤ (w.run func' k).numFinished := by
    intro k
    rw [(Simulation.fields_of_ledger (hledger k)).2.1]
  obtain ⟨k, rfl, rfl⟩ := exists_run_of_ends halike hs hs'
  exact hledger k

end Ledger

theorem dispatch_starttime (s : Simulation) (pid i : Pid) :
    (s.dispatch pid i).starttime =
      if i = pid ∧ (s.procCopy pid).starttime = -1 then s.currentTime
      else (s.procCopy i).starttime := by
  have hrunning : ∀ (p : Process) (b : Bool), { p with running := b }.starttime = p.starttime :=
    fun _ _ => rfl
  rw [Simulation.dispatch, Table.modify_field Process.starttime (fun p => hrunning p true),
    Table.stopPrev_field Process.starttime hrunning]
  by_cases hfirst : (s.procCopy pid).starttime = -1
  · rw [if_pos hfirst, Table.modify_apply]
    by_cases hi : i = pid
    · rw [if_pos hi, if_pos ⟨hi, hfirst⟩]
    · rw [if_neg hi, if_neg (fun h => hi h.1)]
  · rw [if_neg hfirst, if_neg (fun h => hfirst h.2)]

/-- The first round of a process sets `starttime`, and the last one `endtime`. -/
theorem runProcess_times (s : Simulation) {pid : Pid} (hpos : 0 < (s.procCopy pid).remainingtime)
    (i : Pid) :
    ((s.runProcess pid).procCopy i).starttime =
        (if i = pid ∧ (s.procCopy pid).starttime = -1 then s.currentTime
        else (s.procCopy i).starttime) ∧
      ((s.runProcess pid).procCopy i).endtime =
        if i = pid ∧ (s.procCopy pid).remainingtime = 1 then s.currentTime + 1
        else (s.procCopy i).endtime := by
  obtain ⟨ran, hran⟩ : ∃ ran, ran = (s.dispatch pid).useTick pid := ⟨_, rfl⟩
  have hstart : (ran i).starttime = (s.dispatch pid i).starttime := by
    rw [hran, Table.useTick_field Process.starttime (fun _ _ => rfl)]
  have hend : (ran i).endtime = (s.procCopy i).endtime := by
    rw [hran, Table.useTick_field Process.endtime (fun _ _ => rfl)]
    exact dispatch_field Process.endtime (fun _ _ => rfl) (fun _ _ => rfl) s pid i
  have hremaining : (ran pid).remainingtime = (s.procCopy pid).remainingtime - 1 := by
    have hbefore := dispatch_field Process.remainingtime (fun _ _ => rfl) (fun _ _ => rfl) s pid pid
    rw [hran, Table.useTick, Table.modify_apply, if_pos rfl, ← hbefore]
  rw [← dispatch_starttime, ← hstart]
  rw [Simulation.runProcess]
  simp only [← hran]
  rw [if_neg (by omega)]
  by_cases hone : (s.procCopy pid).remainingtime = 1
  · have hfinish : ran.finish pid (s.currentTime + 1) i =
        if i = pid then { ran pid with endtime := s.currentTime + 1, finished := true }
        else ran i := by
      rw [Table.finish, Table.modify_apply]
    rw [if_pos (by omega), hfinish]
    by_cases hi : i = pid
    · rw [if_pos hi, if_pos ⟨hi, hone⟩, hi]
      exact ⟨rfl, rfl⟩
    · rw [if_neg hi, if_neg (fun h => hi h.1)]
      exact ⟨rfl, hend⟩
  · have hnot : ¬(i = pid ∧ (s.procCopy pid).remainingtime = 1) := fun h => hone h.2
    rw [if_neg (by omega), if_neg hnot]
    exact ⟨rfl, hend⟩

/-- `starttime` is the first tick in which the process ran, and `endtime` the one after the
last. -/
structure Times (w : Workload) (σ : ℕ → Option Pid) (k : ℕ) (s : Simulation) : Prop where
  waiting : ∀ i, served σ k i = 0 → (s.procCopy i).starttime = -1
  starttime : ∀ i j, j < k → σ j = some i → served σ j i = 0 → (s.procCopy i).starttime = j
  endtime : ∀ i j, j < k → σ j = some i → served σ j i + 1 = w.runtime i →
    (s.procCopy i).endtime = j + 1

section Times

variable {w : Workload} {func : SchedulerFunc} {σ : ℕ → Option Pid} {k : ℕ} {s s' : Simulation}

theorem Times.idle (h : Times w σ k s) (hσ : σ k = none) (hsame : s'.procCopy = s.procCopy) :
    Times w σ (k + 1) s' := by
  have hlt : ∀ i j, j < k + 1 → σ j = some i → j < k := by
    intro i j hj hi
    rcases Nat.lt_succ_iff_lt_or_eq.mp hj with hlt | rfl
    · exact hlt
    · rw [hσ] at hi
      cases hi
  refine ⟨fun i hi => ?_, fun i j hj hi hfirst => ?_, fun i j hj hi hlast => ?_⟩
  · rw [served_succ, hσ, if_neg (by simp), Nat.add_zero] at hi
    rw [hsame]
    exact h.waiting i hi
  · rw [hsame]
    exact h.starttime i j (hlt i j hj hi) hi hfirst
  · rw [hsame]
    exact h.endtime i j (hlt i j hj hi) hi hlast

theorem Times.ran (h : Times w σ k s) {pid : Pid} (hσ : σ k = some pid) (htime : s.currentTime = k)
    (hremaining : (s.procCopy pid).remainingtime = w.runtime pid - served σ k pid)
    (hpos : 0 < (s.procCopy pid).remainingtime) : Times w σ (k + 1) (s.runProcess pid) := by
  refine ⟨fun i hi => ?_, fun i j hj hi hfirst => ?_, fun i j hj hi hlast => ?_⟩
  · rw [served_succ] at hi
    have hne : ¬σ k = some i := by
      intro heq
      rw [if_pos heq] at hi
      omega
    rw [if_neg hne, Nat.add_zero] at hi
    rw [(runProcess_times s hpos i).1, if_neg]
    · exact h.waiting i hi
    · rintro ⟨rfl, -⟩
      exact hne hσ
  · rw [(runProcess_times s hpos i).1]
    rcases Nat.lt_succ_iff_lt_or_eq.mp hj with hlt | rfl
    · have hold := h.starttime i j hlt hi hfirst
      rw [if_neg]
      · exact hold
      · rintro ⟨rfl, hnew⟩
        omega
    · obtain rfl : pid = i := Option.some.inj (hσ.symm.trans hi)
      rw [if_pos ⟨rfl, h.waiting pid hfirst⟩, htime]
  · rw [(runProcess_times s hpos i).2]
    rcases Nat.lt_succ_iff_lt_or_eq.mp hj with hlt | rfl
    · have hold := h.endtime i j hlt hi hlast
      have hdone : w.runtime i ≤ served σ k i := by
        have hmono := served_mono (σ := σ) (i := i) (Nat.succ_le_of_lt hlt)
        rw [Nat.succ_eq_add_one, served_succ, if_pos hi] at hmono
        omega
      rw [if_neg]
      · exact hold
      · rintro ⟨rfl, -⟩
        omega
    · obtain rfl : pid = i := Option.some.inj (hσ.symm.trans hi)
      have hone : (s.procCopy pid).remainingtime = 1 := by omega
      rw [if_pos ⟨rfl, hone⟩, htime]

theorem times_of_sound {Inv : Globals → Table → ℤ → Prop} (hs : Sound func Inv) (w : Workload)
    (k : ℕ) : Times w (w.choices func) k (w.run func k) := by
  induction k with
  | zero => exact ⟨fun _ _ => rfl, fun i j hj => absurd hj (Nat.not_lt_zero j),
      fun i j hj => absurd hj (Nat.not_lt_zero j)⟩
  | succ k ih =>
    have hbooks := (run_of_sound hs w k).1
    cases hc : w.choices func k with
    | none =>
      rw [Workload.run, tick_of_none hc]
      exact ih.idle hc rfl
    | some pid =>
      have hremaining := hbooks.remaining pid
      have hlt := (feasible_of_sound hs w).1.unfinished k pid hc
      have hbefore : Times w (w.choices func) k { w.run func k with
          globals := (func (w.run func k).globals (w.run func k).procCopy
            (w.run func k).currentTime).2 } := ⟨ih.waiting, ih.starttime, ih.endtime⟩
      rw [Workload.run, tick_of_some hc]
      exact hbefore.ran hc hbooks.time hremaining (by rw [hremaining]; omega)

end Times

end CpreLabs.Lab4
