import CpreLabs.Scheduling
import CpreLabs.UnitTickScheduling
import Mathlib.Tactic.Ring

/-!
# The contract of the schedulers

Each of the four schedulers answers with a process that has arrived and is not finished, and with
`-1` only if there is none. What this gives for the loop of `main` is proved once, for any
scheduler with an invariant between its queues and the table.
-/
namespace CpreLabs.Lab4
open UnitTick

namespace Table

theorem modify_apply (proc : Table) (pid : Pid) (f : Process → Process) (i : Pid) :
    proc.modify pid f i = if i = pid then f (proc pid) else proc i := by
  exact Function.update_apply ..

/-- A field that the change leaves alone. -/
theorem modify_field {β : Type*} (π : Process → β) {f : Process → Process}
    (h : ∀ p, π (f p) = π p) (proc : Table) (pid i : Pid) :
    π (proc.modify pid f i) = π (proc i) := by
  rw [modify_apply]
  split
  · rw [h, ‹i = pid›]
  · rfl

theorem useTick_field {β : Type*} (π : Process → β)
    (h : ∀ p r, π { p with remainingtime := r } = π p) (proc : Table) (pid i : Pid) :
    π (proc.useTick pid i) = π (proc i) :=
  modify_field π (fun p => h p (p.remainingtime - 1)) proc pid i

theorem finish_field {β : Type*} (π : Process → β)
    (h : ∀ p t, π { p with endtime := t, finished := true } = π p) (proc : Table) (pid i : Pid)
    (t : ℤ) : π (proc.finish pid t i) = π (proc i) :=
  modify_field π (fun p => h p t) proc pid i

theorem stopPrev_field {β : Type*} (π : Process → β) (h : ∀ p b, π { p with running := b } = π p)
    (proc : Table) (prev : Option Pid) (i : Pid) : π (proc.stopPrev prev i) = π (proc i) := by
  cases prev with
  | none => rfl
  | some prev => exact modify_field π (fun p => h p false) proc prev i

end Table

/-- To put a process on the CPU changes `starttime` and `running` only. -/
theorem dispatch_field {β : Type*} (π : Process → β)
    (hstart : ∀ p t, π { p with starttime := t } = π p)
    (hrunning : ∀ p b, π { p with running := b } = π p) (s : Simulation) (nextPid i : Pid) :
    π (s.dispatch nextPid i) = π (s.procCopy i) := by
  rw [Simulation.dispatch, Table.modify_field π (fun p => hrunning p true),
    Table.stopPrev_field π hrunning]
  split
  · exact Table.modify_field π (fun p => hstart p s.currentTime) _ _ _
  · rfl

/-- What a round does that runs a process with remaining time. -/
structure RanOnce (s s' : Simulation) (pid : Pid) : Prop where
  globals : s'.globals = s.globals
  time : s'.currentTime = s.currentTime + 1
  arrivaltime : ∀ i, (s'.procCopy i).arrivaltime = (s.procCopy i).arrivaltime
  priority : ∀ i, (s'.procCopy i).priority = (s.procCopy i).priority
  remaining : ∀ i, (s'.procCopy i).remainingtime =
    (s.procCopy i).remainingtime - if i = pid then 1 else 0
  finished : ∀ i, (s'.procCopy i).finished =
    if i = pid ∧ (s.procCopy pid).remainingtime = 1 then true else (s.procCopy i).finished
  numFinished : s'.numFinished =
    s.numFinished + if (s.procCopy pid).remainingtime = 1 then 1 else 0
  turnaround : s'.totalTurnaroundTime = s.totalTurnaroundTime +
    if (s.procCopy pid).remainingtime = 1 then s.currentTime + 1 - (s.procCopy pid).arrivaltime
    else 0
  noError : ∀ pid', .ranFinished pid' ∈ s'.printed → .ranFinished pid' ∈ s.printed

theorem runProcess_ranOnce (s : Simulation) {pid : Pid}
    (hpos : 0 < (s.procCopy pid).remainingtime) : RanOnce s (s.runProcess pid) pid := by
  obtain ⟨ran, hran⟩ : ∃ ran, ran = (s.dispatch pid).useTick pid := ⟨_, rfl⟩
  have harrival : ∀ i, (ran i).arrivaltime = (s.procCopy i).arrivaltime := by
    intro i
    rw [hran, Table.useTick_field Process.arrivaltime (fun _ _ => rfl)]
    exact dispatch_field Process.arrivaltime (fun _ _ => rfl) (fun _ _ => rfl) s pid i
  have hpriority : ∀ i, (ran i).priority = (s.procCopy i).priority := by
    intro i
    rw [hran, Table.useTick_field Process.priority (fun _ _ => rfl)]
    exact dispatch_field Process.priority (fun _ _ => rfl) (fun _ _ => rfl) s pid i
  have hfinished : ∀ i, (ran i).finished = (s.procCopy i).finished := by
    intro i
    rw [hran, Table.useTick_field Process.finished (fun _ _ => rfl)]
    exact dispatch_field Process.finished (fun _ _ => rfl) (fun _ _ => rfl) s pid i
  have hremaining : ∀ i, (ran i).remainingtime =
      (s.procCopy i).remainingtime - if i = pid then 1 else 0 := by
    intro i
    have hbefore := dispatch_field Process.remainingtime (fun _ _ => rfl) (fun _ _ => rfl) s pid
    rw [hran, Table.useTick, Table.modify_apply]
    split
    · rw [‹i = pid›, ← hbefore pid]
    · rw [hbefore i, sub_zero]
  have hprinted : ∀ pid', Message.ranFinished pid' ∈
      (if (s.procCopy pid).starttime = -1 then s.printed ++ [.started s.currentTime pid]
      else s.printed) → .ranFinished pid' ∈ s.printed := by
    intro pid' hmem
    split at hmem
    · simpa using hmem
    · exact hmem
  have hself := hremaining pid
  rw [if_pos rfl] at hself
  rw [Simulation.runProcess]
  simp only [← hran]
  rw [if_neg (by omega)]
  by_cases hone : (s.procCopy pid).remainingtime = 1
  · rw [if_pos (by omega)]
    refine ⟨rfl, rfl, fun i => ?_, fun i => ?_, fun i => ?_, fun i => ?_, ?_, ?_, ?_⟩
    · exact (Table.finish_field Process.arrivaltime (fun _ _ => rfl) ran pid i _).trans (harrival i)
    · exact (Table.finish_field Process.priority (fun _ _ => rfl) ran pid i _).trans (hpriority i)
    · exact (Table.finish_field Process.remainingtime (fun _ _ => rfl) ran pid i _).trans (hremaining i)
    · have hfinish : (ran.finish pid (s.currentTime + 1) i).finished =
          if i = pid then true else (s.procCopy i).finished := by
        rw [Table.finish, Table.modify_apply]
        split
        · rfl
        · exact hfinished i
      exact hfinish.trans (by simp only [hone, and_true])
    · rw [if_pos hone]
    · rw [if_pos hone, harrival]
    · intro pid' hmem
      exact hprinted pid' (by simpa using hmem)
  · rw [if_neg (by omega)]
    refine ⟨rfl, rfl, harrival, hpriority, hremaining, fun i => ?_, ?_, ?_, hprinted⟩
    · exact (hfinished i).trans (if_neg (fun h => hone h.2)).symm
    · rw [if_neg hone, Nat.add_zero]
    · rw [if_neg hone, add_zero]

namespace Simulation

def choice (func : SchedulerFunc) (s : Simulation) : Option Pid :=
  (func s.globals s.procCopy s.currentTime).1

/-- The process has arrived and is not finished. -/
def Ready (s : Simulation) (i : Pid) : Prop :=
  (s.procCopy i).arrivaltime ≤ s.currentTime ∧ (s.procCopy i).finished = false

end Simulation

/-- No queue has printed an error. -/
def Globals.Quiet (g : Globals) : Prop :=
  g.rrQueue.printed = [] ∧ ∀ level, (g.priorityQueue level).printed = []

namespace Workload

/-- The state before round `k` of the loop. -/
def run (w : Workload) (func : SchedulerFunc) : ℕ → Simulation
  | 0 => w.start .start
  | k + 1 => (w.run func k).tick func

def choices (w : Workload) (func : SchedulerFunc) (k : ℕ) : Option Pid :=
  (w.run func k).choice func

end Workload

/-- How the loop changes the table in a round in which `c` was chosen, as far as the schedulers
look at it. -/
structure Changes (proc proc' : Table) (c : Option Pid) : Prop where
  arrivaltime : ∀ i, (proc' i).arrivaltime = (proc i).arrivaltime
  priority : ∀ i, (proc' i).priority = (proc i).priority
  finished : ∀ i, c ≠ some i → (proc' i).finished = (proc i).finished

/-- An invariant between what a scheduler keeps and the table, from which its answers follow. -/
structure Sound (func : SchedulerFunc) (Inv : Globals → Table → ℤ → Prop) : Prop where
  start : ∀ proc : Table, (∀ i, 0 ≤ (proc i).arrivaltime ∧ (proc i).finished = false) →
    Inv .start proc 0
  quiet : ∀ g proc t, Inv g proc t → g.Quiet
  ready : ∀ g proc t i, Inv g proc t → (func g proc t).1 = some i →
    (proc i).arrivaltime ≤ t ∧ (proc i).finished = false
  idle : ∀ g proc t i, Inv g proc t → (func g proc t).1 = none → (proc i).arrivaltime ≤ t →
    (proc i).finished = true
  next : ∀ g proc t proc', Inv g proc t → Changes proc proc' (func g proc t).1 →
    Inv (func g proc t).2 proc' (t + 1)

/-- The table and the counters of the loop against the choices so far. -/
structure Books (w : Workload) (σ : ℕ → Option Pid) (k : ℕ) (s : Simulation) : Prop where
  time : s.currentTime = k
  arrivaltime : ∀ i, (s.procCopy i).arrivaltime = w.arrivaltime i
  priority : ∀ i, (s.procCopy i).priority = w.priority i
  remaining : ∀ i, (s.procCopy i).remainingtime = w.runtime i - served σ k i
  finished : ∀ i, (s.procCopy i).finished = true ↔ w.runtime i ≤ served σ k i
  served_le : ∀ i, served σ k i ≤ w.runtime i
  numFinished : s.numFinished = (done w.runtime σ k).card
  turnaround : s.totalTurnaroundTime =
    ∑ i ∈ done w.runtime σ k, ((completion w.runtime σ i : ℤ) - w.arrivaltime i)
  noError : ∀ pid, .ranFinished pid ∉ s.printed

section Rounds

variable {w : Workload} {func : SchedulerFunc} {σ : ℕ → Option Pid} {k : ℕ} {s : Simulation}

theorem tick_of_none (h : s.choice func = none) :
    s.tick func = { s with
      globals := (func s.globals s.procCopy s.currentTime).2
      currentTime := s.currentTime + 1 } := by
  obtain ⟨c, g, hfunc⟩ : ∃ c g, func s.globals s.procCopy s.currentTime = (c, g) := ⟨_, _, rfl⟩
  rw [Simulation.choice, hfunc] at h
  obtain rfl : c = none := h
  rw [Simulation.tick, hfunc]

theorem tick_of_some {i : Pid} (h : s.choice func = some i) :
    s.tick func =
      { s with globals := (func s.globals s.procCopy s.currentTime).2 }.runProcess i := by
  obtain ⟨c, g, hfunc⟩ : ∃ c g, func s.globals s.procCopy s.currentTime = (c, g) := ⟨_, _, rfl⟩
  rw [Simulation.choice, hfunc] at h
  obtain rfl : c = some i := h
  rw [Simulation.tick, hfunc]

theorem runProcess_globals (s : Simulation) (pid : Pid) :
    (s.runProcess pid).globals = s.globals := by
  simp only [Simulation.runProcess]
  split
  · rfl
  · split
    · rfl
    · rfl

theorem tick_globals (func : SchedulerFunc) (s : Simulation) :
    (s.tick func).globals = (func s.globals s.procCopy s.currentTime).2 := by
  cases hc : s.choice func with
  | none => rw [tick_of_none hc]
  | some i => rw [tick_of_some hc, runProcess_globals]

theorem books_start (w : Workload) (σ : ℕ → Option Pid) : Books w σ 0 (w.start .start) := by
  have hnone : done w.runtime σ 0 = ∅ := by
    ext i
    have hpos := w.runtime_pos i
    rw [mem_done, served_zero]
    simp only [Finset.notMem_empty, iff_false]
    omega
  refine ⟨rfl, fun _ => rfl, fun _ => rfl, fun i => ?_, fun i => ?_, fun i => ?_, ?_, ?_, ?_⟩
  · rw [served_zero, Nat.cast_zero, sub_zero]
    rfl
  · have hpos := w.runtime_pos i
    rw [served_zero]
    exact ⟨fun h => absurd h Bool.false_ne_true, fun h => absurd h (by omega)⟩
  · exact Nat.zero_le _
  · rw [hnone]
    rfl
  · rw [hnone]
    rfl
  · exact fun pid hmem => List.not_mem_nil hmem

theorem Books.idle (h : Books w σ k s) (hσ : σ k = none) {g : Globals} :
    Books w σ (k + 1) { s with globals := g, currentTime := s.currentTime + 1 } := by
  have hserved : ∀ i, served σ (k + 1) i = served σ k i := by
    intro i
    rw [served_succ, hσ, if_neg (by simp), Nat.add_zero]
  have hdone : done w.runtime σ (k + 1) = done w.runtime σ k :=
    done_succ_of_none (fun i hi => by rw [hσ] at hi; cases hi)
  refine ⟨?_, h.arrivaltime, h.priority, fun i => ?_, fun i => ?_, fun i => ?_, ?_, ?_, h.noError⟩
  · simp only [h.time]
    push_cast
    rfl
  · rw [hserved]
    exact h.remaining i
  · rw [hserved]
    exact h.finished i
  · rw [hserved]
    exact h.served_le i
  · rw [hdone]
    exact h.numFinished
  · rw [hdone]
    exact h.turnaround

theorem Books.ranOnce (h : Books w σ k s) {pid : Pid} (hσ : σ k = some pid)
    (hready : s.Ready pid) {s' : Simulation} (hran : RanOnce s s' pid) : Books w σ (k + 1) s' := by
  have hserved : ∀ i, served σ (k + 1) i = served σ k i + if i = pid then 1 else 0 := by
    intro i
    rw [served_succ, hσ]
    simp only [Option.some.injEq, eq_comm]
  have hlt : served σ k pid < w.runtime pid := by
    by_contra hnot
    have hfinished := (h.finished pid).mpr (not_lt.mp hnot)
    rw [hready.2] at hfinished
    cases hfinished
  have hlast : (s.procCopy pid).remainingtime = 1 ↔ served σ k pid + 1 = w.runtime pid := by
    rw [h.remaining]
    omega
  refine ⟨?_, fun i => (hran.arrivaltime i).trans (h.arrivaltime i),
    fun i => (hran.priority i).trans (h.priority i), fun i => ?_, fun i => ?_, fun i => ?_, ?_, ?_,
    fun pid' hmem => h.noError pid' (hran.noError pid' hmem)⟩
  · rw [hran.time, h.time]
    push_cast
    rfl
  · rw [hran.remaining, h.remaining, hserved]
    split <;> push_cast <;> omega
  · have hi := h.finished i
    rw [hran.finished, hserved]
    by_cases hip : i = pid
    · subst hip
      rw [if_pos (rfl : i = i)]
      by_cases hone : served σ k i + 1 = w.runtime i
      · rw [if_pos ⟨rfl, hlast.mpr hone⟩]
        exact ⟨fun _ => hone.ge, fun _ => rfl⟩
      · rw [if_neg (fun hand => hone (hlast.mp hand.2)), hi]
        omega
    · rw [if_neg hip, if_neg (fun hand => hip hand.1), hi, Nat.add_zero]
  · have hle := h.served_le i
    rw [hserved]
    by_cases hip : i = pid
    · rw [if_pos hip, hip]
      exact hlt
    · rw [if_neg hip]
      exact hle
  · rw [hran.numFinished, h.numFinished]
    by_cases hone : served σ k pid + 1 = w.runtime pid
    · obtain ⟨hnot, hinsert⟩ := done_succ_of_finish hσ hone
      rw [if_pos (hlast.mpr hone), hinsert, Finset.card_insert_of_notMem hnot]
    · rw [if_neg (fun hrem => hone (hlast.mp hrem)), Nat.add_zero, done_succ_of_none]
      intro i hi
      obtain rfl : pid = i := Option.some.inj (hσ.symm.trans hi)
      omega
  · rw [hran.turnaround, h.turnaround]
    by_cases hone : served σ k pid + 1 = w.runtime pid
    · obtain ⟨hnot, hinsert⟩ := done_succ_of_finish hσ hone
      have hcompletion : completion w.runtime σ pid = k + 1 := by
        refine completion_of_finish hlt ?_
        rw [hserved, if_pos rfl, hone]
      rw [if_pos (hlast.mpr hone), hinsert, Finset.sum_insert hnot, hcompletion, h.time,
        h.arrivaltime]
      push_cast
      ring
    · rw [if_neg (fun hrem => hone (hlast.mp hrem)), add_zero, done_succ_of_none]
      intro i hi
      obtain rfl : pid = i := Option.some.inj (hσ.symm.trans hi)
      omega

theorem Books.unfinished (h : Books w σ k s) {i : Pid} :
    (s.procCopy i).finished = false ↔ served σ k i < w.runtime i := by
  have hi := h.finished i
  cases hf : (s.procCopy i).finished with
  | true =>
    rw [hf] at hi
    have hle := hi.mp rfl
    exact ⟨fun heq => (nomatch heq), fun hlt => absurd hle (not_le.mpr hlt)⟩
  | false =>
    rw [hf] at hi
    exact ⟨fun _ => not_le.mp (fun hle => nomatch hi.mpr hle), fun _ => rfl⟩

variable {Inv : Globals → Table → ℤ → Prop}

/-- A round of a sound scheduler. -/
theorem Books.tick (hs : Sound func Inv) (h : Books w σ k s) (hinv : Inv s.globals s.procCopy k)
    (hσ : σ k = s.choice func) :
    Books w σ (k + 1) (s.tick func) ∧
      Inv (s.tick func).globals (s.tick func).procCopy (k + 1 : ℕ) := by
  have htime : ((k + 1 : ℕ) : ℤ) = s.currentTime + 1 := by
    rw [h.time]
    push_cast
    rfl
  rw [← h.time] at hinv
  rw [htime]
  obtain ⟨c, hc⟩ : ∃ c, s.choice func = c := ⟨_, rfl⟩
  cases c with
  | none =>
    have hnext := hs.next s.globals s.procCopy s.currentTime s.procCopy hinv
      ⟨fun _ => rfl, fun _ => rfl, fun _ _ => rfl⟩
    rw [tick_of_none hc]
    exact ⟨h.idle (hσ.trans hc), hnext⟩
  | some i =>
    have hready : s.Ready i := hs.ready s.globals s.procCopy s.currentTime i hinv hc
    have hpos : 0 < (s.procCopy i).remainingtime := by
      have hlt := h.unfinished.mp hready.2
      rw [h.remaining]
      omega
    rw [tick_of_some hc]
    have hran := runProcess_ranOnce
      { s with globals := (func s.globals s.procCopy s.currentTime).2 } hpos
    have hbooks : Books w σ k { s with globals := (func s.globals s.procCopy s.currentTime).2 } :=
      ⟨h.time, h.arrivaltime, h.priority, h.remaining, h.finished, h.served_le, h.numFinished,
        h.turnaround, h.noError⟩
    refine ⟨hbooks.ranOnce (hσ.trans hc) hready hran, ?_⟩
    rw [hran.globals]
    refine hs.next s.globals s.procCopy s.currentTime _ hinv
      ⟨hran.arrivaltime, hran.priority, fun l hl => ?_⟩
    rw [hran.finished, if_neg]
    rintro ⟨rfl, -⟩
    exact hl hc

theorem run_of_sound (hs : Sound func Inv) (w : Workload) (k : ℕ) :
    Books w (w.choices func) k (w.run func k) ∧
      Inv (w.run func k).globals (w.run func k).procCopy k := by
  induction k with
  | zero =>
    refine ⟨books_start w _, ?_⟩
    exact hs.start w.proc (fun i => ⟨Int.natCast_nonneg _, rfl⟩)
  | succ k ih => exact ih.1.tick hs ih.2 rfl

/-- The choices of a sound scheduler. -/
theorem feasible_of_sound (hs : Sound func Inv) (w : Workload) :
    Feasible w.arrivaltime w.runtime (w.choices func) ∧
      Busy w.arrivaltime w.runtime (w.choices func) := by
  refine ⟨⟨fun k i hi => ?_, fun k i hi => ?_⟩, fun k hnone i hi => ?_⟩ <;>
    obtain ⟨hbooks, hinv⟩ := run_of_sound hs w k <;>
    rw [Workload.choices, Simulation.choice, hbooks.time] at *
  · obtain ⟨harr, -⟩ := hs.ready _ _ _ _ hinv hi
    rw [hbooks.arrivaltime] at harr
    exact Int.ofNat_le.mp harr
  · exact hbooks.unfinished.mp (hs.ready _ _ _ _ hinv hi).2
  · refine (hbooks.finished i).mp (hs.idle _ _ _ _ hinv hnone ?_)
    rw [hbooks.arrivaltime]
    exact Int.ofNat_le.mpr hi

theorem valid_of_sound (hs : Sound func Inv) (w : Workload) :
    Valid w.arrivaltime w.runtime (w.choices func) :=
  (feasible_of_sound hs w).1.valid_of_busy (feasible_of_sound hs w).2

theorem loop_run (w : Workload) (func : SchedulerFunc) (m j : ℕ)
    (hrunning : ∀ i, j ≤ i → i < j + m → (w.run func i).numFinished < numProcesses)
    (hend : (w.run func (j + m)).numFinished = numProcesses) :
    (w.run func j).loop func m = some (w.run func (j + m)) := by
  induction m generalizing j with
  | zero => rw [Simulation.loop, if_neg (by rw [Nat.add_zero] at hend; omega), Nat.add_zero]
  | succ m ih =>
    have hshift : j + (m + 1) = j + 1 + m := by omega
    rw [hshift] at hrunning hend ⊢
    rw [Simulation.loop, if_pos (hrunning j le_rfl (by omega))]
    exact ih (j + 1) (fun i hi hlt => hrunning i (by omega) hlt) hend

/-- The loop ends after the first round in which all processes are finished. -/
theorem exists_end (hs : Sound func Inv) (w : Workload) :
    ∃ last, (w.start .start).loop func last = some (w.run func last) ∧
      ∀ i, served (w.choices func) last i = w.runtime i := by
  have hall : ∀ k, (w.run func k).numFinished = numProcesses ↔
      ∀ i, w.runtime i ≤ served (w.choices func) k i := by
    intro k
    rw [(run_of_sound hs w k).1.numFinished]
    constructor
    · intro hcard i
      have huniv := Finset.eq_univ_of_card (done w.runtime (w.choices func) k)
        (hcard.trans (Fintype.card_fin numProcesses).symm)
      exact mem_done.mp (huniv ▸ Finset.mem_univ i)
    · intro hdone
      have huniv : done w.runtime (w.choices func) k = Finset.univ :=
        Finset.eq_univ_of_forall (fun i => mem_done.mpr (hdone i))
      rw [huniv, Finset.card_univ, Fintype.card_fin]
  have hexists : ∃ k, (w.run func k).numFinished = numProcesses := by
    obtain ⟨k, hk⟩ := (valid_of_sound hs w).exists_last
    exact ⟨k, (hall k).mpr hk⟩
  refine ⟨Nat.find hexists, ?_, fun i => ?_⟩
  · have hle : ∀ k, (w.run func k).numFinished ≤ numProcesses := by
      intro k
      rw [(run_of_sound hs w k).1.numFinished]
      exact (Finset.card_le_univ _).trans (Fintype.card_fin numProcesses).le
    have hrun := loop_run w func (Nat.find hexists) 0
      (fun i _ hi => lt_of_le_of_ne (hle i) (Nat.find_min hexists (by omega)))
      (by rw [Nat.zero_add]; exact Nat.find_spec hexists)
    rw [Nat.zero_add] at hrun
    exact hrun
  · exact le_antisymm ((valid_of_sound hs w).served_le _ i)
      ((hall _).mp (Nat.find_spec hexists) i)

end Rounds

/-- What the comment over the schedulers asks for, over a whole simulation; the rounds after the
end of the loop are included. -/
structure Contract (w : Workload) (func : SchedulerFunc) : Prop where
  time : ∀ k, (w.run func k).currentTime = k
  ready : ∀ k i, w.choices func k = some i → (w.run func k).Ready i
  idle : ∀ k, w.choices func k = none ↔ ∀ i, ¬(w.run func k).Ready i
  noError : ∀ k pid, .ranFinished pid ∉ (w.run func k).printed
  quiet : ∀ k, (w.run func k).globals.Quiet
  arrived : ∀ k i, w.choices func k = some i → w.arrivaltime i ≤ k
  ends : ∃ last, (w.start .start).loop func last = some (w.run func last) ∧
    ∀ i, served (w.choices func) last i = w.runtime i

theorem contract_of_sound {func : SchedulerFunc} {Inv : Globals → Table → ℤ → Prop}
    (hs : Sound func Inv) (w : Workload) : Contract w func where
  time k := (run_of_sound hs w k).1.time
  ready k i hi := by
    obtain ⟨hbooks, hinv⟩ := run_of_sound hs w k
    rw [← hbooks.time] at hinv
    exact hs.ready _ _ _ i hinv hi
  idle k := by
    obtain ⟨hbooks, hinv⟩ := run_of_sound hs w k
    rw [← hbooks.time] at hinv
    constructor
    · intro hnone i hready
      have hfin := hs.idle _ _ _ i hinv hnone hready.1
      rw [hready.2] at hfin
      cases hfin
    · intro hnone
      cases hc : w.choices func k with
      | none => rfl
      | some i => exact absurd (hs.ready _ _ _ i hinv hc) (hnone i)
  noError k := (run_of_sound hs w k).1.noError
  quiet k := hs.quiet _ _ _ (run_of_sound hs w k).2
  arrived := (feasible_of_sound hs w).1.arrived
  ends := exists_end hs w

end CpreLabs.Lab4
