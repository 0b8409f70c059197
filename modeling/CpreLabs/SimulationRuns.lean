import CpreLabs.PriorityRotation
import CpreLabs.SimulationTimes

/-!
# One simulation after another

The outer loop of `main` initializes the queues and copies the table before every run, and leaves
the static variables of `round_robin` as the run before did. The other schedulers do not look at
them.
-/
namespace CpreLabs.Lab4
open UnitTick Rotation

/-- The global variables, and the static ones of `round_robin`, when the program starts. -/
def Globals.boot : Globals :=
  let queue : Queue Pid := ⟨fun _ => 0, 0, 0, 0, []⟩
  ⟨queue, fun _ => queue, none, 0⟩

def Globals.initQueues (g : Globals) : Globals := { g with
  rrQueue := g.rrQueue.initQueue
  priorityQueue := fun j => (g.priorityQueue j).initQueue }

/-- The scheduler's answers in the rounds of the loop. -/
def Simulation.loopChoices (func : SchedulerFunc) : ℕ → Simulation → List (Option Pid)
  | 0, _ => []
  | rounds + 1, s =>
    if s.numFinished < numProcesses then
      s.choice func :: loopChoices func rounds (s.tick func)
    else []

/-- What a run makes of the table. -/
structure RunRecord where
  choices : List (Option Pid)
  starttime : Pid → ℤ
  endtime : Pid → ℤ
  totalTurnaroundTime : ℤ

def RunRecord.ofLoop (choices : List (Option Pid)) (s : Simulation) : RunRecord where
  choices := choices
  starttime i := (s.procCopy i).starttime
  endtime i := (s.procCopy i).endtime
  totalTurnaroundTime := s.totalTurnaroundTime

/-- The body of the outer loop of `main`, with what it leaves behind; `none` if the run does not end
in time. -/
def Workload.runScheduler (w : Workload) (rounds : ℕ) (g : Globals) (n : Fin numSchedulers) :
    Option (RunRecord × Globals) :=
  let func := (schedulers n).func
  let s := w.start g.initQueues
  (s.loop func rounds).map (fun s' => (.ofLoop (s.loopChoices func rounds) s', s'.globals))

def Workload.runSchedulers (w : Workload) (rounds : ℕ) :
    List (Fin numSchedulers) → Globals → Option (List RunRecord)
  | [], _ => some []
  | n :: ns, g =>
    match w.runScheduler rounds g n with
    | none => none
    | some (r, g) => (w.runSchedulers rounds ns g).map (r :: ·)

/-- Every run of the sequence makes of the table what it would make of it if it were the first. -/
def Workload.Independent (w : Workload) (ns : List (Fin numSchedulers)) : Prop :=
  ∃ rounds results, w.runSchedulers rounds ns .boot = some results ∧
    List.Forall₂ (fun n r => ∃ g, w.runScheduler rounds .boot n = some (r, g)) ns results

/-- The loop ends before round `last`. -/
structure EndsAt (w : Workload) (g : Globals) (func : SchedulerFunc) (last : ℕ) : Prop where
  before : ∀ k, k < last → (w.runFrom g func k).numFinished < numProcesses
  finished : numProcesses ≤ (w.runFrom g func last).numFinished

section Rounds

variable {w : Workload} {g g' : Globals} {func func' : SchedulerFunc} {last k : ℕ}

theorem EndsAt.loop (h : EndsAt w g func last) (rounds : ℕ) {j : ℕ} (hj : j ≤ last) :
    (w.runFrom g func j).loop func rounds =
      if last ≤ j + rounds then some (w.runFrom g func last) else none := by
  induction rounds generalizing j with
  | zero =>
    rw [Simulation.loop]
    rcases Nat.lt_or_eq_of_le hj with hlt | rfl
    · rw [if_pos (h.before j hlt), if_neg (by omega)]
    · rw [if_neg (not_lt.mpr h.finished), if_pos (by omega)]
  | succ rounds ih =>
    rw [Simulation.loop]
    rcases Nat.lt_or_eq_of_le hj with hlt | rfl
    · have hshift : j + 1 + rounds = j + (rounds + 1) := by omega
      rw [if_pos (h.before j hlt), ← hshift]
      exact ih hlt
    · rw [if_neg (not_lt.mpr h.finished), if_pos (by omega)]

theorem EndsAt.loopChoices (h : EndsAt w g func last) (rounds : ℕ) {j : ℕ} (hj : j ≤ last)
    (hlast : last ≤ j + rounds) : (w.runFrom g func j).loopChoices func rounds =
      (List.range' j (last - j)).map (fun k => (w.runFrom g func k).choice func) := by
  induction rounds generalizing j with
  | zero =>
    obtain rfl : j = last := by omega
    rw [Nat.sub_self]
    rfl
  | succ rounds ih =>
    rw [Simulation.loopChoices]
    rcases Nat.lt_or_eq_of_le hj with hlt | rfl
    · have hleft : last - j = last - (j + 1) + 1 := by omega
      rw [if_pos (h.before j hlt), hleft, List.range'_succ, List.map_cons,
        ← ih hlt (by omega)]
      rfl
    · rw [if_neg (not_lt.mpr h.finished), Nat.sub_self]
      rfl

/-- Also in a run that goes on the choices are those of its first rounds. -/
theorem loopChoices_prefix (w : Workload) (g : Globals) (func : SchedulerFunc) (rounds j : ℕ) :
    ∃ n, (w.runFrom g func j).loopChoices func rounds =
      (List.range' j n).map (fun k => (w.runFrom g func k).choice func) := by
  induction rounds generalizing j with
  | zero => exact ⟨0, rfl⟩
  | succ rounds ih =>
    rw [Simulation.loopChoices]
    split
    · obtain ⟨n, hn⟩ := ih (j + 1)
      refine ⟨n + 1, ?_⟩
      rw [List.range'_succ, List.map_cons, ← hn]
      rfl
    · exact ⟨0, rfl⟩

theorem EndsAt.congr (h : EndsAt w g func last) (hagree : ∀ k, k < last →
    (w.runFrom g' func' k).choice func' = (w.runFrom g func k).choice func) :
    EndsAt w g' func' last := by
  have hnum : ∀ k, k ≤ last →
      (w.runFrom g' func' k).numFinished = (w.runFrom g func k).numFinished := by
    intro k hk
    have hledger := ledger_congr (fun j hj => hagree j (hj.trans_le hk))
    exact (Simulation.fields_of_ledger hledger).2.1
  refine ⟨fun k hk => ?_, ?_⟩
  · rw [hnum k hk.le]
    exact h.before k hk
  · rw [hnum last le_rfl]
    exact h.finished

theorem exists_endsAt (w : Workload) (n : Fin numSchedulers) :
    ∃ last, EndsAt w .start (schedulers n).func last := by
  obtain ⟨Inv, hsound⟩ := schedulers_sound n
  obtain ⟨rounds, hloop, -⟩ := (contract_of_sound hsound w).ends
  have hrun : (w.run (schedulers n).func 0).loop _ rounds = some _ := hloop
  obtain ⟨last, -, hfinished, hbefore⟩ := run_of_loop rounds 0 hrun
  simp only [run_eq_runFrom] at hfinished hbefore
  exact ⟨last, fun k hk => hbefore k (Nat.zero_le k) hk, hfinished⟩

end Rounds

/-- What the scheduler makes of the table when it runs first. -/
def Workload.firstRun (w : Workload) (n : Fin numSchedulers) (last : ℕ) : RunRecord :=
  .ofLoop ((List.range last).map (w.choices (schedulers n).func)) (w.run (schedulers n).func last)

section Agreement

variable {w : Workload} {g g' : Globals} {n : Fin numSchedulers} {last rounds : ℕ}

theorem runScheduler_of_agree (rounds : ℕ) (h : EndsAt w .start (schedulers n).func last)
    (hagree : ∀ k, k < last → (w.runFrom g.initQueues (schedulers n).func k).choice
      (schedulers n).func = w.choices (schedulers n).func k) :
    w.runScheduler rounds g n = if last ≤ rounds then
      some (w.firstRun n last, (w.runFrom g.initQueues (schedulers n).func last).globals)
    else none := by
  have hsame : ∀ k, k < last → (w.runFrom g.initQueues (schedulers n).func k).choice
      (schedulers n).func = (w.runFrom .start (schedulers n).func k).choice (schedulers n).func := by
    intro k hk
    rw [hagree k hk, Workload.choices, run_eq_runFrom]
  have hends := h.congr hsame
  have hloop := hends.loop rounds (Nat.zero_le last)
  rw [Nat.zero_add] at hloop
  rw [Workload.runScheduler]
  change Option.map _ ((w.runFrom g.initQueues (schedulers n).func 0).loop _ rounds) = _
  rw [hloop]
  by_cases hrounds : last ≤ rounds
  · rw [if_pos hrounds, if_pos hrounds, Option.map_some]
    have hchoices := hends.loopChoices rounds (Nat.zero_le last) (by omega)
    rw [Nat.sub_zero, ← List.range_eq_range'] at hchoices
    have hlist : (w.start g.initQueues).loopChoices (schedulers n).func rounds =
        (List.range last).map (w.choices (schedulers n).func) := by
      refine hchoices.trans (List.map_congr_left (fun k hk => hagree k ?_))
      exact List.mem_range.mp hk
    have hledger := ledger_congr hsame
    rw [← run_eq_runFrom] at hledger
    obtain ⟨hproc, -, -, htotal⟩ := Simulation.fields_of_ledger hledger
    rw [hlist, Workload.firstRun, RunRecord.ofLoop, RunRecord.ofLoop, hproc, htotal]
  · rw [if_neg hrounds, if_neg hrounds, Option.map_none]

theorem agree_of_runScheduler (hrun : w.runScheduler rounds g n = some (w.firstRun n last, g'))
    {k : ℕ} (hk : k < last) : (w.runFrom g.initQueues (schedulers n).func k).choice
      (schedulers n).func = w.choices (schedulers n).func k := by
  rw [Workload.runScheduler, Option.map_eq_some_iff] at hrun
  obtain ⟨s', -, hrecord⟩ := hrun
  have hchoices : (w.start g.initQueues).loopChoices (schedulers n).func rounds =
      (List.range last).map (w.choices (schedulers n).func) :=
    congrArg (fun r => r.1.choices) hrecord
  obtain ⟨m, hm⟩ := loopChoices_prefix w g.initQueues (schedulers n).func rounds 0
  have hlist := hm.symm.trans hchoices
  have hlength := congrArg List.length hlist
  rw [List.length_map, List.length_map, List.length_range', List.length_range] at hlength
  rw [hlength, ← List.range_eq_range', List.map_inj_left] at hlist
  exact hlist k (List.mem_range.mpr hk)

theorem runScheduler_boot (h : EndsAt w .start (schedulers n).func last) (rounds : ℕ) :
    w.runScheduler rounds .boot n = if last ≤ rounds then
      some (w.firstRun n last, (w.run (schedulers n).func last).globals)
    else none := by
  have hboot : Globals.boot.initQueues = .start := rfl
  rw [runScheduler_of_agree rounds h, hboot, run_eq_runFrom]
  intro k _
  rw [hboot, Workload.choices, run_eq_runFrom]

end Agreement

section Keeps

variable {w : Workload} {g : Globals} {func : SchedulerFunc} {R : ℕ → Globals → Prop} {k : ℕ}

/-- As long as the choices agree, what the scheduler keeps follows the table of the first run. -/
theorem runFrom_follows (hcontract : Contract w func) (hstart : R 0 g)
    (hnext : ∀ k g, R k g → R (k + 1) (func g (w.run func k).procCopy k).2)
    (hagree : ∀ j, j < k → (w.runFrom g func j).choice func = w.choices func j) :
    R k (w.runFrom g func k).globals ∧ (w.runFrom g func k).choice func =
      (func (w.runFrom g func k).globals (w.run func k).procCopy k).1 := by
  have hsame : ∀ j, j ≤ k → (w.runFrom g func j).procCopy = (w.run func j).procCopy ∧
      (w.runFrom g func j).currentTime = j := by
    intro j hj
    have hledger : (w.runFrom g func j).ledger = (w.runFrom .start func j).ledger := by
      apply ledger_congr
      intro i hi
      rw [hagree i (hi.trans_le hj), Workload.choices, run_eq_runFrom]
    rw [← run_eq_runFrom] at hledger
    obtain ⟨hproc, -, htime, -⟩ := Simulation.fields_of_ledger hledger
    exact ⟨hproc, htime.trans (hcontract.time j)⟩
  refine ⟨?_, ?_⟩
  · induction k with
    | zero => exact hstart
    | succ k ih =>
      obtain ⟨hproc, htime⟩ := hsame k (Nat.le_succ k)
      rw [Workload.runFrom, tick_globals, hproc, htime]
      exact hnext k _ (ih (fun j hj => hagree j (Nat.lt_succ_of_lt hj))
        (fun j hj => hsame j (Nat.le_succ_of_le hj)))
  · rw [Simulation.choice, (hsame k le_rfl).1, (hsame k le_rfl).2]

/-- If what the scheduler keeps decides its answers, they are those of the first run. -/
theorem runFrom_agrees (hcontract : Contract w func) (hstart : R 0 g)
    (hnext : ∀ k g, R k g → R (k + 1) (func g (w.run func k).procCopy k).2)
    (hchoice : ∀ k g, R k g → (func g (w.run func k).procCopy k).1 = w.choices func k) (k : ℕ) :
    (w.runFrom g func k).choice func = w.choices func k ∧ R k (w.runFrom g func k).globals := by
  induction k using Nat.strong_induction_on with
  | h k ih =>
    obtain ⟨hkeeps, hanswer⟩ :=
      runFrom_follows hcontract hstart hnext (k := k) (fun j hj => (ih j hj).1)
    exact ⟨hanswer.trans (hchoice k _ hkeeps), hkeeps⟩

theorem scan_agrees (hcontract : Contract w func) {key : Process → ℤ}
    (hfunc : ∀ g proc t,
      func g proc t = ((List.finRange numProcesses).foldl (scanMin key proc t) none, g)) (k : ℕ) :
    (w.runFrom g func k).choice func = w.choices func k ∧ (w.runFrom g func k).globals = g := by
  apply runFrom_agrees hcontract (R := fun _ g' => g' = g) rfl
  · rintro k g' rfl
    rw [hfunc]
  · rintro k g' rfl
    rw [Workload.choices, Simulation.choice, hcontract.time, hfunc, hfunc]

theorem serveLevels_others (proc : Table) (levels : List (Fin numPriorities)) (g : Globals) :
    ∃ queues, (serveLevels proc levels g).2 = { g with priorityQueue := queues } := by
  induction levels generalizing g with
  | nil => exact ⟨_, rfl⟩
  | cons level levels ih =>
    rw [serveLevels]
    split
    · exact ⟨_, rfl⟩
    · obtain ⟨queues, hrest⟩ := ih (setPriorityQueue g level _)
      exact ⟨queues, hrest⟩

theorem roundRobinPriority_others (g : Globals) (proc : Table) (t : ℤ) :
    ∃ queues, (roundRobinPriority g proc t).2 = { g with priorityQueue := queues } := by
  obtain ⟨queues, harrivals⟩ :=
    arrivalsByPriority_others proc t (List.finRange numProcesses) g
  rw [roundRobinPriority]
  simp only [harrivals]
  obtain ⟨queues', hserve⟩ := serveLevels_others proc (List.finRange numPriorities).reverse
    { g with priorityQueue := queues }
  exact ⟨queues', hserve⟩

/-- `round_robin_priority` finds the queues empty, and does not look at the rest. -/
theorem roundRobinPriority_agrees (w : Workload)
    (hempty : ∀ level, (g.priorityQueue level).Holds []) (k : ℕ) :
    (w.runFrom g roundRobinPriority k).choice roundRobinPriority =
        w.choices roundRobinPriority k ∧
      (∀ level, ((w.runFrom g roundRobinPriority k).globals.priorityQueue level).Holds
        (w.levels k level)) ∧
      ∃ queues, (w.runFrom g roundRobinPriority k).globals =
        { g with priorityQueue := queues } := by
  have hroom : ∀ k level, (w.levels k level).length + numProcesses ≤ maxQueueSize := by
    intro k level
    have hnodup := (List.nodup_append.mp (levels_nodup w k level)).1
    have hlen := hnodup.length_le_card
    rw [Fintype.card_fin] at hlen
    exact (Nat.add_le_add_right hlen _).trans (by decide)
  apply runFrom_agrees (contract_of_sound sound_roundRobinPriority w) (R := fun k g' =>
    (∀ level, (g'.priorityQueue level).Holds (w.levels k level)) ∧
      ∃ queues, g' = { g with priorityQueue := queues })
  · exact ⟨hempty, g.priorityQueue, rfl⟩
  · rintro k g' ⟨hholds, queues, rfl⟩
    obtain ⟨queues', hothers⟩ := roundRobinPriority_others { g with priorityQueue := queues }
      (w.run roundRobinPriority k).procCopy k
    have hnext := (roundRobinPriority_lists hholds (hroom k)
      (w.run roundRobinPriority k).procCopy k).2
    exact ⟨hnext, queues', hothers⟩
  · rintro k g' ⟨hholds, -⟩
    have hanswer := (roundRobinPriority_lists hholds (hroom k)
      (w.run roundRobinPriority k).procCopy k).1
    exact hanswer.trans (levels_choice w k).symm

end Keeps

theorem others_agree (w : Workload) (g : Globals) {n : Fin numSchedulers} (hn : n ≠ 2) (k : ℕ) :
    (w.runFrom g.initQueues (schedulers n).func k).choice (schedulers n).func =
        w.choices (schedulers n).func k ∧
      (w.runFrom g.initQueues (schedulers n).func k).globals.currentPid = g.currentPid ∧
      (w.runFrom g.initQueues (schedulers n).func k).globals.timeOnCpu = g.timeOnCpu := by
  match n with
  | 0 =>
    obtain ⟨hagree, hsame⟩ := scan_agrees (g := g.initQueues)
      (contract_of_sound sound_firstComeFirstServed w) (fun _ _ _ => rfl) k
    exact ⟨hagree, (congrArg Globals.currentPid hsame).trans rfl,
      (congrArg Globals.timeOnCpu hsame).trans rfl⟩
  | 1 =>
    obtain ⟨hagree, hsame⟩ := scan_agrees (g := g.initQueues)
      (contract_of_sound sound_shortestRemainingTime w) (fun _ _ _ => rfl) k
    exact ⟨hagree, (congrArg Globals.currentPid hsame).trans rfl,
      (congrArg Globals.timeOnCpu hsame).trans rfl⟩
  | 2 => exact absurd rfl hn
  | 3 =>
    obtain ⟨hagree, -, queues, hothers⟩ := roundRobinPriority_agrees (g := g.initQueues) w
      (fun level => Queue.holds_initQueue _) k
    exact ⟨hagree, (congrArg Globals.currentPid hothers).trans rfl,
      (congrArg Globals.timeOnCpu hothers).trans rfl⟩

end CpreLabs.Lab4
