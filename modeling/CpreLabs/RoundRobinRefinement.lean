import CpreLabs.SchedulersSound
import CpreLabs.TurnSchedules

/-!
# `round_robin` takes the turns of a round-robin queue

The circular queue and the two static variables show the state of the queue of turns, and every
call of `round_robin` is one tick of it.
-/
namespace CpreLabs.Lab4
open UnitTick RoundRobin

/-- What `round_robin` keeps shows the state. -/
structure Shows (g : Globals) (s : Turn Pid) : Prop where
  holds : g.rrQueue.Holds s.queue
  current : g.currentPid = s.current
  time : g.timeOnCpu = (s.running.elim 0 Prod.snd : ℕ)

/-- The processes that `round_robin` enqueues at time `t`. -/
def Table.arrivals (proc : Table) (t : ℤ) : List Pid :=
  (List.finRange numProcesses).filter (fun i => (proc i).arrivaltime = t)

theorem arrivals_length_le (proc : Table) (t : ℤ) : (proc.arrivals t).length ≤ numProcesses :=
  (List.length_filter_le _ _).trans_eq List.length_finRange

section Call

variable {g g₂ : Globals} {s : Turn Pid} {proc : Table} {t : ℤ} {l : List Pid}

theorem shows_serveFirst
    (hg₂ : expireQuantum proc ((List.finRange numProcesses).foldl (enqueueArrival proc t) g) = g₂)
    (hholds : g₂.rrQueue.Holds l) (hcurrent : g₂.currentPid = none) (htime : g₂.timeOnCpu = 0) :
    Shows (roundRobin g proc t).2 (serveFirst l) ∧
      (roundRobin g proc t).1 = (serveFirst l).current := by
  simp only [roundRobin, hg₂, hcurrent]
  cases l with
  | nil =>
    rw [if_pos (hholds.isEmpty_iff.mpr rfl)]
    exact ⟨⟨hholds, hcurrent, htime⟩, rfl⟩
  | cons next l =>
    obtain ⟨hfirst, hrest, -⟩ := hholds.dequeue
    have hnot : ¬g₂.rrQueue.isEmpty = true := fun hempty => by
      cases hholds.isEmpty_iff.mp hempty
    rw [if_neg hnot, hfirst]
    exact ⟨⟨hrest, rfl, rfl⟩, rfl⟩

theorem Shows.roundRobin (h : Shows g s) (hroom : s.queue.length + numProcesses < maxQueueSize)
    (proc : Table) (t : ℤ) :
    Shows (Lab4.roundRobin g proc t).2
        (s.next 50 proc.hasFinished (proc.arrivals t)) ∧
      (Lab4.roundRobin g proc t).1 =
        (s.next 50 proc.hasFinished (proc.arrivals t)).current := by
  obtain ⟨queue, running⟩ := s
  obtain ⟨q, hfold, hholds, -⟩ := arrivals_foldl proc t (List.finRange numProcesses) h.holds
    (by rw [List.length_finRange]; exact hroom.le)
  have hexpire : expireQuantum proc
      ((List.finRange numProcesses).foldl (enqueueArrival proc t) g) =
        expireQuantum proc { g with rrQueue := q } := by
    rw [hfold]
  change q.Holds (queue ++ proc.arrivals t) at hholds
  cases running with
  | none =>
    have hcurrent : g.currentPid = none := h.current
    have hsame := expireQuantum_of_none (g := { g with rrQueue := q }) proc hcurrent
    exact shows_serveFirst (hexpire.trans hsame) hholds hcurrent h.time
  | some r =>
    obtain ⟨c, used⟩ := r
    have hcurrent : g.currentPid = some c := h.current
    have htime : g.timeOnCpu = used := h.time
    have hleave := expireQuantum_of_some (g := { g with rrQueue := q }) proc hcurrent
    have hquantum : quantum = (50 : ℕ) := rfl
    have hbool : proc.hasFinished c = (proc c).finished := rfl
    cases hfin : (proc c).finished with
    | true =>
      rw [hfin, if_pos (Or.inl rfl), if_pos rfl] at hleave
      rw [next_of_finished (hbool.trans hfin)]
      exact shows_serveFirst (hexpire.trans hleave) hholds rfl rfl
    | false =>
      by_cases hlt : used + 1 < 50
      · have hnot : ¬g.timeOnCpu + 1 ≥ quantum := by omega
        rw [hfin, if_neg (fun hor => hor.elim Bool.false_ne_true hnot)] at hleave
        rw [next_of_keep (hbool.trans hfin) hlt]
        simp only [Lab4.roundRobin, hexpire.trans hleave, hcurrent]
        refine ⟨⟨hholds, rfl, ?_⟩, rfl⟩
        rw [htime]
        rfl
      · have hge : g.timeOnCpu + 1 ≥ quantum := by omega
        have hlen : (queue ++ proc.arrivals t).length < maxQueueSize := by
          rw [List.length_append]
          exact (Nat.add_le_add_left (arrivals_length_le proc t) _).trans_lt hroom
        rw [hfin, if_pos (Or.inr hge), if_neg Bool.false_ne_true] at hleave
        rw [next_of_expired (hbool.trans hfin) (not_lt.mp hlt)]
        exact shows_serveFirst (hexpire.trans hleave) (hholds.enqueue hlen c).1 rfl rfl

end Call

/-- The states of the queue of turns in the simulation of `round_robin`. -/
def Workload.turns (w : Workload) : ℕ → Turn Pid
  | 0 => ⟨[], none⟩
  | k + 1 => (w.turns k).next 50 (w.run roundRobin k).procCopy.hasFinished
      ((w.run roundRobin k).procCopy.arrivals k)

theorem shows_start : Shows .start ⟨[], none⟩ := ⟨Queue.holds_initQueue _, rfl, rfl⟩

theorem shows_turns (w : Workload) (k : ℕ) :
    Shows (w.run roundRobin k).globals (w.turns k) ∧
      (w.choices roundRobin k) = (w.turns (k + 1)).current ∧
      Shared (w.run roundRobin k).Ready (w.turns (k + 1)).queue (w.turns (k + 1)).current := by
  have hstep : ∀ k, Shows (w.run roundRobin k).globals (w.turns k) →
      Shows (w.run roundRobin (k + 1)).globals (w.turns (k + 1)) ∧
        (w.choices roundRobin k) = (w.turns (k + 1)).current ∧
        Shared (w.run roundRobin k).Ready (w.turns (k + 1)).queue (w.turns (k + 1)).current := by
    intro k hshows
    obtain ⟨hbooks, l, hwaiting⟩ := run_of_sound sound_roundRobin w k
    obtain ⟨l', hassigned, -⟩ := hwaiting.roundRobin
    have hqueue : (w.turns k).queue = l := hshows.holds.unique hwaiting.holds
    have hroom : (w.turns k).queue.length + numProcesses < maxQueueSize := by
      rw [hqueue]
      exact (Nat.add_le_add_right hwaiting.shared.length_le _).trans_lt (by decide)
    obtain ⟨hnext, hchoice⟩ := hshows.roundRobin hroom (w.run roundRobin k).procCopy k
    have hqueue' : (w.turns (k + 1)).queue = l' := hnext.holds.unique hassigned.holds
    refine ⟨?_, ?_, ?_⟩
    · rw [Workload.run, tick_globals, hbooks.time]
      exact hnext
    · rw [Workload.choices, Simulation.choice, hbooks.time]
      exact hchoice
    · have hshared := hassigned.shared
      rw [hnext.current, ← hqueue'] at hshared
      have hready : (w.run roundRobin k).Ready = ReadyAt (w.run roundRobin k).procCopy k := by
        funext i
        rw [Simulation.Ready, ReadyAt, hbooks.time]
      rw [hready]
      exact hshared
  induction k with
  | zero => exact ⟨shows_start, (hstep 0 shows_start).2⟩
  | succ k ih => exact ⟨(hstep k ih.1).1, (hstep (k + 1) (hstep k ih.1).1).2⟩

/-- The simulation of `round_robin` is a run of the queue of turns. -/
theorem run_turns (w : Workload) :
    Run 50 (fun k => (w.run roundRobin k).procCopy.hasFinished)
      (fun k => (w.run roundRobin k).procCopy.arrivals k) (w.choices roundRobin) w.turns :=
  ⟨fun _ => rfl, fun k => (shows_turns w k).2.1⟩

/-- The processes that arrive at time `k`. -/
def Workload.joining (w : Workload) (k : ℕ) : List Pid :=
  (List.finRange numProcesses).filter (fun i => w.arrivaltime i = k)

theorem hasFinished_run (w : Workload) (k : ℕ) :
    (w.run roundRobin k).procCopy.hasFinished =
      finishedBy w.runtime (w.choices roundRobin) k := by
  funext i
  rw [Bool.eq_iff_iff, finishedBy_eq_true]
  exact (run_of_sound sound_roundRobin w k).1.finished i

theorem arrivals_run (w : Workload) (k : ℕ) :
    (w.run roundRobin k).procCopy.arrivals k = w.joining k := by
  rw [Table.arrivals, Workload.joining]
  congr 1
  funext i
  rw [(run_of_sound sound_roundRobin w k).1.arrivaltime]
  exact decide_eq_decide.mpr Int.ofNat_inj

/-- The simulation of `round_robin` runs the processes by turns. -/
theorem schedule_turns (w : Workload) :
    Schedule 50 w.arrivaltime w.runtime w.joining (w.choices roundRobin) w.turns := by
  obtain ⟨hfeasible, hbusy⟩ := feasible_of_sound sound_roundRobin w
  have hbooks : ∀ k, Books w (w.choices roundRobin) k (w.run roundRobin k) :=
    fun k => (run_of_sound sound_roundRobin w k).1
  have hrun := run_turns w
  rw [funext (hasFinished_run w), funext (arrivals_run w)] at hrun
  have hshared : ∀ k, Shared (w.run roundRobin k).Ready (w.turns (k + 1)).queue
      (w.choices roundRobin k) := by
    intro k
    rw [(shows_turns w k).2.1]
    exact (shows_turns w k).2.2
  have hready : ∀ k i, (w.run roundRobin k).Ready i ↔
      w.arrivaltime i ≤ k ∧ served (w.choices roundRobin) k i < w.runtime i := by
    intro k i
    rw [Simulation.Ready, (hbooks k).arrivaltime, (hbooks k).time, Int.ofNat_le,
      (hbooks k).unfinished]
  refine ⟨hrun, hfeasible, hbusy, rfl, fun k i => ?_, fun k => ?_, fun k => (hshared k).nodup,
    fun k => (hshared k).apart, fun k i hi => (hready k i).mp ((hshared k).mem i hi),
    fun k i harr hlt => (hshared k).all i ((hready k i).mpr ⟨harr, hlt⟩)⟩
  · rw [Workload.joining, List.mem_filter, decide_eq_true_eq]
    exact ⟨fun h => h.2, fun h => ⟨List.mem_finRange i, h⟩⟩
  · exact (List.pairwise_lt_finRange numProcesses).filter _

end CpreLabs.Lab4
