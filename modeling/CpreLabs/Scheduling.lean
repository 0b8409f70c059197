import CpreLabs.CircularQueue
import Mathlib.Data.List.FinRange
import Mathlib.Logic.Function.Basic

/-!
# The scheduling lab

The table of processes, the four schedulers with the queues and static variables they keep, and
the loop of `main` that calls one of them at every tick. No time or total comes near the limits of
an `int`, so they are integers without a bound here.
-/
namespace CpreLabs.Lab4

def numProcesses : ℕ := 20

abbrev numSchedulers : ℕ := 4

def numPriorities : ℕ := 3

theorem numProcesses_pos : 0 < numProcesses := by decide

instance : NeZero numProcesses := ⟨numProcesses_pos.ne'⟩

abbrev Pid := Fin numProcesses

structure Process where
  arrivaltime : ℤ
  starttime : ℤ
  runtime : ℤ
  remainingtime : ℤ
  endtime : ℤ
  priority : Fin numPriorities
  running : Bool
  finished : Bool

/-- The array `proc`. -/
structure Table where
  get : Pid → Process

instance : CoeFun Table (fun _ => Pid → Process) := ⟨Table.get⟩

/-- The queues, and the static variables of `round_robin`; `none` is the pid `-1`. -/
structure Globals where
  rrQueue : Queue Pid
  priorityQueue : Fin numPriorities → Queue Pid
  currentPid : Option Pid
  timeOnCpu : ℤ

/-- The scheduler's answer at time `t`, with what it leaves behind. -/
abbrev SchedulerFunc := Globals → Table → ℤ → Option Pid × Globals

/-- The scan for the least `key`; a later process has to be smaller. -/
def scanMin (key : Process → ℤ) (proc : Table) (t : ℤ) (minIndex : Option Pid) (i : Pid) :
    Option Pid :=
  if (proc i).arrivaltime ≤ t ∧ (proc i).finished = false then
    match minIndex with
    | none => some i
    | some m => if key (proc i) < key (proc m) then some i else some m
  else minIndex

def firstComeFirstServed : SchedulerFunc := fun g proc t =>
  ((List.finRange numProcesses).foldl (scanMin Process.arrivaltime proc t) none, g)

def shortestRemainingTime : SchedulerFunc := fun g proc t =>
  ((List.finRange numProcesses).foldl (scanMin Process.remainingtime proc t) none, g)

def quantum : ℤ := 50

def enqueueArrival (proc : Table) (t : ℤ) (g : Globals) (i : Pid) : Globals :=
  if (proc i).arrivaltime = t then { g with rrQueue := g.rrQueue.enqueue i } else g

/-- The process on the CPU leaves it when it has finished or used up its quantum. -/
def expireQuantum (proc : Table) (g : Globals) : Globals :=
  match g.currentPid with
  | none => g
  | some current =>
    let g := { g with timeOnCpu := g.timeOnCpu + 1 }
    if (proc current).finished ∨ g.timeOnCpu ≥ quantum then
      let g := if (proc current).finished then g
        else { g with rrQueue := g.rrQueue.enqueue current }
      { g with currentPid := none, timeOnCpu := 0 }
    else g

def roundRobin : SchedulerFunc := fun g proc t =>
  let g := (List.finRange numProcesses).foldl (enqueueArrival proc t) g
  let g := expireQuantum proc g
  match g.currentPid with
  | some current => (some current, g)
  | none =>
    if g.rrQueue.isEmpty then (none, g)
    else
      let (next, rrQueue) := g.rrQueue.dequeue
      (next, { g with rrQueue := rrQueue, currentPid := next, timeOnCpu := 0 })

def setPriorityQueue (g : Globals) (level : Fin numPriorities) (q : Queue Pid) : Globals :=
  { g with priorityQueue := Function.update g.priorityQueue level q }

def enqueueByPriority (proc : Table) (t : ℤ) (g : Globals) (i : Pid) : Globals :=
  let priority := (proc i).priority
  if (proc i).arrivaltime = t then
    setPriorityQueue g priority ((g.priorityQueue priority).enqueue i)
  else g

/-- The inner loop, which drops finished processes; each round takes one from the queue. -/
def serveLevel (proc : Table) : ℕ → Queue Pid → Option Pid × Queue Pid
  | 0, q => (none, q)
  | rounds + 1, q =>
    if q.isEmpty then (none, q)
    else match q.dequeue with
      | (none, q) => (none, q)
      | (some process, q) =>
        if (proc process).finished = false then (some process, q.enqueue process)
        else serveLevel proc rounds q

def serveLevels (proc : Table) : List (Fin numPriorities) → Globals → Option Pid × Globals
  | [], g => (none, g)
  | i :: levels, g =>
    match serveLevel proc (g.priorityQueue i).size.toNat (g.priorityQueue i) with
    | (some process, q) => (some process, setPriorityQueue g i q)
    | (none, q) => serveLevels proc levels (setPriorityQueue g i q)

def roundRobinPriority : SchedulerFunc := fun g proc t =>
  let g := (List.finRange numProcesses).foldl (enqueueByPriority proc t) g
  serveLevels proc (List.finRange numPriorities).reverse g

structure Scheduler where
  func : SchedulerFunc
  name : String

def schedulers : Fin numSchedulers → Scheduler
  | 0 => ⟨firstComeFirstServed, "First come first served"⟩
  | 1 => ⟨shortestRemainingTime, "Shortest remaining time"⟩
  | 2 => ⟨roundRobin, "Round robin"⟩
  | 3 => ⟨roundRobinPriority, "Round robin with priority"⟩

/-- What the loop prints, with the time and the process. -/
inductive Message where
  | started (t : ℤ) (pid : Pid)
  | finished (t : ℤ) (pid : Pid)
  | ranFinished (pid : Pid)

/-- The variables of `main` in the loop, with what the scheduler keeps. -/
structure Simulation where
  globals : Globals
  procCopy : Table
  numFinished : ℕ
  currentTime : ℤ
  prevPid : Option Pid
  totalTurnaroundTime : ℤ
  printed : List Message

namespace Table

def modify (proc : Table) (pid : Pid) (f : Process → Process) : Table :=
  ⟨Function.update proc.get pid (f (proc pid))⟩

def stopPrev (proc : Table) : Option Pid → Table
  | none => proc
  | some prev => proc.modify prev (fun p => { p with running := false })

def useTick (proc : Table) (pid : Pid) : Table :=
  proc.modify pid (fun p => { p with remainingtime := p.remainingtime - 1 })

def finish (proc : Table) (pid : Pid) (t : ℤ) : Table :=
  proc.modify pid (fun p => { p with endtime := t, finished := true })

end Table

/-- The table with the process on the CPU, before it has run. -/
def Simulation.dispatch (s : Simulation) (nextPid : Pid) : Table :=
  let proc :=
    if (s.procCopy nextPid).starttime = -1 then
      s.procCopy.modify nextPid (fun p => { p with starttime := s.currentTime })
    else s.procCopy
  (proc.stopPrev s.prevPid).modify nextPid (fun p => { p with running := true })

/-- The body of the loop from the first use of `p` on. -/
def Simulation.runProcess (s : Simulation) (nextPid : Pid) : Simulation :=
  let printed :=
    if (s.procCopy nextPid).starttime = -1 then s.printed ++ [.started s.currentTime nextPid]
    else s.printed
  let currentTime := s.currentTime + 1
  let proc := (s.dispatch nextPid).useTick nextPid
  let s := { s with
    procCopy := proc
    currentTime := currentTime
    prevPid := some nextPid
    printed := printed }
  if (proc nextPid).remainingtime < 0 then
    { s with printed := printed ++ [.ranFinished nextPid] }
  else if (proc nextPid).remainingtime = 0 then
    { s with
      procCopy := proc.finish nextPid currentTime
      numFinished := s.numFinished + 1
      totalTurnaroundTime :=
        s.totalTurnaroundTime + (currentTime - (proc nextPid).arrivaltime)
      printed := printed ++ [.finished currentTime nextPid] }
  else s

/-- One round of the loop. -/
def Simulation.tick (func : SchedulerFunc) (s : Simulation) : Simulation :=
  match func s.globals s.procCopy s.currentTime with
  | (none, g) => { s with globals := g, currentTime := s.currentTime + 1 }
  | (some nextPid, g) => { s with globals := g }.runProcess nextPid

/-- The loop, for at most `rounds` rounds; `none` if it has not ended by then. -/
def Simulation.loop (func : SchedulerFunc) : ℕ → Simulation → Option Simulation
  | 0, s => if s.numFinished < numProcesses then none else some s
  | rounds + 1, s =>
    if s.numFinished < numProcesses then loop func rounds (s.tick func) else some s

/-- What `main` draws for each process. -/
structure Workload where
  arrivaltime : Pid → ℕ
  runtime : Pid → ℕ
  priority : Pid → Fin numPriorities
  runtime_pos : ∀ i, 1 ≤ runtime i

def Workload.proc (w : Workload) : Table where
  get i := {
    arrivaltime := w.arrivaltime i
    starttime := -1
    runtime := w.runtime i
    remainingtime := w.runtime i
    endtime := -1
    priority := w.priority i
    running := false
    finished := false }

/-- Empty queues, and the initial values of the static variables. -/
def Globals.start : Globals :=
  let empty := (⟨fun _ => 0, 0, 0, 0, []⟩ : Queue Pid).initQueue
  ⟨empty, fun _ => empty, none, 0⟩

/-- The state in which `main` enters the loop. -/
def Workload.start (w : Workload) (g : Globals) : Simulation :=
  ⟨g, w.proc, 0, 0, none, 0, []⟩

end CpreLabs.Lab4
