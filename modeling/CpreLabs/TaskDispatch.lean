import CpreLabs.PthreadCounting
import CpreLabs.PthreadCompletion

/-!
# The task dispatcher of `ex1_missing_signal.c`

`dispatch_task`, called by `main` for one task after another, and `worker`, run by any number of
threads, with one program point per statement. The lines they print are part of the shared
state. Replayed on a stack, they say what the queue hands out: each worker takes the task that
was enqueued last of those still there.
-/
namespace CpreLabs.TaskDispatch
open Pthread

/-- `MAX_TASKS` -/
def maxTasks : ℕ := 5

inductive Line where
  | enqueued (task : String) (size : ℤ)
  | waiting
  | processing (task : Option String)

/-- `TaskQueue` without its mutex and condition variable, and the output. An entry of `tasks` is
`none` until it is written. -/
structure Shared where
  tasks : Fin maxTasks → Option String
  count : ℤ
  output : List Line

inductive Cond where
  | hasTask
  deriving DecidableEq

/-- The points of `main` and `dispatch_task`, with the tasks that follow, and of `worker`. `main`
is at `exited` when it has printed that all is done, and at `overrun` when it has written behind
the array: what the program does after that is not defined. -/
inductive Pc where
  | dispatch (tasks : List String)
  | store (task : String) (rest : List String)
  | overrun (task : String) (rest : List String)
  | increment (task : String) (rest : List String)
  | report (task : String) (rest : List String)
  | signal (rest : List String)
  | unlock (rest : List String)
  | join (i : ℕ)
  | exited
  | wkLock
  | wkTest
  | wkPrintWait
  | wkWait
  | wkDecrement
  | wkTask
  | wkPrint (task : Option String)
  | wkUnlock
  | wkReturn

/-- An entry of the array. -/
def entry (tasks : Fin maxTasks → Option String) (i : ℤ) : Option String :=
  if h : 0 ≤ i ∧ i < maxTasks then tasks ⟨i.toNat, by omega⟩ else none

/-- `q->tasks[q->count] = task;`, if that is an entry of the array. -/
def storeTask (task : String) (q : Shared) : Option Shared :=
  if h : 0 ≤ q.count ∧ q.count < maxTasks then
    some { q with tasks := Function.update q.tasks ⟨q.count.toNat, by omega⟩ (some task) }
  else none

def print (line : Line) (q : Shared) : Shared := { q with output := q.output ++ [line] }

abbrev Thread (n : ℕ) := Option (Fin n)

def mainInstr (n : ℕ) : Pc → Instr (Thread n) Cond Pc Shared
  | .dispatch [] => .exec fun q => (.join 0, q)
  | .dispatch (task :: rest) => .lock (.store task rest)
  | .store task rest => .exec fun q => match storeTask task q with
      | some q' => (.increment task rest, q')
      | none => (.overrun task rest, q)
  | .overrun _ _ => .choose fun _ => false
  | .increment task rest => .exec fun q => (.report task rest, { q with count := q.count + 1 })
  | .report task rest => .exec fun q => (.signal rest, print (.enqueued task q.count) q)
  | .signal rest => .signal .hasTask (.unlock rest)
  | .unlock rest => .unlock (.dispatch rest)
  | .join i =>
      if h : i < n then .join (some ⟨i, h⟩) (.join (i + 1))
      else .exec fun q => (.exited, q)
  | .exited => .halt
  | _ => .choose fun _ => false

def workerInstr (n : ℕ) : Pc → Instr (Thread n) Cond Pc Shared
  | .wkLock => .lock .wkTest
  | .wkTest => .exec fun q => (if q.count = 0 then .wkPrintWait else .wkDecrement, q)
  | .wkPrintWait => .exec fun q => (.wkWait, print .waiting q)
  | .wkWait => .wait .hasTask .wkTest
  | .wkDecrement => .exec fun q => (.wkTask, { q with count := q.count - 1 })
  | .wkTask => .exec fun q => (.wkPrint (entry q.tasks q.count), q)
  | .wkPrint task => .exec fun q => (.wkUnlock, print (.processing task) q)
  | .wkUnlock => .unlock .wkReturn
  | .wkReturn => .halt
  | _ => .choose fun _ => false

def program (n : ℕ) : Program (Thread n) Cond Pc Shared Empty where
  instr
    | none => mainInstr n
    | some _ => workerInstr n
  env e _ := e.elim

/-- After `queue_init` and the creation of `n` workers, with the tasks to dispatch. -/
def start (n : ℕ) (tasks : List String) : Config (Thread n) Cond Pc Shared where
  owner := none
  status
    | none => .running (.dispatch tasks)
    | some _ => .running .wkLock
  shared := ⟨fun _ => none, 0, []⟩

def inside : Pc → Bool
  | .store _ _ | .overrun _ _ | .increment _ _ | .report _ _ | .signal _ | .unlock _ => true
  | .wkTest | .wkPrintWait | .wkWait | .wkDecrement | .wkTask | .wkPrint _ | .wkUnlock => true
  | _ => false

theorem bracketed (n : ℕ) : (program n).Bracketed inside := by
  intro t l
  cases t with
  | none =>
    cases l with
    | dispatch tasks => cases tasks <;> simp [program, mainInstr, Instr.Bracketed, inside]
    | store task rest =>
      intro q
      dsimp only
      split <;> rfl
    | join i =>
      simp only [program, mainInstr]
      split <;> simp [Instr.Bracketed, inside]
    | _ => simp [program, mainInstr, Instr.Bracketed, inside]
  | some w =>
    cases l with
    | wkTest =>
      intro q
      dsimp only
      split <;> rfl
    | _ => simp [program, workerInstr, Instr.Bracketed, inside]

theorem owned_start (n : ℕ) (tasks : List String) : Owned inside (start n tasks) := by
  intro t
  cases t <;> simp [start, Status.Agrees, inside]

/-- What a printed line does to a stack of tasks, its top first. -/
def Line.act (stack : List String) : Line → Option (List String)
  | .enqueued task size => if size = stack.length + 1 then some (task :: stack) else none
  | .waiting => if stack = [] then some stack else none
  | .processing task => match stack with
    | [] => none
    | top :: rest => if task = some top then some rest else none

/-- The stack after the printed lines, if they are those of a stack. -/
def replay (output : List Line) : Option (List String) := output.foldlM Line.act []

def enqueued (output : List Line) : List String :=
  output.filterMap fun
    | .enqueued task _ => some task
    | _ => none

def processed (output : List Line) : List (Option String) :=
  output.filterMap fun
    | .processing task => some task
    | _ => none

theorem replay_print (output : List Line) (line : Line) :
    replay (output ++ [line]) = (replay output).bind (Line.act · line) := by
  simp [replay, List.foldlM_append]

@[simp] theorem enqueued_print (line : Line) (q : Shared) :
    enqueued (print line q).output = enqueued q.output ++ enqueued [line] := by
  simp [print, enqueued]

@[simp] theorem processed_print (line : Line) (q : Shared) :
    processed (print line q).output = processed q.output ++ processed [line] := by
  simp [print, processed]

/-- What was enqueued has been processed or is on the stack. -/
theorem perm_of_replay {output : List Line} {stack : List String}
    (h : replay output = some stack) :
    (processed output ++ stack.map some).Perm ((enqueued output).map some) := by
  induction output using List.reverseRecOn generalizing stack with
  | nil =>
    cases h
    exact .refl _
  | append_singleton output line ih =>
    rw [replay_print] at h
    obtain ⟨before, hbefore, hline⟩ := Option.bind_eq_some_iff.mp h
    have hperm := ih hbefore
    cases line with
    | enqueued task size =>
      obtain ⟨-, hstack⟩ := Option.ite_none_right_eq_some.mp hline
      cases hstack
      have hnew := List.perm_append_singleton (some task) ((enqueued output).map some)
      have hmiddle : (processed output ++ some task :: before.map some).Perm
          (some task :: (processed output ++ before.map some)) := List.perm_middle
      simpa [processed, enqueued] using hmiddle.trans ((hperm.cons (some task)).trans hnew.symm)
    | waiting =>
      obtain ⟨-, hstack⟩ := Option.ite_none_right_eq_some.mp hline
      cases hstack
      simpa [processed, enqueued] using hperm
    | processing task =>
      cases before with
      | nil => cases hline
      | cons top rest =>
        obtain ⟨htop, hstack⟩ := Option.ite_none_right_eq_some.mp hline
        cases hstack
        simpa [processed, enqueued, htop] using hperm

theorem entry_update_self (tasks : Fin maxTasks → Option String) (j : Fin maxTasks)
    (task : Option String) : entry (Function.update tasks j task) j = task := by
  have hj : (0 : ℤ) ≤ j ∧ (j : ℤ) < maxTasks := ⟨Int.natCast_nonneg _, by exact_mod_cast j.isLt⟩
  rw [entry, dif_pos hj]
  exact Function.update_self ..

theorem entry_update_of_ne (tasks : Fin maxTasks → Option String) {i : ℤ} {j : Fin maxTasks}
    (hij : i ≠ j) (task : Option String) :
    entry (Function.update tasks j task) i = entry tasks i := by
  unfold entry
  split
  · refine Function.update_of_ne (fun heq => hij ?_) ..
    have hval := congrArg Fin.val heq
    dsimp only at hval
    omega
  · rfl

/-- The array holds the stack, its top at the highest index. -/
def Holds (tasks : Fin maxTasks → Option String) : List String → Prop
  | [] => True
  | top :: rest => entry tasks rest.length = some top ∧ Holds tasks rest

/-- Entries at or above the top may be written. -/
theorem Holds.update {tasks : Fin maxTasks → Option String} {stack : List String}
    (h : Holds tasks stack) {j : Fin maxTasks} (hj : stack.length ≤ j) (task : Option String) :
    Holds (Function.update tasks j task) stack := by
  induction stack with
  | nil => trivial
  | cons top rest ih =>
    obtain ⟨htop, hrest⟩ := h
    rw [List.length_cons] at hj
    refine ⟨?_, ih hrest (by omega)⟩
    rwa [entry_update_of_ne _ (by omega)]

/-- What the array and `count` hold, when the printed lines are those of a stack. -/
def IsStack (q : Shared) (count : ℤ) (tasks stack : List String) : Prop :=
  replay q.output = some stack ∧ q.count = count ∧ Holds q.tasks tasks

def Steady (q : Shared) : Prop := ∃ stack, IsStack q stack.length stack stack

/-- A task was stored and is not reported yet, or is about to be reported as processed. -/
def asserted : Pc → Shared → Prop
  | .overrun _ _, q => Steady q ∧ maxTasks ≤ q.count
  | .increment task _, q => ∃ stack, IsStack q stack.length (task :: stack) stack
  | .report task _, q => ∃ stack, IsStack q (stack.length + 1) (task :: stack) stack
  | .wkPrintWait, q | .wkWait, q => Steady q ∧ q.count = 0
  | .wkDecrement, q => Steady q ∧ q.count ≠ 0
  | .wkTask, q => ∃ top stack, IsStack q stack.length (top :: stack) (top :: stack)
  | .wkPrint task, q => ∃ top stack, task = some top ∧
      IsStack q stack.length (top :: stack) (top :: stack)
  | _, q => Steady q

theorem asserted_store {task : String} {rest : List String} {q q' : Shared} (h : Steady q)
    (hstore : storeTask task q = some q') : asserted (.increment task rest) q' := by
  obtain ⟨stack, hreplay, hcount, hholds⟩ := h
  unfold storeTask at hstore
  split at hstore
  · rename_i hroom
    cases hstore
    have htop : ((⟨q.count.toNat, by omega⟩ : Fin maxTasks) : ℤ) = stack.length := by
      rw [← hcount]
      exact Int.toNat_of_nonneg hroom.1
    refine ⟨stack, hreplay, hcount, ?_, hholds.update ?_ _⟩
    · rw [← htop, entry_update_self]
    · exact_mod_cast htop.ge
  · cases hstore

theorem asserted_overrun {task : String} {rest : List String} {q : Shared} (h : Steady q)
    (hstore : storeTask task q = none) : asserted (.overrun task rest) q := by
  refine ⟨h, ?_⟩
  obtain ⟨stack, -, hcount, -⟩ := h
  unfold storeTask at hstore
  split at hstore
  · cases hstore
  · omega

theorem asserted_increment {task : String} {rest : List String} {q : Shared}
    (h : asserted (.increment task rest) q) :
    asserted (.report task rest) { q with count := q.count + 1 } := by
  obtain ⟨stack, hreplay, hcount, hholds⟩ := h
  exact ⟨stack, hreplay, congrArg (· + 1) hcount, hholds⟩

theorem asserted_report {task : String} {rest : List String} {q : Shared}
    (h : asserted (.report task rest) q) : Steady (print (.enqueued task q.count) q) := by
  obtain ⟨stack, hreplay, hcount, hholds⟩ := h
  refine ⟨task :: stack, ?_, ?_, hholds⟩
  · simp [print, replay_print, hreplay, Line.act, hcount]
  · simpa [print] using hcount

theorem asserted_printWait {q : Shared} (h : asserted .wkPrintWait q) :
    asserted .wkWait (print .waiting q) := by
  obtain ⟨⟨stack, hreplay, hcount, hholds⟩, hzero⟩ := h
  have hnil : stack = [] := by
    apply List.eq_nil_of_length_eq_zero
    omega
  refine ⟨⟨stack, ?_, hcount, hholds⟩, hzero⟩
  simp [print, replay_print, hreplay, Line.act, hnil]

theorem asserted_decrement {q : Shared} (h : asserted .wkDecrement q) :
    asserted .wkTask { q with count := q.count - 1 } := by
  obtain ⟨⟨stack, hreplay, hcount, hholds⟩, hsome⟩ := h
  cases stack with
  | nil => exact absurd hcount hsome
  | cons top rest =>
    refine ⟨top, rest, hreplay, ?_, hholds⟩
    simp [hcount]

theorem asserted_task {q : Shared} (h : asserted .wkTask q) :
    asserted (.wkPrint (entry q.tasks q.count)) q := by
  obtain ⟨top, stack, hreplay, hcount, hholds⟩ := h
  refine ⟨top, stack, ?_, hreplay, hcount, hholds⟩
  rw [hcount, hholds.1]

theorem asserted_print {task : Option String} {q : Shared} (h : asserted (.wkPrint task) q) :
    Steady (print (.processing task) q) := by
  obtain ⟨top, stack, htask, hreplay, hcount, hholds⟩ := h
  refine ⟨stack, ?_, hcount, hholds.2⟩
  simp [print, replay_print, hreplay, Line.act, htask]

theorem outline (n : ℕ) : Outline (program n) inside Steady asserted where
  envI e := e.elim
  envA e := e.elim
  instr t l := by
    cases t with
    | none =>
      cases l with
      | dispatch tasks =>
        cases tasks with
        | nil => exact fun q => rfl
        | cons task rest => exact fun q hq => hq
      | store task rest =>
        intro q hq
        dsimp only
        split
        · exact asserted_store hq ‹_›
        · exact asserted_overrun hq ‹_›
      | overrun task rest => exact fun _ l' q hok => by cases hok
      | increment task rest => exact fun q hq => asserted_increment hq
      | report task rest => exact fun q hq => asserted_report hq
      | signal rest => exact fun _ q hq => hq
      | unlock rest => exact fun q hq => hq
      | join i =>
        simp only [program, mainInstr]
        split
        · exact fun _ q hq => hq
        · exact fun q => rfl
      | exited => trivial
      | _ => exact fun _ l' q hok => by cases hok
    | some w =>
      cases l with
      | wkLock => exact fun q hq => hq
      | wkTest =>
        intro q hq
        dsimp only
        split
        · exact ⟨hq, by assumption⟩
        · exact ⟨hq, by assumption⟩
      | wkPrintWait => exact fun q hq => asserted_printWait hq
      | wkWait => exact fun q hq => ⟨hq.1, fun w hw => hw⟩
      | wkDecrement => exact fun q hq => asserted_decrement hq
      | wkTask => exact fun q hq => asserted_task hq
      | wkPrint task => exact fun q hq => asserted_print hq
      | wkUnlock => exact fun q hq => hq
      | wkReturn => trivial
      | _ => exact fun _ l' q hok => by cases hok

theorem asserts_of_reachable {n : ℕ} {tasks : List String} {s : Config (Thread n) Cond Pc Shared}
    (h : Reachable (program n) (start n tasks) s) : Asserts inside Steady asserted s := by
  apply (outline n).reachable (bracketed n) h
  refine ⟨owned_start n tasks, fun _ => ⟨[], rfl, rfl, trivial⟩, fun t => ?_⟩
  cases t <;> exact fun hin => by cases hin

/-- Whoever holds the mutex, the printed lines are those of a stack. -/
theorem exists_replay {n : ℕ} {tasks : List String} {s : Config (Thread n) Cond Pc Shared}
    (h : Reachable (program n) (start n tasks) s) :
    ∃ stack, replay s.shared.output = some stack := by
  have hasserts := asserts_of_reachable h
  cases howner : s.owner with
  | none =>
    obtain ⟨stack, hreplay, -⟩ := hasserts.free howner
    exact ⟨stack, hreplay⟩
  | some t =>
    have hag := hasserts.owned t
    cases hst : s.status t with
    | running l =>
      rw [hst] at hag
      have hheld := hasserts.held hst (hag.mpr howner)
      cases l with
      | increment task rest | report task rest =>
        obtain ⟨stack, hreplay, -⟩ := hheld
        exact ⟨stack, hreplay⟩
      | overrun task rest =>
        obtain ⟨⟨stack, hreplay, -⟩, -⟩ := hheld
        exact ⟨stack, hreplay⟩
      | wkPrintWait | wkWait | wkDecrement =>
        obtain ⟨⟨stack, hreplay, -⟩, -⟩ := hheld
        exact ⟨stack, hreplay⟩
      | wkTask =>
        obtain ⟨top, stack, hreplay, -⟩ := hheld
        exact ⟨_, hreplay⟩
      | wkPrint task =>
        obtain ⟨top, stack, -, hreplay, -⟩ := hheld
        exact ⟨_, hreplay⟩
      | _ =>
        obtain ⟨stack, hreplay, -⟩ := hheld
        exact ⟨stack, hreplay⟩
    | asleep c l | woken c l =>
      rw [hst] at hag
      exact absurd howner hag.2

def Pc.isWorker : Pc → Bool
  | .wkLock | .wkTest | .wkPrintWait | .wkWait => true
  | .wkDecrement | .wkTask | .wkPrint _ | .wkUnlock | .wkReturn => true
  | _ => false

/-- The tasks that have not been reported as enqueued, where `main` stands. -/
def pending : Pc → List String
  | .dispatch tasks => tasks
  | .store task rest | .overrun task rest | .increment task rest | .report task rest => task :: rest
  | .signal rest | .unlock rest => rest
  | _ => []

theorem exists_storeTask (task : String) {q : Shared} (h : 0 ≤ q.count ∧ q.count < maxTasks) :
    ∃ q', storeTask task q = some q' :=
  ⟨_, dif_pos h⟩

theorem storeTask_others {task : String} {q q' : Shared} (h : storeTask task q = some q') :
    q'.count = q.count ∧ q'.output = q.output := by
  unfold storeTask at h
  split at h
  · cases h
    exact ⟨rfl, rfl⟩
  · cases h

/-- `main` runs at its own points, and has enqueued what is not pending. -/
def mainAt (tasks : List String) : Status Cond Pc → Shared → Prop
  | .running l, q => l.isWorker = false ∧ enqueued q.output ++ pending l = tasks
  | _, _ => False

theorem keeps_mainAt (n : ℕ) (tasks : List String) :
    (program n).KeepsThread none (mainAt tasks) where
  woken c l q h := h.elim
  resumed c l q h := h.elim
  env st e := e.elim
  others st u l f q hu hi h := by
    cases u with
    | none => exact absurd rfl hu
    | some w =>
      have hsame : enqueued (f q).2.output = enqueued q.output := by
        cases l with
        | wkTest | wkDecrement | wkTask =>
          cases hi
          rfl
        | wkPrintWait | wkPrint task =>
          cases hi
          rw [enqueued_print]
          exact List.append_nil _
        | _ => cases hi
      cases st with
      | running l' =>
        obtain ⟨hmain, htasks⟩ := h
        exact ⟨hmain, by rw [hsame, htasks]⟩
      | _ => exact h
  instr l s st q h hres := by
    obtain ⟨hmain, htasks⟩ := h
    cases l with
    | dispatch ts =>
      cases ts with
      | nil | cons task rest =>
        obtain ⟨rfl, rfl⟩ := hres
        exact ⟨rfl, htasks⟩
    | report task rest =>
      obtain ⟨rfl, rfl⟩ := hres
      refine ⟨rfl, ?_⟩
      rw [enqueued_print, List.append_assoc]
      exact htasks
    | store task rest =>
      obtain ⟨rfl, rfl⟩ := hres
      dsimp only
      split
      · rename_i q' hstore
        exact ⟨rfl, (congrArg (enqueued · ++ task :: rest) (storeTask_others hstore).2).trans htasks⟩
      · exact ⟨rfl, htasks⟩
    | overrun task rest =>
      obtain ⟨l', hok, -⟩ := hres
      cases hok
    | increment task rest | signal rest | unlock rest =>
      obtain ⟨rfl, rfl⟩ := hres
      exact ⟨rfl, htasks⟩
    | join i =>
      simp only [program, mainInstr] at hres
      split at hres
      · obtain ⟨rfl, rfl, -⟩ := hres
        exact ⟨rfl, htasks⟩
      · obtain ⟨rfl, rfl⟩ := hres
        exact ⟨rfl, htasks⟩
    | exited => exact hres.elim
    | _ => cases hmain

theorem mainAt_of_reachable {n : ℕ} {tasks : List String}
    {s : Config (Thread n) Cond Pc Shared} (h : Reachable (program n) (start n tasks) s) :
    mainAt tasks (s.status none) s.shared :=
  (keeps_mainAt n tasks).reachable h ⟨rfl, rfl⟩

theorem isPrefix_enqueued {n : ℕ} {tasks : List String}
    {s : Config (Thread n) Cond Pc Shared} (h : Reachable (program n) (start n tasks) s) :
    enqueued s.shared.output <+: tasks := by
  have hmain := mainAt_of_reachable h
  cases hst : s.status none with
  | running l =>
    rw [hst] at hmain
    exact ⟨_, hmain.2⟩
  | asleep c l | woken c l =>
    rw [hst] at hmain
    exact hmain.elim

/-- A worker runs at its own points, and waits for a task. -/
def workerAt : Status Cond Pc → Prop
  | .running l => l.isWorker = true
  | .asleep _ l | .woken _ l => l = .wkTest

theorem keeps_workerAt (n : ℕ) (w : Fin n) :
    (program n).KeepsThread (some w) (fun st _ => workerAt st) where
  woken c l q h := h
  resumed c l q h := by
    cases h
    rfl
  env st e := e.elim
  others st u l f q hu hi h := h
  instr l s st q h hres := by
    cases l with
    | wkTest =>
      obtain ⟨rfl, -⟩ := hres
      dsimp only
      split <;> rfl
    | wkReturn => exact hres.elim
    | wkLock | wkPrintWait | wkWait | wkDecrement | wkTask | wkPrint task | wkUnlock =>
      obtain ⟨rfl, -⟩ := hres
      rfl
    | _ => cases h

theorem workerAt_of_reachable {n : ℕ} {tasks : List String}
    {s : Config (Thread n) Cond Pc Shared} (h : Reachable (program n) (start n tasks) s)
    (w : Fin n) : workerAt (s.status (some w)) :=
  (keeps_workerAt n w).reachable h rfl

def hasTask : Pc → Bool
  | .wkUnlock | .wkReturn => true
  | _ => false

theorem tally_processed (n : ℕ) :
    Tally (program n) (fun q => (processed q.output).length) hasTask where
  env e := e.elim
  instr t l := by
    cases t with
    | none =>
      cases l with
      | dispatch tasks =>
        cases tasks with
        | nil => exact fun q => rfl
        | cons task rest => exact rfl
      | report task rest =>
        intro q
        dsimp only
        rw [processed_print, List.length_append]
        rfl
      | join i =>
        simp only [program, mainInstr]
        split
        · exact rfl
        · exact fun q => rfl
      | store task rest =>
        intro q
        dsimp only
        split
        · rename_i q' hstore
          rw [(storeTask_others hstore).2]
          rfl
        · rfl
      | overrun task rest => exact fun m hm => by cases hm
      | increment task rest => exact fun q => rfl
      | signal rest | unlock rest => exact rfl
      | exited => trivial
      | _ => exact fun m hm => by cases hm
    | some w =>
      cases l with
      | wkTest =>
        intro q
        dsimp only
        split <;> rfl
      | wkPrintWait =>
        intro q
        dsimp only
        rw [processed_print, List.length_append]
        rfl
      | wkPrint task =>
        intro q
        dsimp only
        rw [processed_print, List.length_append]
        simp [processed, hasTask]
      | wkDecrement | wkTask => exact fun q => rfl
      | wkLock | wkWait | wkUnlock => exact rfl
      | wkReturn => trivial
      | _ => exact fun m hm => by cases hm

/-- As many tasks are processed as there are workers that have taken one. -/
theorem length_processed {n : ℕ} {tasks : List String} {s : Config (Thread n) Cond Pc Shared}
    (h : Reachable (program n) (start n tasks) s) :
    (processed s.shared.output).length =
      (Finset.univ.filter fun w : Fin n => hasTask (s.status (some w)).point = true).card := by
  have hstart : (((processed (start n tasks).shared.output).length : ℕ) : ℤ) =
      standing hasTask (start n tasks).status := by
    have hzero : standing hasTask (start n tasks).status = 0 := by
      apply count_eq_zero
      intro t
      cases t <;> rfl
    rw [hzero]
    rfl
  have htally := (tally_processed n).reachable h hstart
  have hmain : hasTask (s.status none).point = false := by
    have hat := mainAt_of_reachable h
    cases hst : s.status none with
    | running l =>
      rw [hst] at hat
      cases l with
      | wkUnlock | wkReturn => cases hat.1
      | _ => rfl
    | asleep c l | woken c l =>
      rw [hst] at hat
      exact hat.elim
  have hworkers := count_option (q := fun st : Status Cond Pc => hasTask st.point) hmain
  unfold standing at htally
  rw [hworkers] at htally
  exact_mod_cast htally

def Pc.accesses : Pc → Bool
  | .store _ _ | .wkTask => true
  | _ => false

/-- Whoever is about to use `q->tasks[q->count]` stays inside the array. -/
def InBounds {n : ℕ} (s : Config (Thread n) Cond Pc Shared) : Prop :=
  ∀ t l, s.status t = .running l → l.accesses = true →
    0 ≤ s.shared.count ∧ s.shared.count < maxTasks

theorem length_stack_le {output : List Line} {stack : List String}
    (h : replay output = some stack) : stack.length ≤ (enqueued output).length := by
  have hlength := (perm_of_replay h).length_eq
  rw [List.length_append, List.length_map, List.length_map] at hlength
  omega

theorem inBounds_of_length {n : ℕ} {tasks : List String}
    {s : Config (Thread n) Cond Pc Shared} (h : Reachable (program n) (start n tasks) s)
    (htasks : tasks.length ≤ maxTasks) : InBounds s := by
  have hasserts := asserts_of_reachable h
  intro t l hst hl
  cases l with
  | store task rest =>
    cases t with
    | none =>
      obtain ⟨stack, hreplay, hcount, -⟩ := hasserts.held hst rfl
      have hmain := mainAt_of_reachable h
      rw [hst] at hmain
      have hlength := congrArg List.length hmain.2
      have hstack := length_stack_le hreplay
      rw [List.length_append, pending, List.length_cons] at hlength
      omega
    | some w =>
      have hworker := workerAt_of_reachable h w
      rw [hst] at hworker
      cases hworker
  | wkTask =>
    obtain ⟨top, stack, hreplay, hcount, -⟩ := hasserts.held hst rfl
    have hstack := length_stack_le hreplay
    have hprefix := (isPrefix_enqueued h).length_le
    rw [List.length_cons] at hstack
    omega
  | _ => cases hl

/-- `main` never writes behind an array that has room for its tasks. -/
theorem not_overrun {n : ℕ} {tasks : List String} {s : Config (Thread n) Cond Pc Shared}
    (h : Reachable (program n) (start n tasks) s) (htasks : tasks.length ≤ maxTasks)
    (task : String) (rest : List String) : s.status none ≠ .running (.overrun task rest) := by
  intro hst
  obtain ⟨⟨stack, hreplay, hcount, -⟩, hfull⟩ := (asserts_of_reachable h).held hst rfl
  have hmain := mainAt_of_reachable h
  rw [hst] at hmain
  have hlength := congrArg List.length hmain.2
  have hstack := length_stack_le hreplay
  rw [List.length_append, pending, List.length_cons] at hlength
  omega

/-- While the workers have not begun and there is room, `main` can dispatch task after task. -/
theorem dispatched_alone (n : ℕ) (tasks : List String) {k : ℕ} (hk : k ≤ tasks.length)
    (hroom : k ≤ maxTasks) : ∃ v : Shared, v.count = k ∧
      Alone (program n) (start n tasks) none (.running (.dispatch (tasks.drop k))) none v := by
  induction k with
  | zero => exact ⟨⟨fun _ => none, 0, []⟩, rfl, .refl rfl⟩
  | succ k ih =>
    obtain ⟨v, hcount, halone⟩ := ih (Nat.le_of_succ_le hk) (Nat.le_of_succ_le hroom)
    rw [List.drop_eq_getElem_cons hk] at halone
    have hno : ∀ u, u ≠ none → (((start n tasks).status u).isAsleepOn .hasTask) = false := by
      intro u hu
      cases u with
      | none => exact absurd rfl hu
      | some w => rfl
    obtain ⟨v', hv'⟩ := exists_storeTask tasks[k] (q := v) (by omega)
    have hcount' := (storeTask_others hv').1
    have hstore := (halone.lock rfl).exec rfl
    rw [hv'] at hstore
    have hreport := (hstore.exec rfl).exec rfl
    have hunlock := (hreport.signal rfl hno).unlock rfl
    refine ⟨_, ?_, hunlock⟩
    simp [print, hcount', hcount]

/-- The array is never left, whatever the workers do, exactly if it has room for all tasks. -/
theorem inBounds_iff (n : ℕ) (tasks : List String) :
    (∀ s, Reachable (program n) (start n tasks) s → InBounds s) ↔ tasks.length ≤ maxTasks := by
  constructor
  · intro hall
    by_contra hmany
    have hlength : maxTasks < tasks.length := Nat.lt_of_not_le hmany
    obtain ⟨v, hcount, halone⟩ := dispatched_alone n tasks hlength.le le_rfl
    rw [List.drop_eq_getElem_cons hlength] at halone
    obtain ⟨s, hreach, hself, -, -, hshared⟩ := halone.lock rfl
    have hbound := (hall s hreach none _ hself rfl).2
    rw [hshared, hcount] at hbound
    exact lt_irrefl _ hbound
  · exact fun htasks s h => inBounds_of_length h htasks

/-- If the array has room for the tasks, then in every state those that workers have taken and
those still there are the tasks enqueued, which come first in the list of `main`; each was taken by
one worker, and from the top of the stack. The array is left exactly if it has no room for them. -/
theorem queue_is_stack (n : ℕ) (tasks : List String) :
    (tasks.length ≤ maxTasks → ∀ s, Reachable (program n) (start n tasks) s →
      enqueued s.shared.output <+: tasks ∧
      (processed s.shared.output).length =
        (Finset.univ.filter fun w : Fin n => hasTask (s.status (some w)).point = true).card ∧
      (∃ stack, replay s.shared.output = some stack ∧
        (processed s.shared.output ++ stack.map some).Perm
          ((enqueued s.shared.output).map some)) ∧
      ∀ task rest, s.status none ≠ .running (.overrun task rest)) ∧
      ((∀ s, Reachable (program n) (start n tasks) s → InBounds s) ↔ tasks.length ≤ maxTasks) := by
  refine ⟨fun htasks s h => ?_, inBounds_iff n tasks⟩
  obtain ⟨stack, hreplay⟩ := exists_replay h
  exact ⟨isPrefix_enqueued h, length_processed h, ⟨stack, hreplay, perm_of_replay hreplay⟩,
    not_overrun h htasks⟩

/-- `main` enqueues two tasks before the worker begins, which then takes one. -/
def twoTasks : List (Event (Thread 1) Pc Empty) :=
  List.replicate 12 (.run none) ++ List.replicate 6 (.run (some ⟨0, Nat.one_pos⟩))

def afterTwoTasks : Config (Thread 1) Cond Pc Shared :=
  (runSchedule (program 1) (start 1 ["a", "b"]) twoTasks).getD (start 1 [])

/-- The worker has taken the second task, and the first is still there. -/
theorem two_tasks_stacked :
    processed afterTwoTasks.shared.output = [some "b"] ∧
      replay afterTwoTasks.shared.output = some ["a"] ∧
      enqueued afterTwoTasks.shared.output <+: ["a", "b"] := by
  have hrun : Reachable (program 1) (start 1 ["a", "b"]) afterTwoTasks :=
    reachable_of_schedule twoTasks rfl
  exact ⟨rfl, rfl, ((queue_is_stack 1 ["a", "b"]).1 (by decide) afterTwoTasks hrun).1⟩

end CpreLabs.TaskDispatch
