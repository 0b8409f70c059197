import CpreLabs.ServerLifetime

/-!
# The server frees what it has allocated, and nothing twice

When `main` frees its first block it is the only thread left, the locks are free, and its own
steps take it to its end. There the memory is as `kv_init` found it.
-/
namespace CpreLabs.Server
open Pthread WorkQueue Relation

variable {capacity numWorkers numBuckets : ℕ+}

section Cleanup

variable {fds : ℤ → ℤ} {base : Addr → Option KvNode} {clock : ℕ}
  {s : Lifetime numWorkers numBuckets}

theorem mainSteps_of_advances {x y : DestroyPoint numBuckets × Store numBuckets}
    (h : ReflTransGen DestroyPoint.Advances x y) (hmain : s.main = .destroy x.1)
    (hst : s.table.memory = x.2) :
    ReflTransGen MainStep s
      { s with main := .destroy y.1, table := { s.table with memory := y.2 } } := by
  induction h with
  | refl =>
    rw [← hmain, ← hst]
  | tail _ hstep ih => exact ih.tail (MainStep.advance rfl hstep)

/-- `main` gets to its end by its own steps. -/
def Closes (s : Lifetime numWorkers numBuckets) : Prop :=
  ∃ s', ReflTransGen MainStep s s' ∧ s'.main = .closed

theorem Closes.of_step {s' : Lifetime numWorkers numBuckets} (h : Closes s')
    (hstep : MainStep s s') : Closes s := by
  obtain ⟨s'', hsteps, hmain⟩ := h
  exact ⟨s'', .head hstep hsteps, hmain⟩

theorem closes_of_freeTable (h : s.main = .destroy .freeTable) : Closes s :=
  ⟨_, .single (.freeTable h), rfl⟩

theorem closes_of_freeBuckets (h : s.main = .destroy .freeBuckets) : Closes s := by
  have hlock : Closes ({ s with
      main := .destroy .destroyLock
      freed := Function.update s.freed .buckets true
      table := { s.table with held := Function.update s.table.held .main none } } :
        Lifetime numWorkers numBuckets) :=
    (closes_of_freeTable rfl).of_step (.destroyLock rfl)
  exact (hlock.of_step (.unlock rfl)).of_step (.freeBuckets h)

theorem closes_of_loop {p : DestroyPoint numBuckets} (hmain : s.main = .destroy p)
    (hholds : p.Holds base s.table.memory) (hloop : (p.advance s.table.memory).isSome) :
    Closes s := by
  obtain ⟨st, hsteps⟩ := destroys_all hholds hloop
  obtain ⟨s', hrest, hclosed⟩ : Closes { s with
    main := .destroy .freeBuckets, table := { s.table with memory := st } } :=
    closes_of_freeBuckets rfl
  exact ⟨s', (mainSteps_of_advances hsteps hmain rfl).trans hrest, hclosed⟩

theorem closes_of_wrlock (hmain : s.main = .destroy .wrlock)
    (hholds : Accounts base s.table.memory none) (hheld : ∀ t, s.table.held t = none) :
    Closes s := by
  refine Closes.of_step ?_ (.wrlock hmain hheld)
  exact closes_of_loop rfl hholds.remains rfl

theorem closes_of_destroyQueue (hmain : s.main = .destroyQueue)
    (hholds : Accounts base s.table.memory none) (hheld : ∀ t, s.table.held t = none) :
    Closes s := by
  refine Closes.of_step ?_ (.destroyQueue hmain)
  exact closes_of_wrlock rfl hholds hheld

theorem closes_of_freeFds (hmain : s.main = .freeFds)
    (hholds : Accounts base s.table.memory none) (hheld : ∀ t, s.table.held t = none) :
    Closes s := by
  refine Closes.of_step ?_ (.freeFds hmain)
  exact closes_of_destroyQueue rfl hholds hheld

/-- Once `main` has joined the threads, nothing keeps it from its end. -/
theorem Sound.closes (h : Sound capacity fds base clock s) (hmain : s.main ≠ .running) :
    Closes s := by
  have hholds := h.holds
  have hnone : s.main.locked = false → ∀ t, s.table.held t = none := by
    intro hlocked t
    rw [h.held hmain t, hlocked]
    simp
  cases hpoint : s.main with
  | running => exact absurd hpoint hmain
  | closed => exact ⟨s, .refl, hpoint⟩
  | destroyQueue =>
    rw [hpoint] at hholds hnone
    exact closes_of_destroyQueue hpoint hholds (hnone rfl)
  | freeFds =>
    rw [hpoint] at hholds hnone
    exact closes_of_freeFds hpoint hholds (hnone rfl)
  | freeWorkers =>
    rw [hpoint] at hholds hnone
    refine Closes.of_step ?_ (.freeWorkers hpoint)
    exact closes_of_freeFds rfl hholds (hnone rfl)
  | destroy p =>
    rw [hpoint] at hholds hnone
    cases p with
    | wrlock => exact closes_of_wrlock hpoint hholds (hnone rfl)
    | readHead i => exact closes_of_loop hpoint hholds rfl
    | visit i curr =>
      refine closes_of_loop hpoint hholds ?_
      cases curr <;> rfl
    | free i curr next => exact closes_of_loop hpoint hholds rfl
    | freeBuckets => exact closes_of_freeBuckets hpoint
    | unlock =>
      refine Closes.of_step ?_ (.unlock hpoint)
      exact (closes_of_freeTable rfl).of_step (.destroyLock rfl)
    | destroyLock => exact (closes_of_freeTable rfl).of_step (.destroyLock hpoint)
    | freeTable => exact closes_of_freeTable hpoint
    | fault => exact hholds.elim

/-- The server never touches memory that is not allocated: no thread reads or writes through a
dangling pointer, `main` frees nothing twice, and when it frees anything no other thread is left.
From there on `main` is never kept waiting, and where it ends everything the server has
allocated is freed. -/
theorem server_memory_safe (h : LifetimeReachable capacity fds base clock s) :
    (∀ t n op, s.table.thread t ≠ .inside n op .fault) ∧ s.main ≠ .destroy .fault ∧
      (s.main ≠ .running → Alone s ∧ Closes s) ∧
      (∀ b, s.freed b = true → s.main ≠ .running) ∧
      (s.main = .closed → s.table.memory.heap = base ∧ ∀ b, s.freed b = true) := by
  have hs := sound_of_reachable h
  have halone : s.main ≠ .running → Alone s := fun hmain =>
    hs.alone (hs.joined hmain).1 (hs.joined hmain).2
  refine ⟨fun t n op ht => ?_, fun hmain => ?_, fun hmain => ⟨halone hmain, hs.closes hmain⟩,
    fun b hb hmain => ?_, fun hmain => ?_⟩
  · by_cases hmain : s.main = .running
    · exact no_fault (hs.table hmain) t n op ht
    · rw [(halone hmain).table t] at ht
      cases ht
  · have hholds := hs.holds
    rw [hmain] at hholds
    exact hholds
  · rw [hs.freed, hmain] at hb
    cases hb
  · have hholds := hs.holds
    rw [hs.freed]
    rw [hmain] at hholds ⊢
    exact ⟨hholds, fun _ => rfl⟩

end Cleanup

section Client

variable {s : Lifetime numWorkers numBuckets}

theorem lifetime_of_queue {q : State numWorkers}
    (hidle : ∀ i, s.table.thread (.worker i) = .idle)
    (h : ReflTransGen (Step (server capacity numWorkers)) s.queue q) :
    ReflTransGen (LifetimeStep capacity) s { s with queue := q } := by
  induction h with
  | refl => exact .refl
  | tail _ hstep ih => exact ih.tail (.queue hstep (fun i _ _ => Or.inr (hidle i)))

/-- A call of worker `i`, with as many steps between lock and unlock as it takes. -/
def clientCall (i : Fin numWorkers) (op : Op) (steps : ℕ) :
    List (Rwlock.Event (User numWorkers) Op ℕ) :=
  [.call (.worker i) op, .lock (.worker i)] ++ List.replicate steps (.run (.worker i) 0) ++
    [.unlock (.worker i)]

def byClient (i : Fin numWorkers) : Rwlock.Event (User numWorkers) Op ℕ → Bool
  | .tick _ | .call _ .sweep => false
  | .call t _ | .lock t | .run t _ | .unlock t => decide (t = .worker i)

theorem lifetime_of_client {i : Fin numWorkers} {conn : ℤ}
    (hat : s.queue.status (some i) = .running (.caller (.workerClient conn)))
    (es : List (Rwlock.Event (User numWorkers) Op ℕ)) (hes : ∀ e ∈ es, byClient i e = true)
    {table : TableThreads numWorkers numBuckets}
    (h : Rwlock.runSchedule (hashTableCode numBuckets) advanceFrame s.table es = some table) :
    ReflTransGen (LifetimeStep capacity) s { s with table := table } := by
  induction es generalizing s with
  | nil =>
    cases h
    exact .refl
  | cons e es ih =>
    obtain ⟨table₁, hnext, hrest⟩ := Option.bind_eq_some_iff.mp h
    refine .head ?_ (ih (s := { s with table := table₁ }) hat
      (fun e he => hes e (List.mem_cons_of_mem _ he)) hrest)
    have hby := hes e (by simp)
    have hmove := Rwlock.moves_of_next hashTableCode_advanceFrame hnext
    cases e with
    | tick now => cases hby
    | call t op =>
      cases op with
      | sweep => cases hby
      | _ =>
        obtain rfl : t = .worker i := of_decide_eq_true hby
        exact .client hat (by simp) hmove
    | lock t | run t x =>
      obtain rfl : t = .worker i := of_decide_eq_true hby
      exact .client hat (by simp) hmove
    | unlock t =>
      obtain rfl : t = .worker i := of_decide_eq_true hby
      obtain ⟨o, hmove⟩ := hmove
      exact .client hat (by simp) hmove

/-- A connection is taken by the worker. -/
def takenQueue (capacity : ℕ+) (worker : Fin numWorkers) : State numWorkers :=
  (runSchedule (server capacity numWorkers) (serverStart numWorkers (fun _ => 0))
    ((servedSchedule worker).take 13)).getD (serverStart numWorkers (fun _ => 0))

/-- The client has been served, and `main` has joined the worker. -/
def joinedQueue (capacity : ℕ+) (worker : Fin numWorkers) : State numWorkers :=
  (runSchedule (server capacity numWorkers) (takenQueue capacity worker)
    ((servedSchedule worker).drop 13)).getD (takenQueue capacity worker)

/-- The client has put a key. -/
def putTable (numBuckets : ℕ+) (worker : Fin numWorkers) : TableThreads numWorkers numBuckets :=
  (Rwlock.runSchedule (hashTableCode numBuckets) advanceFrame (threadsStart (fun _ => none) 0)
    (clientCall worker (.put (.lit "a") (.lit "x") 5) 8)).getD (threadsStart (fun _ => none) 0)

/-- A node is in the table when `main` has joined the threads, and is freed at the end. -/
def beforeCleanup (capacity numBuckets : ℕ+) (worker : Fin numWorkers) :
    Lifetime numWorkers numBuckets :=
  ⟨joinedQueue capacity worker, putTable numBuckets worker, .returned, .freeWorkers,
    fun _ => false⟩

theorem beforeCleanup_memory_safe :
    ((beforeCleanup 2 1 (0 : Fin (1 : ℕ+))).table.memory.heap 0).isSome ∧
      Alone (beforeCleanup 2 1 (0 : Fin (1 : ℕ+))) ∧
      Closes (beforeCleanup 2 1 (0 : Fin (1 : ℕ+))) := by
  have htaken : ReflTransGen (LifetimeStep 2) (lifetimeStart (fun _ => 0) (fun _ => none) 0)
      (⟨takenQueue 2 0, threadsStart (fun _ => none) 0, .test, .running, fun _ => false⟩ :
        Lifetime 1 1) :=
    lifetime_of_queue (fun _ => rfl) (reachable_of_schedule ((servedSchedule 0).take 13) rfl)
  have hput : ReflTransGen (LifetimeStep 2)
      (⟨takenQueue 2 0, threadsStart (fun _ => none) 0, .test, .running, fun _ => false⟩ :
        Lifetime 1 1) ⟨takenQueue 2 0, putTable 1 0, .test, .running, fun _ => false⟩ :=
    lifetime_of_client (show (takenQueue 2 (0 : Fin (1 : ℕ+))).status (some 0) =
      .running (.caller (.workerClient 7)) from rfl) (clientCall 0 (.put (.lit "a") (.lit "x") 5) 8)
      (by decide) rfl
  have hidle : ∀ i, (putTable 1 (0 : Fin (1 : ℕ+))).thread (.worker i) = .idle := by
    intro i
    obtain rfl : i = 0 := Fin.ext (Nat.lt_one_iff.mp i.isLt)
    rfl
  have hjoined : ReflTransGen (LifetimeStep 2)
      (⟨takenQueue 2 0, putTable 1 0, .test, .running, fun _ => false⟩ : Lifetime 1 1)
      ⟨joinedQueue 2 0, putTable 1 0, .test, .running, fun _ => false⟩ :=
    lifetime_of_queue hidle (reachable_of_schedule ((servedSchedule 0).drop 13) rfl)
  have hsweeper : LifetimeStep 2
      (⟨joinedQueue 2 0, putTable 1 0, .test, .running, fun _ => false⟩ : Lifetime 1 1)
      ⟨joinedQueue 2 0, putTable 1 0, .returned, .running, fun _ => false⟩ := .sweeper .test
  have hcleanup : LifetimeStep 2
      (⟨joinedQueue 2 0, putTable 1 0, .returned, .running, fun _ => false⟩ : Lifetime 1 1)
      (beforeCleanup 2 1 0) := .joined rfl rfl rfl
  have hreach : LifetimeReachable 2 (fun _ => 0) (fun _ => none) 0
      (beforeCleanup 2 1 (0 : Fin (1 : ℕ+))) :=
    (((htaken.trans hput).trans hjoined).tail hsweeper).tail hcleanup
  exact ⟨rfl, (server_memory_safe hreach).2.2.1 (by simp [beforeCleanup])⟩

end Client

end CpreLabs.Server
