import CpreLabs.RwlockActions
import CpreLabs.ShutdownDrain
import CpreLabs.TableDestruction
import Mathlib.Tactic.DeriveFintype

/-!
# The server from its first thread to `kv_destroy`

The work queue with its threads, the table with the threads that use it, the loop of
`sweeper_main`, and what `main` frees at the end, put together. A worker uses the table only
while it serves a client, with whatever calls the client asks for.
-/
namespace CpreLabs.Server
open Pthread WorkQueue Relation

variable {capacity numWorkers numBuckets : ℕ+}

/-- The threads that use the table. -/
inductive User (numWorkers : ℕ+) where
  | main
  | worker (i : Fin numWorkers)
  | sweeper
  deriving DecidableEq, Fintype

inductive SweeperPoint where
  | test
  | nanosleep
  | retest
  | pass
  | returned

/-- `main` once it has joined all threads. -/
inductive CleanupPoint (numBuckets : ℕ+) where
  | running
  | freeWorkers
  | freeFds
  | destroyQueue
  | destroy (p : DestroyPoint numBuckets)
  | closed

/-- What `main` frees besides the nodes of the table. -/
inductive Block where
  | workers
  | fds
  | buckets
  | table
  deriving DecidableEq

abbrev TableThreads (numWorkers numBuckets : ℕ+) :=
  CpreLabs.Threads (User numWorkers) numBuckets

structure Lifetime (numWorkers numBuckets : ℕ+) where
  queue : State numWorkers
  table : TableThreads numWorkers numBuckets
  sweeper : SweeperPoint
  main : CleanupPoint numBuckets
  freed : Block → Bool

/-- All threads started, and the memory as `kv_init` found it. -/
def lifetimeStart (fds : ℤ → ℤ) (base : Addr → Option KvNode) (clock : ℕ) :
    Lifetime numWorkers numBuckets :=
  ⟨serverStart numWorkers fds, threadsStart base clock, .test, .running, fun _ => false⟩

/-- One step of `sweeper_main`. -/
inductive SweeperStep (gShutdown : Bool) :
    SweeperPoint → TableThreads numWorkers numBuckets →
      SweeperPoint → TableThreads numWorkers numBuckets → Prop
  | test {table} :
      SweeperStep gShutdown .test table (if gShutdown then .returned else .nanosleep) table
  | wake {table} : SweeperStep gShutdown .nanosleep table .retest table
  | leave {table} (hflag : gShutdown = true) : SweeperStep gShutdown .retest table .returned table
  | enter {table table'} (hflag : gShutdown = false)
      (hmove : Rwlock.Moves (hashTableCode numBuckets) .sweeper (.call .sweep) table table') :
      SweeperStep gShutdown .retest table .pass table'
  | lock {table table'}
      (hmove : Rwlock.Moves (hashTableCode numBuckets) .sweeper .lock table table') :
      SweeperStep gShutdown .pass table .pass table'
  | run {table table'}
      (hmove : Rwlock.Moves (hashTableCode numBuckets) .sweeper .run table table') :
      SweeperStep gShutdown .pass table .pass table'
  | unlock {table table' o}
      (hmove : Rwlock.Moves (hashTableCode numBuckets) .sweeper (.unlock o) table table') :
      SweeperStep gShutdown .pass table .test table'

/-- One step of `main` after the joins. -/
inductive MainStep :
    Lifetime numWorkers numBuckets → Lifetime numWorkers numBuckets → Prop
  | freeWorkers {s} (hmain : s.main = .freeWorkers) :
      MainStep s { s with main := .freeFds, freed := Function.update s.freed .workers true }
  | freeFds {s} (hmain : s.main = .freeFds) :
      MainStep s { s with main := .destroyQueue, freed := Function.update s.freed .fds true }
  | destroyQueue {s} (hmain : s.main = .destroyQueue) :
      MainStep s { s with main := .destroy .wrlock }
  | wrlock {s} (hmain : s.main = .destroy .wrlock) (hfree : s.table.available .exclusive) :
      MainStep s { s with
        main := .destroy (.readHead ⟨0, numBuckets.pos⟩)
        table := { s.table with held := Function.update s.table.held .main (some .exclusive) } }
  | advance {s p p' st} (hmain : s.main = .destroy p)
      (hstep : p.advance s.table.memory = some (p', st)) :
      MainStep s { s with main := .destroy p', table := { s.table with memory := st } }
  | freeBuckets {s} (hmain : s.main = .destroy .freeBuckets) :
      MainStep s { s with
        main := .destroy .unlock
        freed := Function.update s.freed .buckets true }
  | unlock {s} (hmain : s.main = .destroy .unlock) :
      MainStep s { s with
        main := .destroy .destroyLock
        table := { s.table with held := Function.update s.table.held .main none } }
  | destroyLock {s} (hmain : s.main = .destroy .destroyLock) :
      MainStep s { s with main := .destroy .freeTable }
  | freeTable {s} (hmain : s.main = .destroy .freeTable) :
      MainStep s { s with main := .closed, freed := Function.update s.freed .table true }

/-- One step of the server or of its surroundings. -/
inductive LifetimeStep (capacity : ℕ+) :
    Lifetime numWorkers numBuckets → Lifetime numWorkers numBuckets → Prop
  /-- A worker leaves a client only between two calls. -/
  | queue {s q} (hstep : Step (server capacity numWorkers) s.queue q)
      (hbusy : ∀ i conn, s.queue.status (some i) = .running (.caller (.workerClient conn)) →
        q.status (some i) = s.queue.status (some i) ∨ s.table.thread (.worker i) = .idle) :
      LifetimeStep capacity s { s with queue := q }
  | tick {s now} (hle : s.table.clock ≤ now) :
      LifetimeStep capacity s { s with table := { s.table with clock := now } }
  | client {s i conn a table}
      (hat : s.queue.status (some i) = .running (.caller (.workerClient conn)))
      (hop : a ≠ .call .sweep)
      (hmove : Rwlock.Moves (hashTableCode numBuckets) (.worker i) a s.table table) :
      LifetimeStep capacity s { s with table := table }
  | sweeper {s p table}
      (hstep : SweeperStep s.queue.shared.gShutdown s.sweeper s.table p table) :
      LifetimeStep capacity s { s with sweeper := p, table := table }
  | joined {s} (hmain : s.main = .running) (hworkers : Joined s.queue)
      (hsweeper : s.sweeper = .returned) :
      LifetimeStep capacity s { s with main := .freeWorkers }
  | main {s s'} (hstep : MainStep s s') : LifetimeStep capacity s s'

def LifetimeReachable (capacity : ℕ+) (fds : ℤ → ℤ) (base : Addr → Option KvNode) (clock : ℕ)
    (s : Lifetime numWorkers numBuckets) : Prop :=
  ReflTransGen (LifetimeStep capacity) (lifetimeStart fds base clock) s

/-- Only `main` is left: nobody uses the queue or the table any more. -/
structure Alone (s : Lifetime numWorkers numBuckets) : Prop where
  workers : ∀ i, HasReturned s.queue i
  sweeper : s.sweeper = .returned
  queue : s.queue.owner = none
  table : ∀ t, s.table.thread t = .idle

/-- What holds of the memory where `main` stands. -/
def CleanupPoint.Holds (base : Addr → Option KvNode) (st : Store numBuckets) :
    CleanupPoint numBuckets → Prop
  | .running => True
  | .freeWorkers | .freeFds | .destroyQueue => Accounts base st none
  | .destroy p => p.Holds base st
  | .closed => st.heap = base

/-- `main` has the lock of the table to itself. -/
def CleanupPoint.locked : CleanupPoint numBuckets → Bool
  | .destroy .wrlock | .destroy .destroyLock | .destroy .freeTable => false
  | .destroy _ => true
  | _ => false

/-- What `main` has freed when it stands there. -/
def CleanupPoint.hasFreed : CleanupPoint numBuckets → Block → Bool
  | .running, _ | .freeWorkers, _ => false
  | .freeFds, b => decide (b = .workers)
  | .destroyQueue, b | .destroy .wrlock, b | .destroy (.readHead _), b | .destroy (.visit _ _), b
  | .destroy (.free _ _ _), b | .destroy .freeBuckets, b | .destroy .fault, b =>
      decide (b = .workers ∨ b = .fds)
  | .destroy .unlock, b | .destroy .destroyLock, b | .destroy .freeTable, b =>
      decide (b ≠ .table)
  | .closed, _ => true

section Invariant

variable {fds : ℤ → ℤ} {base : Addr → Option KvNode} {clock : ℕ}

structure Sound (capacity : ℕ+) (fds : ℤ → ℤ) (base : Addr → Option KvNode) (clock : ℕ)
    (s : Lifetime numWorkers numBuckets) : Prop where
  queue : Reachable (server capacity numWorkers) (serverStart numWorkers fds) s.queue
  table : s.main = .running →
    Rwlock.Reachable (hashTableCode numBuckets) (threadsStart base clock) s.table
  client : ∀ i, s.table.thread (.worker i) ≠ .idle →
    ∃ conn, s.queue.status (some i) = .running (.caller (.workerClient conn))
  sweeper : s.sweeper ≠ .pass → s.table.thread .sweeper = .idle
  main : s.table.thread .main = .idle
  joined : s.main ≠ .running → Joined s.queue ∧ s.sweeper = .returned
  holds : s.main.Holds base s.table.memory
  held : s.main ≠ .running → ∀ t, s.table.held t =
    if t = .main ∧ s.main.locked = true then some .exclusive else none
  freed : s.freed = s.main.hasFreed

theorem Joined.step {a b : State numWorkers} (hstep : Step (server capacity numWorkers) a b)
    (h : Joined a) : Joined b :=
  hstep.halted h (by simp [server, program, instr, callers])

variable {s s' : Lifetime numWorkers numBuckets}

theorem sound_start : Sound capacity fds base clock
    (lifetimeStart fds base clock : Lifetime numWorkers numBuckets) where
  queue := .refl
  table _ := .refl
  client _ h := absurd rfl h
  sweeper _ := rfl
  main := rfl
  joined h := absurd rfl h
  holds := trivial
  held h := absurd rfl h
  freed := rfl

theorem Sound.running_of_client (h : Sound capacity fds base clock s) {i : Fin numWorkers}
    {conn : ℤ} (hat : s.queue.status (some i) = .running (.caller (.workerClient conn))) :
    s.main = .running := by
  by_contra hmain
  have hret := returned_of_mainJoin h.queue (h.joined hmain).1 i i.isLt
  rw [HasReturned, hat] at hret
  cases hret

theorem Sound.alone (h : Sound capacity fds base clock s) (hjoined : Joined s.queue)
    (hsweeper : s.sweeper = .returned) : Alone s := by
  have hworkers : ∀ i, HasReturned s.queue i :=
    fun i => returned_of_mainJoin h.queue hjoined i i.isLt
  refine ⟨hworkers, hsweeper, free_of_joined h.queue hjoined, fun t => ?_⟩
  cases t with
  | main => exact h.main
  | sweeper => exact h.sweeper (by rw [hsweeper]; exact fun hpass => by cases hpass)
  | worker i =>
    by_contra hbusy
    obtain ⟨conn, hat⟩ := h.client i hbusy
    have hret := hworkers i
    rw [HasReturned, hat] at hret
    cases hret

theorem Sound.queue_step {q : State numWorkers} (h : Sound capacity fds base clock s)
    (hstep : Step (server capacity numWorkers) s.queue q)
    (hbusy : ∀ i conn, s.queue.status (some i) = .running (.caller (.workerClient conn)) →
      q.status (some i) = s.queue.status (some i) ∨ s.table.thread (.worker i) = .idle) :
    Sound capacity fds base clock { s with queue := q } where
  queue := h.queue.tail hstep
  table := h.table
  client i hi := by
    obtain ⟨conn, hat⟩ := h.client i hi
    rcases hbusy i conn hat with hsame | hidle
    · exact ⟨conn, hsame.trans hat⟩
    · exact absurd hidle hi
  sweeper := h.sweeper
  main := h.main
  joined hmain := ⟨(h.joined hmain).1.step hstep, (h.joined hmain).2⟩
  holds := h.holds
  held := h.held
  freed := h.freed

theorem Sound.table_step {p : SweeperPoint} {table : TableThreads numWorkers numBuckets}
    {t : User numWorkers} {a : Rwlock.Action Op Outcome}
    (h : Sound capacity fds base clock s) (hrunning : s.main = .running)
    (hmove : Rwlock.Moves (hashTableCode numBuckets) t a s.table table)
    (hmain : t ≠ .main)
    (hclient : ∀ i, t = .worker i →
      ∃ conn, s.queue.status (some i) = .running (.caller (.workerClient conn)))
    (hsweeper : p ≠ .pass → table.thread .sweeper = .idle) :
    Sound capacity fds base clock { s with sweeper := p, table := table } where
  queue := h.queue
  table _ := (h.table hrunning).tail hmove.step
  client i hi := by
    by_cases hti : User.worker i = t
    · exact hclient i hti.symm
    · dsimp only at hi
      rw [hmove.thread_of_ne hti] at hi
      exact h.client i hi
  sweeper := hsweeper
  main := (hmove.thread_of_ne hmain.symm).trans h.main
  joined hno := absurd hrunning hno
  holds := by
    dsimp only
    rw [hrunning]
    trivial
  held hno := absurd hrunning hno
  freed := h.freed

theorem Sound.sweeper_step {p : SweeperPoint} {table : TableThreads numWorkers numBuckets}
    (h : Sound capacity fds base clock s)
    (hstep : SweeperStep s.queue.shared.gShutdown s.sweeper s.table p table) :
    Sound capacity fds base clock { s with sweeper := p, table := table } := by
  have hrunning : s.sweeper ≠ .returned → s.main = .running := by
    intro hsweeper
    by_contra hmain
    exact hsweeper (h.joined hmain).2
  have hstay : s.sweeper ≠ .returned → s.sweeper ≠ .pass →
      Sound capacity fds base clock { s with sweeper := p } := by
    intro hret hpass
    exact ⟨h.queue, h.table, h.client, fun _ => h.sweeper hpass, h.main,
      fun hmain => absurd (hrunning hret) hmain, h.holds, h.held, h.freed⟩
  generalize hp : s.sweeper = p₀ at hstep
  cases hstep with
  | test | wake | leave hflag => exact hstay (by simp [hp]) (by simp [hp])
  | enter hflag hmove =>
    exact h.table_step (hrunning (by simp [hp])) hmove (by simp) (by simp)
      (fun hno => absurd rfl hno)
  | lock hmove | run hmove =>
    exact h.table_step (hrunning (by simp [hp])) hmove (by simp) (by simp)
      (fun hno => absurd rfl hno)
  | unlock hmove =>
    exact h.table_step (hrunning (by simp [hp])) hmove (by simp) (by simp)
      (fun _ => hmove.idle_of_unlock)

theorem Alone.call_none (h : Alone s) (t : User numWorkers) : s.table.call t = none := by
  rw [Rwlock.Config.call, h.table t]
  rfl

theorem Sound.join_step (h : Sound capacity fds base clock s) (hmain : s.main = .running)
    (hworkers : Joined s.queue) (hsweeper : s.sweeper = .returned) :
    Sound capacity fds base clock { s with main := .freeWorkers } := by
  have halone := h.alone hworkers hsweeper
  have hreach := h.table hmain
  refine ⟨h.queue, fun hno => ?_, h.client, h.sweeper, h.main, fun _ => ⟨hworkers, hsweeper⟩,
    accounts_of_idle hreach halone.call_none, fun _ t => ?_, ?_⟩
  · cases hno
  · obtain ⟨hb, -⟩ := Rwlock.books_sim_of_reachable hashTableCode_correct
      (represents_emptyStore base) hreach
    have hheld := hb.held t
    rw [halone.call_none] at hheld
    simpa [CleanupPoint.locked] using hheld
  · rw [h.freed, hmain]
    rfl

theorem Sound.cleanup_step (h : Sound capacity fds base clock s) {main : CleanupPoint numBuckets}
    {table : TableThreads numWorkers numBuckets} {freed : Block → Bool}
    (hmain : s.main ≠ .running) (hmain' : main ≠ .running)
    (hthread : table.thread = s.table.thread) (hholds : main.Holds base table.memory)
    (hheld : ∀ t, table.held t = if t = .main ∧ main.locked = true then some .exclusive else none)
    (hfreed : freed = main.hasFreed) :
    Sound capacity fds base clock ⟨s.queue, table, s.sweeper, main, freed⟩ := by
  refine ⟨h.queue, fun hno => absurd hno hmain', ?_, ?_, ?_, fun _ => h.joined hmain, hholds,
    fun _ => hheld, hfreed⟩
  · rw [hthread]
    exact h.client
  · rw [hthread]
    exact h.sweeper
  · rw [hthread]
    exact h.main

theorem advance_locked {p p' : DestroyPoint numBuckets} {st st' : Store numBuckets}
    (h : p.advance st = some (p', st')) :
    (CleanupPoint.destroy p).locked = true ∧ (CleanupPoint.destroy p').locked = true ∧
      (CleanupPoint.destroy p').hasFreed = (CleanupPoint.destroy p).hasFreed := by
  cases p with
  | readHead i =>
    cases h
    exact ⟨rfl, rfl, rfl⟩
  | visit i curr =>
    cases curr with
    | none =>
      simp only [DestroyPoint.advance, Option.some.injEq, Prod.mk.injEq] at h
      obtain ⟨rfl, -⟩ := h
      split <;> exact ⟨rfl, rfl, rfl⟩
    | some curr =>
      simp only [DestroyPoint.advance, Option.some.injEq] at h
      split at h <;> cases h <;> exact ⟨rfl, rfl, rfl⟩
  | free i curr next =>
    simp only [DestroyPoint.advance, Option.some.injEq] at h
    split at h <;> cases h <;> exact ⟨rfl, rfl, rfl⟩
  | _ => cases h

theorem Sound.main_step (h : Sound capacity fds base clock s) (hstep : MainStep s s') :
    Sound capacity fds base clock s' := by
  have hholds := h.holds
  have hheld := h.held
  have hfreed := h.freed
  cases hstep with
  | freeWorkers hmain | freeFds hmain | freeBuckets hmain | freeTable hmain =>
    rw [hmain] at hholds hheld hfreed
    refine h.cleanup_step (by simp [hmain]) (by simp) rfl hholds (hheld (by simp)) ?_
    rw [hfreed]
    funext b
    cases b <;> rfl
  | destroyQueue hmain | destroyLock hmain =>
    rw [hmain] at hholds hheld hfreed
    exact h.cleanup_step (by simp [hmain]) (by simp) rfl hholds (hheld (by simp)) hfreed
  | wrlock hmain hfree =>
    rw [hmain] at hholds hheld hfreed
    refine h.cleanup_step (by simp [hmain]) (by simp) rfl hholds.remains (fun t => ?_) hfreed
    have ht := hheld (by simp) t
    by_cases htm : t = .main
    · simp [htm, CleanupPoint.locked]
    · simpa [htm] using ht
  | advance hmain hadvance =>
    rw [hmain] at hholds hheld hfreed
    obtain ⟨hlocked, hlocked', hsame⟩ := advance_locked hadvance
    refine h.cleanup_step (by simp [hmain]) (by simp) rfl (hholds.advance hadvance) (fun t => ?_)
      (hfreed.trans hsame.symm)
    have ht := hheld (by simp) t
    rw [hlocked] at ht
    rw [hlocked']
    exact ht
  | unlock hmain =>
    rw [hmain] at hholds hheld hfreed
    refine h.cleanup_step (by simp [hmain]) (by simp) rfl hholds (fun t => ?_) hfreed
    have ht := hheld (by simp) t
    by_cases htm : t = .main
    · simp [htm, CleanupPoint.locked]
    · simpa [htm] using ht

theorem sound_of_reachable (h : LifetimeReachable capacity fds base clock s) :
    Sound capacity fds base clock s := by
  induction h with
  | refl => exact sound_start
  | tail _ hstep ih =>
    cases hstep with
    | queue hstep hbusy => exact ih.queue_step hstep hbusy
    | tick hle =>
      exact ⟨ih.queue, fun hmain => (ih.table hmain).tail (.tick hle), ih.client, ih.sweeper,
        ih.main, ih.joined, ih.holds, ih.held, ih.freed⟩
    | client hat hop hmove =>
      refine ih.table_step (ih.running_of_client hat) hmove (by simp) (fun j hj => ?_) (fun hp => ?_)
      · cases hj
        exact ⟨_, hat⟩
      · rw [hmove.thread_of_ne (by simp)]
        exact ih.sweeper hp
    | sweeper hstep => exact ih.sweeper_step hstep
    | joined hmain hworkers hsweeper => exact ih.join_step hmain hworkers hsweeper
    | main hstep => exact ih.main_step hstep

end Invariant

end CpreLabs.Server
