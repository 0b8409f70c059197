import CpreLabs.HandleTable
import CpreLabs.PthreadCounting
import CpreLabs.ShutdownDrain

/-!
# The descriptors of the server

`accept` and `dup` return any number that is not in use, so a number comes back once it has been
closed. The queue passes on bare numbers; what they refer to is looked up where they are used.
-/
namespace CpreLabs.Server
open Pthread WorkQueue Relation Handles

variable {capacity numWorkers : ℕ+}

inductive OpenFile where
  | listener
  /-- Connections are counted in the order in which `accept` returns them, which is the order in
  which `main` stores them. -/
  | connection (n : ℕ)

/-- Where a worker stands in `handle_client(conn, q->table); close(conn);`. -/
inductive ClientPoint where
  | dup
  /-- `fdopen` of what `dup` has returned, if it has not failed. -/
  | fdopen (copy : Option ℕ)
  /-- The loop over the lines; none of them changes a descriptor. -/
  | serve (copy : ℕ)
  | fclose (copy : ℕ)
  | close
  | closed

structure Descriptors (numWorkers : ℕ+) where
  queue : State numWorkers
  table : ℤ → Option OpenFile
  client : Fin numWorkers → ClientPoint
  listenFd : Option ℤ
  /-- Copies that `fdopen` could not take. -/
  lost : List ℤ

def descriptorsStart (fds : ℤ → ℤ) (listenFd : ℕ) : Descriptors numWorkers where
  queue := serverStart numWorkers fds
  table := Function.update (fun _ => none) (listenFd : ℤ) (some .listener)
  client _ := .dup
  listenFd := some listenFd
  lost := []

/-- One statement of a worker that has taken `conn`. -/
inductive ClientStep (conn : ℤ) : ClientPoint → (ℤ → Option OpenFile) → List ℤ →
    ClientPoint → (ℤ → Option OpenFile) → List ℤ → Prop
  | dup {table lost file} {copy : ℕ} (hopen : table conn = some file) (hfree : table copy = none) :
      ClientStep conn .dup table lost
        (.fdopen (some copy)) (Function.update table (copy : ℤ) (some file)) lost
  | dupFails {table lost} : ClientStep conn .dup table lost (.fdopen none) table lost
  | fdopen {table lost copy} :
      ClientStep conn (.fdopen (some copy)) table lost (.serve copy) table lost
  | fdopenFails {table lost} {copy : ℕ} :
      ClientStep conn (.fdopen (some copy)) table lost .close table (lost ++ [(copy : ℤ)])
  | fdopenNothing {table lost} : ClientStep conn (.fdopen none) table lost .close table lost
  | lastLine {table lost copy} :
      ClientStep conn (.serve copy) table lost (.fclose copy) table lost
  | fclose {table lost} {copy : ℕ} :
      ClientStep conn (.fclose copy) table lost .close (Function.update table (copy : ℤ) none) lost
  | close {table lost} :
      ClientStep conn .close table lost .closed (Function.update table conn none) lost

/-- A step of the threads, with what it does to the descriptors. -/
inductive DescriptorStep (capacity : ℕ+) :
    Descriptors numWorkers → Descriptors numWorkers → Prop
  /-- Neither an `accept` that succeeds nor the end of a client. -/
  | run {s q} (hstep : Step (server capacity numWorkers) s.queue q)
      (haccept : ∀ conn, q.status none = .running (.caller (.mainEnqueue conn)) →
        s.queue.status none = q.status none)
      (hstay : ∀ i conn, s.queue.status (some i) = .running (.caller (.workerClient conn)) →
        q.status (some i) = s.queue.status (some i)) :
      DescriptorStep capacity s { s with queue := q }
  | accept {s q} {conn : ℕ} (hstep : Step (server capacity numWorkers) s.queue q)
      (hat : s.queue.status none = .running (.caller .mainAccept))
      (hconn : q.status none = .running (.caller (.mainEnqueue conn)))
      (hfree : s.table conn = none) :
      DescriptorStep capacity s { s with
        queue := q
        table := Function.update s.table (conn : ℤ)
          (some (.connection s.queue.shared.enqueued.length)) }
  | client {s i conn p table lost}
      (hat : s.queue.status (some i) = .running (.caller (.workerClient conn)))
      (hstep : ClientStep conn (s.client i) s.table s.lost p table lost) :
      DescriptorStep capacity s { s with
        table := table
        client := Function.update s.client i p
        lost := lost }
  | leave {s q i conn} (hstep : Step (server capacity numWorkers) s.queue q)
      (hat : s.queue.status (some i) = .running (.caller (.workerClient conn)))
      (hclosed : s.client i = .closed)
      (hleft : q.status (some i) = .running (.caller .workerLoop)) :
      DescriptorStep capacity s { s with
        queue := q
        client := Function.update s.client i .dup }
  | closeListener {s fd} (hjoined : Joined s.queue) (hfd : s.listenFd = some fd) :
      DescriptorStep capacity s { s with
        table := Function.update s.table fd none
        listenFd := none }

def DescriptorsReachable (capacity : ℕ+) (fds : ℤ → ℤ) (listenFd : ℕ)
    (s : Descriptors numWorkers) : Prop :=
  ReflTransGen (DescriptorStep capacity) (descriptorsStart fds listenFd) s

/-- The connection in the hands of a thread. -/
def carries : Pc Caller → Option ℤ
  | .caller (.mainEnqueue conn) => some conn
  | .caller (.workerClient conn) => some conn
  | .enqTest fd _ | .enqWait fd _ | .enqStore fd _ | .deqSignal fd _ => some fd
  | .deqUnlock fd _ => if fd = -1 then none else some fd
  | _ => none

def ClientPoint.copy : ClientPoint → Option ℤ
  | .fdopen (some copy) | .serve copy | .fclose copy => some copy
  | _ => none

inductive Slot (numWorkers : ℕ+) where
  | listener
  | main
  | queued (k : ℕ)
  | conn (i : Fin numWorkers)
  | copy (i : Fin numWorkers)
  | lost (k : ℕ)
  deriving DecidableEq

def Descriptors.slot (s : Descriptors numWorkers) : Slot numWorkers → Option ℤ
  | .listener => s.listenFd
  | .main => carries (s.queue.status none).point
  | .queued k =>
      if s.queue.shared.dequeued.length ≤ k then s.queue.shared.enqueued[k]? else none
  | .conn i => match s.client i with
    | .closed => none
    | _ => carries (s.queue.status (some i)).point
  | .copy i => (s.client i).copy
  | .lost k => s.lost[k]?

section Threads

variable {a b : State numWorkers} {t : Thread numWorkers} {l n : Pc Caller}

/-- An instruction other than a statement keeps what the thread carries. -/
def KeepsCarried (l : Pc Caller) : Instr (Thread numWorkers) Cond (Pc Caller) Shared → Prop
  | .lock n | .unlock n | .wait _ n | .signal _ n | .broadcast _ n | .join _ n =>
      carries n = carries l
  | _ => True

theorem keepsCarried_main {v : Shared} (hat : mainAt v l) :
    KeepsCarried l ((server capacity numWorkers).instr none l) := by
  cases l with
  | caller k =>
    cases k with
    | mainTest | mainAccept => trivial
    | mainEnqueue conn | mainShutdown => rfl
    | mainJoin i =>
      by_cases hi : i < (numWorkers : ℕ)
      · simp [server, program, instr, callers, hi, KeepsCarried, carries]
      · simp [server, program, instr, callers, hi, KeepsCarried]
    | _ => exact hat.elim
  | enqUnlock k =>
    cases hat
    rfl
  | broadcast k | broadcastUnlock k =>
    obtain ⟨rfl, -⟩ := hat
    rfl
  | enqTest fd k | enqStore fd k => trivial
  | enqWait fd k | enqSignal k => rfl
  | _ => exact hat.elim

theorem keepsCarried_worker {i : Fin numWorkers} (hat : workerAt l)
    (hnumber : ∀ fd k, l = .deqSignal fd k → fd ≠ -1) :
    KeepsCarried l ((server capacity numWorkers).instr (some i) l) := by
  cases l with
  | caller k =>
    cases k with
    | workerLoop => rfl
    | workerClient conn | workerReturn => trivial
    | _ => exact hat.elim
  | deqTest k | deqCheck k | deqTake k => trivial
  | deqWait k => rfl
  | deqSignal fd k => exact if_neg (hnumber fd k rfl)
  | deqUnlock fd k =>
    cases hat
    by_cases hfd : fd = -1
    · simp [server, program, instr, KeepsCarried, carries, dispatch, hfd]
    · simp [server, program, instr, KeepsCarried, carries, dispatch, hfd]
  | _ => exact hat.elim

inductive Handover (capacity : ℕ+) (a b : State numWorkers) : Prop
  | quiet (hcarries : ∀ t, carries (b.status t).point = carries (a.status t).point)
      (henqueued : b.shared.enqueued = a.shared.enqueued)
      (hdequeued : b.shared.dequeued = a.shared.dequeued)
  | accept (conn : ℕ) (hat : a.status none = .running (.caller .mainAccept))
      (hb : b = a.goto none (.caller (.mainEnqueue conn)))
  | store (fd : ℤ) (k : Caller) (hat : a.status none = .running (.enqStore fd k))
      (hb : b = { a.goto none (.enqSignal k) with shared := store capacity fd a.shared })
  | take (i : Fin numWorkers) (k : ℤ → Caller) (hat : a.status (some i) = .running (.deqTake k))
      (hb : b = { a.goto (some i) (.deqSignal (a.shared.queue.fds a.shared.queue.head) k) with
        shared := take capacity a.shared })
  | leave (i : Fin numWorkers) (conn : ℤ)
      (hat : a.status (some i) = .running (.caller (.workerClient conn)))
      (hb : b = a.goto (some i) (.caller .workerLoop))

theorem Handover.of_update {st : Status Cond (Pc Caller)}
    (hstatus : b.status = Function.update a.status t st)
    (hcarries : carries st.point = carries (a.status t).point)
    (henqueued : b.shared.enqueued = a.shared.enqueued)
    (hdequeued : b.shared.dequeued = a.shared.dequeued) : Handover capacity a b := by
  refine .quiet (fun u => ?_) henqueued hdequeued
  by_cases hu : u = t
  · rw [hu, hstatus, Function.update_self, hcarries]
  · rw [hstatus, Function.update_of_ne hu]

theorem point_wakeAll (a : State numWorkers) (c : Cond) (u : Thread numWorkers) :
    ((a.wakeAll c).status u).point = (a.status u).point := by
  rcases a.wakeAll_cases c u with ⟨l, hst, hst'⟩ | ⟨-, hst'⟩
  · rw [hst, hst']
    rfl
  · rw [hst']

theorem handover_exec {f : Shared → Pc Caller × Shared} (hst : a.status t = .running l)
    (hat : standsAt a.shared t l) (hi : (server capacity numWorkers).instr t l = .exec f) :
    Handover capacity a { a.goto t (f a.shared).1 with shared := (f a.shared).2 } := by
  have hquiet : carries (f a.shared).1 = carries l → (f a.shared).2 = a.shared →
      Handover capacity a { a.goto t (f a.shared).1 with shared := (f a.shared).2 } := by
    intro hcarries hv
    refine .of_update rfl ?_ (congrArg _ hv) (congrArg _ hv)
    rw [hst]
    exact hcarries
  cases t with
  | none =>
    cases l with
    | caller k =>
      cases k with
      | mainTest =>
        cases hi
        apply hquiet
        · dsimp only
          cases a.shared.gShutdown <;> rfl
        · rfl
      | mainJoin i =>
        by_cases hlt : i < (numWorkers : ℕ)
        · simp [server, program, instr, callers, hlt] at hi
        · simp [server, program, instr, callers, hlt] at hi
      | mainAccept | mainEnqueue conn | mainShutdown => cases hi
      | _ => exact hat.elim
    | enqTest fd k =>
      cases hi
      apply hquiet
      · dsimp only
        split <;> rfl
      · rfl
    | enqStore fd k =>
      cases hi
      exact .store fd k hst rfl
    | deqTest k | deqCheck k | deqTake k => exact hat.elim
    | _ => cases hi
  | some i =>
    cases l with
    | caller k =>
      cases k with
      | workerLoop | workerClient conn | workerReturn => cases hi
      | _ => exact hat.elim
    | deqTest k =>
      cases hi
      apply hquiet
      · dsimp only
        split <;> rfl
      · rfl
    | deqCheck k =>
      cases hi
      apply hquiet
      · dsimp only
        split <;> rfl
      · rfl
    | deqTake k =>
      cases hi
      exact .take i k hst rfl
    | enqTest fd k | enqStore fd k => exact hat.elim
    | _ => cases hi

theorem handover_choose {ok : Pc Caller → Bool} (hst : a.status t = .running l)
    (hat : standsAt a.shared t l) (hi : (server capacity numWorkers).instr t l = .choose ok)
    (hok : ok n = true) : Handover capacity a (a.goto t n) := by
  cases t with
  | none =>
    cases l with
    | caller k =>
      cases k with
      | mainAccept =>
        cases hi
        cases n with
        | caller k' =>
          cases k' with
          | mainTest =>
            apply Handover.of_update rfl
            · rw [hst]
              rfl
            · rfl
            · rfl
          | mainEnqueue conn => exact .accept conn hst rfl
          | _ => cases hok
        | _ => cases hok
      | mainJoin i =>
        by_cases hlt : i < (numWorkers : ℕ)
        · simp [server, program, instr, callers, hlt] at hi
        · simp [server, program, instr, callers, hlt] at hi
      | mainTest | mainEnqueue conn | mainShutdown => cases hi
      | _ => exact hat.elim
    | _ => cases hi
  | some i =>
    cases l with
    | caller k =>
      cases k with
      | workerClient conn =>
        cases hi
        cases n with
        | caller k' =>
          have hk : k' = .workerLoop := of_decide_eq_true hok
          subst hk
          exact .leave i conn hst rfl
        | _ => cases hok
      | workerLoop | workerReturn => cases hi
      | _ => exact hat.elim
    | _ => cases hi

theorem handover_step (hstep : Step (server capacity numWorkers) a b)
    (hloc : ∀ t, Located t (a.status t) a.shared)
    (hnumber : ∀ t fd k, a.status t = .running (.deqSignal fd k) → fd ≠ -1) :
    Handover capacity a b := by
  have hkeeps : ∀ {t : Thread numWorkers} {l : Pc Caller}, a.status t = .running l →
      KeepsCarried l ((server capacity numWorkers).instr t l) := by
    intro t l hst
    have hat := (hloc t).stands hst
    cases t with
    | none => exact keepsCarried_main hat
    | some i =>
      apply keepsCarried_worker hat
      intro fd k hl
      rw [hl] at hst
      exact hnumber _ fd k hst
  cases hstep with
  | lock hs hi _ | unlock hs hi _ | wait hs hi _ | signalNone hs hi _ | join hs hi _ _ =>
    have hkeep := hkeeps hs
    rw [hi] at hkeep
    apply Handover.of_update rfl
    · rw [hs]
      exact hkeep
    · rfl
    · rfl
  | @signalOne t l c next u l' hs hi hu =>
    have hkeep := hkeeps hs
    rw [hi] at hkeep
    refine .quiet (fun v => ?_) rfl rfl
    by_cases hv : v = t
    · rw [hv, Config.goto_self, hs]
      exact hkeep
    · rw [Config.goto_of_ne hv]
      by_cases hvu : v = u
      · rw [hvu, Config.wake_self, hu]
        rfl
      · rw [Config.wake_of_ne hvu]
  | @broadcast t l c next hs hi =>
    have hkeep := hkeeps hs
    rw [hi] at hkeep
    refine .quiet (fun v => ?_) rfl rfl
    by_cases hv : v = t
    · rw [hv, Config.goto_self, hs]
      exact hkeep
    · rw [Config.goto_of_ne hv, point_wakeAll]
  | exec hs hi => exact handover_exec hs ((hloc _).stands hs) hi
  | choose hs hi hok => exact handover_choose hs ((hloc _).stands hs) hi hok
  | spurious hs | resume hs _ =>
    apply Handover.of_update rfl
    · rw [hs]
      rfl
    · rfl
    · rfl
  | env e => exact .quiet (fun _ => rfl) rfl rfl

end Threads

end CpreLabs.Server
