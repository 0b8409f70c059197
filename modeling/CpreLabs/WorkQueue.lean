import CpreLabs.PthreadWaiting
import CpreLabs.RingBuffer
import Mathlib.Data.PNat.Basic

/-!
# The work queue of `kvserver.c`

`queue_enqueue` and `queue_dequeue`, one program point per statement, for any set of
threads and whatever these do between their calls. Variables of type `int` are integers:
none of them leaves `[0, capacity]`.
-/
namespace CpreLabs.WorkQueue
open Pthread RingBuffer

/-- `work_queue_t` without its capacity, mutex and condition variables. -/
structure Queue where
  fds : ℤ → ℤ
  count : ℤ
  head : ℤ
  tail : ℤ

structure Shared where
  queue : Queue
  gShutdown : Bool
  /-- History: what `queue_enqueue` has stored, and what `queue_dequeue` has taken. -/
  enqueued : List ℤ
  dequeued : List ℤ

inductive Cond where
  | notEmpty
  | notFull
  deriving DecidableEq

/-- What a thread does next outside the queue's functions; `K` are its program points. -/
inductive Action (T K : Type*) where
  | enqueue (fd : ℤ) (k : K)
  | dequeue (k : ℤ → K)
  /-- Lock, wake all who wait on `not_empty`, unlock. -/
  | broadcast (k : K)
  | testShutdown (set clear : K)
  | choose (ok : K → Bool)
  | join (t : T) (k : K)
  | halt

inductive Pc (K : Type*) where
  | caller (k : K)
  | enqTest (fd : ℤ) (k : K)
  | enqWait (fd : ℤ) (k : K)
  | enqStore (fd : ℤ) (k : K)
  | enqSignal (k : K)
  | enqUnlock (k : K)
  | deqTest (k : ℤ → K)
  | deqWait (k : ℤ → K)
  | deqCheck (k : ℤ → K)
  | deqTake (k : ℤ → K)
  | deqSignal (fd : ℤ) (k : ℤ → K)
  | deqUnlock (fd : ℤ) (k : ℤ → K)
  | broadcast (k : K)
  | broadcastUnlock (k : K)

variable {T K : Type*} (capacity : ℕ+)

/-- `q->fds[q->tail] = fd; q->tail = (q->tail + 1) % q->capacity; q->count++;` -/
def store (fd : ℤ) (s : Shared) : Shared :=
  { s with
    queue := { s.queue with
      fds := Function.update s.queue.fds s.queue.tail fd
      tail := (s.queue.tail + 1).tmod capacity
      count := s.queue.count + 1 }
    enqueued := s.enqueued ++ [fd] }

/-- `q->head = (q->head + 1) % q->capacity; q->count--;`, after `fd = q->fds[q->head]`. -/
def take (s : Shared) : Shared :=
  { s with
    queue := { s.queue with
      head := (s.queue.head + 1).tmod capacity
      count := s.queue.count - 1 }
    dequeued := s.dequeued ++ [s.queue.fds s.queue.head] }

def instr (callers : T → K → Action T K) (t : T) : Pc K → Instr T Cond (Pc K) Shared
  | .caller k => match callers t k with
    | .enqueue fd k => .lock (.enqTest fd k)
    | .dequeue k => .lock (.deqTest k)
    | .broadcast k => .lock (.broadcast k)
    | .testShutdown set clear => .exec fun s => (.caller (if s.gShutdown then set else clear), s)
    | .choose ok => .choose fun
      | .caller k => ok k
      | _ => false
    | .join u k => .join u (.caller k)
    | .halt => .halt
  | .enqTest fd k => .exec fun s =>
      (if s.queue.count = capacity then .enqWait fd k else .enqStore fd k, s)
  | .enqWait fd k => .wait .notFull (.enqTest fd k)
  | .enqStore fd k => .exec fun s => (.enqSignal k, store capacity fd s)
  | .enqSignal k => .signal .notEmpty (.enqUnlock k)
  | .enqUnlock k => .unlock (.caller k)
  | .deqTest k => .exec fun s =>
      (if s.queue.count = 0 ∧ s.gShutdown = false then .deqWait k else .deqCheck k, s)
  | .deqWait k => .wait .notEmpty (.deqTest k)
  | .deqCheck k => .exec fun s =>
      (if s.queue.count = 0 ∧ s.gShutdown = true then .deqUnlock (-1) k else .deqTake k, s)
  | .deqTake k => .exec fun s => (.deqSignal (s.queue.fds s.queue.head) k, take capacity s)
  | .deqSignal fd k => .signal .notFull (.deqUnlock fd k)
  | .deqUnlock fd k => .unlock (.caller (k fd))
  | .broadcast k => .broadcast .notEmpty (.broadcastUnlock k)
  | .broadcastUnlock k => .unlock (.caller k)

/-- The only event of the surroundings is the signal handler, at any moment. -/
def program (callers : T → K → Action T K) : Program T Cond (Pc K) Shared Unit where
  instr := instr capacity callers
  env _ s := { s.shared with gShutdown := true }

/-- All threads at their entry points; the memory of `malloc` holds anything. -/
def start (fds : ℤ → ℤ) (entry : T → K) : Config T Cond (Pc K) Shared where
  owner := none
  status t := .running (.caller (entry t))
  shared := ⟨⟨fds, 0, 0, 0⟩, false, [], []⟩

def inside : Pc K → Bool
  | .caller _ => false
  | _ => true

/-- Where a thread continues that has waited on a condition variable. -/
def resumesAt : Cond → Pc K → Prop
  | .notFull, .enqTest _ _ => True
  | .notEmpty, .deqTest _ => True
  | _, _ => False

theorem bracketed (callers : T → K → Action T K) :
    (program capacity callers).Bracketed inside := by
  intro t l
  cases l with
  | caller k =>
    simp only [program, instr]
    cases callers t k with
    | choose ok =>
      intro l' hok
      cases l' with
      | caller k' => rfl
      | _ => cases hok
    | _ => simp [Instr.Bracketed, inside]
  | enqTest fd k =>
    intro s
    dsimp only
    split <;> rfl
  | deqTest k =>
    intro s
    dsimp only
    split <;> rfl
  | deqCheck k =>
    intro s
    dsimp only
    split <;> rfl
  | _ => simp [program, instr, Instr.Bracketed, inside]

theorem exec_caller {callers : T → K → Action T K} {t : T} {k : K}
    {f : Shared → Pc K × Shared} (hi : (program capacity callers).instr t (.caller k) = .exec f)
    (v : Shared) : (f v).2 = v := by
  simp only [program, instr] at hi
  cases hc : callers t k with
  | testShutdown set clear =>
    rw [hc] at hi
    cases hi
    rfl
  | _ => simp [hc] at hi

theorem exec_gShutdown {callers : T → K → Action T K} {t : T} {l : Pc K}
    {f : Shared → Pc K × Shared} (hi : (program capacity callers).instr t l = .exec f)
    (v : Shared) : (f v).2.gShutdown = v.gShutdown := by
  cases l with
  | caller k => rw [exec_caller _ hi]
  | enqTest fd k =>
    cases hi
    rfl
  | enqStore fd k =>
    cases hi
    rfl
  | deqTest k =>
    cases hi
    rfl
  | deqCheck k =>
    cases hi
    rfl
  | deqTake k =>
    cases hi
    rfl
  | _ => cases hi

/-- The unlock with which a call ends whose caller continues at `k'`. -/
def returnsTo (k' : K) : Pc K → Prop
  | .enqUnlock k | .broadcastUnlock k => k = k'
  | .deqUnlock fd k => k fd = k'
  | _ => False

section Steps

variable [DecidableEq T] {callers : T → K → Action T K} {a b : Config T Cond (Pc K) Shared} {t : T}

theorem ran_cases (hstep : Step (program capacity callers) a b)
    (hwoken : ∀ c l, a.status t = .woken c l → resumesAt c l) {l' : Pc K}
    (hl' : ∀ c, ¬resumesAt c l') (h : b.status t = .running l') :
    a.status t = .running l' ∨
      ∃ l, a.status t = .running l ∧ ((program capacity callers).instr t l).Results
        (program capacity callers) a (.running l') b.shared := by
  rcases hstep.thread_cases t with hsame | ⟨c, l, -, hst', -⟩ | ⟨c, l, hst, hst', -⟩ | ⟨l, hst, hres⟩
  · exact Or.inl (hsame.symm.trans h)
  · rw [h] at hst'
    cases hst'
  · rw [h] at hst'
    cases hst'
    exact absurd (hwoken c _ hst) (hl' c)
  · rw [h] at hres
    exact Or.inr ⟨l, hst, hres⟩

theorem caller_cases (hstep : Step (program capacity callers) a b)
    (hwoken : ∀ c l, a.status t = .woken c l → resumesAt c l) {k' : K}
    (h : b.status t = .running (.caller k')) :
    a.status t = .running (.caller k') ∨
      (∃ k, a.status t = .running (.caller k) ∧
        ((program capacity callers).instr t (.caller k)).Results (program capacity callers) a
          (.running (.caller k')) b.shared) ∨
      ∃ l, a.status t = .running l ∧ returnsTo k' l ∧ b.shared = a.shared := by
  have hnew : ∀ c, ¬resumesAt c (Pc.caller k') := fun c hc => by cases c <;> exact hc.elim
  rcases ran_cases capacity hstep hwoken hnew h with hsame | ⟨l, hst, hres⟩
  · exact Or.inl hsame
  · cases l with
    | caller k => exact Or.inr (Or.inl ⟨k, hst, hres⟩)
    | enqUnlock k =>
      obtain ⟨hpc, hv⟩ := hres
      cases hpc
      exact Or.inr (Or.inr ⟨_, hst, rfl, hv⟩)
    | deqUnlock fd k =>
      obtain ⟨hpc, hv⟩ := hres
      cases hpc
      exact Or.inr (Or.inr ⟨_, hst, rfl, hv⟩)
    | broadcastUnlock k =>
      obtain ⟨hpc, hv⟩ := hres
      cases hpc
      exact Or.inr (Or.inr ⟨_, hst, rfl, hv⟩)
    | enqTest fd k =>
      have hpc := Status.running.inj hres.1
      dsimp only at hpc
      split at hpc <;> cases hpc
    | deqTest k =>
      have hpc := Status.running.inj hres.1
      dsimp only at hpc
      split at hpc <;> cases hpc
    | deqCheck k =>
      have hpc := Status.running.inj hres.1
      dsimp only at hpc
      split at hpc <;> cases hpc
    | _ => cases hres.1

theorem broadcastUnlock_cases (hstep : Step (program capacity callers) a b)
    (hwoken : ∀ c l, a.status t = .woken c l → resumesAt c l) {k : K}
    (h : b.status t = .running (.broadcastUnlock k)) :
    a.status t = .running (.broadcastUnlock k) ∨ a.status t = .running (.broadcast k) := by
  have hnew : ∀ c, ¬resumesAt c (Pc.broadcastUnlock k) := fun c hc => by cases c <;> exact hc.elim
  rcases ran_cases capacity hstep hwoken hnew h with hsame | ⟨l, hst, hres⟩
  · exact Or.inl hsame
  · cases l with
    | caller k₀ =>
      simp only [program, instr] at hres
      cases hc : callers t k₀ with
      | choose ok =>
        rw [hc] at hres
        obtain ⟨l', hok, hl', -⟩ := hres
        cases hl'
        cases hok
      | halt =>
        rw [hc] at hres
        exact hres.elim
      | _ =>
        rw [hc] at hres
        cases hres.1
    | broadcast k₀ =>
      cases hres.1
      exact Or.inr hst
    | enqTest fd k₀ =>
      have hpc := Status.running.inj hres.1
      dsimp only at hpc
      split at hpc <;> cases hpc
    | deqTest k₀ =>
      have hpc := Status.running.inj hres.1
      dsimp only at hpc
      split at hpc <;> cases hpc
    | deqCheck k₀ =>
      have hpc := Status.running.inj hres.1
      dsimp only at hpc
      split at hpc <;> cases hpc
    | _ => cases hres.1

end Steps

theorem owned_start [DecidableEq T] (fds : ℤ → ℤ) (entry : T → K) :
    Owned inside (start fds entry) := by
  intro t
  simp [start, Status.Agrees, inside]

/-- The cells from `head` on hold what was stored and not yet taken, in order. -/
structure Fifo (s : Shared) : Prop where
  count_nonneg : 0 ≤ s.queue.count
  count_le : s.queue.count ≤ capacity
  head_nonneg : 0 ≤ s.queue.head
  head_lt : s.queue.head < capacity
  tail_eq : s.queue.tail = (s.queue.head + s.queue.count) % capacity
  enqueued_eq : s.enqueued =
    s.dequeued ++ window s.queue.fds capacity s.queue.head s.queue.count.toNat

variable {capacity}

theorem capacity_pos : (0 : ℤ) < capacity := by
  exact_mod_cast capacity.pos

theorem Fifo.tail_nonneg {s : Shared} (h : Fifo capacity s) : 0 ≤ s.queue.tail := by
  rw [h.tail_eq]
  exact Int.emod_nonneg _ capacity_pos.ne'

theorem Fifo.tail_lt {s : Shared} (h : Fifo capacity s) : s.queue.tail < capacity := by
  rw [h.tail_eq]
  exact Int.emod_lt_of_pos _ capacity_pos

theorem Fifo.store {s : Shared} (h : Fifo capacity s) (hroom : s.queue.count ≠ capacity)
    (fd : ℤ) : Fifo capacity (store capacity fd s) := by
  have hcount := h.count_nonneg
  have hle := h.count_le
  have hn : ((s.queue.count.toNat : ℕ) : ℤ) = s.queue.count := Int.toNat_of_nonneg hcount
  refine ⟨?_, ?_, h.head_nonneg, h.head_lt, ?_, ?_⟩
  · simp only [WorkQueue.store]
    omega
  · simp only [WorkQueue.store]
    omega
  · have htail := h.tail_nonneg
    simp only [WorkQueue.store]
    rw [Int.tmod_eq_emod_of_nonneg (by omega), h.tail_eq,
      Int.emod_add_emod, add_assoc]
  · have hlt : ((s.queue.count.toNat : ℕ) : ℤ) < capacity := by omega
    have hpush := window_push s.queue.fds s.queue.head fd hlt
    rw [hn] at hpush
    simp only [WorkQueue.store, h.tail_eq]
    rw [show (s.queue.count + 1).toNat = s.queue.count.toNat + 1 by omega, hpush, h.enqueued_eq,
      List.append_assoc]

theorem Fifo.take {s : Shared} (h : Fifo capacity s) (hsome : s.queue.count ≠ 0) :
    Fifo capacity (take capacity s) := by
  have hcount := h.count_nonneg
  have hle := h.count_le
  have hhead := h.head_nonneg
  have hmod : (s.queue.head + 1).tmod capacity = (s.queue.head + 1) % capacity :=
    Int.tmod_eq_emod_of_nonneg (by omega)
  refine ⟨?_, ?_, ?_, ?_, ?_, ?_⟩
  · simp only [WorkQueue.take]
    omega
  · simp only [WorkQueue.take]
    omega
  · simp only [WorkQueue.take, hmod]
    exact Int.emod_nonneg _ capacity_pos.ne'
  · simp only [WorkQueue.take, hmod]
    exact Int.emod_lt_of_pos _ capacity_pos
  · simp only [WorkQueue.take, hmod]
    rw [Int.emod_add_emod, h.tail_eq]
    congr 1
    ring
  · have hpop := window_pop s.queue.fds (s.queue.count - 1).toNat hhead h.head_lt
    simp only [WorkQueue.take, hmod]
    rw [h.enqueued_eq, show s.queue.count.toNat = (s.queue.count - 1).toNat + 1 by omega, hpop,
      List.append_assoc, List.singleton_append]

/-- The entry at `head` is the one stored after those that have been taken. -/
theorem Fifo.getElem?_head {s : Shared} (h : Fifo capacity s) (hsome : s.queue.count ≠ 0) :
    s.enqueued[s.dequeued.length]? = some (s.queue.fds s.queue.head) := by
  have hcount := h.count_nonneg
  have hpop := window_pop s.queue.fds (s.queue.count - 1).toNat h.head_nonneg h.head_lt
  have hsucc : s.queue.count.toNat = (s.queue.count - 1).toNat + 1 := by omega
  rw [h.enqueued_eq, hsucc, hpop, List.getElem?_append_right le_rfl, Nat.sub_self,
    List.getElem?_cons_zero]

theorem Fifo.head_mem {s : Shared} (h : Fifo capacity s) (hsome : s.queue.count ≠ 0) :
    s.queue.fds s.queue.head ∈ s.enqueued :=
  List.mem_of_getElem? (h.getElem?_head hsome)

/-- The invariant of the mutex, for callers that pass only `fd`s with the property `P`. -/
structure Inv (capacity : ℕ+) (P : ℤ → Prop) (s : Shared) : Prop where
  fifo : Fifo capacity s
  stored : ∀ fd ∈ s.enqueued, P fd

/-- What is known at the points inside the two functions. -/
def known (capacity : ℕ+) (P : ℤ → Prop) (s : Shared) : Pc K → Prop
  | .enqTest fd _ => P fd
  | .enqWait fd _ => P fd ∧ s.queue.count = capacity
  | .enqStore fd _ => P fd ∧ s.queue.count ≠ capacity
  | .deqWait _ => s.queue.count = 0
  | .deqCheck _ => s.queue.count = 0 → s.gShutdown = true
  | .deqTake _ => s.queue.count ≠ 0
  | .deqSignal fd _ => P fd ∧ s.dequeued.getLast? = some fd
  | .deqUnlock fd _ => P fd ∧ s.dequeued.getLast? = some fd ∨ fd = -1 ∧ s.queue.count = 0
  | _ => True

def asserted (capacity : ℕ+) (P : ℤ → Prop) (l : Pc K) (s : Shared) : Prop :=
  Inv capacity P s ∧ known capacity P s l

theorem outline {callers : T → K → Action T K} {P : ℤ → Prop}
    (hP : ∀ t k fd k', callers t k = .enqueue fd k' → P fd) :
    Outline (program capacity callers) inside (Inv capacity P) (asserted capacity P) where
  envI _ s h := ⟨⟨h.1.1, h.1.2, h.1.3, h.1.4, h.1.5, h.1.6⟩, h.2⟩
  envA _ s l _ h := by
    obtain ⟨⟨hf, hs⟩, hk⟩ := h
    refine ⟨⟨⟨hf.1, hf.2, hf.3, hf.4, hf.5, hf.6⟩, hs⟩, ?_⟩
    cases l with
    | deqCheck k => exact fun _ => rfl
    | _ => exact hk
  instr t l := by
    cases l with
    | caller k =>
      cases hc : callers t k with
      | enqueue fd k' =>
        simp only [program, instr, hc]
        exact fun s h => ⟨h, hP t k fd k' hc⟩
      | dequeue k' =>
        simp only [program, instr, hc]
        exact fun s h => ⟨h, trivial⟩
      | broadcast k' =>
        simp only [program, instr, hc]
        exact fun s h => ⟨h, trivial⟩
      | testShutdown set clear =>
        simp only [program, instr, hc]
        exact fun s => rfl
      | _ => simp [program, instr, hc, Instr.Keeps, inside]
    | enqTest fd k =>
      intro s h
      dsimp only
      split
      · exact ⟨h.1, h.2, ‹_›⟩
      · exact ⟨h.1, h.2, ‹_›⟩
    | enqWait fd k => exact fun s h => ⟨h.1, fun w hw => ⟨hw, h.2.1⟩⟩
    | enqStore fd k =>
      intro s h
      refine ⟨⟨h.1.fifo.store h.2.2 fd, fun x hx => ?_⟩, trivial⟩
      rcases List.mem_append.mp hx with hx | hx
      · exact h.1.stored x hx
      · rw [List.mem_singleton.mp hx]
        exact h.2.1
    | enqSignal k => exact fun _ s h => ⟨h.1, trivial⟩
    | enqUnlock k => exact fun s h => h.1
    | deqTest k =>
      intro s h
      dsimp only
      split
      · exact ⟨h.1, And.left ‹_›⟩
      · rename_i hn
        exact ⟨h.1, fun h0 => by simpa [h0] using hn⟩
    | deqWait k => exact fun s h => ⟨h.1, fun w hw => ⟨hw, trivial⟩⟩
    | deqCheck k =>
      intro s h
      dsimp only
      split
      · exact ⟨h.1, Or.inr ⟨rfl, And.left ‹_›⟩⟩
      · rename_i hn
        exact ⟨h.1, fun h0 => hn ⟨h0, h.2 h0⟩⟩
    | deqTake k =>
      intro s h
      exact ⟨⟨h.1.fifo.take h.2, h.1.stored⟩, h.1.stored _ (h.1.fifo.head_mem h.2),
        List.getLast?_concat⟩
    | deqSignal fd k => exact fun _ s h => ⟨h.1, Or.inl h.2⟩
    | deqUnlock fd k => exact fun s h => h.1
    | broadcast k => exact fun _ s h => ⟨h.1, trivial⟩
    | broadcastUnlock k => exact fun s h => h.1

theorem fifo_start (fds : ℤ → ℤ) (entry : T → K) :
    Fifo capacity (start fds entry).shared := by
  refine ⟨le_rfl, capacity_pos.le, le_rfl, capacity_pos, ?_, ?_⟩
  · simp [start]
  · simp [start]

theorem asserts_reachable [DecidableEq T] {callers : T → K → Action T K} {P : ℤ → Prop}
    (hP : ∀ t k fd k', callers t k = .enqueue fd k' → P fd) {fds : ℤ → ℤ} {entry : T → K}
    {s : Config T Cond (Pc K) Shared}
    (h : Reachable (program capacity callers) (start fds entry) s) :
    Asserts inside (Inv capacity P) (asserted capacity P) s := by
  have hinv : Inv capacity P (start fds entry : Config T Cond (Pc K) Shared).shared :=
    ⟨fifo_start fds entry, by simp [start]⟩
  refine (outline hP).reachable (bracketed capacity callers) h
    ⟨owned_start fds entry, fun _ => hinv, fun t => ?_⟩
  intro hl
  cases hl

theorem fifo_of_free [DecidableEq T] {callers : T → K → Action T K} {fds : ℤ → ℤ}
    {entry : T → K} {s : Config T Cond (Pc K) Shared}
    (h : Reachable (program capacity callers) (start fds entry) s) (hfree : s.owner = none) :
    Fifo capacity s.shared :=
  ((asserts_reachable (P := fun _ => True) (fun _ _ _ _ _ => trivial) h).free hfree).fifo

end CpreLabs.WorkQueue
