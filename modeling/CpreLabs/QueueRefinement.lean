import CpreLabs.CircularQueue

/-!
# The circular queue is a bounded first-in first-out list

Any sequence of calls after `initQueue`, on the array and on a list of at most 100 values.
-/
namespace CpreLabs.Lab4
open RingBuffer

inductive QueueCall where
  | enqueue (value : ℤ)
  | dequeue
  | peek
  | isEmpty
  | isFull

/-- What a call returns; `enqueue` returns nothing. -/
inductive QueueAnswer where
  | void
  | int (value : ℤ)
  | bool (value : Bool)
deriving DecidableEq

namespace QueueCall

/-- The call on the array; the error value of `dequeue` and `peek` is `-1`. -/
def exec (q : Queue ℤ) : QueueCall → QueueAnswer × Queue ℤ
  | enqueue value => (.void, q.enqueue value)
  | dequeue => (.int (q.dequeue.1.getD (-1)), q.dequeue.2)
  | peek => (.int (q.peek.getD (-1)), q)
  | isEmpty => (.bool q.isEmpty, q)
  | isFull => (.bool q.isFull, q)

/-- The value that the call puts into the array. -/
def accepted (q : Queue ℤ) : QueueCall → List ℤ
  | enqueue value => if q.isFull then [] else [value]
  | _ => []

/-- The value that the call takes from the array. -/
def taken (q : Queue ℤ) : QueueCall → List ℤ
  | dequeue => q.dequeue.1.toList
  | _ => []

/-- The call on a bounded list. -/
def execList (l : List ℤ) : QueueCall → QueueAnswer × List ℤ
  | enqueue value => (.void, if l.length < maxQueueSize then l ++ [value] else l)
  | dequeue => (.int (l.head?.getD (-1)), l.tail)
  | peek => (.int (l.head?.getD (-1)), l)
  | isEmpty => (.bool l.isEmpty, l)
  | isFull => (.bool (l.length = maxQueueSize), l)

end QueueCall

/-- The array after some calls, and what they returned, put in and took out. -/
structure QueueHistory where
  queue : Queue ℤ
  answers : List QueueAnswer
  accepted : List ℤ
  dequeued : List ℤ

def QueueHistory.call (h : QueueHistory) (c : QueueCall) : QueueHistory where
  queue := (c.exec h.queue).2
  answers := h.answers ++ [(c.exec h.queue).1]
  accepted := h.accepted ++ c.accepted h.queue
  dequeued := h.dequeued ++ c.taken h.queue

/-- The calls one after the other on a queue that was just initialised. -/
def Queue.calls (q : Queue ℤ) (cs : List QueueCall) : QueueHistory :=
  cs.foldl QueueHistory.call ⟨q.initQueue, [], [], []⟩

/-- The same calls on the empty list, with what they return. -/
def listCalls (cs : List QueueCall) : List QueueAnswer × List ℤ :=
  cs.foldl (fun a c => (a.1 ++ [(c.execList a.2).1], (c.execList a.2).2)) ([], [])

namespace Queue

variable {q : Queue ℤ} {l : List ℤ}

theorem enqueue_of_isFull {α : Type*} {q : Queue α} (h : q.isFull = true) (value : α) :
    q.enqueue value =
      { q with printed := q.printed ++ ["Queue Error: Cannot enqueue to a full queue.\n"] } := by
  rw [enqueue, if_pos h]

theorem dequeue_of_isEmpty {α : Type*} {q : Queue α} (h : q.isEmpty = true) :
    q.dequeue = (none, { q with
      printed := q.printed ++ ["Queue Error: Cannot dequeue from an empty queue.\n"] }) := by
  rw [dequeue, if_pos h]

/-- Before the first `enqueue` the index `rear` is out of range. -/
def RearInRange {α : Type*} (q : Queue α) : Prop :=
  q.rear = -1 ∨ 0 ≤ q.rear ∧ q.rear < maxQueueSize

theorem RearInRange.enqueue {α : Type*} {q : Queue α} (h : q.RearInRange) (value : α) :
    (q.enqueue value).RearInRange := by
  cases hfull : q.isFull with
  | true =>
    rw [enqueue_of_isFull hfull]
    exact h
  | false =>
    rw [Queue.enqueue, hfull, if_neg Bool.false_ne_true]
    exact Or.inr ⟨Int.emod_nonneg _ maxQueueSize_pos.ne', Int.emod_lt_of_pos _ maxQueueSize_pos⟩

theorem RearInRange.dequeue {α : Type*} {q : Queue α} (h : q.RearInRange) :
    q.dequeue.2.RearInRange := by
  rw [Queue.dequeue]
  split
  · exact h
  · exact h

theorem RearInRange.exec (h : q.RearInRange) (c : QueueCall) : (c.exec q).2.RearInRange := by
  cases c with
  | enqueue value => exact h.enqueue value
  | dequeue => exact h.dequeue
  | peek => exact h
  | isEmpty => exact h
  | isFull => exact h

theorem Holds.exec (h : q.Holds l) (c : QueueCall) :
    (c.exec q).1 = (c.execList l).1 ∧ (c.exec q).2.Holds (c.execList l).2 ∧
      l ++ c.accepted q = c.taken q ++ (c.execList l).2 := by
  cases c with
  | enqueue value =>
    simp only [QueueCall.exec, QueueCall.execList, QueueCall.accepted, QueueCall.taken,
      List.nil_append]
    by_cases hroom : l.length < maxQueueSize
    · have hnot : ¬q.isFull = true := fun hfull => hroom.ne (h.isFull_iff.mp hfull)
      rw [if_pos hroom, if_neg hnot]
      exact ⟨trivial, (h.enqueue hroom value).1, rfl⟩
    · have hfull : q.isFull = true := h.isFull_iff.mpr (h.room.antisymm (not_lt.mp hroom))
      rw [if_neg hroom, if_pos hfull, enqueue_of_isFull hfull, List.append_nil]
      exact ⟨trivial, ⟨h.size, h.room, h.front_nonneg, h.front_lt, h.rear, h.cells⟩, rfl⟩
  | dequeue =>
    simp only [QueueCall.exec, QueueCall.execList, QueueCall.accepted, QueueCall.taken,
      List.append_nil]
    cases l with
    | nil =>
      rw [dequeue_of_isEmpty (h.isEmpty_iff.mpr rfl)]
      exact ⟨rfl, ⟨h.size, h.room, h.front_nonneg, h.front_lt, h.rear, h.cells⟩, rfl⟩
    | cons value l =>
      obtain ⟨hfirst, hrest, -⟩ := h.dequeue
      rw [hfirst]
      exact ⟨rfl, hrest, rfl⟩
  | peek =>
    simp only [QueueCall.exec, QueueCall.execList, QueueCall.accepted, QueueCall.taken, h.peek]
    exact ⟨trivial, h, List.append_nil l⟩
  | isEmpty =>
    have hflag : q.isEmpty = l.isEmpty := by
      rw [Bool.eq_iff_iff, h.isEmpty_iff, List.isEmpty_iff]
    simp only [QueueCall.exec, QueueCall.execList, QueueCall.accepted, QueueCall.taken, hflag]
    exact ⟨trivial, h, List.append_nil l⟩
  | isFull =>
    have hflag : q.isFull = decide (l.length = maxQueueSize) := by
      rw [Bool.eq_iff_iff, h.isFull_iff, decide_eq_true_eq]
    simp only [QueueCall.exec, QueueCall.execList, QueueCall.accepted, QueueCall.taken, hflag]
    exact ⟨trivial, h, List.append_nil l⟩

end Queue

/-- The array against the list after the same calls. -/
structure Refines (h : QueueHistory) (a : List QueueAnswer × List ℤ) : Prop where
  holds : h.queue.Holds a.2
  rear : h.queue.RearInRange
  answers : h.answers = a.1
  conserved : h.accepted = h.dequeued ++ a.2

theorem Refines.call {h : QueueHistory} {a : List QueueAnswer × List ℤ} (hr : Refines h a)
    (c : QueueCall) :
    Refines (h.call c) (a.1 ++ [(c.execList a.2).1], (c.execList a.2).2) := by
  obtain ⟨hanswer, hholds, hvalues⟩ := hr.holds.exec c
  refine ⟨hholds, hr.rear.exec c, ?_, ?_⟩
  · rw [QueueHistory.call, hanswer, hr.answers]
  · rw [QueueHistory.call, hr.conserved, List.append_assoc, hvalues, List.append_assoc]

theorem refines_calls (q : Queue ℤ) (cs : List QueueCall) :
    Refines (q.calls cs) (listCalls cs) := by
  have hstart : Refines ⟨q.initQueue, [], [], []⟩ ([], []) :=
    ⟨Queue.holds_initQueue q, Or.inl rfl, rfl, rfl⟩
  rw [Queue.calls, listCalls]
  generalize (⟨q.initQueue, [], [], []⟩ : QueueHistory) = h at hstart ⊢
  generalize (([], []) : List QueueAnswer × List ℤ) = a at hstart ⊢
  induction cs generalizing h a with
  | nil => exact hstart
  | cons c cs ih => exact ih _ _ (hstart.call c)

/-- After any calls the array reads, from `front` on, the values that were accepted and not yet
dequeued; it answers as the list does, and a call that fails leaves it as it is. -/
theorem calls_refine_fifo (q : Queue ℤ) (cs : List QueueCall) :
    let h := q.calls cs
    let waiting := window h.queue.items maxQueueSize h.queue.front h.queue.size.toNat
    (h.answers, waiting) = listCalls cs ∧
      h.accepted = h.dequeued ++ waiting ∧ h.queue.size = waiting.length ∧
      h.queue.size ≤ maxQueueSize ∧
      (0 ≤ h.queue.front ∧ h.queue.front < maxQueueSize) ∧
      (h.queue.rear = -1 ∨ 0 ≤ h.queue.rear ∧ h.queue.rear < maxQueueSize) ∧
      (h.queue.rear + 1) % maxQueueSize = (h.queue.front + h.queue.size) % maxQueueSize ∧
      (h.queue.isFull = true → ∀ value, h.queue.enqueue value = { h.queue with
        printed := h.queue.printed ++ ["Queue Error: Cannot enqueue to a full queue.\n"] }) ∧
      (h.queue.isEmpty = true → h.queue.dequeue = (none, { h.queue with
        printed := h.queue.printed ++
          ["Queue Error: Cannot dequeue from an empty queue.\n"] })) := by
  intro h waiting
  have hr : Refines h (listCalls cs) := refines_calls q cs
  have hwaiting : waiting = (listCalls cs).2 := by
    have hlength : h.queue.size.toNat = (listCalls cs).2.length := by
      rw [hr.holds.size, Int.toNat_natCast]
    exact (congrArg (window h.queue.items maxQueueSize h.queue.front) hlength).trans hr.holds.cells
  rw [hwaiting]
  refine ⟨Prod.ext hr.answers rfl, hr.conserved, hr.holds.size, ?_,
    ⟨hr.holds.front_nonneg, hr.holds.front_lt⟩, hr.rear, hr.holds.rear,
    fun hfull => Queue.enqueue_of_isFull hfull, Queue.dequeue_of_isEmpty⟩
  rw [hr.holds.size]
  exact Int.ofNat_le.mpr hr.holds.room

end CpreLabs.Lab4
