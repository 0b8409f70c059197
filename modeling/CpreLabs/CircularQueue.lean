import CpreLabs.RingBuffer

/-!
# The circular queue of the scheduling lab

`initQueue`, `enqueue` and `dequeue` on an array of 100 items, against the list of the values
in it.
-/
namespace CpreLabs.Lab4
open RingBuffer

def maxQueueSize : ℕ := 100

theorem maxQueueSize_pos : (0 : ℤ) < maxQueueSize := by decide

/-- `printed` collects the error messages of the calls. -/
structure Queue (α : Type*) where
  items : ℤ → α
  front : ℤ
  rear : ℤ
  size : ℤ
  printed : List String

namespace Queue

variable {α : Type*}

def initQueue (q : Queue α) : Queue α := { q with front := 0, rear := -1, size := 0 }

def isFull (q : Queue α) : Bool := q.size = maxQueueSize

def isEmpty (q : Queue α) : Bool := q.size = 0

def enqueue (q : Queue α) (value : α) : Queue α :=
  if q.isFull then
    { q with printed := q.printed ++ ["Queue Error: Cannot enqueue to a full queue.\n"] }
  else
    let rear := (q.rear + 1) % maxQueueSize
    { q with rear := rear, items := Function.update q.items rear value, size := q.size + 1 }

/-- `none` is the error value `-1`. -/
def dequeue (q : Queue α) : Option α × Queue α :=
  if q.isEmpty then
    (none, { q with printed := q.printed ++ ["Queue Error: Cannot dequeue from an empty queue.\n"] })
  else (some (q.items q.front),
    { q with front := (q.front + 1) % maxQueueSize, size := q.size - 1 })

def peek (q : Queue α) : Option α := if q.isEmpty then none else some (q.items q.front)

/-- The queue has the values of the list, from `front` on. -/
structure Holds (q : Queue α) (l : List α) : Prop where
  size : q.size = l.length
  room : l.length ≤ maxQueueSize
  front_nonneg : 0 ≤ q.front
  front_lt : q.front < maxQueueSize
  rear : (q.rear + 1) % maxQueueSize = (q.front + q.size) % maxQueueSize
  cells : window q.items maxQueueSize q.front l.length = l

variable {q : Queue α} {l : List α}

theorem holds_initQueue (q : Queue α) : q.initQueue.Holds [] where
  size := rfl
  room := Nat.zero_le _
  front_nonneg := le_rfl
  front_lt := maxQueueSize_pos
  rear := rfl
  cells := rfl

theorem Holds.isEmpty_iff (h : q.Holds l) : q.isEmpty = true ↔ l = [] := by
  rw [isEmpty, decide_eq_true_eq, h.size, Nat.cast_eq_zero, List.length_eq_zero_iff]

theorem Holds.isFull_iff (h : q.Holds l) : q.isFull = true ↔ l.length = maxQueueSize := by
  rw [isFull, decide_eq_true_eq, h.size, Nat.cast_inj]

theorem Holds.unique {l' : List α} (h : q.Holds l) (h' : q.Holds l') : l = l' := by
  have hlength : l.length = l'.length := Int.ofNat_inj.mp (h.size.symm.trans h'.size)
  rw [← h.cells, ← h'.cells, hlength]

/-- An `enqueue` on a queue that is not full appends, and prints nothing. -/
theorem Holds.enqueue (h : q.Holds l) (hroom : l.length < maxQueueSize) (value : α) :
    (q.enqueue value).Holds (l ++ [value]) ∧ (q.enqueue value).printed = q.printed := by
  have hnot : ¬q.isFull = true := fun hfull => hroom.ne (h.isFull_iff.mp hfull)
  have hcast : (l.length : ℤ) < (maxQueueSize : ℕ) := Int.ofNat_lt.mpr hroom
  have hrear : (q.rear + 1) % maxQueueSize = (q.front + l.length) % maxQueueSize := by
    rw [h.rear, h.size]
  rw [Queue.enqueue, if_neg hnot]
  refine ⟨⟨?_, ?_, h.front_nonneg, h.front_lt, ?_, ?_⟩, rfl⟩
  · rw [List.length_append, List.length_singleton, h.size]
    push_cast
    rfl
  · rw [List.length_append, List.length_singleton]
    exact hroom
  · simp only [Int.emod_add_emod]
    rw [← add_assoc, Int.add_emod, h.rear, ← Int.add_emod]
  · rw [List.length_append, List.length_singleton]
    simp only [hrear]
    rw [window_push q.items q.front value hcast, h.cells]

/-- A `dequeue` takes the first value. -/
theorem Holds.dequeue {value : α} (h : q.Holds (value :: l)) :
    q.dequeue.1 = some value ∧ q.dequeue.2.Holds l ∧ q.dequeue.2.printed = q.printed := by
  have hnot : ¬q.isEmpty = true := fun hempty => by cases h.isEmpty_iff.mp hempty
  have hsize := h.size
  have hroom := h.room
  rw [List.length_cons] at hsize hroom
  obtain ⟨hfirst, hcells⟩ := List.cons.inj
    ((window_pop q.items l.length h.front_nonneg h.front_lt).symm.trans h.cells)
  rw [Queue.dequeue, if_neg hnot]
  refine ⟨congrArg some hfirst, ⟨?_, by omega, Int.emod_nonneg _ maxQueueSize_pos.ne',
    Int.emod_lt_of_pos _ maxQueueSize_pos, ?_, hcells⟩, rfl⟩
  · simp only [hsize]
    push_cast
    ring
  · simp only [Int.emod_add_emod]
    rw [h.rear]
    congr 1
    ring

/-- A `peek` reads the first value. -/
theorem Holds.peek (h : q.Holds l) : q.peek = l.head? := by
  cases l with
  | nil =>
    have hempty : q.isEmpty = true := h.isEmpty_iff.mpr rfl
    rw [Queue.peek, if_pos hempty, List.head?_nil]
  | cons value l =>
    have hnot : ¬q.isEmpty = true := fun hempty => by cases h.isEmpty_iff.mp hempty
    have hcells : q.items q.front :: _ = value :: l :=
      (window_pop q.items l.length h.front_nonneg h.front_lt).symm.trans h.cells
    rw [Queue.peek, if_neg hnot, (List.cons.inj hcells).1, List.head?_cons]

end Queue

end CpreLabs.Lab4
