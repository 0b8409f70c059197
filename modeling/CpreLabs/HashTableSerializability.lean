import CpreLabs.HashTableThreadsCorrect
import CpreLabs.RwlockGrantOrder

/-!
# Concurrent calls on the hash table are serializable

Any interleaving of the steps of any number of threads gives the results, the chains and the
counters of executing the calls one at a time.
-/
namespace CpreLabs

open HashTable Rwlock

variable {numBuckets : ℕ+} {T : Type*}

/-- A call on a table does what it does to the chains, and adds to the counters. -/
theorem exec_eq_effect (op : Op) (now : ℕ) (table : HashTable numBuckets) :
    (exec ⟨op, now⟩ table).1 = (effect op now table.buckets).result ∧
      (exec ⟨op, now⟩ table).2.buckets = (effect op now table.buckets).state ∧
      (exec ⟨op, now⟩ table).2.counter =
        table.counter + (effect op now table.buckets).added := by
  cases op with
  | put key val ttl =>
    simp only [effect, exec, kvPut]
    cases HashTable.overwrite key val (expiryOf ttl now)
        (table.buckets (bucketIndex numBuckets key)) with
    | some chain =>
      refine ⟨rfl, rfl, counters_ext ?_ ?_ ?_ ?_ ?_⟩ <;> simp [HashTable.counter]
    | none =>
      refine ⟨rfl, rfl, counters_ext ?_ ?_ ?_ ?_ ?_⟩ <;> simp [HashTable.counter]
  | get key =>
    simp only [effect, exec, kvGet]
    cases search key (table.buckets (bucketIndex numBuckets key)) with
    | some e =>
      dsimp only
      split
      · refine ⟨rfl, rfl, counters_ext ?_ ?_ ?_ ?_ ?_⟩ <;> simp [HashTable.counter]
      · refine ⟨rfl, rfl, counters_ext ?_ ?_ ?_ ?_ ?_⟩ <;> simp [HashTable.counter]
    | none =>
      refine ⟨rfl, rfl, counters_ext ?_ ?_ ?_ ?_ ?_⟩ <;> simp [HashTable.counter]
  | del key =>
    simp only [effect, exec, kvDel]
    cases HashTable.unlink key (table.buckets (bucketIndex numBuckets key)) with
    | some chain =>
      refine ⟨rfl, rfl, counters_ext ?_ ?_ ?_ ?_ ?_⟩ <;> simp [HashTable.counter, sub_eq_add_neg]
    | none =>
      refine ⟨rfl, rfl, counters_ext ?_ ?_ ?_ ?_ ?_⟩ <;> simp [HashTable.counter]
  | sweep =>
    have hpass := fun u : HashTable numBuckets => sweeperPass_eq now u
    simp only [effect, exec, hpass, true_and]
    apply counters_ext <;> simp [HashTable.counter, sub_eq_add_neg]

def callsOf (order : List (Entry Op)) : List Call := order.map (fun e => ⟨e.op, e.now⟩)

theorem execAll_callsOf (order : List (Entry Op)) (table : HashTable numBuckets) :
    (execAll (callsOf order) table).buckets = serialState effect order table.buckets ∧
      (execAll (callsOf order) table).counter =
        table.counter + serialAdded effect order table.buckets ∧
      (order.map Entry.ticket).zip (outcomes (callsOf order) table) =
        serialResults effect order table.buckets := by
  induction order generalizing table with
  | nil => simp [callsOf, execAll, serialState, serialAdded, serialResults]
  | cons e order ih =>
    obtain ⟨ho, hbuckets, hcounter⟩ := exec_eq_effect e.op e.now table
    obtain ⟨ihbuckets, ihcounter, ihresults⟩ := ih (exec ⟨e.op, e.now⟩ table).2
    rw [hbuckets] at ihbuckets ihcounter ihresults
    refine ⟨ihbuckets, ?_, ?_⟩
    · rw [serialAdded, ← add_assoc, ← hcounter]
      exact ihcounter
    · rw [serialResults, ← ihresults, ← ho]
      rfl

/-- The heap may hold anything; the buckets are those of `calloc`. -/
def emptyStore (heap : Addr → Option KvNode) : Store numBuckets := ⟨heap, fun _ => none⟩

theorem represents_emptyStore (heap : Addr → Option KvNode) :
    Represents (emptyStore heap : Store numBuckets) (kvInit numBuckets).buckets :=
  ⟨fun _ => [], ⟨fun _ => rfl, fun _ => List.nodup_nil, fun _ _ _ h => by cases h⟩, rfl⟩

abbrev Threads (T : Type*) (numBuckets : ℕ+) :=
  Config T Op (Frame numBuckets) (Store numBuckets) Counters Outcome

/-- All threads idle on the table of `kv_init`. -/
def threadsStart (heap : Addr → Option KvNode) (clock : ℕ) : Threads T numBuckets :=
  initial 0 (emptyStore heap) clock

/-- Executing the calls in this order, one at a time, gives every result returned so far; and
once no call is under way, these are all calls made, and they leave the same chains and the
same counters. -/
structure SerialOrder (s : Threads T numBuckets) (order : List (Entry Op)) : Prop where
  called : ∀ e ∈ order, s.grants[e.ticket]? = some e.op
  once : (order.map Entry.ticket).Nodup
  results : ∀ n o, s.returned n = some o →
    (n, o) ∈ (order.map Entry.ticket).zip (outcomes (callsOf order) (kvInit numBuckets))
  complete : s.Quiescent → ∀ n, n < s.grants.length →
    n ∈ order.map Entry.ticket ∧ ∃ o, s.returned n = some o
  chains : s.Quiescent → Represents s.memory (execAll (callsOf order) (kvInit numBuckets)).buckets
  counters : s.Quiescent → s.counters = (execAll (callsOf order) (kvInit numBuckets)).counter

theorem SerialOrder.of_serializedBy {s : Threads T numBuckets} {order : List (Entry Op)}
    (h : SerializedBy effect Represents (kvInit numBuckets).buckets 0 s order) :
    SerialOrder s order := by
  obtain ⟨hbuckets, hcounter, hresults⟩ := execAll_callsOf order (kvInit numBuckets)
  have hzero : (kvInit numBuckets).counter = 0 := counters_ext rfl rfl rfl rfl rfl
  refine ⟨h.granted, h.nodup, fun n o ho => ?_, h.complete, fun hq => ?_, fun hq => ?_⟩
  · rw [hresults]
    exact h.returned n o ho
  · rw [hbuckets]
    exact h.memory hq
  · rw [hcounter, hzero]
    exact h.counters hq

/-- Whatever the interleaving, the calls are serialized by the order in which they take their
place: there the clock does not run backwards, and only lookups that held the lock together
may have changed places. The order of the lock grants serializes them as well; once no call is
under way it executes exactly the calls granted, one for each ticket. -/
theorem calls_serializable [DecidableEq T] {heap : Addr → Option KvNode} {clock : ℕ}
    {s : Threads T numBuckets}
    (h : Reachable (hashTableCode numBuckets) (threadsStart heap clock) s) :
    SerialOrder s s.committed ∧
      s.committed.Pairwise (fun x y => x.now ≤ y.now) ∧
      s.committed.Pairwise
        (fun x y => x.ticket < y.ticket ∨ x.op.reads = true ∧ y.op.reads = true) ∧
      SerialOrder s (byGrant s.committed) ∧
      (s.Quiescent → (byGrant s.committed).map Entry.ticket = List.range s.grants.length ∧
        (byGrant s.committed).map Entry.op = s.grants) := by
  obtain ⟨hcommits, hclock, horder, hgrants⟩ :=
    serializedBy_of_reachable hashTableCode_correct (represents_emptyStore heap) h
  exact ⟨.of_serializedBy hcommits, hclock, horder, .of_serializedBy hgrants,
    fun hq => hgrants.byGrant_ops hq⟩

/-- No thread ever reads or writes through a pointer to memory that is not allocated. -/
theorem no_fault [DecidableEq T] {heap : Addr → Option KvNode} {clock : ℕ}
    {s : Threads T numBuckets}
    (h : Reachable (hashTableCode numBuckets) (threadsStart heap clock) s) (t : T) (n : ℕ)
    (op : Op) : s.thread t ≠ .inside n op .fault := by
  intro ht
  obtain ⟨-, owed, hs⟩ := books_sim_of_reachable hashTableCode_correct
    (represents_emptyStore heap) h
  by_cases hn : n ∈ s.tickets
  · obtain ⟨o, -, hlate⟩ := hs.late t n op _ ht hn
    exact hlate
  · exact hs.early t n op _ ht hn

/-- `Frame.advance` with the address for `malloc` tested. -/
def advanceFrame (fresh now : ℕ) (f : Frame numBuckets) (st : Store numBuckets) :
    Option (Advanced numBuckets) :=
  if f.mallocs = true → st.heap fresh = none then f.advance now fresh st else none

/-- A put, then two lookups whose steps are interleaved, the second reading the clock first. -/
def interleavedLookups : List (Event Bool Op ℕ) :=
  [.call true (.put (.lit "a") (.lit "x") 5), .lock true] ++ List.replicate 8 (.run true 0) ++
    [.unlock true, .call true (.get (.lit "a")), .call false (.get (.lit "a")), .lock true,
      .lock false, .run true 0, .run false 0, .run false 0, .tick 5, .run true 0, .run false 0,
      .run true 0, .run false 0, .run true 0, .run true 0, .unlock true, .run false 0, .run false 0,
      .unlock false]

def afterLookups : Threads Bool 1 :=
  (runSchedule (hashTableCode 1) advanceFrame (threadsStart (fun _ => none) 0)
    interleavedLookups).getD (threadsStart (fun _ => none) 0)

theorem hashTableCode_advanceFrame (fresh now : ℕ) (f : Frame numBuckets)
    (st : Store numBuckets) (f' : Frame numBuckets) (st' : Store numBuckets) (d : Counters)
    (h : advanceFrame fresh now f st = some (f', st', d)) :
    (hashTableCode numBuckets).step now f st f' st' d := by
  obtain ⟨hfresh, hadvance⟩ := Option.ite_none_right_eq_some.mp h
  exact ⟨fresh, hfresh, hadvance⟩

theorem lookups_serialized :
    (afterLookups.returned 1).map Outcome.ret = some (-1) ∧
      (afterLookups.returned 2).map Outcome.ret = some 0 ∧
      SerialOrder afterLookups afterLookups.committed ∧
      SerialOrder afterLookups (byGrant afterLookups.committed) := by
  have hrun : Reachable (hashTableCode 1) (threadsStart (fun _ => none) 0) afterLookups :=
    reachable_of_schedule hashTableCode_advanceFrame interleavedLookups rfl
  obtain ⟨hcommits, -, -, hgrants, -⟩ := calls_serializable hrun
  exact ⟨rfl, rfl, hcommits, hgrants⟩

end CpreLabs
