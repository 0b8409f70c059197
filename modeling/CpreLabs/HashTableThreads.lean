import CpreLabs.HashTableOperations
import CpreLabs.LinkedChains
import CpreLabs.RwlockSerialization
import Mathlib.Algebra.Group.Pi.Basic

/-!
# The hash table as its threads see it

The functions of `hash.c` over a heap of entries with `next` pointers, cut into the steps
between which other threads may run: reading a bucket or the clock, visiting a node, writing
a node or a pointer, allocating and freeing a node, and each atomic update of a counter.
Reading or writing through a pointer that is not allocated ends in `fault`.
-/
namespace CpreLabs

abbrev Addr := ℕ

/-- `kv_entry_t`: the entry and its `next` pointer. -/
abbrev KvNode := Linked.Node Addr KvEntry

structure Store (numBuckets : ℕ+) where
  heap : Addr → Option KvNode
  buckets : Fin numBuckets → Option Addr

inductive Counter where
  | keys
  | hits
  | misses
  | puts
  | dels
  deriving DecidableEq

abbrev Counters := Counter → ℤ

/-- What `atomic_fetch_add` of one counter adds. -/
def fetchAdd (counter : Counter) (d : ℤ) : Counters := Pi.single counter d

/-- The statements of `kv_put` between lock and unlock. -/
inductive PutPoint where
  | readHead
  | readClock (curr : Option Addr)
  | visit (curr : Option Addr) (expiresAt : ℕ)
  | overwrite (curr : Addr) (expiresAt : ℕ)
  | malloc (expiresAt : ℕ)
  | setNext (newNode : Addr)
  | setHead (newNode : Addr)
  | addKeys
  | addPuts
  | unlock

inductive GetPoint where
  | readHead
  | readClock (curr : Option Addr)
  | visit (curr : Option Addr) (now : ℕ)
  | testExpiry (curr : Addr) (now : ℕ)
  | copyValue (curr : Addr)
  | addHits (outVal : CharArray maxValLen)
  | addMisses
  | unlock (o : Outcome)

inductive DelPoint where
  | readHead
  | visit (prev curr : Option Addr)
  | unlink (prev : Option Addr) (curr : Addr)
  | free (curr : Addr)
  | subKeys
  | addDels
  | unlock (o : Outcome)

/-- One pass of `sweeper_main`. `curr_ptr` points to the bucket `i` if `prev` is `none`, and
else to the `next` of the node `prev`. -/
inductive SweepPoint (numBuckets : ℕ+) where
  | readClock
  | visit (now : ℕ) (i : Fin numBuckets) (prev : Option Addr)
  | unlink (now : ℕ) (i : Fin numBuckets) (prev : Option Addr) (entry : Addr)
  | free (now : ℕ) (i : Fin numBuckets) (prev : Option Addr) (entry : Addr)
  | subKeys (now : ℕ) (i : Fin numBuckets) (prev : Option Addr)
  | unlock

inductive Frame (numBuckets : ℕ+) where
  | put (key val : CString) (ttl : ℤ) (l : PutPoint)
  | get (key : CString) (l : GetPoint)
  | del (key : CString) (l : DelPoint)
  | sweep (l : SweepPoint numBuckets)
  | fault

variable {numBuckets : ℕ+}

abbrev Advanced (numBuckets : ℕ+) := Frame numBuckets × Store numBuckets × Counters

namespace Store

/-- Continue with the node at an address. -/
def deref (st : Store numBuckets) (a : Addr) (k : KvNode → Advanced numBuckets) :
    Advanced numBuckets :=
  match st.heap a with
  | some node => k node
  | none => (.fault, st, 0)

def write (st : Store numBuckets) (a : Addr) (node : Option KvNode) : Store numBuckets :=
  { st with heap := Function.update st.heap a node }

/-- `if (prev) prev->next = target; else table->buckets[i] = target;` -/
def setLink (st : Store numBuckets) (i : Fin numBuckets) (prev target : Option Addr) :
    Store numBuckets :=
  ⟨(Linked.writeLink st.heap st.buckets i target prev).1,
    (Linked.writeLink st.heap st.buckets i target prev).2⟩

end Store

/-- `fresh` is the address `malloc` returns. -/
def PutPoint.advance (key val : CString) (ttl : ℤ) (now fresh : ℕ) (st : Store numBuckets) :
    PutPoint → Option (Advanced numBuckets)
  | .readHead => some (goto (.readClock (st.buckets (HashTable.bucketIndex numBuckets key))) st)
  | .readClock curr => some (goto (.visit curr (HashTable.expiryOf ttl now)) st)
  | .visit none expiresAt => some (goto (.malloc expiresAt) st)
  | .visit (some curr) expiresAt => some (st.deref curr fun node =>
      if strcmp node.data.key.str key = 0 then goto (.overwrite curr expiresAt) st
      else goto (.visit node.next expiresAt) st)
  | .overwrite curr expiresAt => some (st.deref curr fun node =>
      goto .addPuts (st.write curr (some { node with data := { node.data with
        value := CharArray.strncpy maxValLen val
        expiresAt := expiresAt } })))
  | .malloc expiresAt => some (goto (.setNext fresh) (st.write fresh (some
      ⟨⟨CharArray.strncpy maxKeyLen key, CharArray.strncpy maxValLen val, expiresAt⟩, none⟩)))
  | .setNext newNode => some (st.deref newNode fun node =>
      goto (.setHead newNode) (st.write newNode (some { node with
        next := st.buckets (HashTable.bucketIndex numBuckets key) })))
  | .setHead newNode => some (goto .addKeys { st with
      buckets := Function.update st.buckets (HashTable.bucketIndex numBuckets key) (some newNode) })
  | .addKeys => some (.put key val ttl .addPuts, st, fetchAdd .keys 1)
  | .addPuts => some (.put key val ttl .unlock, st, fetchAdd .puts 1)
  | .unlock => none
where
  goto (l : PutPoint) (st : Store numBuckets) : Advanced numBuckets := (.put key val ttl l, st, 0)

def GetPoint.advance (key : CString) (now : ℕ) (st : Store numBuckets) :
    GetPoint → Option (Advanced numBuckets)
  | .readHead => some (goto (.readClock (st.buckets (HashTable.bucketIndex numBuckets key))))
  | .readClock curr => some (goto (.visit curr now))
  | .visit none _ => some (goto .addMisses)
  | .visit (some curr) now => some (st.deref curr fun node =>
      if strcmp node.data.key.str key = 0 then goto (.testExpiry curr now)
      else goto (.visit node.next now))
  | .testExpiry curr now => some (st.deref curr fun node =>
      if node.data.expiresAt ≠ 0 ∧ now ≥ node.data.expiresAt then goto .addMisses
      else goto (.copyValue curr))
  | .copyValue curr => some (st.deref curr fun node => goto (.addHits node.data.value))
  | .addHits outVal => some (.get key (.unlock ⟨0, some outVal⟩), st, fetchAdd .hits 1)
  | .addMisses => some (.get key (.unlock ⟨-1, none⟩), st, fetchAdd .misses 1)
  | .unlock _ => none
where
  goto (l : GetPoint) : Advanced numBuckets := (.get key l, st, 0)

def DelPoint.advance (key : CString) (st : Store numBuckets) :
    DelPoint → Option (Advanced numBuckets)
  | .readHead => some (goto (.visit none (st.buckets (HashTable.bucketIndex numBuckets key))) st)
  | .visit _ none => some (goto (.unlock ⟨-1, none⟩) st)
  | .visit prev (some curr) => some (st.deref curr fun node =>
      if strcmp node.data.key.str key = 0 then goto (.unlink prev curr) st
      else goto (.visit (some curr) node.next) st)
  | .unlink prev curr => some (st.deref curr fun node =>
      goto (.free curr) (st.setLink (HashTable.bucketIndex numBuckets key) prev node.next))
  | .free curr => some (st.deref curr fun _ => goto .subKeys (st.write curr none))
  | .subKeys => some (.del key .addDels, st, fetchAdd .keys (-1))
  | .addDels => some (.del key (.unlock ⟨0, none⟩), st, fetchAdd .dels 1)
  | .unlock _ => none
where
  goto (l : DelPoint) (st : Store numBuckets) : Advanced numBuckets := (.del key l, st, 0)

/-- `i++`, and the test of the loop over the buckets. -/
def nextBucket (i : Fin numBuckets) : Option (Fin numBuckets) :=
  if h : (i : ℕ) + 1 < numBuckets then some ⟨i + 1, h⟩ else none

def SweepPoint.advance (now : ℕ) (st : Store numBuckets) :
    SweepPoint numBuckets → Option (Advanced numBuckets)
  | .readClock => some (goto (.visit now ⟨0, numBuckets.pos⟩ none) st)
  | .visit now i prev => some (match Linked.readLink st.heap (st.buckets i) prev with
    | none => (.fault, st, 0)
    | some none => match nextBucket i with
      | some j => goto (.visit now j none) st
      | none => goto .unlock st
    | some (some entry) => st.deref entry fun node =>
        if node.data.expiresAt ≠ 0 ∧ node.data.expiresAt < now then
          goto (.unlink now i prev entry) st
        else goto (.visit now i (some entry)) st)
  | .unlink now i prev entry => some (st.deref entry fun node =>
      goto (.free now i prev entry) (st.setLink i prev node.next))
  | .free now i prev entry => some (st.deref entry fun _ =>
      goto (.subKeys now i prev) (st.write entry none))
  | .subKeys now i prev => some (.sweep (.visit now i prev), st, fetchAdd .keys (-1))
  | .unlock => none
where
  goto (l : SweepPoint numBuckets) (st : Store numBuckets) : Advanced numBuckets := (.sweep l, st, 0)

namespace Frame

def advance (now fresh : ℕ) (st : Store numBuckets) : Frame numBuckets → Option (Advanced numBuckets)
  | .put key val ttl l => l.advance key val ttl now fresh st
  | .get key l => l.advance key now st
  | .del key l => l.advance key st
  | .sweep l => l.advance now st
  | .fault => none

def mallocs : Frame numBuckets → Bool
  | .put _ _ _ (.malloc _) => true
  | _ => false

/-- A call takes its place where it reads the clock; `kv_del`, which does not, where it reads
the bucket. -/
def commits : Frame numBuckets → Bool
  | .put _ _ _ (.readClock _) | .get _ (.readClock _) => true
  | .del _ .readHead | .sweep .readClock => true
  | _ => false

def result : Frame numBuckets → Option Outcome
  | .put _ _ _ .unlock | .sweep .unlock => some ⟨0, none⟩
  | .get _ (.unlock o) | .del _ (.unlock o) => some o
  | _ => none

end Frame

def Op.reads : Op → Bool
  | .get _ => true
  | _ => false

def Op.entry : Op → Frame numBuckets
  | .put key val ttl => .put key val ttl .readHead
  | .get key => .get key .readHead
  | .del key => .del key .readHead
  | .sweep => .sweep .readClock

/-- `malloc` returns any address that is not in use. -/
def hashTableCode (numBuckets : ℕ+) :
    Rwlock.Code Op (Frame numBuckets) (Store numBuckets) Counters Outcome where
  reads := Op.reads
  entry := Op.entry
  step now f st f' st' d := ∃ fresh, (f.mallocs = true → st.heap fresh = none) ∧
    f.advance now fresh st = some (f', st', d)
  commits := Frame.commits
  result := Frame.result

end CpreLabs
