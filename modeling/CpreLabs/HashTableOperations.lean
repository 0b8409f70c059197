import CpreLabs.CStrings
import Mathlib.Algebra.BigOperators.Fin
import Mathlib.Data.PNat.Basic

/-!
# The chained hash table of the key-value server, one call at a time

Each function follows the one of the same name in `hash.c`, executed from lock to
unlock. A chain is the list of entries its `next` pointers visit. A clock reading
is the number of seconds since the Epoch, and the counters of type `long` are
integers.
-/
namespace CpreLabs

def maxKeyLen : ℕ := 256
def maxValLen : ℕ := 256

structure KvEntry where
  key : CharArray maxKeyLen
  value : CharArray maxValLen
  /-- 0 if the entry never expires. -/
  expiresAt : ℕ
  deriving DecidableEq

abbrev Chain := List KvEntry

/-- `num_buckets` is positive: `main` rejects any other argument. -/
structure HashTable (numBuckets : ℕ+) where
  buckets : Fin numBuckets → Chain
  keys : ℤ
  hits : ℤ
  misses : ℤ
  puts : ℤ
  dels : ℤ

/-- `hash * 33 + c` over 64 bits; `c` is a `char` widened to `int`, so it is sign-extended. -/
def hashFunction (str : CString) : UInt64 :=
  str.bytes.foldl (fun hash c => ((hash <<< 5) + hash) + c.toInt8.toInt64.toUInt64) 5381

/-- What a call returns, and what it stored in `out_val` if anything. -/
structure Outcome where
  ret : ℤ
  outVal : Option (CharArray maxValLen)
  deriving DecidableEq

namespace HashTable

variable {numBuckets : ℕ+}

def bucketIndex (numBuckets : ℕ+) (key : CString) : Fin numBuckets :=
  ⟨(hashFunction key).toNat % numBuckets, Nat.mod_lt _ numBuckets.pos⟩

def kvInit (numBuckets : ℕ+) : HashTable numBuckets where
  buckets := fun _ => []
  keys := 0
  hits := 0
  misses := 0
  puts := 0
  dels := 0

/-- The search loop of `kv_put`: the chain with the entry of `key` overwritten, if it has one. -/
def overwrite (key val : CString) (expiresAt : ℕ) : Chain → Option Chain
  | [] => none
  | curr :: next =>
      if strcmp curr.key.str key = 0 then
        some ({ curr with value := CharArray.strncpy maxValLen val, expiresAt := expiresAt } :: next)
      else (overwrite key val expiresAt next).map (curr :: ·)

def expiryOf (ttl : ℤ) (now : ℕ) : ℕ := if ttl > 0 then now + ttl.toNat else 0

def kvPut (key val : CString) (ttl : ℤ) (now : ℕ) (table : HashTable numBuckets) :
    Outcome × HashTable numBuckets :=
  let idx := bucketIndex numBuckets key
  let expiresAt := expiryOf ttl now
  match overwrite key val expiresAt (table.buckets idx) with
  | some chain =>
      (⟨0, none⟩, { table with
        buckets := Function.update table.buckets idx chain
        puts := table.puts + 1 })
  | none =>
      let newNode : KvEntry :=
        ⟨CharArray.strncpy maxKeyLen key, CharArray.strncpy maxValLen val, expiresAt⟩
      (⟨0, none⟩, { table with
        buckets := Function.update table.buckets idx (newNode :: table.buckets idx)
        keys := table.keys + 1
        puts := table.puts + 1 })

/-- The entry the search loops of `kv_get` and `kv_del` stop at. -/
def search (key : CString) : Chain → Option KvEntry
  | [] => none
  | curr :: next => if strcmp curr.key.str key = 0 then some curr else search key next

def kvGet (key : CString) (now : ℕ) (table : HashTable numBuckets) :
    Outcome × HashTable numBuckets :=
  match search key (table.buckets (bucketIndex numBuckets key)) with
  | some curr =>
      if curr.expiresAt ≠ 0 ∧ now ≥ curr.expiresAt then
        (⟨-1, none⟩, { table with misses := table.misses + 1 })
      else (⟨0, some curr.value⟩, { table with hits := table.hits + 1 })
  | none => (⟨-1, none⟩, { table with misses := table.misses + 1 })

/-- The loop of `kv_del`: the chain with the first entry of `key` unlinked, if it has one. -/
def unlink (key : CString) : Chain → Option Chain
  | [] => none
  | curr :: next =>
      if strcmp curr.key.str key = 0 then some next else (unlink key next).map (curr :: ·)

def kvDel (key : CString) (table : HashTable numBuckets) : Outcome × HashTable numBuckets :=
  let idx := bucketIndex numBuckets key
  match unlink key (table.buckets idx) with
  | some chain =>
      (⟨0, none⟩, { table with
        buckets := Function.update table.buckets idx chain
        keys := table.keys - 1
        dels := table.dels + 1 })
  | none => (⟨-1, none⟩, table)

/-- The inner loop of the sweeper: one chain, with the counter it decrements. -/
def sweepChain (now : ℕ) : Chain → ℤ → Chain × ℤ
  | [], keys => ([], keys)
  | entry :: next, keys =>
      if entry.expiresAt ≠ 0 ∧ entry.expiresAt < now then sweepChain now next (keys - 1)
      else
        let (chain, keys) := sweepChain now next keys
        (entry :: chain, keys)

def sweepBucket (now : ℕ) (table : HashTable numBuckets) (i : Fin numBuckets) :
    HashTable numBuckets :=
  let (chain, keys) := sweepChain now (table.buckets i) table.keys
  { table with buckets := Function.update table.buckets i chain, keys := keys }

/-- One pass of `sweeper_main` under the write lock. -/
def sweeperPass (now : ℕ) (table : HashTable numBuckets) : HashTable numBuckets :=
  (List.finRange numBuckets).foldl (sweepBucket now) table

end HashTable

/-- A call on the table; `sweep` is one pass of the sweeper. -/
inductive Op where
  | put (key val : CString) (ttl : ℤ)
  | get (key : CString)
  | del (key : CString)
  | sweep
  deriving DecidableEq

/-- A call with the clock it reads. -/
structure Call where
  op : Op
  now : ℕ
  deriving DecidableEq

namespace HashTable

variable {numBuckets : ℕ+}

def exec (c : Call) (table : HashTable numBuckets) : Outcome × HashTable numBuckets :=
  match c.op with
  | .put key val ttl => kvPut key val ttl c.now table
  | .get key => kvGet key c.now table
  | .del key => kvDel key table
  | .sweep => (⟨0, none⟩, sweeperPass c.now table)

/-- The table after a sequence of calls. -/
def execAll (calls : List Call) (table : HashTable numBuckets) : HashTable numBuckets :=
  calls.foldl (fun t c => (exec c t).2) table

/-- What each call of a sequence returns. -/
def outcomes : List Call → HashTable numBuckets → List Outcome
  | [], _ => []
  | c :: calls, table => (exec c table).1 :: outcomes calls (exec c table).2

end HashTable

end CpreLabs
