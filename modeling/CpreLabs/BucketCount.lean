import CpreLabs.HashTableStatistics
import Mathlib.Data.Set.Card

/-!
# The number of buckets cannot be observed

Read through its chains a table is a machine on expiring maps: what a call returns and what it
leaves stored depend on the map only. The counters follow from the calls, from what they returned
and from how many keys the map holds.
-/
namespace CpreLabs

open HashTable

/-- What a table stands for. -/
abbrev KvMap := ExpiringMap CString (CharArray maxValLen) ℕ

/-- What a call returns when the table holds `m`. -/
def Call.returns (c : Call) (m : KvMap) : Outcome :=
  match c.op with
  | .put _ _ _ => ⟨0, none⟩
  | .get key => getOutcome (m.lookup key c.now)
  | .del key => ⟨if (m key).isSome then 0 else -1, none⟩
  | .sweep => ⟨0, none⟩

/-- What the table holds after a call. -/
def Call.leaves (c : Call) (m : KvMap) : KvMap :=
  match c.op with
  | .put key val ttl => Function.update m key
      (some ⟨CharArray.strncpy maxValLen val, deadlineOf (expiryOf ttl c.now)⟩)
  | .get _ => m
  | .del key => Function.update m key none
  | .sweep => fun key => (m key).filter (fun s => decide ¬ s.deadline < WithTop.some c.now)

namespace HashTable

variable {numBuckets m n : ℕ+}

theorem exec_returns (c : Call) (table : HashTable numBuckets) :
    (exec c table).1 = c.returns table.contents := by
  obtain ⟨op, now⟩ := c
  cases op with
  | put key val ttl => exact kvPut_outcome key val ttl now table
  | get key => exact kvGet_outcome key now table
  | del key => exact kvDel_outcome key table
  | sweep => rfl

theorem exec_leaves {table : HashTable numBuckets} (h : table.WellPlaced) {c : Call}
    (hc : c.op.KeyFits) : (exec c table).2.contents = c.leaves table.contents := by
  obtain ⟨op, now⟩ := c
  cases op with
  | put key val ttl => exact contents_kvPut hc val ttl now table
  | get key => exact contents_kvGet key now table
  | del key => exact contents_kvDel h key
  | sweep => exact contents_sweeperPass h now

/-- The map holds something under a key if and only if some chain does. -/
theorem WellPlaced.contents_isSome_iff {table : HashTable numBuckets} (h : table.WellPlaced)
    (key : CString) :
    (table.contents key).isSome = true ↔ ∃ e ∈ table.entries, e.key.str = key := by
  have hsearch : (table.contents key).isSome = true ↔
      key ∈ chainKeys (table.buckets (bucketIndex numBuckets key)) := by
    rw [contents, find, Option.isSome_map, ← not_iff_not, Bool.not_eq_true, Option.isSome_eq_false_iff,
      Option.isNone_iff_eq_none, search_eq_none_iff]
  rw [hsearch]
  constructor
  · intro hmem
    obtain ⟨e, he, hkey⟩ := List.mem_map.mp hmem
    exact ⟨e, List.mem_flatMap.mpr ⟨_, List.mem_finRange _, he⟩, hkey⟩
  · rintro ⟨e, he, rfl⟩
    obtain ⟨i, -, hi⟩ := List.mem_flatMap.mp he
    rw [h.placed i e hi]
    exact mem_chainKeys hi

theorem WellPlaced.nodup_entryKeys {table : HashTable numBuckets} (h : table.WellPlaced) :
    (table.entries.map (fun e => e.key.str)).Nodup := by
  have hinj : Function.Injective (CharArray.str : CharArray maxKeyLen → CString) :=
    fun _ _ heq => CharArray.ext heq
  have hkeys := h.nodup_entries.map hinj
  rw [List.map_map] at hkeys
  exact hkeys

/-- The entries are as many as the keys of the map. -/
theorem WellPlaced.total_eq_ncard {table : HashTable numBuckets} (h : table.WellPlaced) :
    table.total = ({key | (table.contents key).isSome = true} : Set CString).ncard := by
  have hset : ({key | (table.contents key).isSome = true} : Set CString) =
      ((table.entries.map (fun e => e.key.str)).toFinset : Set CString) := by
    ext key
    rw [Set.mem_ofPred_eq, h.contents_isSome_iff]
    simp
  rw [hset, Set.ncard_coe_finset, List.toFinset_card_of_nodup h.nodup_entryKeys,
    List.length_map, total_eq_length_entries]

/-- Two tables, of any sizes, that stand for the same map. -/
structure Alike (table : HashTable m) (table' : HashTable n) : Prop where
  wellPlaced : table.WellPlaced
  wellPlaced' : table'.WellPlaced
  contents : table.contents = table'.contents

theorem Alike.returns {table : HashTable m} {table' : HashTable n} (h : Alike table table')
    (c : Call) : (exec c table).1 = (exec c table').1 := by
  rw [exec_returns, exec_returns, h.contents]

theorem Alike.exec {table : HashTable m} {table' : HashTable n} (h : Alike table table') {c : Call}
    (hc : c.op.KeyFits) : Alike (exec c table).2 (HashTable.exec c table').2 := by
  refine ⟨h.wellPlaced.exec hc, h.wellPlaced'.exec hc, ?_⟩
  rw [exec_leaves h.wellPlaced hc, exec_leaves h.wellPlaced' hc, h.contents]

theorem Alike.total {table : HashTable m} {table' : HashTable n} (h : Alike table table') :
    table.total = table'.total := by
  rw [h.wellPlaced.total_eq_ncard, h.wellPlaced'.total_eq_ncard, h.contents]

theorem alike_execAll {calls : List Call} (hfits : ∀ c ∈ calls, c.op.KeyFits) :
    Alike (execAll calls (kvInit m)) (execAll calls (kvInit n)) := by
  induction calls using List.reverseRecOn with
  | nil => exact ⟨wellPlaced_kvInit, wellPlaced_kvInit, rfl⟩
  | append_singleton calls c ih =>
    rw [execAll_concat, execAll_concat]
    exact (ih fun d hd => hfits d (List.mem_append_left _ hd)).exec
      (hfits c (List.mem_append_right _ (List.mem_singleton_self c)))

theorem outcomes_alike {calls : List Call} (hfits : ∀ c ∈ calls, c.op.KeyFits) :
    outcomes calls (kvInit m) = outcomes calls (kvInit n) := by
  apply List.ext_getElem?
  intro i
  have hpre : ∀ c ∈ calls.take i, c.op.KeyFits := fun c hc => hfits c (List.mem_of_mem_take hc)
  rw [outcomes_getElem?, outcomes_getElem?]
  congr 1
  funext c
  exact (alike_execAll hpre).returns c

/-- The five counters, in the order `STATS` shows them. -/
def counters (table : HashTable numBuckets) : ℤ × ℤ × ℤ × ℤ × ℤ :=
  (table.keys, table.hits, table.misses, table.puts, table.dels)

theorem counters_alike {calls : List Call} (hfits : ∀ c ∈ calls, c.op.KeyFits) :
    (execAll calls (kvInit m)).counters = (execAll calls (kvInit n)).counters := by
  have hcount : ∀ p : Op → ℤ → Bool,
      countCalls p calls (kvInit m) = countCalls p calls (kvInit n) := by
    intro p
    rw [countCalls, countCalls, outcomes_alike hfits]
  have hs : Statistics calls (kvInit m) _ := statistics_execAll calls
  have hs' : Statistics calls (kvInit n) _ := statistics_execAll calls
  unfold counters
  rw [hs.keys, hs.hits, hs.misses, hs.puts, hs.dels, hs'.keys, hs'.hits, hs'.misses, hs'.puts,
    hs'.dels, hcount, hcount, hcount, hcount, (alike_execAll hfits).total]

/-- For any two numbers of buckets a sequence of calls, at any clock readings, returns the same and
leaves the same counters after each of them. -/
theorem bucketCount_unobservable (m n : ℕ+) (calls : List Call)
    (hfits : ∀ c ∈ calls, c.op.KeyFits) :
    outcomes calls (kvInit m) = outcomes calls (kvInit n) ∧
      ∀ i, (execAll (calls.take i) (kvInit m)).counters =
        (execAll (calls.take i) (kvInit n)).counters :=
  ⟨outcomes_alike hfits,
    fun _ => counters_alike (fun c hc => hfits c (List.mem_of_mem_take hc))⟩

/-- A put, a sweep past its deadline and a deletion, at clock readings that go back in between. -/
theorem one_bucket_as_seven :
    outcomes [⟨.put (.lit "a") (.lit "x") 5, 3⟩, ⟨.put (.lit "b") (.lit "y") 0, 9⟩, ⟨.sweep, 20⟩,
      ⟨.get (.lit "a"), 4⟩, ⟨.del (.lit "b"), 1⟩] (kvInit 1) =
    outcomes [⟨.put (.lit "a") (.lit "x") 5, 3⟩, ⟨.put (.lit "b") (.lit "y") 0, 9⟩, ⟨.sweep, 20⟩,
      ⟨.get (.lit "a"), 4⟩, ⟨.del (.lit "b"), 1⟩] (kvInit 7) :=
  (bucketCount_unobservable 1 7 _ (by decide)).1

end HashTable

end CpreLabs
