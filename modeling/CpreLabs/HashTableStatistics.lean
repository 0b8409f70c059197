import CpreLabs.HashTableRefinement
import Mathlib.Algebra.Order.BigOperators.Group.Finset
import Mathlib.Tactic.Linarith

/-!
# Representation and statistics of reachable tables

Each call changes every counter by what it returned, and `keys` by what it did to
the chains. Clock readings are arbitrary here: they decide what a call returns, not
how it is counted.
-/
namespace CpreLabs

def Op.isPut : Op → Bool
  | .put _ _ _ => true
  | _ => false

def Op.isGet : Op → Bool
  | .get _ => true
  | _ => false

def Op.isDel : Op → Bool
  | .del _ => true
  | _ => false

namespace HashTable

variable {numBuckets : ℕ+}

/-- All entries, bucket by bucket. -/
def entries (table : HashTable numBuckets) : List KvEntry :=
  (List.finRange numBuckets).flatMap table.buckets

/-- The number of entries in all chains. -/
def total (table : HashTable numBuckets) : ℤ := ∑ i, ((table.buckets i).length : ℤ)

theorem total_eq_length_entries (table : HashTable numBuckets) :
    table.total = table.entries.length := by
  simp only [total, entries, List.length_flatMap, Fin.sum_univ_def, Nat.cast_list_sum,
    List.map_map]
  rfl

/-- In a well-placed table no key occurs twice anywhere. -/
theorem WellPlaced.nodup_entries {table : HashTable numBuckets} (h : table.WellPlaced) :
    (table.entries.map KvEntry.key).Nodup := by
  rw [entries, List.map_flatMap, List.nodup_flatMap]
  constructor
  · intro i _
    apply List.Nodup.of_map CharArray.str
    simpa [chainKeys, List.map_map, Function.comp_def] using h.distinct i
  · apply (List.nodup_finRange _).imp
    intro i j hij k hi hj
    obtain ⟨e, he, rfl⟩ := List.mem_map.mp hi
    obtain ⟨e', he', hk⟩ := List.mem_map.mp hj
    have hpi := h.placed i e he
    have hpj := h.placed j e' he'
    rw [hk] at hpj
    exact hij (hpi.symm.trans hpj)

/-- Replacing one chain changes the total by the difference of the two lengths. -/
theorem total_update {table : HashTable numBuckets} (buckets : Fin numBuckets → Chain)
    {i : Fin numBuckets} {chain : Chain}
    (h : table.buckets = Function.update buckets i chain) :
    table.total = ∑ j, ((buckets j).length : ℤ) - (buckets i).length + chain.length := by
  have hnew := Finset.add_sum_erase Finset.univ (fun j => ((table.buckets j).length : ℤ))
    (Finset.mem_univ i)
  have hold := Finset.add_sum_erase Finset.univ (fun j => ((buckets j).length : ℤ))
    (Finset.mem_univ i)
  have hrest : ∑ j ∈ Finset.univ.erase i, ((table.buckets j).length : ℤ) =
      ∑ j ∈ Finset.univ.erase i, ((buckets j).length : ℤ) := by
    apply Finset.sum_congr rfl
    intro j hj
    rw [h, Function.update_of_ne (Finset.ne_of_mem_erase hj)]
  have hself : table.buckets i = chain := by simp [h]
  simp only [hself, hrest] at hnew
  unfold total
  linarith

theorem overwrite_length {key val : CString} {expiresAt : ℕ} {chain chain' : Chain}
    (h : overwrite key val expiresAt chain = some chain') : chain'.length = chain.length := by
  have hk := congrArg List.length (overwrite_some h).1
  simpa [chainKeys] using hk

theorem unlink_length {key : CString} {chain chain' : Chain}
    (h : unlink key chain = some chain') : chain'.length + 1 = chain.length := by
  obtain ⟨hk, hm, -, -⟩ := unlink_some h
  have hlen := congrArg List.length hk
  have hpos := List.length_pos_of_mem hm
  rw [List.length_erase_of_mem hm] at hlen
  simp only [chainKeys, List.length_map] at hlen hpos
  omega

/-- How one call with outcome `o` moves the counters. -/
structure Counted (c : Call) (o : Outcome) (table table' : HashTable numBuckets) : Prop where
  puts : table'.puts = table.puts + if c.op.isPut then 1 else 0
  hits : table'.hits = table.hits + if c.op.isGet && decide (o.ret = 0) then 1 else 0
  misses : table'.misses = table.misses + if c.op.isGet && !decide (o.ret = 0) then 1 else 0
  dels : table'.dels = table.dels + if c.op.isDel && decide (o.ret = 0) then 1 else 0
  keys : table'.keys - table'.total = table.keys - table.total
  room : table'.keys + table'.dels - table'.puts ≤ table.keys + table.dels - table.puts

/-- A call that leaves the chains alone leaves the total alone. -/
theorem total_congr {table table' : HashTable numBuckets} (h : table'.buckets = table.buckets) :
    table'.total = table.total := by
  simp only [total, h]

theorem counted_kvPut (key val : CString) (ttl : ℤ) (now : ℕ) (table : HashTable numBuckets) :
    Counted ⟨.put key val ttl, now⟩ (kvPut key val ttl now table).1 table
      (kvPut key val ttl now table).2 := by
  unfold kvPut
  dsimp only
  split
  · rename_i chain ho
    have hl := overwrite_length ho
    refine ⟨by simp [Op.isPut], by simp [Op.isGet], by simp [Op.isGet], by simp [Op.isDel], ?_, ?_⟩
    · rw [total_update table.buckets rfl, hl]
      simp [total]
    · dsimp only
      omega
  · refine ⟨by simp [Op.isPut], by simp [Op.isGet], by simp [Op.isGet], by simp [Op.isDel], ?_, ?_⟩
    · rw [total_update table.buckets rfl]
      simp only [total, List.length_cons]
      push_cast
      ring
    · dsimp only
      omega

theorem counted_kvGet (key : CString) (now : ℕ) (table : HashTable numBuckets) :
    Counted ⟨.get key, now⟩ (kvGet key now table).1 table (kvGet key now table).2 := by
  have ht : (kvGet key now table).2.total = table.total := total_congr (kvGet_buckets key now table)
  unfold kvGet at ht ⊢
  split
  · split
    · constructor <;> simp [Op.isPut, Op.isGet, Op.isDel, total]
    · constructor <;> simp [Op.isPut, Op.isGet, Op.isDel, total]
  · constructor <;> simp [Op.isPut, Op.isGet, Op.isDel, total]

theorem counted_kvDel (key : CString) (now : ℕ) (table : HashTable numBuckets) :
    Counted ⟨.del key, now⟩ (kvDel key table).1 table (kvDel key table).2 := by
  unfold kvDel
  dsimp only
  split
  · rename_i chain hu
    have hl := unlink_length hu
    refine ⟨by simp [Op.isPut], by simp [Op.isGet], by simp [Op.isGet], by simp [Op.isDel], ?_, ?_⟩
    · rw [total_update table.buckets rfl, ← hl]
      simp only [total]
      push_cast
      ring
    · dsimp only
      omega
  · constructor <;> simp [Op.isPut, Op.isGet, Op.isDel]

theorem counted_sweeperPass (now : ℕ) (table : HashTable numBuckets) :
    Counted ⟨.sweep, now⟩ ⟨0, none⟩ table (sweeperPass now table) := by
  have hpos : 0 ≤ ∑ i, (((table.buckets i).length : ℤ) -
      ((table.buckets i).filter (keeps now)).length) := by
    apply Finset.sum_nonneg
    intro i _
    have hle := List.length_filter_le (keeps now) (table.buckets i)
    omega
  rw [sweeperPass_eq]
  refine ⟨by simp [Op.isPut], by simp [Op.isGet], by simp [Op.isGet], by simp [Op.isDel], ?_, ?_⟩
  · simp only [total, Finset.sum_sub_distrib]
    ring
  · dsimp only
    omega

theorem counted_exec (c : Call) (table : HashTable numBuckets) :
    Counted c (exec c table).1 table (exec c table).2 := by
  obtain ⟨op, now⟩ := c
  cases op with
  | put key val ttl => exact counted_kvPut key val ttl now table
  | get key => exact counted_kvGet key now table
  | del key => exact counted_kvDel key now table
  | sweep => exact counted_sweeperPass now table

/-- How many calls of a run satisfy a test on the call and its return value. -/
def countCalls (p : Op → ℤ → Bool) (calls : List Call) (table : HashTable numBuckets) : ℕ :=
  (calls.zip (outcomes calls table)).countP (fun co => p co.1.op co.2.ret)

theorem outcomes_length (calls : List Call) (table : HashTable numBuckets) :
    (outcomes calls table).length = calls.length := by
  induction calls generalizing table with
  | nil => rfl
  | cons c calls ih => simp [outcomes, ih]

theorem outcomes_concat (calls : List Call) (c : Call) (table : HashTable numBuckets) :
    outcomes (calls ++ [c]) table = outcomes calls table ++ [(exec c (execAll calls table)).1] := by
  induction calls generalizing table with
  | nil => rfl
  | cons d calls ih => simp [outcomes, ih, execAll]

theorem countCalls_concat (p : Op → ℤ → Bool) (calls : List Call) (c : Call)
    (table : HashTable numBuckets) :
    countCalls p (calls ++ [c]) table = countCalls p calls table +
      if p c.op (exec c (execAll calls table)).1.ret then 1 else 0 := by
  rw [countCalls, outcomes_concat, List.zip_append (outcomes_length calls table).symm]
  simp [countCalls]

/-- The counters of a run from `kv_init`. -/
structure Statistics (calls : List Call) (start table : HashTable numBuckets) : Prop where
  keys : table.keys = table.total
  puts : table.puts = countCalls (fun op _ => op.isPut) calls start
  hits : table.hits = countCalls (fun op ret => op.isGet && decide (ret = 0)) calls start
  misses : table.misses = countCalls (fun op ret => op.isGet && !decide (ret = 0)) calls start
  dels : table.dels = countCalls (fun op ret => op.isDel && decide (ret = 0)) calls start
  room : table.keys + table.dels ≤ table.puts

theorem statistics_execAll (calls : List Call) :
    Statistics calls (kvInit numBuckets) (execAll calls (kvInit numBuckets)) := by
  induction calls using List.reverseRecOn with
  | nil => constructor <;> simp [execAll, kvInit, countCalls, total]
  | append_singleton calls c ih =>
    have hc := counted_exec c (execAll calls (kvInit numBuckets))
    rw [execAll_concat]
    constructor
    · have hadded := hc.keys
      have hkeys := ih.keys
      omega
    · rw [hc.puts, ih.puts, countCalls_concat]
      push_cast
      rfl
    · rw [hc.hits, ih.hits, countCalls_concat]
      push_cast
      rfl
    · rw [hc.misses, ih.misses, countCalls_concat]
      push_cast
      rfl
    · rw [hc.dels, ih.dels, countCalls_concat]
      push_cast
      rfl
    · have hadded := hc.room
      have hroom := ih.room
      omega

theorem countCalls_split (calls : List Call) (table : HashTable numBuckets) :
    countCalls (fun op ret => op.isGet && decide (ret = 0)) calls table +
      countCalls (fun op ret => op.isGet && !decide (ret = 0)) calls table =
        countCalls (fun op _ => op.isGet) calls table := by
  unfold countCalls
  induction calls.zip (outcomes calls table) with
  | nil => rfl
  | cons co cs ih =>
    simp only [List.countP_cons] at ih ⊢
    cases co.1.op.isGet <;> cases decide (co.2.ret = 0) <;> simp <;> omega

/-- Every state reached from `kv_init` by calls with keys of at most 256 bytes, at any
clock readings, has its keys in their buckets and nowhere twice, and counters that
agree with the chains and with what the calls returned. -/
theorem reachable_statistics (numBuckets : ℕ+) (calls : List Call)
    (hfits : ∀ c ∈ calls, c.op.KeyFits) :
    let table := execAll calls (kvInit numBuckets)
    let count := fun p => (countCalls p calls (kvInit numBuckets) : ℤ)
    (∀ i, ∀ e ∈ table.buckets i, bucketIndex numBuckets e.key.str = i) ∧
      (table.entries.map KvEntry.key).Nodup ∧
      table.keys = table.entries.length ∧
      table.puts = count (fun op _ => op.isPut) ∧
      table.hits + table.misses = count (fun op _ => op.isGet) ∧
      table.hits = count (fun op ret => op.isGet && decide (ret = 0)) ∧
      table.dels = count (fun op ret => op.isDel && decide (ret = 0)) ∧
      0 ≤ table.keys ∧ table.keys + table.dels ≤ table.puts := by
  intro table count
  have hw : table.WellPlaced := wellPlaced_execAll hfits
  have hs : Statistics calls (kvInit numBuckets) table := statistics_execAll calls
  have hkeys : table.keys = table.entries.length := by
    rw [hs.keys, total_eq_length_entries]
  have hgets := countCalls_split calls (kvInit numBuckets)
  refine ⟨hw.placed, hw.nodup_entries, hkeys, hs.puts, ?_, hs.hits, hs.dels, by omega, hs.room⟩
  rw [hs.hits, hs.misses]
  dsimp only [count]
  omega

/-- An overwrite, an expired get and a sweep, in one bucket: two puts, no key left. -/
theorem statistics_after_expiry :
    (execAll [⟨.put (.lit "a") (.lit "x") 0, 0⟩, ⟨.put (.lit "a") (.lit "y") 1, 5⟩,
      ⟨.get (.lit "a"), 7⟩, ⟨.sweep, 7⟩] (kvInit 1)).puts = 2 ∧
    (execAll [⟨.put (.lit "a") (.lit "x") 0, 0⟩, ⟨.put (.lit "a") (.lit "y") 1, 5⟩,
      ⟨.get (.lit "a"), 7⟩, ⟨.sweep, 7⟩] (kvInit 1)).hits = 0 := by
  obtain ⟨-, -, -, hputs, -, hhits, -, -, -⟩ := reachable_statistics 1
    [⟨.put (.lit "a") (.lit "x") 0, 0⟩, ⟨.put (.lit "a") (.lit "y") 1, 5⟩,
      ⟨.get (.lit "a"), 7⟩, ⟨.sweep, 7⟩] (by decide)
  rw [hputs, hhits]
  decide

end HashTable

end CpreLabs
