import CpreLabs.BucketCount

/-!
# What a sweep removes, against what a get no longer finds

`kv_get` gives an entry up from the second `expires_at` on, the sweeper only after it. The two
agree on a table exactly when nothing in it expires at the very second of the pass.
-/
namespace CpreLabs

namespace HashTable

variable {numBuckets : ℕ+} {now : ℕ} {table : HashTable numBuckets}

/-- `kv_get` at `now` finds the key. -/
def found (now : ℕ) (table : HashTable numBuckets) (key : CString) : Bool :=
  decide ((kvGet key now table).1.ret = 0)

/-- A pass removes what `kv_get` reports missing, keeps the rest as it is, and leaves `keys` at the
number of keys that can be found. -/
structure ExactSweep (now : ℕ) (table : HashTable numBuckets) : Prop where
  chains : ∀ i, (sweeperPass now table).buckets i =
    (table.buckets i).filter (fun e => found now table e.key.str)
  removed : (sweeperPass now table).keys =
    table.keys - (table.entries.filter (fun e => !found now table e.key.str)).length
  keys : (sweeperPass now table).keys =
    ({key | found now (sweeperPass now table) key = true} : Set CString).ncard

theorem mem_entries {e : KvEntry} : e ∈ table.entries ↔ ∃ i, e ∈ table.buckets i := by
  simp [entries]

theorem WellPlaced.contents_of_mem (h : table.WellPlaced) {e : KvEntry} (he : e ∈ table.entries) :
    table.contents e.key.str = some e.stored := by
  obtain ⟨i, hi⟩ := mem_entries.mp he
  have hmem : e ∈ (table.buckets i).filter (fun a => decide (a = e)) :=
    List.mem_filter.mpr ⟨hi, decide_eq_true rfl⟩
  have hsome : search e.key.str ((table.buckets i).filter (fun a => decide (a = e))) ≠ none :=
    mt search_eq_none_iff.mp (not_not.mpr (mem_chainKeys hmem))
  rw [search_filter _ (h.distinct i)] at hsome
  rw [contents, find, h.placed i e hi]
  cases hs : search e.key.str (table.buckets i) with
  | none => simp [hs] at hsome
  | some a =>
    have hae : a = e := by
      by_contra hne
      simp [hs, Option.filter, hne] at hsome
    rw [hae]
    rfl

theorem WellPlaced.mem_of_contents (h : table.WellPlaced) {key : CString}
    {s : Stored (CharArray maxValLen) ℕ} (hs : table.contents key = some s) :
    ∃ e ∈ table.entries, e.key.str = key ∧ e.stored = s := by
  obtain ⟨e, he, hkey⟩ := (h.contents_isSome_iff key).mp (by rw [hs]; rfl)
  have hstored := h.contents_of_mem he
  rw [hkey, hs, Option.some.injEq] at hstored
  exact ⟨e, he, hkey, hstored.symm⟩

theorem found_iff {key : CString} : found now table key = true ↔
    ∃ s, table.contents key = some s ∧ WithTop.some now < s.deadline := by
  rw [found, decide_eq_true_iff, kvGet_outcome, ExpiringMap.lookup]
  cases table.contents key with
  | none => simp [getOutcome]
  | some s =>
    dsimp only
    by_cases hs : WithTop.some now < s.deadline
    · rw [if_pos hs]
      exact ⟨fun _ => ⟨s, rfl, hs⟩, fun _ => rfl⟩
    · rw [if_neg hs]
      simpa [getOutcome] using not_lt.mp hs

theorem WellPlaced.found_entry_iff (h : table.WellPlaced) {e : KvEntry} (he : e ∈ table.entries) :
    found now table e.key.str = true ↔ WithTop.some now < e.stored.deadline := by
  rw [found_iff, h.contents_of_mem he]
  simp

/-- The second at which the sweeper still keeps an entry that `kv_get` has given up. -/
theorem WellPlaced.found_eq_keeps_iff (h : table.WellPlaced) {e : KvEntry}
    (he : e ∈ table.entries) :
    found now table e.key.str = keeps now e ↔ (e.expiresAt ≠ 0 → e.expiresAt ≠ now) := by
  rw [Bool.eq_iff_iff, h.found_entry_iff he, keeps_iff, KvEntry.stored]
  by_cases hzero : e.expiresAt = 0
  · simp [deadlineOf, hzero]
  · simp only [deadlineOf, if_neg hzero, WithTop.coe_lt_coe]
    omega

theorem total_filter (p : KvEntry → Bool) :
    (∑ i, (((table.buckets i).length : ℤ) - ((table.buckets i).filter p).length)) =
      (table.entries.filter (fun e => !p e)).length := by
  have hchain : ∀ chain : Chain, (chain.length : ℤ) - (chain.filter p).length =
      (chain.filter (fun e => !p e)).length := by
    intro chain
    have hsplit := chain.length_eq_length_filter_add p
    omega
  simp only [hchain, entries, List.filter_flatMap, List.length_flatMap, Fin.sum_univ_def,
    Nat.cast_list_sum, List.map_map]
  rfl

/-- Whatever a pass leaves can be found, if nothing expires right now. -/
theorem WellPlaced.found_after_sweep (h : table.WellPlaced)
    (hnow : ∀ e ∈ table.entries, e.expiresAt ≠ 0 → e.expiresAt ≠ now) (key : CString) :
    found now (HashTable.sweeperPass now table) key = true ↔
      ((HashTable.sweeperPass now table).contents key).isSome = true := by
  rw [found_iff, Option.isSome_iff_exists]
  constructor
  · rintro ⟨s, hs, -⟩
    exact ⟨s, hs⟩
  · rintro ⟨s, hs⟩
    refine ⟨s, hs, ?_⟩
    rw [contents_sweeperPass h, Option.filter_eq_some_iff] at hs
    obtain ⟨hmem, hkept⟩ := hs
    obtain ⟨e, he, hkey, rfl⟩ := h.mem_of_contents hmem
    have hagree := (h.found_eq_keeps_iff he).mpr (hnow e he)
    exact (h.found_entry_iff he).mp
      (hagree.trans ((keeps_iff now e).mpr (of_decide_eq_true hkept)))

theorem exactSweep_of_keys (h : table.WellPlaced) (hkeys : table.keys = table.total)
    (hnow : ∀ e ∈ table.entries, e.expiresAt ≠ 0 → e.expiresAt ≠ now) :
    ExactSweep now table := by
  have hagree : ∀ e ∈ table.entries, keeps now e = found now table e.key.str :=
    fun e he => ((h.found_eq_keeps_iff he).mpr (hnow e he)).symm
  constructor
  · intro i
    rw [sweeperPass_eq]
    apply List.filter_congr
    intro e he
    exact hagree e (mem_entries.mpr ⟨i, he⟩)
  · rw [sweeperPass_eq]
    dsimp only
    rw [total_filter, List.filter_congr fun e he => congrArg not (hagree e he)]
  · have hcounted := (counted_sweeperPass now table).keys
    have hset : {key | found now (sweeperPass now table) key = true} =
        {key | ((sweeperPass now table).contents key).isSome = true} := by
      ext key
      exact h.found_after_sweep hnow key
    rw [hset, ← (h.sweeperPass now).total_eq_ncard]
    omega

/-- A pass over a reachable table is exact if and only if no entry expires at the second of the
pass. -/
theorem exactSweep_iff (numBuckets : ℕ+) (calls : List Call) (hfits : ∀ c ∈ calls, c.op.KeyFits)
    (now : ℕ) :
    ExactSweep now (execAll calls (kvInit numBuckets)) ↔
      ∀ e ∈ (execAll calls (kvInit numBuckets)).entries,
        e.expiresAt ≠ 0 → e.expiresAt ≠ now := by
  have h : WellPlaced (execAll calls (kvInit numBuckets)) := wellPlaced_execAll hfits
  constructor
  · intro hexact e he
    obtain ⟨i, hi⟩ := mem_entries.mp he
    have hchain := hexact.chains i
    rw [sweeperPass_eq] at hchain
    have hiff : keeps now e = true ↔ found now (execAll calls (kvInit numBuckets)) e.key.str = true := by
      have hmem := congrArg (fun chain => e ∈ chain) hchain
      simpa [List.mem_filter, hi] using hmem
    exact (h.found_eq_keeps_iff he).mp (Bool.eq_iff_iff.mpr hiff.symm)
  · exact exactSweep_of_keys h (statistics_execAll calls).keys

theorem sweep_after_deadline :
    let table := execAll [⟨.put (.lit "a") (.lit "x") 5, 0⟩, ⟨.put (.lit "b") (.lit "y") 0, 1⟩]
      (kvInit 1)
    ExactSweep 7 table ∧ table.entries.map (fun e => e.key.str) = [.lit "b", .lit "a"] ∧
      (sweeperPass 7 table).entries.map (fun e => e.key.str) = [.lit "b"] :=
  ⟨(exactSweep_iff 1 _ (by decide) 7).mpr (by decide), by decide, by decide⟩

/-- At its deadline an entry is lost to `kv_get` and still in its chain after the pass. -/
theorem sweep_at_deadline :
    ¬ ExactSweep 5 (execAll [⟨.put (.lit "a") (.lit "x") 5, 0⟩] (kvInit 1)) := by
  intro h
  have hlength := congrArg List.length (h.chains 0)
  revert hlength
  decide

end HashTable

end CpreLabs
