import CpreLabs.ExpiringMap
import CpreLabs.HashTableOperations
import Mathlib.Tactic.Ring

/-!
# What a table contains, and how each call changes it

A table read through its chains is an expiring map. For every call one theorem says
what it does to that map; the invariant that makes deletion and sweeping exact is
that keys sit in their own bucket and occur once.
-/
namespace CpreLabs

/-- `expires_at` as a deadline: 0 stands for never. -/
def deadlineOf (expiresAt : ℕ) : WithTop ℕ := if expiresAt = 0 then ⊤ else WithTop.some expiresAt

/-- The value and the deadline an entry stands for. -/
def KvEntry.stored (e : KvEntry) : Stored (CharArray maxValLen) ℕ :=
  ⟨e.value, deadlineOf e.expiresAt⟩

namespace HashTable

variable {numBuckets : ℕ+} {now : ℕ} {key val : CString}

def chainKeys (chain : Chain) : List CString := chain.map (fun e => e.key.str)

@[simp] theorem chainKeys_nil : chainKeys [] = [] := rfl

@[simp] theorem chainKeys_cons (e : KvEntry) (chain : Chain) :
    chainKeys (e :: chain) = e.key.str :: chainKeys chain := rfl

theorem mem_chainKeys {e : KvEntry} {chain : Chain} (h : e ∈ chain) :
    e.key.str ∈ chainKeys chain := List.mem_map_of_mem h

@[simp] theorem search_nil (key : CString) : search key [] = none := rfl

@[simp] theorem search_cons (key : CString) (e : KvEntry) (chain : Chain) :
    search key (e :: chain) = if e.key.str = key then some e else search key chain := by
  simp [search]

theorem search_eq_none_iff {chain : Chain} : search key chain = none ↔ key ∉ chainKeys chain := by
  induction chain with
  | nil => simp
  | cons e chain ih =>
    by_cases h : e.key.str = key
    · simp [h]
    · simp [h, ih, Ne.symm h]

theorem overwrite_none {expiresAt : ℕ} {chain : Chain}
    (h : overwrite key val expiresAt chain = none) : key ∉ chainKeys chain := by
  induction chain with
  | nil => simp
  | cons e chain ih =>
    by_cases he : e.key.str = key
    · simp [overwrite, he] at h
    · simp only [overwrite, strcmp_eq_zero_iff, if_neg he, Option.map_eq_none_iff] at h
      simpa [Ne.symm he] using ih h

/-- Overwriting touches the value and the expiry of the entry found, nothing else. -/
theorem overwrite_some {expiresAt : ℕ} {chain chain' : Chain}
    (h : overwrite key val expiresAt chain = some chain') :
    chainKeys chain' = chainKeys chain ∧ key ∈ chainKeys chain ∧
      ∀ j, search j chain' = if j = key then
        (search key chain).map (fun e =>
          { e with value := CharArray.strncpy maxValLen val, expiresAt := expiresAt })
        else search j chain := by
  induction chain generalizing chain' with
  | nil => simp [overwrite] at h
  | cons e chain ih =>
    by_cases he : e.key.str = key
    · simp only [overwrite, strcmp_eq_zero_iff, if_pos he, Option.some.injEq] at h
      subst h
      refine ⟨rfl, by simp [he], fun j => ?_⟩
      by_cases hj : j = key
      · simp [hj, he]
      · have hej : ¬ e.key.str = j := fun h => hj (h.symm.trans he)
        simp [hj, hej]
    · simp only [overwrite, strcmp_eq_zero_iff, if_neg he, Option.map_eq_some_iff] at h
      obtain ⟨tail, htail, rfl⟩ := h
      obtain ⟨hkeys, hmem, hsearch⟩ := ih htail
      refine ⟨by simp [hkeys], by simp [hmem], fun j => ?_⟩
      by_cases hj : j = key
      · subst hj
        simpa [he] using hsearch j
      · simp [hsearch j, hj]

theorem unlink_none {chain : Chain} (h : unlink key chain = none) : key ∉ chainKeys chain := by
  induction chain with
  | nil => simp
  | cons e chain ih =>
    by_cases he : e.key.str = key
    · simp [unlink, he] at h
    · simp only [unlink, strcmp_eq_zero_iff, if_neg he, Option.map_eq_none_iff] at h
      simpa [Ne.symm he] using ih h

/-- Unlinking removes one entry of the key and leaves the searches for other keys alone. -/
theorem unlink_some {chain chain' : Chain} (h : unlink key chain = some chain') :
    chainKeys chain' = (chainKeys chain).erase key ∧ key ∈ chainKeys chain ∧
      (∀ e ∈ chain', e ∈ chain) ∧ ∀ j, j ≠ key → search j chain' = search j chain := by
  induction chain generalizing chain' with
  | nil => simp [unlink] at h
  | cons e chain ih =>
    by_cases he : e.key.str = key
    · simp only [unlink, strcmp_eq_zero_iff, if_pos he, Option.some.injEq] at h
      subst h
      refine ⟨by simp [he], by simp [he], fun a ha => List.mem_cons_of_mem _ ha, fun j hj => ?_⟩
      have hej : ¬ e.key.str = j := fun h => hj (h.symm.trans he)
      simp [hej]
    · simp only [unlink, strcmp_eq_zero_iff, if_neg he, Option.map_eq_some_iff] at h
      obtain ⟨tail, htail, rfl⟩ := h
      obtain ⟨hkeys, hmem, hsub, hsearch⟩ := ih htail
      refine ⟨?_, by simp [hmem], ?_, fun j hj => by simp [hsearch j hj]⟩
      · simp [hkeys, he]
      · intro a ha
        rcases List.mem_cons.mp ha with rfl | ha
        · simp
        · exact List.mem_cons_of_mem _ (hsub a ha)

/-- The test under which the sweeper keeps an entry. -/
def keeps (now : ℕ) (e : KvEntry) : Bool := decide ¬(e.expiresAt ≠ 0 ∧ e.expiresAt < now)

theorem sweepChain_eq (now : ℕ) (chain : Chain) (keys : ℤ) :
    sweepChain now chain keys =
      (chain.filter (keeps now), keys - (chain.length - (chain.filter (keeps now)).length)) := by
  induction chain generalizing keys with
  | nil => simp [sweepChain]
  | cons e chain ih =>
    by_cases h : e.expiresAt ≠ 0 ∧ e.expiresAt < now
    · have hk : keeps now e = false := decide_eq_false (not_not.mpr h)
      rw [sweepChain, if_pos h, ih]
      simp only [List.filter_cons, hk, List.length_cons, Bool.false_eq_true, if_false,
        Prod.mk.injEq, true_and]
      push_cast
      ring
    · have hk : keeps now e = true := decide_eq_true h
      rw [sweepChain, if_neg h, ih]
      simp only [List.filter_cons, hk, List.length_cons, if_true, Prod.mk.injEq, true_and]
      push_cast
      ring

/-- In a chain without repeated keys, dropping entries commutes with searching. -/
theorem search_filter (p : KvEntry → Bool) {chain : Chain} (h : (chainKeys chain).Nodup)
    (key : CString) : search key (chain.filter p) = (search key chain).filter p := by
  induction chain with
  | nil => simp
  | cons e chain ih =>
    rw [chainKeys_cons, List.nodup_cons] at h
    have hi := ih h.2
    by_cases he : e.key.str = key
    · have hnone : search key chain = none := search_eq_none_iff.mpr (he ▸ h.1)
      cases hp : p e <;> simp [he, hp, hi, hnone, Option.filter]
    · cases hp : p e <;> simp [he, hp, hi]

/-- In any chain, the entry that a search stops at is still found if it is not dropped. -/
theorem search_filter_of_keeps {p : KvEntry → Bool} {chain : Chain} {key : CString} {e : KvEntry}
    (h : search key chain = some e) (hp : p e = true) :
    search key (chain.filter p) = some e := by
  induction chain with
  | nil => cases h
  | cons curr next ih =>
    rw [search_cons] at h
    split at h
    · rename_i hkey
      cases h
      rw [List.filter_cons_of_pos hp, search_cons, if_pos hkey]
    · rename_i hkey
      cases hcurr : p curr with
      | true => rw [List.filter_cons_of_pos hcurr, search_cons, if_neg hkey, ih h]
      | false => rw [List.filter_cons_of_neg (by simp [hcurr]), ih h]

private theorem foldl_sweepBucket (now : ℕ) (is : List (Fin numBuckets)) (hn : is.Nodup)
    (table : HashTable numBuckets) :
    is.foldl (sweepBucket now) table =
      { table with
        buckets := fun i => if i ∈ is then (table.buckets i).filter (keeps now) else table.buckets i
        keys := table.keys - (is.map (fun i => ((table.buckets i).length : ℤ) -
          ((table.buckets i).filter (keeps now)).length)).sum } := by
  induction is generalizing table with
  | nil => simp
  | cons i is ih =>
    obtain ⟨hi, hn⟩ := List.nodup_cons.mp hn
    have hne : ∀ j ∈ is, j ≠ i := fun j hj he => hi (he ▸ hj)
    have hsum : (is.map (fun j =>
        (((sweepBucket now table i).buckets j).length : ℤ) -
          (((sweepBucket now table i).buckets j).filter (keeps now)).length)) =
        is.map (fun j => ((table.buckets j).length : ℤ) -
          ((table.buckets j).filter (keeps now)).length) := by
      apply List.map_congr_left
      intro j hj
      simp [sweepBucket, Function.update_of_ne (hne j hj)]
    rw [List.foldl_cons, ih hn, hsum]
    simp only [sweepBucket, sweepChain_eq, List.map_cons, List.sum_cons, mk.injEq, and_true]
    refine ⟨?_, by ring⟩
    funext j
    by_cases hj : j = i
    · subst hj
      simp [hi]
    · simp [hj]

/-- One pass keeps exactly the unexpired entries of every chain, in their order, and
lowers `keys` by the number it removed. -/
theorem sweeperPass_eq (now : ℕ) (table : HashTable numBuckets) :
    sweeperPass now table = { table with
      buckets := fun i => (table.buckets i).filter (keeps now)
      keys := table.keys - ∑ i, (((table.buckets i).length : ℤ) -
        ((table.buckets i).filter (keeps now)).length) } := by
  rw [sweeperPass, foldl_sweepBucket now _ (List.nodup_finRange _)]
  simp only [List.mem_finRange, if_true, Fin.sum_univ_def]

/-- Every key is in its own bucket, and no key is twice in a chain. -/
structure WellPlaced (table : HashTable numBuckets) : Prop where
  placed : ∀ i, ∀ e ∈ table.buckets i, bucketIndex numBuckets e.key.str = i
  distinct : ∀ i, (chainKeys (table.buckets i)).Nodup

theorem wellPlaced_kvInit : WellPlaced (kvInit numBuckets) :=
  ⟨by simp [kvInit], by simp [kvInit]⟩

theorem WellPlaced.placed_key {table : HashTable numBuckets} (h : table.WellPlaced)
    {i : Fin numBuckets} (hk : key ∈ chainKeys (table.buckets i)) :
    bucketIndex numBuckets key = i := by
  obtain ⟨e, he, rfl⟩ := List.mem_map.mp hk
  exact h.placed i e he

/-- Changing one chain keeps the invariant if the new chain satisfies it. -/
theorem WellPlaced.update {table : HashTable numBuckets} (h : table.WellPlaced)
    {i : Fin numBuckets} {chain : Chain} (hp : ∀ k ∈ chainKeys chain, bucketIndex numBuckets k = i)
    (hd : (chainKeys chain).Nodup) {table' : HashTable numBuckets}
    (ht : table'.buckets = Function.update table.buckets i chain) : table'.WellPlaced := by
  constructor
  · intro j e he
    rw [ht] at he
    by_cases hj : j = i
    · subst hj
      rw [Function.update_self] at he
      exact hp _ (mem_chainKeys he)
    · rw [Function.update_of_ne hj] at he
      exact h.placed j e he
  · intro j
    rw [ht]
    by_cases hj : j = i
    · subst hj
      simpa using hd
    · simpa [Function.update_of_ne hj] using h.distinct j

theorem WellPlaced.kvPut {table : HashTable numBuckets} (h : table.WellPlaced)
    (hk : key.length ≤ maxKeyLen) (val : CString) (ttl : ℤ) (now : ℕ) :
    (kvPut key val ttl now table).2.WellPlaced := by
  unfold HashTable.kvPut
  dsimp only
  split
  · rename_i chain ho
    obtain ⟨hkeys, -, -⟩ := overwrite_some ho
    refine h.update ?_ ?_ rfl
    · intro k hkm
      exact h.placed_key (hkeys ▸ hkm)
    · exact hkeys ▸ h.distinct _
  · rename_i ho
    refine h.update ?_ ?_ rfl
    · intro k hkm
      rw [chainKeys_cons, CharArray.str_strncpy hk] at hkm
      rcases List.mem_cons.mp hkm with rfl | hkm
      · rfl
      · exact h.placed_key hkm
    · rw [chainKeys_cons, CharArray.str_strncpy hk]
      exact List.nodup_cons.mpr ⟨overwrite_none ho, h.distinct _⟩

theorem kvGet_buckets (key : CString) (now : ℕ) (table : HashTable numBuckets) :
    (kvGet key now table).2.buckets = table.buckets := by
  unfold kvGet
  split
  · split <;> rfl
  · rfl

theorem WellPlaced.kvGet {table : HashTable numBuckets} (h : table.WellPlaced) (key : CString)
    (now : ℕ) : (kvGet key now table).2.WellPlaced := by
  constructor
  · intro i e he
    rw [kvGet_buckets] at he
    exact h.placed i e he
  · intro i
    rw [kvGet_buckets]
    exact h.distinct i

theorem WellPlaced.kvDel {table : HashTable numBuckets} (h : table.WellPlaced) (key : CString) :
    (kvDel key table).2.WellPlaced := by
  unfold HashTable.kvDel
  dsimp only
  split
  · rename_i chain hu
    obtain ⟨hkeys, -, -, -⟩ := unlink_some hu
    refine h.update ?_ ?_ rfl
    · intro k hkm
      rw [hkeys] at hkm
      exact h.placed_key (List.mem_of_mem_erase hkm)
    · rw [hkeys]
      exact (h.distinct _).erase _
  · exact h

theorem WellPlaced.sweeperPass {table : HashTable numBuckets} (h : table.WellPlaced) (now : ℕ) :
    (sweeperPass now table).WellPlaced := by
  rw [sweeperPass_eq]
  constructor
  · intro i e he
    exact h.placed i e (List.mem_of_mem_filter he)
  · intro i
    exact (h.distinct i).sublist (List.filter_sublist.map _)

/-- The entry of a key, if its bucket has one. -/
def find (table : HashTable numBuckets) (key : CString) : Option KvEntry :=
  search key (table.buckets (bucketIndex numBuckets key))

/-- What the chains hold, expired or not. -/
def contents (table : HashTable numBuckets) : ExpiringMap CString (CharArray maxValLen) ℕ :=
  fun key => (table.find key).map KvEntry.stored

/-- A key is looked for in one chain only, so replacing that chain is a local change. -/
theorem contents_update {table table' : HashTable numBuckets} {chain : Chain}
    (ht : table'.buckets = Function.update table.buckets (bucketIndex numBuckets key) chain)
    (hother : ∀ j, j ≠ key →
      search j chain = search j (table.buckets (bucketIndex numBuckets key))) :
    table'.contents =
      Function.update table.contents key ((search key chain).map KvEntry.stored) := by
  funext j
  by_cases hj : j = key
  · subst hj
    simp [contents, find, ht]
  · rw [Function.update_of_ne hj]
    by_cases hb : bucketIndex numBuckets j = bucketIndex numBuckets key
    · simp [contents, find, ht, hb, hother j hj]
    · simp [contents, find, ht, Function.update_of_ne hb]

theorem contents_kvPut (hk : key.length ≤ maxKeyLen) (val : CString) (ttl : ℤ) (now : ℕ)
    (table : HashTable numBuckets) :
    (kvPut key val ttl now table).2.contents = Function.update table.contents key
      (some ⟨CharArray.strncpy maxValLen val, deadlineOf (expiryOf ttl now)⟩) := by
  unfold kvPut
  dsimp only
  split
  · rename_i chain ho
    obtain ⟨-, hmem, hsearch⟩ := overwrite_some ho
    have hother : ∀ j, j ≠ key →
        search j chain = search j (table.buckets (bucketIndex numBuckets key)) :=
      fun j hj => by simp [hsearch j, hj]
    rw [contents_update rfl hother]
    obtain ⟨e, he⟩ := Option.ne_none_iff_exists'.mp (mt search_eq_none_iff.mp (not_not.mpr hmem))
    simp [hsearch key, he, KvEntry.stored]
  · rw [contents_update rfl (fun j hj => ?_)]
    · simp [CharArray.str_strncpy hk, KvEntry.stored]
    · simp [CharArray.str_strncpy hk, Ne.symm hj]

theorem contents_kvGet (key : CString) (now : ℕ) (table : HashTable numBuckets) :
    (kvGet key now table).2.contents = table.contents := by
  funext j
  simp only [contents, find, kvGet_buckets]

theorem contents_kvDel {table : HashTable numBuckets} (h : table.WellPlaced) (key : CString) :
    (kvDel key table).2.contents = Function.update table.contents key none := by
  unfold kvDel
  dsimp only
  split
  · rename_i chain hu
    obtain ⟨hkeys, -, -, hsearch⟩ := unlink_some hu
    have hnot : key ∉ chainKeys chain := by
      rw [hkeys]
      exact (h.distinct _).not_mem_erase
    rw [contents_update rfl hsearch, search_eq_none_iff.mpr hnot]
    rfl
  · rename_i hu
    have hnone : table.contents key = none := by
      simp [contents, find, search_eq_none_iff.mpr (unlink_none hu)]
    rw [← hnone, Function.update_eq_self]

theorem keeps_iff (now : ℕ) (e : KvEntry) :
    keeps now e = true ↔ ¬ e.stored.deadline < WithTop.some now := by
  by_cases h : e.expiresAt = 0 <;> simp [keeps, KvEntry.stored, deadlineOf, h]

theorem contents_sweeperPass {table : HashTable numBuckets} (h : table.WellPlaced) (now : ℕ) :
    (sweeperPass now table).contents = fun key =>
      (table.contents key).filter (fun s => decide ¬ s.deadline < WithTop.some now) := by
  funext key
  simp only [contents, find, sweeperPass_eq, search_filter _ (h.distinct _)]
  cases search key (table.buckets (bucketIndex numBuckets key)) with
  | none => rfl
  | some e =>
    have hk := keeps_iff now e
    by_cases hd : e.stored.deadline < WithTop.some now <;> simp_all [Option.filter]

/-- What has no deadline is left alone, also in a table that breaks the invariant. -/
theorem contents_sweeperPass_of_top {table : HashTable numBuckets}
    {s : Stored (CharArray maxValLen) ℕ} (h : table.contents key = some s) (hs : s.deadline = ⊤)
    (now : ℕ) : (sweeperPass now table).contents key = some s := by
  obtain ⟨e, he, rfl⟩ := Option.map_eq_some_iff.mp h
  have hkeeps : keeps now e = true := by
    rw [keeps_iff, hs]
    exact not_top_lt
  simp only [contents, find, sweeperPass_eq, search_filter_of_keeps he hkeeps, Option.map_some]

theorem live_iff (x now : ℕ) : WithTop.some now < deadlineOf x ↔ ¬(x ≠ 0 ∧ now ≥ x) := by
  by_cases h : x = 0 <;> simp [deadlineOf, h]

/-- Return code and out-parameter of `kv_get` for the value it sees. -/
def getOutcome : Option (CharArray maxValLen) → Outcome
  | some v => ⟨0, some v⟩
  | none => ⟨-1, none⟩

theorem kvGet_outcome (key : CString) (now : ℕ) (table : HashTable numBuckets) :
    (kvGet key now table).1 = getOutcome (table.contents.lookup key now) := by
  unfold kvGet ExpiringMap.lookup contents find
  cases search key (table.buckets (bucketIndex numBuckets key)) with
  | none => rfl
  | some e =>
    have hl := live_iff e.expiresAt now
    by_cases he : e.expiresAt ≠ 0 ∧ now ≥ e.expiresAt
    · simp only [Option.map_some, KvEntry.stored, if_neg (mt hl.mp (not_not.mpr he)), if_pos he,
        getOutcome]
    · simp only [Option.map_some, KvEntry.stored, hl.mpr he, if_neg he, if_true, getOutcome]

/-- A value returned is stored under the key. -/
theorem kvGet_found {table : HashTable numBuckets} {out : CharArray maxValLen}
    (h : (kvGet key now table).1 = ⟨0, some out⟩) :
    ∃ s, table.contents key = some s ∧ s.value = out := by
  rw [kvGet_outcome, ExpiringMap.lookup] at h
  split at h
  · cases h
  · rename_i s hs
    split at h
    · cases h
      exact ⟨s, hs, rfl⟩
    · cases h

theorem kvPut_outcome (key val : CString) (ttl : ℤ) (now : ℕ) (table : HashTable numBuckets) :
    (kvPut key val ttl now table).1 = ⟨0, none⟩ := by
  unfold kvPut
  dsimp only
  split <;> rfl

/-- `kv_del` looks at presence only, not at the deadline. -/
theorem kvDel_outcome (key : CString) (table : HashTable numBuckets) :
    (kvDel key table).1 = ⟨if (table.contents key).isSome then 0 else -1, none⟩ := by
  unfold kvDel contents find
  dsimp only
  split
  · rename_i chain hu
    obtain ⟨e, he⟩ := Option.ne_none_iff_exists'.mp
      (mt search_eq_none_iff.mp (not_not.mpr (unlink_some hu).2.1))
    simp [he]
  · rename_i hu
    simp [search_eq_none_iff.mpr (unlink_none hu)]

end HashTable

end CpreLabs
