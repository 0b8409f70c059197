import CpreLabs.HashTableContents

/-!
# The table refines an expiring map

Puts and deletions are writes of the abstract map; a sweep is no write at all. The
simulation relation is `Pruned`: the chains hold the map without some entries whose
deadline lies in the past, so lookups agree although the sweeper removes entries at
moments the map does not know about.
-/
namespace CpreLabs

/-- The key fits the array of an entry. -/
def Op.KeyFits : Op → Prop
  | .put key _ _ | .get key | .del key => key.length ≤ maxKeyLen
  | .sweep => True

/-- Key and value fit the arrays of an entry, as every `%256s` token does. -/
def Op.Fits : Op → Prop
  | .put key val _ => key.length ≤ maxKeyLen ∧ val.length ≤ maxValLen
  | op => op.KeyFits

instance : DecidablePred Op.KeyFits := fun op => by
  cases op <;> unfold Op.KeyFits <;> infer_instance

instance : DecidablePred Op.Fits := fun op => by
  cases op <;> unfold Op.Fits <;> infer_instance

theorem Op.Fits.keyFits {op : Op} (h : op.Fits) : op.KeyFits := by
  cases op with
  | put key val ttl => exact h.1
  | get key => exact h
  | del key => exact h
  | sweep => trivial

/-- The call puts or deletes the key. -/
def Op.writes (key : CString) : Op → Bool
  | .put k _ _ => decide (k = key)
  | .del k => decide (k = key)
  | _ => false

/-- The latest `kv_put` or `kv_del` on a key. -/
def latestWrite (calls : List Call) (key : CString) : Option Call :=
  calls.reverse.find? (fun c => c.op.writes key)

/-- What a call writes into the abstract map. -/
def Call.write? (c : Call) : Option (Write CString (CharArray maxValLen) ℕ) :=
  match c.op with
  | .put key val ttl =>
      some (key, some ⟨CharArray.strncpy maxValLen val, deadlineOf (HashTable.expiryOf ttl c.now)⟩)
  | .del key => some (key, none)
  | _ => none

/-- The abstract map after a sequence of calls. -/
def abstractMap (calls : List Call) : ExpiringMap CString (CharArray maxValLen) ℕ :=
  ExpiringMap.applyWrites (fun _ => none) (calls.filterMap Call.write?)

theorem abstractMap_concat (calls : List Call) (c : Call) :
    abstractMap (calls ++ [c]) = ExpiringMap.applyWrites (abstractMap calls) c.write?.toList := by
  cases h : c.write? <;> simp [abstractMap, ExpiringMap.applyWrites, List.filterMap_append, h]

theorem Call.writes_eq (c : Call) (key : CString) :
    c.op.writes key = c.write?.any (fun w => decide (w.1 = key)) := by
  obtain ⟨op, now⟩ := c
  cases op <;> rfl

theorem lastWrite_filterMap (calls : List Call) (key : CString) :
    ExpiringMap.lastWrite (calls.filterMap Call.write?) key =
      (latestWrite calls key).bind Call.write? := by
  simp only [ExpiringMap.lastWrite, latestWrite, ← List.filterMap_reverse, List.find?_filterMap,
    Call.writes_eq]

theorem abstractMap_apply (calls : List Call) (key : CString) :
    abstractMap calls key = ((latestWrite calls key).bind Call.write?).bind Prod.snd := by
  rw [abstractMap, ExpiringMap.applyWrites_apply, lastWrite_filterMap]
  cases (latestWrite calls key).bind Call.write? <;> rfl

theorem latestWrite_writes {calls : List Call} {key : CString} {c : Call}
    (h : latestWrite calls key = some c) : c.op.writes key = true :=
  (List.find?_eq_some_iff_append.mp h).1

theorem latestWrite_mem {calls : List Call} {key : CString} {c : Call}
    (h : latestWrite calls key = some c) : c ∈ calls :=
  List.mem_reverse.mp (List.mem_of_find?_eq_some h)

namespace HashTable

variable {numBuckets : ℕ+}

theorem execAll_concat (calls : List Call) (c : Call) (table : HashTable numBuckets) :
    execAll (calls ++ [c]) table = (exec c (execAll calls table)).2 := by
  simp [execAll]

theorem outcomes_getElem? (calls : List Call) (table : HashTable numBuckets) (i : ℕ) :
    (outcomes calls table)[i]? =
      calls[i]?.map (fun c => (exec c (execAll (calls.take i) table)).1) := by
  induction calls generalizing table i with
  | nil => simp [outcomes]
  | cons c calls ih =>
    cases i with
    | zero => simp [outcomes, execAll]
    | succ i => simp [outcomes, ih, execAll]

theorem WellPlaced.exec {table : HashTable numBuckets} (h : table.WellPlaced) {c : Call}
    (hc : c.op.KeyFits) : (exec c table).2.WellPlaced := by
  obtain ⟨op, now⟩ := c
  cases op with
  | put key val ttl => exact h.kvPut hc val ttl now
  | get key => exact h.kvGet key now
  | del key => exact h.kvDel key
  | sweep => exact h.sweeperPass now

theorem wellPlaced_execAll {calls : List Call} (hc : ∀ c ∈ calls, c.op.KeyFits) :
    (execAll calls (kvInit numBuckets)).WellPlaced := by
  induction calls using List.reverseRecOn with
  | nil => exact wellPlaced_kvInit
  | append_singleton calls c ih =>
    rw [execAll_concat]
    exact (ih fun d hd => hc d (by simp [hd])).exec (hc c (by simp))

theorem pruned_exec {table : HashTable numBuckets} (h : table.WellPlaced) {c : Call}
    (hc : c.op.KeyFits) {before : ℕ} (hle : before ≤ c.now)
    {m : ExpiringMap CString (CharArray maxValLen) ℕ}
    (hp : ExpiringMap.Pruned before table.contents m) :
    ExpiringMap.Pruned c.now (exec c table).2.contents
      (ExpiringMap.applyWrites m c.write?.toList) := by
  obtain ⟨op, now⟩ := c
  have hp := hp.mono hle
  cases op with
  | put key val ttl =>
    change ExpiringMap.Pruned now (kvPut key val ttl now table).2.contents _
    rw [contents_kvPut hc]
    exact hp.update key _
  | get key =>
    change ExpiringMap.Pruned now (kvGet key now table).2.contents _
    rw [contents_kvGet]
    exact hp
  | del key =>
    change ExpiringMap.Pruned now (kvDel key table).2.contents _
    rw [contents_kvDel h]
    exact hp.update key none
  | sweep =>
    change ExpiringMap.Pruned now (sweeperPass now table).contents _
    rw [contents_sweeperPass h]
    exact hp.drop _ (by simp)

/-- After any calls at non-decreasing clock readings the chains hold the abstract map,
up to entries that expired before the last reading. -/
theorem pruned_execAll {calls : List Call} (hsorted : calls.Pairwise (fun a b => a.now ≤ b.now))
    (hc : ∀ c ∈ calls, c.op.KeyFits) {now : ℕ} (hnow : ∀ c ∈ calls, c.now ≤ now) :
    ExpiringMap.Pruned now (execAll calls (kvInit numBuckets)).contents (abstractMap calls) := by
  induction calls using List.reverseRecOn generalizing now with
  | nil => exact ExpiringMap.Pruned.refl now _
  | append_singleton calls c ih =>
    obtain ⟨hs, -, hlast⟩ := List.pairwise_append.mp hsorted
    have hfits : ∀ d ∈ calls, d.op.KeyFits := fun d hd => hc d (by simp [hd])
    have hprev := ih hs hfits (fun d hd => hlast d hd c (by simp))
    rw [execAll_concat, abstractMap_concat]
    have hstep := pruned_exec (wellPlaced_execAll hfits) (hc c (by simp)) le_rfl hprev
    exact hstep.mono (hnow c (by simp))

theorem get_outcome {calls : List Call} (hsorted : calls.Pairwise (fun a b => a.now ≤ b.now))
    (hc : ∀ c ∈ calls, c.op.KeyFits) {i : ℕ} {key : CString} {now : ℕ}
    (hi : calls[i]? = some ⟨.get key, now⟩) :
    (outcomes calls (kvInit numBuckets))[i]? =
      some (getOutcome ((abstractMap (calls.take i)).lookup key now)) := by
  have hlt := (List.getElem?_eq_some_iff.mp hi).1
  have hnow : ∀ c ∈ calls.take i, c.now ≤ now := by
    intro c hm
    obtain ⟨j, hj, rfl⟩ := List.mem_take_iff_getElem.mp hm
    have hij := List.pairwise_iff_getElem.mp hsorted j i (by omega) hlt (by omega)
    rwa [(List.getElem?_eq_some_iff.mp hi).2] at hij
  have hp : ExpiringMap.Pruned now (execAll (calls.take i) (kvInit numBuckets)).contents _ :=
    pruned_execAll (hsorted.sublist (List.take_sublist i calls))
      (fun c hm => hc c (List.mem_of_mem_take hm)) hnow
  rw [outcomes_getElem?, hi]
  change some (kvGet key now _).1 = _
  rw [kvGet_outcome, hp.lookup_eq le_rfl]

/-- What the abstract map shows, in terms of the latest write. -/
theorem lookup_abstractMap_eq_some_iff {calls : List Call} (hc : ∀ c ∈ calls, c.op.Fits)
    {key : CString} {now : ℕ} {v : CharArray maxValLen} :
    (abstractMap calls).lookup key now = some v ↔
      ∃ ttl t, latestWrite calls key = some ⟨.put key v.str ttl, t⟩ ∧
        (ttl ≤ 0 ∨ (now : ℤ) < t + ttl) := by
  have hlive : ∀ (ttl : ℤ) (t : ℕ),
      WithTop.some now < deadlineOf (expiryOf ttl t) ↔ (ttl ≤ 0 ∨ (now : ℤ) < t + ttl) := by
    intro ttl t
    rw [live_iff]
    unfold expiryOf
    split <;> omega
  unfold ExpiringMap.lookup
  rw [abstractMap_apply]
  cases hw : latestWrite calls key with
  | none => simp
  | some c =>
    have hkey := latestWrite_writes hw
    have hfit := hc c (latestWrite_mem hw)
    obtain ⟨op, t⟩ := c
    cases op with
    | put k val ttl =>
      obtain rfl : k = key := by simpa [Op.writes] using hkey
      have hv := CharArray.strncpy_eq_iff hfit.2 v
      have hl := hlive ttl t
      by_cases hcond : ttl ≤ 0 ∨ (now : ℤ) < t + ttl
      · simp only [Call.write?, Option.bind_some, hl.mpr hcond, if_true, Option.some.injEq, hv,
          Call.mk.injEq, Op.put.injEq, true_and]
        constructor
        · intro h
          exact ⟨ttl, t, ⟨⟨h.symm, rfl⟩, rfl⟩, hcond⟩
        · rintro ⟨ttl', t', ⟨⟨h, -⟩, -⟩, -⟩
          exact h.symm
      · simp only [Call.write?, Option.bind_some, mt hl.mp hcond, if_false, Option.some.injEq,
          Call.mk.injEq, Op.put.injEq, reduceCtorEq, false_iff]
        rintro ⟨ttl', t', ⟨⟨-, -, rfl⟩, rfl⟩, h⟩
        exact hcond h
    | get k => simp [Op.writes] at hkey
    | del k => simp [Call.write?]
    | sweep => simp [Op.writes] at hkey

/-- Every `kv_get` of a run from `kv_init` returns 0 with `v` exactly when the latest
`kv_put` or `kv_del` on its key is a `kv_put` of `v` that has not expired, and -1
otherwise, whatever the other keys, the collisions and the sweeps. -/
theorem kvGet_iff_latestWrite (numBuckets : ℕ+) (calls : List Call)
    (hsorted : calls.Pairwise (fun a b => a.now ≤ b.now)) (hfits : ∀ c ∈ calls, c.op.Fits)
    (i : ℕ) (key : CString) (now : ℕ) (hi : calls[i]? = some ⟨.get key, now⟩) :
    ∃ out, (outcomes calls (kvInit numBuckets))[i]? = some out ∧
      (∀ v, out = ⟨0, some v⟩ ↔
        ∃ ttl t, latestWrite (calls.take i) key = some ⟨.put key v.str ttl, t⟩ ∧
          (ttl ≤ 0 ∨ (now : ℤ) < t + ttl)) ∧
      ((¬∃ v ttl t, latestWrite (calls.take i) key = some ⟨.put key v ttl, t⟩ ∧
        (ttl ≤ 0 ∨ (now : ℤ) < t + ttl)) → out = ⟨-1, none⟩) := by
  have hpre : ∀ c ∈ calls.take i, c.op.Fits := fun c hm => hfits c (List.mem_of_mem_take hm)
  refine ⟨_, get_outcome hsorted (fun c hm => (hfits c hm).keyFits) hi, ?_, ?_⟩
  · intro v
    rw [← lookup_abstractMap_eq_some_iff hpre]
    cases (abstractMap (calls.take i)).lookup key now <;> simp [getOutcome]
  · intro hno
    cases hl : (abstractMap (calls.take i)).lookup key now with
    | none => rfl
    | some v =>
      obtain ⟨ttl, t, hw⟩ := (lookup_abstractMap_eq_some_iff hpre).mp hl
      exact absurd ⟨v.str, ttl, t, hw⟩ hno

/-- The entry survives a colliding put and a sweep before its deadline. -/
theorem kvGet_after_collision_and_sweep :
    (outcomes [⟨.put (.lit "a") (.lit "x") 5, 0⟩, ⟨.put (.lit "b") (.lit "y") 0, 1⟩, ⟨.sweep, 3⟩,
      ⟨.get (.lit "a"), 4⟩] (kvInit 1))[3]? =
        some ⟨0, some (CharArray.strncpy maxValLen (.lit "x"))⟩ := by
  obtain ⟨out, hout, hv, -⟩ := kvGet_iff_latestWrite 1
    [⟨.put (.lit "a") (.lit "x") 5, 0⟩, ⟨.put (.lit "b") (.lit "y") 0, 1⟩, ⟨.sweep, 3⟩,
      ⟨.get (.lit "a"), 4⟩] (by decide) (by decide) 3 (.lit "a") 4 rfl
  rw [hout, (hv (CharArray.strncpy maxValLen (.lit "x"))).mpr ⟨5, 0, rfl, by decide⟩]

end HashTable

end CpreLabs
