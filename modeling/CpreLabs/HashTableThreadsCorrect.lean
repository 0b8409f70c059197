import CpreLabs.HashTableContents
import CpreLabs.HashTableThreads
import Mathlib.Algebra.Group.Pi.Lemmas

/-!
# The code of each call is correct under its lock

The chains in memory represent the chains of a table. For every program point `Late` says
how the memory is related to the chains the call leaves, what the call will return and
which counters it has yet to update; every step of the call keeps this.
-/
namespace CpreLabs

open Linked HashTable

variable {numBuckets : ℕ+}

abbrev Cells (numBuckets : ℕ+) := Fin numBuckets → List (Addr × KvEntry)

abbrev Buckets (numBuckets : ℕ+) := Fin numBuckets → Chain

def chainsOf (cells : Cells numBuckets) : Buckets numBuckets :=
  fun i => (cells i).map Prod.snd

/-- The chains in memory hold the given entries. -/
def Represents (st : Store numBuckets) (buckets : Buckets numBuckets) : Prop :=
  ∃ cells, Chains st.heap st.buckets cells ∧ buckets = chainsOf cells

theorem chainsOf_update (cells : Cells numBuckets) (i : Fin numBuckets)
    (new : List (Addr × KvEntry)) :
    chainsOf (Function.update cells i new) =
      Function.update (chainsOf cells) i (new.map Prod.snd) := by
  funext j
  by_cases hj : j = i
  · subst hj
    simp [chainsOf]
  · simp [chainsOf, Function.update_of_ne hj]

/-- A walk that has reached the end has passed the whole chain. -/
theorem chainsOf_at_end {st : Store numBuckets} {cells : Cells numBuckets} {i : Fin numBuckets}
    {before after : List (Addr × KvEntry)}
    (h : Cursor st.heap st.buckets cells i none before after) :
    chainsOf cells i = before.map Prod.snd := by
  rw [chainsOf, h.cells_eq, h.at_end, List.append_nil]

theorem chainsOf_at_node {cells : Cells numBuckets} {i : Fin numBuckets}
    {before after : List (Addr × KvEntry)} {c : Addr × KvEntry}
    (h : cells i = before ++ c :: after) :
    chainsOf cells i = before.map Prod.snd ++ c.2 :: after.map Prod.snd := by
  simp [chainsOf, h]

def HashTable.counter (table : HashTable numBuckets) : Counters
  | .keys => table.keys
  | .hits => table.hits
  | .misses => table.misses
  | .puts => table.puts
  | .dels => table.dels

theorem counters_ext {c c' : Counters} (hkeys : c .keys = c' .keys) (hhits : c .hits = c' .hits)
    (hmisses : c .misses = c' .misses) (hputs : c .puts = c' .puts)
    (hdels : c .dels = c' .dels) : c = c' := by
  funext counter
  cases counter <;> assumption

/-- A call executed from lock to unlock, with what it adds to the counters. -/
def effect (op : Op) (now : ℕ) (buckets : Buckets numBuckets) :
    Rwlock.Effect (Buckets numBuckets) Counters Outcome :=
  let (o, table) := exec ⟨op, now⟩ ⟨buckets, 0, 0, 0, 0, 0⟩
  ⟨o, table.buckets, table.counter⟩

def newEntry (key val : CString) (expiresAt : ℕ) : KvEntry :=
  ⟨CharArray.strncpy maxKeyLen key, CharArray.strncpy maxValLen val, expiresAt⟩

def putEffect (key val : CString) (expiresAt : ℕ) (buckets : Buckets numBuckets) :
    Buckets numBuckets × Counters :=
  let idx := bucketIndex numBuckets key
  match HashTable.overwrite key val expiresAt (buckets idx) with
  | some chain => (Function.update buckets idx chain, fetchAdd .puts 1)
  | none => (Function.update buckets idx (newEntry key val expiresAt :: buckets idx),
      fetchAdd .keys 1 + fetchAdd .puts 1)

def getEffect (now : ℕ) : Option KvEntry → Outcome × Counters
  | some e =>
      if e.expiresAt ≠ 0 ∧ now ≥ e.expiresAt then (⟨-1, none⟩, fetchAdd .misses 1)
      else (⟨0, some e.value⟩, fetchAdd .hits 1)
  | none => (⟨-1, none⟩, fetchAdd .misses 1)

def delEffect (key : CString) (buckets : Buckets numBuckets) :
    Outcome × Buckets numBuckets × Counters :=
  let idx := bucketIndex numBuckets key
  match HashTable.unlink key (buckets idx) with
  | some chain =>
      (⟨0, none⟩, Function.update buckets idx chain, fetchAdd .keys (-1) + fetchAdd .dels 1)
  | none => (⟨-1, none⟩, buckets, 0)

/-- How many entries the sweeper would remove. -/
def expired (now : ℕ) (buckets : Buckets numBuckets) : ℤ :=
  ∑ i, (((buckets i).length : ℤ) - ((buckets i).filter (keeps now)).length)

theorem effect_put (key val : CString) (ttl : ℤ) (now : ℕ) (buckets : Buckets numBuckets) :
    effect (.put key val ttl) now buckets =
      ⟨⟨0, none⟩, (putEffect key val (expiryOf ttl now) buckets).1,
        (putEffect key val (expiryOf ttl now) buckets).2⟩ := by
  simp only [effect, exec, kvPut, putEffect, newEntry]
  cases HashTable.overwrite key val (expiryOf ttl now)
    (buckets (bucketIndex numBuckets key)) with
  | some chain =>
    simp only [Rwlock.Effect.mk.injEq, true_and]
    exact counters_ext rfl rfl rfl rfl rfl
  | none =>
    simp only [Rwlock.Effect.mk.injEq, true_and]
    exact counters_ext rfl rfl rfl rfl rfl

theorem effect_get (key : CString) (now : ℕ) (buckets : Buckets numBuckets) :
    effect (.get key) now buckets =
      ⟨(getEffect now (search key (buckets (bucketIndex numBuckets key)))).1, buckets,
        (getEffect now (search key (buckets (bucketIndex numBuckets key)))).2⟩ := by
  simp only [effect, exec, kvGet]
  cases search key (buckets (bucketIndex numBuckets key)) with
  | some e =>
    simp only [getEffect]
    split
    · simp only [Rwlock.Effect.mk.injEq, true_and]
      exact counters_ext rfl rfl rfl rfl rfl
    · simp only [Rwlock.Effect.mk.injEq, true_and]
      exact counters_ext rfl rfl rfl rfl rfl
  | none =>
    simp only [getEffect, Rwlock.Effect.mk.injEq, true_and]
    exact counters_ext rfl rfl rfl rfl rfl

theorem effect_del (key : CString) (now : ℕ) (buckets : Buckets numBuckets) :
    effect (.del key) now buckets =
      ⟨(delEffect key buckets).1, (delEffect key buckets).2.1, (delEffect key buckets).2.2⟩ := by
  simp only [effect, exec, kvDel, delEffect]
  cases HashTable.unlink key (buckets (bucketIndex numBuckets key)) with
  | some chain =>
    simp only [Rwlock.Effect.mk.injEq, true_and]
    exact counters_ext rfl rfl rfl rfl rfl
  | none =>
    simp only [Rwlock.Effect.mk.injEq, true_and]
    exact counters_ext rfl rfl rfl rfl rfl

theorem effect_sweep (now : ℕ) (buckets : Buckets numBuckets) :
    effect .sweep now buckets =
      ⟨⟨0, none⟩, fun i => (buckets i).filter (keeps now), fetchAdd .keys (-expired now buckets)⟩ := by
  simp only [effect, exec, sweeperPass_eq, Rwlock.Effect.mk.injEq, true_and]
  funext counter
  cases counter with
  | keys => simp [HashTable.counter, expired, fetchAdd]
  | _ => rfl

theorem overwrite_append {key val : CString} {expiresAt : ℕ} {before : Chain} {e : KvEntry}
    (after : Chain) (hbefore : key ∉ chainKeys before) (he : e.key.str = key) :
    HashTable.overwrite key val expiresAt (before ++ e :: after) = some (before ++
      { e with value := CharArray.strncpy maxValLen val, expiresAt := expiresAt } :: after) := by
  induction before with
  | nil => simp [HashTable.overwrite, he]
  | cons x before ih =>
    simp only [chainKeys_cons, List.mem_cons, not_or] at hbefore
    simp [HashTable.overwrite, Ne.symm hbefore.1, ih hbefore.2]

theorem overwrite_eq_none {key val : CString} {expiresAt : ℕ} {chain : Chain}
    (h : key ∉ chainKeys chain) : HashTable.overwrite key val expiresAt chain = none := by
  cases hchain : HashTable.overwrite key val expiresAt chain with
  | none => rfl
  | some chain' => exact absurd (overwrite_some hchain).2.1 h

/-- The keys of the nodes before a cursor and of the node it has just passed. -/
theorem notMem_chainKeys_concat {key : CString} {before : List (Addr × KvEntry)} {a : Addr}
    {e : KvEntry} (hbefore : key ∉ chainKeys (before.map Prod.snd)) (he : e.key.str ≠ key) :
    key ∉ chainKeys ((before ++ [(a, e)]).map Prod.snd) := by
  simp only [chainKeys, List.map_append, List.map_cons, List.map_nil, List.mem_append,
    List.mem_singleton, not_or] at hbefore ⊢
  exact ⟨hbefore, Ne.symm he⟩

/-- `buckets` are the chains after the call, `m` what it has yet to add to the counters. -/
def PutPoint.Late (key val : CString) (st : Store numBuckets) (buckets : Buckets numBuckets)
    (m : Counters) : PutPoint → Prop
  | .visit curr expiresAt => ∃ cells before after,
      Cursor st.heap st.buckets cells (bucketIndex numBuckets key) curr before after ∧
      key ∉ chainKeys (before.map Prod.snd) ∧
      (buckets, m) = putEffect key val expiresAt (chainsOf cells)
  | .overwrite curr expiresAt => ∃ cells before e after next,
      Chains st.heap st.buckets cells ∧
      cells (bucketIndex numBuckets key) = before ++ (curr, e) :: after ∧
      st.heap curr = some ⟨e, next⟩ ∧
      buckets = chainsOf (Function.update cells (bucketIndex numBuckets key) (before ++ (curr,
        { e with value := CharArray.strncpy maxValLen val, expiresAt := expiresAt }) :: after)) ∧
      m = fetchAdd .puts 1
  | .malloc expiresAt => ∃ cells, Chains st.heap st.buckets cells ∧
      buckets = Function.update (chainsOf cells) (bucketIndex numBuckets key)
        (newEntry key val expiresAt :: chainsOf cells (bucketIndex numBuckets key)) ∧
      m = fetchAdd .keys 1 + fetchAdd .puts 1
  | .setNext newNode => ∃ cells e next, Chains st.heap st.buckets cells ∧
      (∀ i, newNode ∉ (cells i).map Prod.fst) ∧ st.heap newNode = some ⟨e, next⟩ ∧
      buckets = Function.update (chainsOf cells) (bucketIndex numBuckets key)
        (e :: chainsOf cells (bucketIndex numBuckets key)) ∧
      m = fetchAdd .keys 1 + fetchAdd .puts 1
  | .setHead newNode => ∃ cells e, Chains st.heap st.buckets cells ∧
      (∀ i, newNode ∉ (cells i).map Prod.fst) ∧
      st.heap newNode = some ⟨e, st.buckets (bucketIndex numBuckets key)⟩ ∧
      buckets = Function.update (chainsOf cells) (bucketIndex numBuckets key)
        (e :: chainsOf cells (bucketIndex numBuckets key)) ∧
      m = fetchAdd .keys 1 + fetchAdd .puts 1
  | .addKeys => Represents st buckets ∧ m = fetchAdd .keys 1 + fetchAdd .puts 1
  | .addPuts => Represents st buckets ∧ m = fetchAdd .puts 1
  | .unlock => Represents st buckets ∧ m = 0
  | _ => False

theorem PutPoint.late_step {key val : CString} {ttl : ℤ} {now fresh : ℕ}
    {st st' : Store numBuckets} {buckets : Buckets numBuckets} {m d : Counters} {l : PutPoint}
    {f : Frame numBuckets} (h : l.Late key val st buckets m)
    (hfresh : (Frame.put key val ttl l : Frame numBuckets).mallocs = true → st.heap fresh = none)
    (hstep : l.advance key val ttl now fresh st = some (f, st', d)) :
    ∃ l', f = .put key val ttl l' ∧ l'.Late key val st' buckets (m - d) := by
  cases l with
  | readHead => exact h.elim
  | readClock curr => exact h.elim
  | visit curr expiresAt =>
    obtain ⟨cells, before, after, hcursor, hbefore, heffect⟩ := h
    cases curr with
    | none =>
      cases hstep
      refine ⟨_, rfl, cells, hcursor.chains, ?_⟩
      have hchain := chainsOf_at_end hcursor
      simp only [putEffect, hchain, overwrite_eq_none hbefore, Prod.mk.injEq] at heffect
      rw [hchain, sub_zero]
      exact heffect
    | some a =>
      obtain ⟨e, next, rest, rfl, hnode, hcursor'⟩ := hcursor.at_node
      simp only [PutPoint.advance, Store.deref, hnode, strcmp_eq_zero_iff, Option.some.injEq] at hstep
      by_cases he : e.key.str = key
      · rw [if_pos he] at hstep
        cases hstep
        refine ⟨_, rfl, cells, before, e, rest, next, hcursor.chains, hcursor.cells_eq, hnode, ?_⟩
        have hchain := chainsOf_at_node hcursor.cells_eq
        simp only [putEffect, hchain, overwrite_append _ hbefore he, Prod.mk.injEq] at heffect
        rw [chainsOf_update, sub_zero]
        simpa using heffect
      · rw [if_neg he] at hstep
        cases hstep
        refine ⟨_, rfl, cells, _, rest, hcursor', notMem_chainKeys_concat hbefore he, ?_⟩
        rw [sub_zero]
        exact heffect
  | overwrite curr expiresAt =>
    obtain ⟨cells, before, e, after, next, hchains, hcells, hnode, hbuckets, hm⟩ := h
    simp only [PutPoint.advance, Store.deref, hnode, Option.some.injEq] at hstep
    cases hstep
    refine ⟨_, rfl, ⟨_, hchains.write_data hcells hnode _, hbuckets⟩, ?_⟩
    rw [hm, sub_zero]
  | malloc expiresAt =>
    obtain ⟨cells, hchains, hbuckets, hm⟩ := h
    have hfree := hfresh rfl
    cases hstep
    have hout := hchains.fresh hfree
    refine ⟨_, rfl, cells, newEntry key val expiresAt, none, hchains.write_fresh hout _, hout,
      Function.update_self .., hbuckets, ?_⟩
    rw [hm, sub_zero]
  | setNext newNode =>
    obtain ⟨cells, e, next, hchains, hout, hnode, hbuckets, hm⟩ := h
    simp only [PutPoint.advance, Store.deref, hnode, Option.some.injEq] at hstep
    cases hstep
    refine ⟨_, rfl, cells, e, hchains.write_fresh hout _, hout, Function.update_self .., hbuckets, ?_⟩
    rw [hm, sub_zero]
  | setHead newNode =>
    obtain ⟨cells, e, hchains, hout, hnode, hbuckets, hm⟩ := h
    cases hstep
    refine ⟨_, rfl, ⟨_, hchains.link hout hnode, ?_⟩, ?_⟩
    · rw [chainsOf_update, hbuckets]
      rfl
    · rw [hm, sub_zero]
  | addKeys =>
    cases hstep
    refine ⟨_, rfl, h.1, ?_⟩
    rw [h.2, add_sub_cancel_left]
  | addPuts =>
    cases hstep
    refine ⟨_, rfl, h.1, ?_⟩
    rw [h.2, sub_self]
  | unlock => cases hstep

/-- What is left of the chain decides the result, so the chains of the table do not occur. -/
def GetPoint.Late (key : CString) (st : Store numBuckets) (o : Outcome) (m : Counters) :
    GetPoint → Prop
  | .visit curr now => ∃ after, Segment st.heap curr after none ∧
      (o, m) = getEffect now (search key (after.map Prod.snd))
  | .testExpiry curr now => ∃ node, st.heap curr = some node ∧
      (o, m) = getEffect now (some node.data)
  | .copyValue curr => ∃ node, st.heap curr = some node ∧ o = ⟨0, some node.data.value⟩ ∧
      m = fetchAdd .hits 1
  | .addHits outVal => o = ⟨0, some outVal⟩ ∧ m = fetchAdd .hits 1
  | .addMisses => o = ⟨-1, none⟩ ∧ m = fetchAdd .misses 1
  | .unlock o' => o = o' ∧ m = 0
  | _ => False

theorem GetPoint.late_step {key : CString} {now : ℕ} {st st' : Store numBuckets} {o : Outcome}
    {m d : Counters} {l : GetPoint} {f : Frame numBuckets} (h : l.Late key st o m)
    (hstep : l.advance key now st = some (f, st', d)) :
    ∃ l', f = .get key l' ∧ st' = st ∧ l'.Late key st o (m - d) := by
  cases l with
  | readHead => exact h.elim
  | readClock curr => exact h.elim
  | visit curr now =>
    obtain ⟨after, hsegment, heffect⟩ := h
    cases after with
    | nil =>
      cases hsegment
      cases hstep
      refine ⟨_, rfl, rfl, ?_⟩
      rw [sub_zero]
      exact Prod.mk.inj (show (o, m) = (⟨-1, none⟩, fetchAdd .misses 1) from heffect)
    | cons c rest =>
      obtain ⟨rfl, next, hnode, hrest⟩ := hsegment
      simp only [GetPoint.advance, Store.deref, hnode, strcmp_eq_zero_iff, Option.some.injEq] at hstep
      simp only [List.map_cons, search_cons] at heffect
      by_cases he : c.2.key.str = key
      · rw [if_pos he] at hstep heffect
        cases hstep
        refine ⟨_, rfl, rfl, _, hnode, ?_⟩
        rw [sub_zero]
        exact heffect
      · rw [if_neg he] at hstep heffect
        cases hstep
        refine ⟨_, rfl, rfl, rest, hrest, ?_⟩
        rw [sub_zero]
        exact heffect
  | testExpiry curr now =>
    obtain ⟨node, hnode, heffect⟩ := h
    simp only [GetPoint.advance, Store.deref, hnode, Option.some.injEq] at hstep
    simp only [getEffect] at heffect
    by_cases hexpired : node.data.expiresAt ≠ 0 ∧ now ≥ node.data.expiresAt
    · rw [if_pos hexpired] at hstep heffect
      cases hstep
      cases heffect
      exact ⟨_, rfl, rfl, rfl, sub_zero _⟩
    · rw [if_neg hexpired] at hstep heffect
      cases hstep
      cases heffect
      exact ⟨_, rfl, rfl, node, hnode, rfl, sub_zero _⟩
  | copyValue curr =>
    obtain ⟨node, hnode, ho, hm⟩ := h
    simp only [GetPoint.advance, Store.deref, hnode, Option.some.injEq] at hstep
    cases hstep
    exact ⟨_, rfl, rfl, ho, by rw [hm, sub_zero]⟩
  | addHits outVal =>
    cases hstep
    exact ⟨_, rfl, rfl, h.1, by rw [h.2, sub_self]⟩
  | addMisses =>
    cases hstep
    exact ⟨_, rfl, rfl, h.1, by rw [h.2, sub_self]⟩
  | unlock o' => cases hstep

theorem unlink_append {key : CString} {before : Chain} {e : KvEntry} (after : Chain)
    (hbefore : key ∉ chainKeys before) (he : e.key.str = key) :
    HashTable.unlink key (before ++ e :: after) = some (before ++ after) := by
  induction before with
  | nil => simp [HashTable.unlink, he]
  | cons x before ih =>
    simp only [chainKeys_cons, List.mem_cons, not_or] at hbefore
    simp [HashTable.unlink, Ne.symm hbefore.1, ih hbefore.2]

theorem unlink_eq_none {key : CString} {chain : Chain} (h : key ∉ chainKeys chain) :
    HashTable.unlink key chain = none := by
  cases hchain : HashTable.unlink key chain with
  | none => rfl
  | some chain' => exact absurd (unlink_some hchain).2.1 h

def DelPoint.Late (key : CString) (st : Store numBuckets) (buckets : Buckets numBuckets)
    (o : Outcome) (m : Counters) : DelPoint → Prop
  | .visit prev curr => ∃ cells before after,
      Cursor st.heap st.buckets cells (bucketIndex numBuckets key) curr before after ∧
      prev = lastAddr before ∧ key ∉ chainKeys (before.map Prod.snd) ∧
      (o, buckets, m) = delEffect key (chainsOf cells)
  | .unlink prev curr => ∃ cells before e after next, Chains st.heap st.buckets cells ∧
      cells (bucketIndex numBuckets key) = before ++ (curr, e) :: after ∧
      st.heap curr = some ⟨e, next⟩ ∧ prev = lastAddr before ∧
      buckets = chainsOf (Function.update cells (bucketIndex numBuckets key) (before ++ after)) ∧
      o = ⟨0, none⟩ ∧ m = fetchAdd .keys (-1) + fetchAdd .dels 1
  | .free curr => ∃ cells node, Chains st.heap st.buckets cells ∧
      (∀ i, curr ∉ (cells i).map Prod.fst) ∧ st.heap curr = some node ∧
      buckets = chainsOf cells ∧ o = ⟨0, none⟩ ∧ m = fetchAdd .keys (-1) + fetchAdd .dels 1
  | .subKeys => Represents st buckets ∧ o = ⟨0, none⟩ ∧
      m = fetchAdd .keys (-1) + fetchAdd .dels 1
  | .addDels => Represents st buckets ∧ o = ⟨0, none⟩ ∧ m = fetchAdd .dels 1
  | .unlock o' => Represents st buckets ∧ o = o' ∧ m = 0
  | .readHead => False

theorem DelPoint.late_step {key : CString} {st st' : Store numBuckets}
    {buckets : Buckets numBuckets} {o : Outcome} {m d : Counters} {l : DelPoint}
    {f : Frame numBuckets} (h : l.Late key st buckets o m)
    (hstep : l.advance key st = some (f, st', d)) :
    ∃ l', f = .del key l' ∧ l'.Late key st' buckets o (m - d) := by
  cases l with
  | readHead => exact h.elim
  | visit prev curr =>
    obtain ⟨cells, before, after, hcursor, hprev, hbefore, heffect⟩ := h
    cases curr with
    | none =>
      cases hstep
      have hchain := chainsOf_at_end hcursor
      simp only [delEffect, hchain, unlink_eq_none hbefore, Prod.mk.injEq] at heffect
      obtain ⟨ho, hbuckets, hm⟩ := heffect
      exact ⟨_, rfl, ⟨cells, hcursor.chains, hbuckets⟩, ho, by rw [hm, sub_zero]⟩
    | some a =>
      obtain ⟨e, next, rest, rfl, hnode, hcursor'⟩ := hcursor.at_node
      simp only [DelPoint.advance, Store.deref, hnode, strcmp_eq_zero_iff, Option.some.injEq] at hstep
      by_cases he : e.key.str = key
      · rw [if_pos he] at hstep
        cases hstep
        have hchain := chainsOf_at_node hcursor.cells_eq
        simp only [delEffect, hchain, unlink_append _ hbefore he, Prod.mk.injEq] at heffect
        obtain ⟨ho, hbuckets, hm⟩ := heffect
        refine ⟨_, rfl, cells, before, e, rest, next, hcursor.chains, hcursor.cells_eq, hnode, hprev,
          ?_, ho, by rw [hm, sub_zero]⟩
        rw [chainsOf_update, hbuckets, List.map_append]
      · rw [if_neg he] at hstep
        cases hstep
        refine ⟨_, rfl, cells, _, rest, hcursor', (lastAddr_concat before (a, e)).symm,
          notMem_chainKeys_concat hbefore he, ?_⟩
        rw [sub_zero]
        exact heffect
  | unlink prev curr =>
    obtain ⟨cells, before, e, after, next, hchains, hcells, hnode, rfl, hbuckets, ho, hm⟩ := h
    simp only [DelPoint.advance, Store.deref, hnode, Option.some.injEq] at hstep
    cases hstep
    obtain ⟨hchains', hout, hnode'⟩ := hchains.unlink hcells hnode
    exact ⟨_, rfl, _, _, hchains', hout, hnode', hbuckets, ho, by rw [hm, sub_zero]⟩
  | free curr =>
    obtain ⟨cells, node, hchains, hout, hnode, hbuckets, ho, hm⟩ := h
    simp only [DelPoint.advance, Store.deref, hnode, Option.some.injEq] at hstep
    cases hstep
    exact ⟨_, rfl, ⟨cells, hchains.write_fresh hout none, hbuckets⟩, ho, by rw [hm, sub_zero]⟩
  | subKeys =>
    cases hstep
    exact ⟨_, rfl, h.1, h.2.1, by rw [h.2.2, add_sub_cancel_left]⟩
  | addDels =>
    cases hstep
    exact ⟨_, rfl, h.1, h.2.1, by rw [h.2.2, sub_self]⟩
  | unlock o' => cases hstep

/-- The pass so far: `cells` are left, in the buckets up to `i` and before the cursor only
entries to keep. -/
structure Swept (now : ℕ) (i : Fin numBuckets) (cells : Cells numBuckets)
    (before : List (Addr × KvEntry)) : Prop where
  earlier : ∀ j < i, ∀ c ∈ cells j, keeps now c.2 = true
  before : ∀ c ∈ before, keeps now c.2 = true

def sweptBuckets (now : ℕ) (cells : Cells numBuckets) : Buckets numBuckets :=
  fun i => (chainsOf cells i).filter (keeps now)

def SweepPoint.Late (st : Store numBuckets) (buckets : Buckets numBuckets) (m : Counters) :
    SweepPoint numBuckets → Prop
  | .visit now i prev => ∃ cells before after curr,
      Cursor st.heap st.buckets cells i curr before after ∧ prev = lastAddr before ∧
      Swept now i cells before ∧ buckets = sweptBuckets now cells ∧
      m = fetchAdd .keys (-expired now (chainsOf cells))
  | .unlink now i prev entry => ∃ cells before e after next, Chains st.heap st.buckets cells ∧
      cells i = before ++ (entry, e) :: after ∧ st.heap entry = some ⟨e, next⟩ ∧
      prev = lastAddr before ∧ keeps now e = false ∧ Swept now i cells before ∧
      buckets = sweptBuckets now cells ∧ m = fetchAdd .keys (-expired now (chainsOf cells))
  | .free now i prev entry => ∃ cells before after node, Chains st.heap st.buckets cells ∧
      cells i = before ++ after ∧ (∀ j, entry ∉ (cells j).map Prod.fst) ∧
      st.heap entry = some node ∧ prev = lastAddr before ∧ Swept now i cells before ∧
      buckets = sweptBuckets now cells ∧ m = fetchAdd .keys (-(expired now (chainsOf cells) + 1))
  | .subKeys now i prev => ∃ cells before after, Chains st.heap st.buckets cells ∧
      cells i = before ++ after ∧ prev = lastAddr before ∧ Swept now i cells before ∧
      buckets = sweptBuckets now cells ∧ m = fetchAdd .keys (-(expired now (chainsOf cells) + 1))
  | .unlock => Represents st buckets ∧ m = 0
  | .readClock => False

section Sweeper

variable {now : ℕ} {i : Fin numBuckets} {cells : Cells numBuckets}
  {before after : List (Addr × KvEntry)} {a : Addr} {e : KvEntry}

theorem sweptBuckets_unlink (hcells : cells i = before ++ (a, e) :: after)
    (he : keeps now e = false) :
    sweptBuckets now (Function.update cells i (before ++ after)) = sweptBuckets now cells := by
  funext j
  by_cases hj : j = i
  · subst hj
    simp [sweptBuckets, chainsOf, hcells, he]
  · simp [sweptBuckets, chainsOf, Function.update_of_ne hj]

theorem expired_unlink (hcells : cells i = before ++ (a, e) :: after) (he : keeps now e = false) :
    expired now (chainsOf cells) =
      expired now (chainsOf (Function.update cells i (before ++ after))) + 1 := by
  have hother : ∀ j ∈ Finset.univ.erase i,
      (((chainsOf (Function.update cells i (before ++ after)) j).length : ℤ) -
        ((chainsOf (Function.update cells i (before ++ after)) j).filter (keeps now)).length) =
      ((chainsOf cells j).length : ℤ) - ((chainsOf cells j).filter (keeps now)).length := by
    intro j hj
    rw [chainsOf_update, Function.update_of_ne (Finset.ne_of_mem_erase hj)]
  unfold expired
  rw [← Finset.add_sum_erase _ _ (Finset.mem_univ i),
    ← Finset.add_sum_erase Finset.univ (fun j =>
      ((chainsOf (Function.update cells i (before ++ after)) j).length : ℤ) -
        ((chainsOf (Function.update cells i (before ++ after)) j).filter (keeps now)).length)
      (Finset.mem_univ i), Finset.sum_congr rfl hother]
  simp only [chainsOf, Function.update_self, hcells, List.map_append, List.map_cons,
    List.filter_append, List.filter_cons, he, List.length_append, List.length_cons,
    Bool.false_eq_true, if_false]
  push_cast
  ring

theorem Swept.unlink (h : Swept now i cells before) :
    Swept now i (Function.update cells i (before ++ after)) before := by
  refine ⟨fun j hj c hc => ?_, h.before⟩
  rw [Function.update_of_ne hj.ne] at hc
  exact h.earlier j hj c hc

theorem Swept.concat (h : Swept now i cells before) (he : keeps now e = true) :
    Swept now i cells (before ++ [(a, e)]) := by
  refine ⟨h.earlier, fun c hc => ?_⟩
  rcases List.mem_append.mp hc with hc | hc
  · exact h.before c hc
  · rw [List.mem_singleton.mp hc]
    exact he

theorem Swept.upTo (h : Swept now i cells before) (hcells : cells i = before)
    (j : Fin numBuckets) (hj : j ≤ i) : ∀ c ∈ cells j, keeps now c.2 = true := by
  rcases lt_or_eq_of_le hj with hlt | rfl
  · exact h.earlier j hlt
  · rw [hcells]
    exact h.before

/-- After the last bucket every entry left is one to keep. -/
theorem swept_all (h : ∀ j, ∀ c ∈ cells j, keeps now c.2 = true) :
    sweptBuckets now cells = chainsOf cells ∧ expired now (chainsOf cells) = 0 := by
  have hfilter : ∀ j, (chainsOf cells j).filter (keeps now) = chainsOf cells j := by
    intro j
    refine List.filter_eq_self.mpr (fun x hx => ?_)
    obtain ⟨c, hc, rfl⟩ := List.mem_map.mp hx
    exact h j c hc
  exact ⟨funext hfilter, by simp [expired, hfilter]⟩

theorem SweepPoint.late_step {clock : ℕ} {st st' : Store numBuckets}
    {buckets : Buckets numBuckets} {m d : Counters} {l : SweepPoint numBuckets}
    {f : Frame numBuckets} (h : l.Late st buckets m)
    (hstep : l.advance clock st = some (f, st', d)) :
    ∃ l', f = .sweep l' ∧ l'.Late st' buckets (m - d) := by
  cases l with
  | readClock => exact h.elim
  | visit now i prev =>
    obtain ⟨cells, before, after, curr, hcursor, rfl, hswept, hbuckets, hm⟩ := h
    simp only [SweepPoint.advance, hcursor.readLink] at hstep
    cases curr with
    | none =>
      have hcells : cells i = before := by
        rw [hcursor.cells_eq, hcursor.at_end, List.append_nil]
      by_cases hnext : (i : ℕ) + 1 < numBuckets
      · simp only [nextBucket, hnext, dite_true, Option.some.injEq] at hstep
        cases hstep
        refine ⟨_, rfl, cells, [], _, _, hcursor.chains.cursor _, rfl, ⟨fun j hj => ?_, by simp⟩,
          hbuckets, by rw [hm, sub_zero]⟩
        exact hswept.upTo hcells j (Nat.le_of_lt_succ hj)
      · simp only [nextBucket, hnext, dite_false, Option.some.injEq] at hstep
        cases hstep
        have hall := swept_all (fun j => hswept.upTo hcells j (by
          have hj := j.isLt
          exact Fin.le_def.mpr (by omega)))
        refine ⟨_, rfl, ⟨cells, hcursor.chains, hbuckets.trans hall.1⟩, ?_⟩
        rw [hm, hall.2, sub_zero]
        exact Pi.single_zero _
    | some entry =>
      obtain ⟨e, next, rest, rfl, hnode, hcursor'⟩ := hcursor.at_node
      simp only [Store.deref, hnode, Option.some.injEq] at hstep
      by_cases hexpired : e.expiresAt ≠ 0 ∧ e.expiresAt < now
      · rw [if_pos hexpired] at hstep
        cases hstep
        exact ⟨_, rfl, cells, before, e, rest, next, hcursor.chains, hcursor.cells_eq, hnode, rfl,
          decide_eq_false (not_not.mpr hexpired), hswept, hbuckets, by rw [hm, sub_zero]⟩
      · rw [if_neg hexpired] at hstep
        cases hstep
        exact ⟨_, rfl, cells, _, rest, next, hcursor', (lastAddr_concat before (entry, e)).symm,
          hswept.concat (decide_eq_true hexpired), hbuckets, by rw [hm, sub_zero]⟩
  | unlink now i prev entry =>
    obtain ⟨cells, before, e, after, next, hchains, hcells, hnode, rfl, he, hswept, hbuckets, hm⟩ :=
      h
    simp only [SweepPoint.advance, Store.deref, hnode, Option.some.injEq] at hstep
    cases hstep
    obtain ⟨hchains', hout, hnode'⟩ := hchains.unlink hcells hnode
    refine ⟨_, rfl, _, before, after, _, hchains', Function.update_self .., hout, hnode', rfl,
      hswept.unlink, hbuckets.trans (sweptBuckets_unlink hcells he).symm, ?_⟩
    rw [hm, sub_zero, expired_unlink hcells he]
  | free now i prev entry =>
    obtain ⟨cells, before, after, node, hchains, hcells, hout, hnode, hprev, hswept, hbuckets, hm⟩ :=
      h
    simp only [SweepPoint.advance, Store.deref, hnode, Option.some.injEq] at hstep
    cases hstep
    exact ⟨_, rfl, cells, before, after, hchains.write_fresh hout none, hcells, hprev, hswept,
      hbuckets, by rw [hm, sub_zero]⟩
  | subKeys now i prev =>
    obtain ⟨cells, before, after, hchains, hcells, hprev, hswept, hbuckets, hm⟩ := h
    cases hstep
    obtain ⟨curr, hcursor⟩ := hchains.cursor_between hcells
    refine ⟨_, rfl, cells, before, after, curr, hcursor, hprev, hswept, hbuckets, ?_⟩
    rw [hm, fetchAdd, fetchAdd, fetchAdd, ← Pi.single_sub]
    congr 1
    ring
  | unlock => cases hstep

end Sweeper

/-- A frame before its call has taken its place. -/
def Early (op : Op) (f : Frame numBuckets) (st : Store numBuckets) (_ : Buckets numBuckets) :
    Prop :=
  match f with
  | .put key val ttl .readHead => op = .put key val ttl
  | .put key val ttl (.readClock curr) =>
      op = .put key val ttl ∧ curr = st.buckets (bucketIndex numBuckets key)
  | .get key .readHead => op = .get key
  | .get key (.readClock curr) =>
      op = .get key ∧ curr = st.buckets (bucketIndex numBuckets key)
  | .del key .readHead => op = .del key
  | .sweep .readClock => op = .sweep
  | _ => False

def Late (op : Op) (f : Frame numBuckets) (st : Store numBuckets) (buckets : Buckets numBuckets)
    (o : Outcome) (m : Counters) : Prop :=
  match f with
  | .put key val ttl l => op = .put key val ttl ∧ o = ⟨0, none⟩ ∧ l.Late key val st buckets m
  | .get key l => op = .get key ∧ l.Late key st o m
  | .del key l => op = .del key ∧ l.Late key st buckets o m
  | .sweep l => op = .sweep ∧ o = ⟨0, none⟩ ∧ l.Late st buckets m
  | .fault => False

theorem early_step {op : Op} {f f' : Frame numBuckets} {st st' : Store numBuckets}
    {buckets : Buckets numBuckets} {now : ℕ} {d : Counters} (h : Early op f st buckets)
    (hf : f.commits = false) (hstep : (hashTableCode numBuckets).step now f st f' st' d) :
    st' = st ∧ d = 0 ∧ Early op f' st buckets := by
  obtain ⟨fresh, -, hstep⟩ := hstep
  cases f with
  | put key val ttl l =>
    cases l with
    | readHead =>
      cases hstep
      exact ⟨rfl, rfl, h, rfl⟩
    | readClock curr => cases hf
    | _ => exact h.elim
  | get key l =>
    cases l with
    | readHead =>
      cases hstep
      exact ⟨rfl, rfl, h, rfl⟩
    | readClock curr => cases hf
    | _ => exact h.elim
  | del key l =>
    cases l with
    | readHead => cases hf
    | _ => exact h.elim
  | sweep l =>
    cases l with
    | readClock => cases hf
    | _ => exact h.elim
  | fault => exact h.elim

theorem commit_step {op : Op} {f f' : Frame numBuckets} {st st' : Store numBuckets}
    {buckets : Buckets numBuckets} {now : ℕ} {d : Counters} (hrep : Represents st buckets)
    (h : Early op f st buckets) (hf : f.commits = true)
    (hstep : (hashTableCode numBuckets).step now f st f' st' d) :
    st' = st ∧ d = 0 ∧ Late op f' st (effect op now buckets).state
      (effect op now buckets).result (effect op now buckets).added := by
  obtain ⟨cells, hchains, rfl⟩ := hrep
  obtain ⟨fresh, -, hstep⟩ := hstep
  cases f with
  | put key val ttl l =>
    cases l with
    | readClock curr =>
      obtain ⟨rfl, rfl⟩ := h
      cases hstep
      rw [effect_put]
      exact ⟨rfl, rfl, rfl, rfl, cells, [], _, hchains.cursor _, List.not_mem_nil, rfl⟩
    | _ => cases hf
  | get key l =>
    cases l with
    | readClock curr =>
      obtain ⟨rfl, rfl⟩ := h
      cases hstep
      rw [effect_get]
      exact ⟨rfl, rfl, rfl, _, hchains.segment _, rfl⟩
    | _ => cases hf
  | del key l =>
    cases l with
    | readHead =>
      cases h
      cases hstep
      rw [effect_del]
      exact ⟨rfl, rfl, rfl, cells, [], _, hchains.cursor _, rfl, List.not_mem_nil, rfl⟩
    | _ => cases hf
  | sweep l =>
    cases l with
    | readClock =>
      cases h
      cases hstep
      rw [effect_sweep]
      refine ⟨rfl, rfl, rfl, rfl, cells, [], _, _, hchains.cursor _, rfl, ⟨fun j hj => ?_, by simp⟩,
        rfl, rfl⟩
      exact absurd hj (Nat.not_lt_zero _)
    | _ => cases hf
  | fault => cases hf

theorem late_step {op : Op} {f f' : Frame numBuckets} {st st' : Store numBuckets}
    {buckets : Buckets numBuckets} {o : Outcome} {m d : Counters} {now : ℕ}
    (h : Late op f st buckets o m) (hstep : (hashTableCode numBuckets).step now f st f' st' d) :
    Late op f' st' buckets o (m - d) ∧ (op.reads = true → st' = st) := by
  obtain ⟨fresh, hfresh, hstep⟩ := hstep
  cases f with
  | put key val ttl l =>
    obtain ⟨rfl, rfl, hl⟩ := h
    obtain ⟨l', rfl, hl'⟩ := PutPoint.late_step hl hfresh hstep
    exact ⟨⟨rfl, rfl, hl'⟩, fun hr => by cases hr⟩
  | get key l =>
    obtain ⟨rfl, hl⟩ := h
    obtain ⟨l', rfl, hst, hl'⟩ := GetPoint.late_step hl hstep
    exact ⟨⟨rfl, hst ▸ hl'⟩, fun _ => hst⟩
  | del key l =>
    obtain ⟨rfl, hl⟩ := h
    obtain ⟨l', rfl, hl'⟩ := DelPoint.late_step hl hstep
    exact ⟨⟨rfl, hl'⟩, fun hr => by cases hr⟩
  | sweep l =>
    obtain ⟨rfl, rfl, hl⟩ := h
    obtain ⟨l', rfl, hl'⟩ := SweepPoint.late_step hl hstep
    exact ⟨⟨rfl, rfl, hl'⟩, fun hr => by cases hr⟩
  | fault => exact h.elim

theorem late_result {op : Op} {f : Frame numBuckets} {st : Store numBuckets}
    {buckets : Buckets numBuckets} {o o' : Outcome} {m : Counters}
    (h : Late op f st buckets o m) (hf : f.result = some o') :
    o' = o ∧ m = 0 ∧ (op.reads = false → Represents st buckets) := by
  cases f with
  | put key val ttl l =>
    cases l with
    | unlock =>
      obtain ⟨rfl, rfl, hrep, hm⟩ := h
      cases hf
      exact ⟨rfl, hm, fun _ => hrep⟩
    | _ => cases hf
  | get key l =>
    cases l with
    | unlock o₁ =>
      obtain ⟨rfl, rfl, hm⟩ := h
      cases hf
      exact ⟨rfl, hm, fun hr => by cases hr⟩
    | _ => cases hf
  | del key l =>
    cases l with
    | unlock o₁ =>
      obtain ⟨rfl, hrep, rfl, hm⟩ := h
      cases hf
      exact ⟨rfl, hm, fun _ => hrep⟩
    | _ => cases hf
  | sweep l =>
    cases l with
    | unlock =>
      obtain ⟨rfl, rfl, hrep, hm⟩ := h
      cases hf
      exact ⟨rfl, hm, fun _ => hrep⟩
    | _ => cases hf
  | fault => cases hf

theorem late_commits {op : Op} {f : Frame numBuckets} {st : Store numBuckets}
    {buckets : Buckets numBuckets} {o : Outcome} {m : Counters}
    (h : Late op f st buckets o m) : f.commits = false := by
  cases f with
  | put key val ttl l =>
    cases l with
    | readClock curr => exact h.2.2.elim
    | _ => rfl
  | get key l =>
    cases l with
    | readClock curr => exact h.2.elim
    | _ => rfl
  | del key l =>
    cases l with
    | readHead => exact h.2.elim
    | _ => rfl
  | sweep l =>
    cases l with
    | readClock => exact h.2.2.elim
    | _ => rfl
  | fault => rfl

theorem early_result {op : Op} {f : Frame numBuckets} {st : Store numBuckets}
    {buckets : Buckets numBuckets} (h : Early op f st buckets) : f.result = none := by
  cases f with
  | put key val ttl l =>
    cases l with
    | unlock => exact h.elim
    | _ => rfl
  | get key l =>
    cases l with
    | unlock o => exact h.elim
    | _ => rfl
  | del key l =>
    cases l with
    | unlock o => exact h.elim
    | _ => rfl
  | sweep l =>
    cases l with
    | unlock => exact h.elim
    | _ => rfl
  | fault => rfl

theorem hashTableCode_correct :
    Rwlock.Correct (hashTableCode numBuckets) effect Represents Early Late where
  reads_state op now buckets hr := by
    cases op with
    | get key => rw [effect_get]
    | _ => cases hr
  entry op st buckets _ := by cases op <;> rfl
  early_step _ _ _ _ _ _ _ _ _ h hf hstep := early_step h hf hstep
  commit_step _ _ _ _ _ _ _ _ hrep h hf hstep := commit_step hrep h hf hstep
  early_result _ _ _ _ h := early_result h
  late_commits _ _ _ _ _ _ h := late_commits h
  late_step _ _ _ _ _ _ _ _ _ _ h hstep := late_step h hstep
  late_result _ _ _ _ _ _ _ h hf := late_result h hf

end CpreLabs
