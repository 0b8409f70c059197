import CpreLabs.ChainOwnership
import CpreLabs.HashTableSerializability

/-!
# Every node of the table is accounted for

The nodes that `kv_put` has allocated are those of the chains and the one that a writer has in
hand: made and not linked in yet, or unlinked and not freed yet. All other memory is as it was
when the table was made.
-/
namespace CpreLabs

open Linked HashTable

variable {numBuckets : ℕ+} {base : Addr → Option KvNode}

/-- The node a call has in hand. -/
def Frame.inHand : Frame numBuckets → Option Addr
  | .put _ _ _ (.setNext newNode) | .put _ _ _ (.setHead newNode) => some newNode
  | .del _ (.free curr) => some curr
  | .sweep (.free _ _ _ entry) => some entry
  | _ => none

/-- `base` is the memory at the start. -/
def Accounts (base : Addr → Option KvNode) (st : Store numBuckets) (held : Option Addr) : Prop :=
  ∃ cells, Owned base st.heap st.buckets cells held

theorem accounts_start (base : Addr → Option KvNode) :
    Accounts base (emptyStore base : Store numBuckets) none :=
  ⟨_, .initial base⟩

/-- What the invariant of a frame and the accounts say of the chains are the same chains. -/
theorem Accounts.of_chains {st : Store numBuckets} {held : Option Addr} {cells : Cells numBuckets}
    (h : Accounts base st held) (hchains : Chains st.heap st.buckets cells) :
    Owned base st.heap st.buckets cells held := by
  obtain ⟨cells', howned⟩ := h
  rw [hchains.unique howned.chains]
  exact howned

/-- The state after a step of a frame is accounted for. -/
def AccountsFor (base : Addr → Option KvNode) (r : Advanced numBuckets) : Prop :=
  Accounts base r.2.1 r.1.inHand

theorem accountsFor_deref {st : Store numBuckets} {a : Addr} {k : KvNode → Advanced numBuckets}
    (h : Accounts base st none) (hk : ∀ node, AccountsFor base (k node)) :
    AccountsFor base (st.deref a k) := by
  unfold Store.deref
  cases st.heap a with
  | none => exact h
  | some node => exact hk node

theorem PutPoint.accounts_step {key val : CString} {ttl : ℤ} {now fresh : ℕ}
    {st : Store numBuckets} {buckets : Buckets numBuckets} {m : Counters} {l : PutPoint}
    {r : Advanced numBuckets} (h : l.Late key val st buckets m)
    (hacc : Accounts base st (Frame.put key val ttl l : Frame numBuckets).inHand)
    (hfresh : (Frame.put key val ttl l : Frame numBuckets).mallocs = true → st.heap fresh = none)
    (hstep : l.advance key val ttl now fresh st = some r) : AccountsFor base r := by
  cases l with
  | readHead | readClock curr => exact h.elim
  | visit curr expiresAt =>
    cases curr with
    | none =>
      cases hstep
      exact hacc
    | some curr =>
      cases hstep
      refine accountsFor_deref hacc (fun node => ?_)
      split <;> exact hacc
  | overwrite curr expiresAt =>
    obtain ⟨cells, before, e, after, next, hchains, hcells, hnode, -, -⟩ := h
    simp only [PutPoint.advance, Store.deref, hnode, Option.some.injEq] at hstep
    cases hstep
    exact ⟨_, (hacc.of_chains hchains).write_data hcells hnode _⟩
  | malloc expiresAt =>
    cases hstep
    obtain ⟨cells, howned⟩ := hacc
    exact ⟨cells, howned.alloc (hfresh rfl) _⟩
  | setNext newNode =>
    obtain ⟨cells, e, next, hchains, -, hnode, -, -⟩ := h
    simp only [PutPoint.advance, Store.deref, hnode, Option.some.injEq] at hstep
    cases hstep
    exact ⟨cells, (hacc.of_chains hchains).write_held _⟩
  | setHead newNode =>
    obtain ⟨cells, e, hchains, -, hnode, -, -⟩ := h
    cases hstep
    exact ⟨_, (hacc.of_chains hchains).link hnode⟩
  | addKeys | addPuts =>
    cases hstep
    exact hacc
  | unlock => cases hstep

theorem DelPoint.accounts_step {key : CString} {st : Store numBuckets}
    {buckets : Buckets numBuckets} {o : Outcome} {m : Counters} {l : DelPoint}
    {r : Advanced numBuckets} (h : l.Late key st buckets o m)
    (hacc : Accounts base st (Frame.del key l : Frame numBuckets).inHand)
    (hstep : l.advance key st = some r) : AccountsFor base r := by
  cases l with
  | readHead => exact h.elim
  | visit prev curr =>
    cases curr with
    | none =>
      cases hstep
      exact hacc
    | some curr =>
      cases hstep
      refine accountsFor_deref hacc (fun node => ?_)
      split <;> exact hacc
  | unlink prev curr =>
    obtain ⟨cells, before, e, after, next, hchains, hcells, hnode, rfl, -, -, -⟩ := h
    simp only [DelPoint.advance, Store.deref, hnode, Option.some.injEq] at hstep
    cases hstep
    exact ⟨_, (hacc.of_chains hchains).unlink hcells hnode⟩
  | free curr =>
    obtain ⟨cells, node, hchains, -, hnode, -, -, -⟩ := h
    simp only [DelPoint.advance, Store.deref, hnode, Option.some.injEq] at hstep
    cases hstep
    exact ⟨cells, (hacc.of_chains hchains).free⟩
  | subKeys | addDels =>
    cases hstep
    exact hacc
  | unlock o' => cases hstep

theorem SweepPoint.accounts_step {clock : ℕ} {st : Store numBuckets}
    {buckets : Buckets numBuckets} {m : Counters} {l : SweepPoint numBuckets}
    {r : Advanced numBuckets} (h : l.Late st buckets m)
    (hacc : Accounts base st (Frame.sweep l).inHand) (hstep : l.advance clock st = some r) :
    AccountsFor base r := by
  cases l with
  | readClock => exact h.elim
  | visit now i prev =>
    cases hstep
    cases Linked.readLink st.heap (st.buckets i) prev with
    | none => exact hacc
    | some entry =>
      cases entry with
      | none =>
        cases nextBucket i <;> exact hacc
      | some entry =>
        refine accountsFor_deref hacc (fun node => ?_)
        split <;> exact hacc
  | unlink now i prev entry =>
    obtain ⟨cells, before, e, after, next, hchains, hcells, hnode, rfl, -⟩ := h
    simp only [SweepPoint.advance, Store.deref, hnode, Option.some.injEq] at hstep
    cases hstep
    exact ⟨_, (hacc.of_chains hchains).unlink hcells hnode⟩
  | free now i prev entry =>
    obtain ⟨cells, before, after, node, hchains, -, -, hnode, -⟩ := h
    simp only [SweepPoint.advance, Store.deref, hnode, Option.some.injEq] at hstep
    cases hstep
    exact ⟨cells, (hacc.of_chains hchains).free⟩
  | subKeys now i prev =>
    cases hstep
    exact hacc
  | unlock => cases hstep

/-- A call that has not taken its place has nothing in hand, nor has it after its next step. -/
theorem Early.accounts_step {op : Op} {f f' : Frame numBuckets} {st st' : Store numBuckets}
    {buckets : Buckets numBuckets} {now : ℕ} {d : Counters} (h : Early op f st buckets)
    (hacc : Accounts base st f.inHand)
    (hstep : (hashTableCode numBuckets).step now f st f' st' d) :
    Accounts base st' f'.inHand := by
  obtain ⟨fresh, -, hstep⟩ := hstep
  cases f with
  | put key val ttl l =>
    cases l with
    | readHead | readClock curr =>
      cases hstep
      exact hacc
    | _ => exact h.elim
  | get key l =>
    cases l with
    | readHead | readClock curr =>
      cases hstep
      exact hacc
    | _ => exact h.elim
  | del key l =>
    cases l with
    | readHead =>
      cases hstep
      exact hacc
    | _ => exact h.elim
  | sweep l =>
    cases l with
    | readClock =>
      cases hstep
      exact hacc
    | _ => exact h.elim
  | fault => exact h.elim

theorem Late.accounts_step {op : Op} {f f' : Frame numBuckets} {st st' : Store numBuckets}
    {buckets : Buckets numBuckets} {o : Outcome} {m d : Counters} {now : ℕ}
    (h : Late op f st buckets o m) (hwrites : op.reads = false) (hacc : Accounts base st f.inHand)
    (hstep : (hashTableCode numBuckets).step now f st f' st' d) :
    Accounts base st' f'.inHand := by
  obtain ⟨fresh, hfresh, hstep⟩ := hstep
  cases f with
  | put key val ttl l => exact PutPoint.accounts_step h.2.2 hacc hfresh hstep
  | get key l =>
    obtain ⟨rfl, -⟩ := h
    cases hwrites
  | del key l => exact DelPoint.accounts_step h.2 hacc hstep
  | sweep l => exact SweepPoint.accounts_step h.2.2 hacc hstep
  | fault => exact h.elim

theorem inHand_entry (op : Op) : (op.entry : Frame numBuckets).inHand = none := by
  cases op <;> rfl

theorem inHand_of_result {f : Frame numBuckets} {o : Outcome} (h : f.result = some o) :
    f.inHand = none := by
  cases f with
  | put key val ttl l => cases l <;> first | rfl | cases h
  | get key l => rfl
  | del key l => cases l <;> first | rfl | cases h
  | sweep l => cases l <;> first | rfl | cases h
  | fault => rfl

open Rwlock

variable {T : Type*}

/-- While a writer is inside it has at most one node in hand; otherwise nobody has. -/
structure Accounted (base : Addr → Option KvNode) (s : Threads T numBuckets) : Prop where
  writer : ∀ t n op f, s.thread t = .inside n op f → op.reads = false →
    Accounts base s.memory f.inHand
  resting : (∀ t n op, s.call t = some (n, op) → op.reads = true) → Accounts base s.memory none

variable [DecidableEq T]

theorem Accounted.step {clock : ℕ} {s s' : Threads T numBuckets}
    (hreach : Reachable (hashTableCode numBuckets) (threadsStart base clock) s)
    (h : Accounted base s) (hstep : Step (hashTableCode numBuckets) s s') : Accounted base s' := by
  obtain ⟨hb, owed, hs⟩ := books_sim_of_reachable hashTableCode_correct
    (represents_emptyStore base) hreach
  cases hstep with
  | tick hle => exact ⟨h.writer, h.resting⟩
  | @call t op ht =>
    refine ⟨fun u n op' f hu => ?_, fun hreads => h.resting (fun u n op' hu => ?_)⟩
    · exact h.writer u n op' f (inside_update rfl hu).2
    · refine hreads u n op' ?_
      rwa [call_of_idle op ht]
  | @lock t op ht hfree =>
    have hreaders : op.reads = false → ∀ u n op', s.call u = some (n, op') → op'.reads = true :=
      fun _ u n op' hu => (hb.excludes.available hfree hu).2
    refine ⟨fun u n op' f hu hr => ?_, fun hreads => h.resting (fun u n op' hu => ?_)⟩
    · rcases inside_cases hu with ⟨-, -, rfl, rfl⟩ | ⟨-, hu'⟩
      · have hentry := h.resting (hreaders hr)
        rwa [← inHand_entry] at hentry
      · exact h.writer u n op' f hu' hr
    · exact (hb.excludes.available hfree hu).2
  | @run t n op f f' h' d ht hrun =>
    have hcall : s.call t = some (n, op) := call_of_inside ht
    have hsame : op.reads = true → h' = s.memory := by
      intro hr
      by_cases hn : n ∈ s.tickets
      · obtain ⟨o, -, hlate⟩ := hs.late t n op f ht hn
        exact (late_step hlate hrun).2 hr
      · have hearly := hs.early t n op f ht hn
        cases hc : f.commits with
        | false => exact (early_step hearly hc hrun).1
        | true => exact (commit_step (hs.rep_of_early hb hcall hn) hearly hc hrun).1
    have hwriter : op.reads = false → Accounts base h' f'.inHand := by
      intro hr
      have hacc := h.writer t n op f ht hr
      by_cases hn : n ∈ s.tickets
      · obtain ⟨o, -, hlate⟩ := hs.late t n op f ht hn
        exact hlate.accounts_step hr hacc hrun
      · exact (hs.early t n op f ht hn).accounts_step hacc hrun
    refine ⟨fun u m op' g hu hr => ?_, fun hreads => ?_⟩
    · rcases inside_cases hu with ⟨-, -, rfl, rfl⟩ | ⟨hut, hu'⟩
      · exact hwriter hr
      · exact absurd (hb.exclusive u t _ _ (call_of_inside hu') hcall hr).symm hut
    · have hr : op.reads = true := by
        refine hreads t n op ?_
        rw [Config.call, call_update, if_pos rfl]
        rfl
      have hmem := h.resting (fun u m op' hu => ?_)
      · dsimp only
        rwa [hsame hr]
      · refine hreads u m op' ?_
        rwa [call_of_run ht rfl]
  | @unlock t n op f o ht ho =>
    have hcall : s.call t = some (n, op) := call_of_inside ht
    refine ⟨fun u m op' g hu hr => ?_, fun hreads => ?_⟩
    · exact h.writer u m op' g (inside_update rfl hu).2 hr
    · cases hr : op.reads with
      | false =>
        have hacc := h.writer t n op f ht hr
        rwa [inHand_of_result ho] at hacc
      | true =>
        refine h.resting (fun u m op' hu => ?_)
        by_cases hut : u = t
        · rw [hut, hcall] at hu
          cases hu
          exact hr
        · refine hreads u m op' ?_
          rw [Config.call, call_update, if_neg hut]
          exact hu

theorem accounted_of_reachable {clock : ℕ} {s : Threads T numBuckets}
    (h : Reachable (hashTableCode numBuckets) (threadsStart base clock) s) : Accounted base s := by
  induction h with
  | refl =>
    refine ⟨fun t n op f ht => ?_, fun _ => accounts_start base⟩
    cases ht
  | tail hreach hstep ih => exact ih.step hreach hstep

/-- With no call under way only the chains hold nodes of the table. -/
theorem accounts_of_idle {clock : ℕ} {s : Threads T numBuckets}
    (h : Reachable (hashTableCode numBuckets) (threadsStart base clock) s)
    (hidle : ∀ t, s.call t = none) : Accounts base s.memory none :=
  (accounted_of_reachable h).resting (fun t n op ht => absurd ((hidle t).symm.trans ht) (by simp))

end CpreLabs
