import CpreLabs.HashTableSerializability
import CpreLabs.RwlockExclusion
import Mathlib.Algebra.Group.PUnit

/-!
# What a `STATS` reply shows

`STATS` loads the five counters one after the other under the shared lock, which it shares with
lookups that go on counting. Here the counters are part of the memory of the threads, so that
they can be loaded one at a time.
-/
namespace CpreLabs.Stats
open Rwlock

variable {numBuckets : ℕ+}

/-- The requests of a client that touch the table. -/
inductive Request where
  | call (op : Op)
  | stats

/-- The statements of `handle_client` for `STATS` between lock and unlock. -/
inductive LoadPoint where
  | loadKeys
  | loadHits (k : ℤ)
  | loadMisses (k h : ℤ)
  | loadPuts (k h m : ℤ)
  | loadDels (k h m p : ℤ)
  | unlock (k h m p d : ℤ)

inductive RequestFrame (numBuckets : ℕ+) where
  | call (f : Frame numBuckets)
  | stats (l : LoadPoint)

/-- What a request leads to: the outcome of a call, or the numbers of the `STATS` line. -/
inductive Reply where
  | outcome (o : Outcome)
  | stats (keys hits misses puts dels : ℤ)

structure Table (numBuckets : ℕ+) where
  store : Store numBuckets
  counters : Counters

def LoadPoint.advance (counters : Counters) : LoadPoint → Option LoadPoint
  | .loadKeys => some (.loadHits (counters .keys))
  | .loadHits k => some (.loadMisses k (counters .hits))
  | .loadMisses k h => some (.loadPuts k h (counters .misses))
  | .loadPuts k h m => some (.loadDels k h m (counters .puts))
  | .loadDels k h m p => some (.unlock k h m p (counters .dels))
  | .unlock .. => none

namespace RequestFrame

def advance (now fresh : ℕ) (table : Table numBuckets) :
    RequestFrame numBuckets → Option (RequestFrame numBuckets × Table numBuckets)
  | .call f => (f.advance now fresh table.store).map fun (f', st, d) =>
      (.call f', ⟨st, table.counters + d⟩)
  | .stats l => (l.advance table.counters).map fun l' => (.stats l', table)

def mallocs : RequestFrame numBuckets → Bool
  | .call f => f.mallocs
  | .stats _ => false

def commits : RequestFrame numBuckets → Bool
  | .call f => f.commits
  | .stats _ => false

def result : RequestFrame numBuckets → Option Reply
  | .call f => f.result.map .outcome
  | .stats (.unlock k h m p d) => some (.stats k h m p d)
  | .stats _ => none

end RequestFrame

def Request.reads : Request → Bool
  | .call op => op.reads
  | .stats => true

def Request.entry : Request → RequestFrame numBuckets
  | .call op => .call op.entry
  | .stats => .stats .loadKeys

/-- `kv_get`, `kv_put`, `kv_del`, the sweeper and `STATS` under the lock of the table. -/
def requestCode (numBuckets : ℕ+) :
    Code Request (RequestFrame numBuckets) (Table numBuckets) Unit Reply where
  reads := Request.reads
  entry := Request.entry
  step now f table f' table' _ := ∃ fresh,
    (f.mallocs = true → table.store.heap fresh = none) ∧
      f.advance now fresh table = some (f', table')
  commits := RequestFrame.commits
  result := RequestFrame.result

abbrev Threads (T : Type*) (numBuckets : ℕ+) :=
  Config T Request (RequestFrame numBuckets) (Table numBuckets) Unit Reply

/-- All threads idle on the table of `kv_init`. -/
def start {T : Type*} (heap : Addr → Option KvNode) (clock : ℕ) : Threads T numBuckets :=
  initial ⟨⟩ ⟨emptyStore heap, 0⟩ clock

/-- The frame of a lookup. -/
def looksUp : Frame numBuckets → Bool
  | .get _ _ | .fault => true
  | _ => false

/-- What a step may add: nothing, or one to a counter, or it takes one off `keys`. -/
def Bump (d : Counters) : Prop :=
  d = 0 ∨ (∃ counter, d = fetchAdd counter 1) ∨ d = fetchAdd .keys (-1)

def LookupBump (d : Counters) : Prop :=
  d = 0 ∨ d = fetchAdd .hits 1 ∨ d = fetchAdd .misses 1

theorem deref_induction {st : Store numBuckets} {a : Addr} {k : KvNode → Advanced numBuckets}
    {P : Advanced numBuckets → Prop} (hfault : P (.fault, st, 0)) (hk : ∀ node, P (k node)) :
    P (st.deref a k) := by
  unfold Store.deref
  cases st.heap a with
  | none => exact hfault
  | some node => exact hk node

theorem get_bump {key : CString} {now : ℕ} {st : Store numBuckets} {l : GetPoint}
    {r : Advanced numBuckets} (h : l.advance key now st = some r) :
    looksUp r.1 = true ∧ LookupBump r.2.2 := by
  have hgoto : ∀ l' : GetPoint, looksUp (GetPoint.advance.goto key st l').1 = true ∧
      LookupBump (GetPoint.advance.goto key st l').2.2 := fun _ => ⟨rfl, Or.inl rfl⟩
  cases l with
  | readHead | readClock curr =>
    cases h
    exact hgoto _
  | visit curr expiry =>
    cases curr with
    | none =>
      cases h
      exact hgoto _
    | some curr =>
      cases h
      apply deref_induction (P := fun r => looksUp r.1 = true ∧ LookupBump r.2.2) ⟨rfl, Or.inl rfl⟩
      intro node
      split <;> exact hgoto _
  | testExpiry curr expiry =>
    cases h
    apply deref_induction (P := fun r => looksUp r.1 = true ∧ LookupBump r.2.2) ⟨rfl, Or.inl rfl⟩
    intro node
    split <;> exact hgoto _
  | copyValue curr =>
    cases h
    apply deref_induction (P := fun r => looksUp r.1 = true ∧ LookupBump r.2.2) ⟨rfl, Or.inl rfl⟩
    exact fun node => hgoto _
  | addHits outVal =>
    cases h
    exact ⟨rfl, Or.inr (Or.inl rfl)⟩
  | addMisses =>
    cases h
    exact ⟨rfl, Or.inr (Or.inr rfl)⟩
  | unlock o => cases h

theorem put_bump {key val : CString} {ttl : ℤ} {now fresh : ℕ} {st : Store numBuckets}
    {l : PutPoint} {r : Advanced numBuckets} (h : l.advance key val ttl now fresh st = some r) :
    Bump r.2.2 := by
  cases l with
  | visit curr expiry =>
    cases curr with
    | none =>
      cases h
      exact Or.inl rfl
    | some curr =>
      cases h
      apply deref_induction (P := fun r => Bump r.2.2) (Or.inl rfl)
      intro node
      split <;> exact Or.inl rfl
  | overwrite curr expiry | setNext curr =>
    cases h
    apply deref_induction (P := fun r => Bump r.2.2) (Or.inl rfl)
    exact fun node => Or.inl rfl
  | addKeys | addPuts =>
    cases h
    exact Or.inr (Or.inl ⟨_, rfl⟩)
  | unlock => cases h
  | _ =>
    cases h
    exact Or.inl rfl

theorem del_bump {key : CString} {st : Store numBuckets} {l : DelPoint}
    {r : Advanced numBuckets} (h : l.advance key st = some r) : Bump r.2.2 := by
  cases l with
  | readHead =>
    cases h
    exact Or.inl rfl
  | visit prev curr =>
    cases curr with
    | none =>
      cases h
      exact Or.inl rfl
    | some curr =>
      cases h
      apply deref_induction (P := fun r => Bump r.2.2) (Or.inl rfl)
      intro node
      split <;> exact Or.inl rfl
  | unlink prev curr | free curr =>
    cases h
    apply deref_induction (P := fun r => Bump r.2.2) (Or.inl rfl)
    exact fun node => Or.inl rfl
  | subKeys =>
    cases h
    exact Or.inr (Or.inr rfl)
  | addDels =>
    cases h
    exact Or.inr (Or.inl ⟨_, rfl⟩)
  | unlock o => cases h

theorem sweep_bump {now : ℕ} {st : Store numBuckets} {l : SweepPoint numBuckets}
    {r : Advanced numBuckets} (h : l.advance now st = some r) : Bump r.2.2 := by
  cases l with
  | readClock =>
    cases h
    exact Or.inl rfl
  | visit now' i prev =>
    cases h
    cases Linked.readLink st.heap (st.buckets i) prev with
    | none => exact Or.inl rfl
    | some entry =>
      cases entry with
      | none =>
        cases nextBucket i <;> exact Or.inl rfl
      | some entry =>
        apply deref_induction (P := fun r => Bump r.2.2) (Or.inl rfl)
        intro node
        split <;> exact Or.inl rfl
  | unlink now' i prev entry | free now' i prev entry =>
    cases h
    apply deref_induction (P := fun r => Bump r.2.2) (Or.inl rfl)
    exact fun node => Or.inl rfl
  | subKeys now' i prev =>
    cases h
    exact Or.inr (Or.inr rfl)
  | unlock => cases h

theorem LookupBump.bump {d : Counters} (h : LookupBump d) : Bump d := by
  rcases h with hd | hd | hd
  · exact Or.inl hd
  · exact Or.inr (Or.inl ⟨_, hd⟩)
  · exact Or.inr (Or.inl ⟨_, hd⟩)

theorem advance_bump {f : Frame numBuckets} {now fresh : ℕ} {st : Store numBuckets}
    {r : Advanced numBuckets} (h : f.advance now fresh st = some r) : Bump r.2.2 := by
  cases f with
  | put key val ttl l => exact put_bump h
  | get key l => exact (get_bump h).2.bump
  | del key l => exact del_bump h
  | sweep l => exact sweep_bump h
  | fault => cases h

variable {T : Type*} [DecidableEq T]

def shown (s : Threads T numBuckets) : Counters := s.memory.counters

def RequestFrame.looksUp : RequestFrame numBuckets → Bool
  | .call f => Stats.looksUp f
  | .stats _ => true

theorem step_bump {f f' : RequestFrame numBuckets} {now : ℕ}
    {table table' : Table numBuckets} {d : Unit}
    (h : (requestCode numBuckets).step now f table f' table' d) :
    ∃ e, Bump e ∧ table'.counters = table.counters + e ∧
      (f.looksUp = true → f'.looksUp = true ∧ LookupBump e) := by
  obtain ⟨fresh, -, hadvance⟩ := h
  cases f with
  | call g =>
    obtain ⟨⟨g', st, e⟩, hg, heq⟩ := Option.map_eq_some_iff.mp hadvance
    cases heq
    refine ⟨e, advance_bump hg, rfl, fun hlook => ?_⟩
    cases g with
    | get key l => exact get_bump hg
    | fault => cases hg
    | _ => cases hlook
  | stats l =>
    obtain ⟨l', hl, heq⟩ := Option.map_eq_some_iff.mp hadvance
    cases heq
    exact ⟨0, Or.inl rfl, (add_zero _).symm, fun _ => ⟨rfl, Or.inl rfl⟩⟩

section Steps

variable {heap : Addr → Option KvNode} {clock : ℕ} {s s' : Threads T numBuckets}

theorem shown_step (hstep : Step (requestCode numBuckets) s s') :
    ∃ d, Bump d ∧ shown s' = shown s + d := by
  rcases hstep.memory_cases with hsame | ⟨u, n, op, f, f', e, -, hrun, -⟩
  · refine ⟨0, Or.inl rfl, ?_⟩
    rw [shown, hsame, add_zero]
    rfl
  · obtain ⟨d, hbump, hadd, -⟩ := step_bump hrun
    exact ⟨d, hbump, hadd⟩

/-- Reading requests have the frames of lookups. -/
def FrameFits (op : Request) (f : RequestFrame numBuckets) : Prop :=
  op.reads = true → f.looksUp = true

theorem looksUp_of_reads (h : Reachable (requestCode numBuckets) (start heap clock) s) {t : T}
    {n : ℕ} {op : Request} {f : RequestFrame numBuckets} (ht : s.thread t = .inside n op f)
    (hr : op.reads = true) : f.looksUp = true := by
  have hfits : FrameFits op f := by
    refine frames_of_reachable (fun op hr => ?_) (fun op f now table f' table' d hok hrun hr => ?_)
      h ht
    · cases op with
      | call op =>
        cases op with
        | get key => rfl
        | _ => cases hr
      | stats => rfl
    · obtain ⟨e, -, -, hlook⟩ := step_bump hrun
      exact (hlook (hok hr)).1
  exact hfits hr

/-- While a reader is inside, the counters change as lookups change them. -/
theorem shown_step_of_reader (h : Reachable (requestCode numBuckets) (start heap clock) s)
    (hstep : Step (requestCode numBuckets) s s') {t : T} {n : ℕ} {op : Request}
    {f : RequestFrame numBuckets} (ht : s.thread t = .inside n op f) (hr : op.reads = true) :
    ∃ d, LookupBump d ∧ shown s' = shown s + d := by
  rcases hstep.memory_cases with hsame | ⟨u, m, op', g, g', e, hu, hrun, -⟩
  · refine ⟨0, Or.inl rfl, ?_⟩
    rw [shown, hsame, add_zero]
    rfl
  · have hr' := (excludes_of_reachable h).reads_of_reader ht hr hu
    obtain ⟨d, -, hadd, hlook⟩ := step_bump hrun
    exact ⟨d, (hlook (looksUp_of_reads h hu hr')).2, hadd⟩

theorem hits_le_step (hstep : Step (requestCode numBuckets) s s') :
    shown s .hits ≤ shown s' .hits := by
  obtain ⟨d, hbump, hadd⟩ := shown_step hstep
  rw [hadd]
  rcases hbump with rfl | ⟨counter, rfl⟩ | rfl
  · simp
  · cases counter <;> simp [fetchAdd]
  · simp [fetchAdd]

theorem misses_le_step (hstep : Step (requestCode numBuckets) s s') :
    shown s .misses ≤ shown s' .misses := by
  obtain ⟨d, hbump, hadd⟩ := shown_step hstep
  rw [hadd]
  rcases hbump with rfl | ⟨counter, rfl⟩ | rfl
  · simp
  · cases counter <;> simp [fetchAdd]
  · simp [fetchAdd]

/-- A step does not count a hit and a miss. -/
theorem one_counter_step (hstep : Step (requestCode numBuckets) s s') :
    shown s' .hits = shown s .hits ∨ shown s' .misses = shown s .misses := by
  obtain ⟨d, hbump, hadd⟩ := shown_step hstep
  rw [hadd]
  rcases hbump with rfl | ⟨counter, rfl⟩ | rfl
  · simp
  · cases counter <;> simp [fetchAdd]
  · simp [fetchAdd]

/-- The counters that lookups leave alone. -/
def Steady (c c' : Counters) : Prop :=
  c' .keys = c .keys ∧ c' .puts = c .puts ∧ c' .dels = c .dels

theorem Steady.trans {c c' c'' : Counters} (h : Steady c c') (h' : Steady c' c'') : Steady c c'' :=
  ⟨h'.1.trans h.1, h'.2.1.trans h.2.1, h'.2.2.trans h.2.2⟩

theorem steady_of_lookupBump {c d : Counters} (h : LookupBump d) : Steady c (c + d) := by
  rcases h with rfl | rfl | rfl <;> refine ⟨?_, ?_, ?_⟩ <;> simp [fetchAdd]

end Steps

section Growth

variable {f g : ℕ → ℤ} {x y : ℕ}

theorem exists_growth (hxy : x ≤ y) (hf : f x < f y) : ∃ i, x ≤ i ∧ i < y ∧ f i < f (i + 1) := by
  induction y, hxy using Nat.le_induction with
  | base => exact absurd hf (lt_irrefl _)
  | succ y hxy ih =>
    by_cases hlast : f y < f (y + 1)
    · exact ⟨y, hxy, Nat.lt_succ_self y, hlast⟩
    · obtain ⟨i, hxi, hiy, hi⟩ := ih (hf.trans_le (not_lt.mp hlast))
      exact ⟨i, hxi, Nat.lt_succ_of_lt hiy, hi⟩

/-- If the first does not grow before the second does, there is a time at which the first has
not grown yet, and the second has no more. -/
theorem exists_instant (hxy : x ≤ y) (hf : ∀ i, x ≤ i → i < y → f i ≤ f (i + 1))
    (hg : ∀ i, x ≤ i → i < y → g i ≤ g (i + 1))
    (hone : ∀ i, x ≤ i → i < y → f (i + 1) = f i ∨ g (i + 1) = g i)
    (horder : ∀ i j, x ≤ i → i < j → j < y → f i < f (i + 1) → ¬g j < g (j + 1)) :
    ∃ c, x ≤ c ∧ c ≤ y ∧ f c = f x ∧ g c = g y := by
  induction y, hxy using Nat.le_induction with
  | base => exact ⟨x, le_rfl, le_rfl, rfl, rfl⟩
  | succ y hxy ih =>
    obtain ⟨c, hxc, hcy, hfc, hgc⟩ := ih (fun i hi hiy => hf i hi (by omega))
      (fun i hi hiy => hg i hi (by omega)) (fun i hi hiy => hone i hi (by omega))
      (fun i j hi hij hjy => horder i j hi hij (by omega))
    by_cases hgrows : g y < g (y + 1)
    · -- the second counter grows last, so the first has not grown
      have hfy : f (y + 1) = f y := (hone y hxy (Nat.lt_succ_self y)).resolve_right hgrows.ne'
      have hfx : f y = f x := by
        by_contra hne
        have hmono : ∀ z, x ≤ z → z ≤ y → f x ≤ f z := by
          intro z hxz
          induction z, hxz using Nat.le_induction with
          | base => exact fun _ => le_rfl
          | succ z hxz ihz => exact fun hz => (ihz (by omega)).trans (hf z hxz (by omega))
        obtain ⟨i, hxi, hiy, hi⟩ :=
          exists_growth hxy (lt_of_le_of_ne (hmono y hxy le_rfl) (Ne.symm hne))
        exact horder i y hxi hiy (Nat.lt_succ_self y) hi hgrows
      exact ⟨y + 1, hxy.trans (Nat.le_succ y), le_rfl, hfy.trans hfx, rfl⟩
    · have hsame : g (y + 1) = g y := le_antisymm (not_lt.mp hgrows) (hg y hxy (Nat.lt_succ_self y))
      exact ⟨c, hxc, hcy.trans (Nat.le_succ y), hfc, hgc.trans hsame.symm⟩

end Growth

structure IsRun (heap : Addr → Option KvNode) (clock : ℕ) (run : ℕ → Threads T numBuckets)
    (last : ℕ) : Prop where
  first : run 0 = start heap clock
  step : ∀ i, i < last → Step (requestCode numBuckets) (run i) (run (i + 1))

/-- The thread has loaded `hits` and is going to load `misses`. -/
def BetweenLoads (t : T) (s : Threads T numBuckets) : Prop :=
  ∃ n k h, s.thread t = .inside n .stats (.stats (.loadMisses k h))

/-- Between the loads of `hits` and of `misses` a hit is counted, and after it a miss. -/
def Torn (run : ℕ → Threads T numBuckets) (t : T) (asked done : ℕ) : Prop :=
  ∃ i j, asked ≤ i ∧ i < j ∧ j < done ∧ BetweenLoads t (run i) ∧ BetweenLoads t (run (j + 1)) ∧
    shown (run i) .hits < shown (run (i + 1)) .hits ∧
      shown (run j) .misses < shown (run (j + 1)) .misses

/-- The thread stood between the two loads from `x` to `y`, it has `k` for `keys` and `h` for
`hits`, and only lookups have been counted since. -/
structure Window (run : ℕ → Threads T numBuckets) (t : T) (asked i x y : ℕ) (k h : ℤ) : Prop where
  asked_le : asked ≤ x
  le : x ≤ y
  le_now : y ≤ i
  hits : h = shown (run x) .hits
  keys : k = shown (run i) .keys
  steady : ∀ c, x ≤ c → c ≤ i → Steady (shown (run c)) (shown (run i))
  between_iff : ∀ c, asked ≤ c → c ≤ i → (BetweenLoads t (run c) ↔ x ≤ c ∧ c ≤ y)

/-- What the local variables hold at a point of a request that was read at `asked`. -/
def Loaded (run : ℕ → Threads T numBuckets) (t : T) (asked i : ℕ) : LoadPoint → Prop
  | .loadKeys => ∀ c, asked ≤ c → c ≤ i → ¬BetweenLoads t (run c)
  | .loadHits k => k = shown (run i) .keys ∧ ∀ c, asked ≤ c → c ≤ i → ¬BetweenLoads t (run c)
  | .loadMisses k h => ∃ x, Window run t asked i x i k h
  | .loadPuts k h m => ∃ x y, Window run t asked i x y k h ∧ m = shown (run y) .misses
  | .loadDels k h m p => ∃ x y, Window run t asked i x y k h ∧ m = shown (run y) .misses ∧
      p = shown (run i) .puts
  | .unlock k h m p d => ∃ x y, Window run t asked i x y k h ∧ m = shown (run y) .misses ∧
      p = shown (run i) .puts ∧ d = shown (run i) .dels

section Loads

variable {heap : Addr → Option KvNode} {clock last : ℕ} {run : ℕ → Threads T numBuckets} {t : T}
  {asked done i : ℕ}

theorem IsRun.reachable (h : IsRun heap clock run last) (hi : i ≤ last) :
    Reachable (requestCode numBuckets) (start heap clock) (run i) := by
  induction i with
  | zero =>
    rw [h.first]
    exact .refl
  | succ i ih => exact (ih (by omega)).tail (h.step i hi)

theorem IsRun.hits_le (h : IsRun heap clock run last) {j : ℕ} (hij : i ≤ j) (hj : j ≤ last) :
    shown (run i) .hits ≤ shown (run j) .hits := by
  induction j, hij using Nat.le_induction with
  | base => exact le_rfl
  | succ j hij ih => exact (ih (by omega)).trans (hits_le_step (h.step j hj))

theorem IsRun.misses_le (h : IsRun heap clock run last) {j : ℕ} (hij : i ≤ j) (hj : j ≤ last) :
    shown (run i) .misses ≤ shown (run j) .misses := by
  induction j, hij using Nat.le_induction with
  | base => exact le_rfl
  | succ j hij ih => exact (ih (by omega)).trans (misses_le_step (h.step j hj))

omit [DecidableEq T] in
/-- One more state in which the thread does not stand between the two loads. -/
theorem not_between_succ (hold : ∀ c, asked ≤ c → c ≤ i → ¬BetweenLoads t (run c))
    (hnew : ¬BetweenLoads t (run (i + 1))) :
    ∀ c, asked ≤ c → c ≤ i + 1 → ¬BetweenLoads t (run c) := by
  intro c hc hci
  rcases Nat.le_succ_iff.mp hci with hle | rfl
  · exact hold c hc hle
  · exact hnew

omit [DecidableEq T] in
theorem Window.extend {x y y' : ℕ} {k h : ℤ} (hw : Window run t asked i x y k h)
    (hsteady : Steady (shown (run i)) (shown (run (i + 1)))) (hy : y' = y ∨ y = i ∧ y' = i + 1)
    (hnew : BetweenLoads t (run (i + 1)) ↔ y' = i + 1) :
    Window run t asked (i + 1) x y' k h := by
  have hle := hw.le
  have hnow := hw.le_now
  refine ⟨hw.asked_le, by omega, by omega, hw.hits, hw.keys.trans hsteady.1.symm,
    fun c hxc hci => ?_, fun c hc hci => ?_⟩
  · rcases Nat.le_succ_iff.mp hci with hci | rfl
    · exact (hw.steady c hxc hci).trans hsteady
    · exact ⟨rfl, rfl, rfl⟩
  · rcases Nat.le_succ_iff.mp hci with hci | rfl
    · rw [hw.between_iff c hc hci]
      omega
    · rw [hnew]
      omega

omit [DecidableEq T] in
theorem between_iff_of_thread {s : Threads T numBuckets} {n : ℕ} {l : LoadPoint}
    (ht : s.thread t = .inside n .stats (.stats l)) :
    BetweenLoads t s ↔ ∃ k h, l = .loadMisses k h := by
  constructor
  · rintro ⟨n', k, h, ht'⟩
    rw [ht] at ht'
    cases ht'
    exact ⟨k, h, rfl⟩
  · rintro ⟨k, h, rfl⟩
    exact ⟨n, k, h, ht⟩

omit [DecidableEq T] in
theorem not_between_of_thread {s : Threads T numBuckets} {n : ℕ} {l : LoadPoint}
    (ht : s.thread t = .inside n .stats (.stats l)) (hne : ∀ k h, l ≠ .loadMisses k h) :
    ¬BetweenLoads t s := by
  intro hb
  obtain ⟨k, h, hkh⟩ := (between_iff_of_thread ht).mp hb
  exact hne k h hkh

omit [DecidableEq T] in
/-- The thread has left the window. -/
theorem Window.closed {x y : ℕ} {k h : ℤ} (hw : Window run t asked i x y k h)
    (hsteady : Steady (shown (run i)) (shown (run (i + 1))))
    (hnot : ¬BetweenLoads t (run (i + 1))) : Window run t asked (i + 1) x y k h := by
  have hnow := hw.le_now
  exact hw.extend hsteady (Or.inl rfl) ⟨fun hb => absurd hb hnot, fun hy => by omega⟩

omit [DecidableEq T] in
/-- The thread does nothing while others count their lookups. -/
theorem loaded_stay {n : ℕ} {l : LoadPoint} (hl : Loaded run t asked i l)
    (ht : (run (i + 1)).thread t = .inside n .stats (.stats l))
    (hsteady : Steady (shown (run i)) (shown (run (i + 1)))) : Loaded run t asked (i + 1) l := by
  have hnot := not_between_of_thread ht
  cases l with
  | loadKeys => exact not_between_succ hl (hnot (by simp))
  | loadHits k => exact ⟨hl.1.trans hsteady.1.symm, not_between_succ hl.2 (hnot (by simp))⟩
  | loadMisses k h =>
    obtain ⟨x, hw⟩ := hl
    refine ⟨x, hw.extend hsteady (Or.inr ⟨rfl, rfl⟩) ?_⟩
    exact ⟨fun _ => rfl, fun _ => (between_iff_of_thread ht).mpr ⟨k, h, rfl⟩⟩
  | loadPuts k h m =>
    obtain ⟨x, y, hw, hm⟩ := hl
    exact ⟨x, y, hw.closed hsteady (hnot (by simp)), hm⟩
  | loadDels k h m p =>
    obtain ⟨x, y, hw, hm, hp⟩ := hl
    exact ⟨x, y, hw.closed hsteady (hnot (by simp)), hm, hp.trans hsteady.2.1.symm⟩
  | unlock k h m p d =>
    obtain ⟨x, y, hw, hm, hp, hd⟩ := hl
    exact ⟨x, y, hw.closed hsteady (hnot (by simp)), hm, hp.trans hsteady.2.1.symm,
      hd.trans hsteady.2.2.symm⟩

omit [DecidableEq T] in
/-- The thread loads the next counter. -/
theorem loaded_advance {n : ℕ} {l l' : LoadPoint} (hl : Loaded run t asked i l)
    (hasked : asked ≤ i) (hload : l.advance (shown (run i)) = some l')
    (ht : (run (i + 1)).thread t = .inside n .stats (.stats l'))
    (hsame : shown (run (i + 1)) = shown (run i)) : Loaded run t asked (i + 1) l' := by
  have hnot := not_between_of_thread ht
  have hsteady : Steady (shown (run i)) (shown (run (i + 1))) := by
    rw [hsame]
    exact ⟨rfl, rfl, rfl⟩
  cases l with
  | loadKeys =>
    cases hload
    exact ⟨by rw [hsame], not_between_succ hl (hnot (by simp))⟩
  | loadHits k =>
    cases hload
    obtain ⟨hk, hout⟩ := hl
    refine ⟨i + 1, by omega, le_rfl, le_rfl, by rw [hsame], hk.trans hsteady.1.symm,
      fun c hxc hci => ?_, fun c hc hci => ?_⟩
    · obtain rfl : c = i + 1 := le_antisymm hci hxc
      exact ⟨rfl, rfl, rfl⟩
    · rcases Nat.le_succ_iff.mp hci with hle | rfl
      · exact ⟨fun hb => absurd hb (hout c hc hle), fun hx => by omega⟩
      · exact ⟨fun _ => ⟨le_rfl, le_rfl⟩, fun _ => (between_iff_of_thread ht).mpr ⟨_, _, rfl⟩⟩
  | loadMisses k h =>
    cases hload
    obtain ⟨x, hw⟩ := hl
    exact ⟨x, i, hw.closed hsteady (hnot (by simp)), rfl⟩
  | loadPuts k h m =>
    cases hload
    obtain ⟨x, y, hw, hm⟩ := hl
    exact ⟨x, y, hw.closed hsteady (hnot (by simp)), hm, by rw [hsame]⟩
  | loadDels k h m p =>
    cases hload
    obtain ⟨x, y, hw, hm, hp⟩ := hl
    exact ⟨x, y, hw.closed hsteady (hnot (by simp)), hm, hp.trans hsteady.2.1.symm, by rw [hsame]⟩
  | unlock k h m p d => cases hload

/-- A request that is read, and not answered before `done`. -/
structure Asked (run : ℕ → Threads T numBuckets) (t : T) (asked done : ℕ) : Prop where
  le : asked ≤ done
  waiting : (run asked).thread t = .waiting .stats
  busy : ∀ i, asked ≤ i → i ≤ done → (run i).thread t ≠ .idle

theorem loaded_of_asked (h : IsRun heap clock run last) (hasked : Asked run t asked done)
    (hdone : done ≤ last) (hi : asked ≤ i) (hid : i ≤ done) :
    ((run i).thread t = .waiting .stats ∧ ∀ c, asked ≤ c → c ≤ i → ¬BetweenLoads t (run c)) ∨
      ∃ n l, (run i).thread t = .inside n .stats (.stats l) ∧ Loaded run t asked i l := by
  have hwaits : ∀ {s : Threads T numBuckets}, s.thread t = .waiting .stats → ¬BetweenLoads t s := by
    rintro s hs ⟨n, k, h, ht⟩
    rw [hs] at ht
    cases ht
  induction i, hi using Nat.le_induction with
  | base =>
    refine Or.inl ⟨hasked.waiting, fun c hc hca => ?_⟩
    obtain rfl : c = asked := le_antisymm hca hc
    exact hwaits hasked.waiting
  | succ i hi ih =>
    have hstep := h.step i (by omega)
    have hreach := h.reachable (i := i) (by omega)
    rcases ih (by omega) with ⟨hw, hout⟩ | ⟨n, l, hin, hl⟩
    · rcases hstep.thread_cases t with hsame | ⟨op, hidle, -, -⟩ | ⟨n, op, hw', hin, -⟩ |
        ⟨n, op, f, f', d, hin, -, -⟩ | ⟨n, op, f, o, hin, -, -, -⟩
      · rw [hw] at hsame
        exact Or.inl ⟨hsame, not_between_succ hout (hwaits hsame)⟩
      · rw [hw] at hidle
        cases hidle
      · rw [hw] at hw'
        cases hw'
        refine Or.inr ⟨n, .loadKeys, hin, not_between_succ hout ?_⟩
        rw [between_iff_of_thread hin]
        rintro ⟨k, h, hkh⟩
        cases hkh
      · rw [hw] at hin
        cases hin
      · rw [hw] at hin
        cases hin
    · rcases hstep.thread_cases t with hsame | ⟨op, hidle, -, -⟩ | ⟨n', op, hw', -, -⟩ |
        ⟨n', op, f, f', d, hin', hnew, hrun⟩ | ⟨n', op, f, o, -, -, hidle, -⟩
      · obtain ⟨d, hbump, hadd⟩ := shown_step_of_reader hreach hstep hin rfl
        rw [hin] at hsame
        refine Or.inr ⟨n, l, hsame, loaded_stay hl hsame ?_⟩
        rw [hadd]
        exact steady_of_lookupBump hbump
      · rw [hin] at hidle
        cases hidle
      · rw [hin] at hw'
        cases hw'
      · rw [hin] at hin'
        cases hin'
        obtain ⟨fresh, -, hadvance⟩ := hrun
        obtain ⟨l', hload, heq⟩ := Option.map_eq_some_iff.mp hadvance
        obtain ⟨rfl, hmem⟩ := Prod.mk.inj heq
        have hsame : shown (run (i + 1)) = shown (run i) := by
          rw [shown, shown, ← hmem]
        exact Or.inr ⟨n, l', hnew, loaded_advance hl hi hload hnew hsame⟩
      · exact absurd hidle (hasked.busy (i + 1) (by omega) hid)

def Shows (c : Counters) (keys hits misses puts dels : ℤ) : Prop :=
  c .keys = keys ∧ c .hits = hits ∧ c .misses = misses ∧ c .puts = puts ∧ c .dels = dels

/-- The numbers of the reply are those of the counters at some time before it is written, unless
a hit and after it a miss are counted between the loads of `hits` and of `misses`. -/
theorem snapshot_iff_not_torn (h : IsRun heap clock run last) (hasked : Asked run t asked done)
    (hdone : done ≤ last) {n : ℕ} {keys hits misses puts dels : ℤ}
    (ht : (run done).thread t = .inside n .stats (.stats (.unlock keys hits misses puts dels))) :
    (∃ c, asked ≤ c ∧ c ≤ last ∧ Shows (shown (run c)) keys hits misses puts dels) ↔
      ¬Torn run t asked done := by
  obtain ⟨x, y, hw, hm, hp, hd⟩ : Loaded run t asked done (.unlock keys hits misses puts dels) := by
    rcases loaded_of_asked h hasked hdone hasked.le le_rfl with ⟨hwait, -⟩ | ⟨m, l, hin, hl⟩
    · rw [ht] at hwait
      cases hwait
    · rw [ht] at hin
      cases hin
      exact hl
  have hax := hw.asked_le
  have hxy := hw.le
  have hyd := hw.le_now
  constructor
  · rintro ⟨c, hc, hcl, -, hhits, hmisses, -, -⟩ ⟨i, j, hai, hij, hjd, hbi, hbj, hhit, hmiss⟩
    obtain ⟨hxi, -⟩ := (hw.between_iff i hai (by omega)).mp hbi
    obtain ⟨-, hjy⟩ := (hw.between_iff (j + 1) (by omega) hjd).mp hbj
    have hci : c ≤ i := by
      by_contra hic
      have hbefore := h.hits_le hxi (by omega)
      have hafter := h.hits_le (i := i + 1) (j := c) (by omega) hcl
      rw [hhits, hw.hits] at hafter
      omega
    have hbefore := h.misses_le (i := c) (j := j) (by omega) (by omega)
    have hafter := h.misses_le hjy (by omega)
    rw [hmisses, hm] at hbefore
    omega
  · intro htorn
    have hbetween : ∀ i, x ≤ i → i ≤ y → BetweenLoads t (run i) := fun i hxi hiy =>
      (hw.between_iff i (hax.trans hxi) (hiy.trans hyd)).mpr ⟨hxi, hiy⟩
    obtain ⟨c, hxc, hcy, hhits, hmisses⟩ := exists_instant
      (f := fun i => shown (run i) .hits) (g := fun i => shown (run i) .misses) hxy
      (fun i _ hi => hits_le_step (h.step i (by omega)))
      (fun i _ hi => misses_le_step (h.step i (by omega)))
      (fun i _ hi => one_counter_step (h.step i (by omega)))
      (fun i j hxi hij hjy hhit hmiss => htorn ⟨i, j, by omega, hij, by omega,
        hbetween i hxi (by omega), hbetween (j + 1) (by omega) hjy, hhit, hmiss⟩)
    obtain ⟨hk, hps, hds⟩ := hw.steady c hxc (by omega)
    exact ⟨c, by omega, by omega, (hw.keys.trans hk).symm, hhits.trans hw.hits.symm,
      hmisses.trans hm.symm, (hp.trans hps).symm, (hd.trans hds).symm⟩

end Loads

/-- `RequestFrame.advance` with the address for `malloc` tested. -/
def advanceRequest (fresh now : ℕ) (f : RequestFrame numBuckets) (table : Table numBuckets) :
    Option (RequestFrame numBuckets × Table numBuckets × Unit) :=
  if f.mallocs = true → table.store.heap fresh = none then
    (f.advance now fresh table).map fun (f', table') => (f', table', ⟨⟩)
  else none

theorem requestCode_advanceRequest (fresh now : ℕ) (f : RequestFrame numBuckets)
    (table : Table numBuckets) (f' : RequestFrame numBuckets) (table' : Table numBuckets)
    (d : Unit) (h : advanceRequest fresh now f table = some (f', table', d)) :
    (requestCode numBuckets).step now f table f' table' d := by
  obtain ⟨hfresh, hmap⟩ := Option.ite_none_right_eq_some.mp h
  obtain ⟨r, hadvance, heq⟩ := Option.map_eq_some_iff.mp hmap
  cases heq
  exact ⟨fresh, hfresh, hadvance⟩

section Schedules

variable [Fintype T]

/-- The states of a schedule, one after each decision. -/
def states (numBuckets : ℕ+) (es : List (Event T Request ℕ)) (i : ℕ) : Threads T numBuckets :=
  (runSchedule (requestCode numBuckets) advanceRequest (start (fun _ => none) 0)
    (es.take i)).getD (start (fun _ => none) 0)

theorem runSchedule_append (s : Threads T numBuckets) (es es' : List (Event T Request ℕ)) :
    runSchedule (requestCode numBuckets) advanceRequest s (es ++ es') =
      (runSchedule (requestCode numBuckets) advanceRequest s es).bind
        (fun s' => runSchedule (requestCode numBuckets) advanceRequest s' es') := by
  induction es generalizing s with
  | nil => rfl
  | cons e es ih =>
    simp only [List.cons_append, runSchedule, Option.bind_assoc]
    congr 1
    funext s'
    exact ih s'

theorem isRun_states {es : List (Event T Request ℕ)}
    (h : (runSchedule (requestCode numBuckets) advanceRequest (start (fun _ => none) 0) es).isSome) :
    IsRun (fun _ => none) 0 (states numBuckets es) es.length := by
  have hruns : ∀ i, runSchedule (requestCode numBuckets) advanceRequest (start (fun _ => none) 0)
      (es.take i) = some (states numBuckets es i) := by
    intro i
    rw [← es.take_append_drop i, runSchedule_append] at h
    cases hi : runSchedule (requestCode numBuckets) advanceRequest (start (fun _ => none) 0)
        (es.take i) with
    | none =>
      rw [hi] at h
      cases h
    | some s => rw [states, hi, Option.getD_some]
  refine ⟨rfl, fun i hi => ?_⟩
  have hnext := hruns (i + 1)
  rw [List.take_succ_eq_append_getElem hi, runSchedule_append, hruns i, Option.bind_some,
    runSchedule] at hnext
  obtain ⟨s, hs, heq⟩ := Option.bind_eq_some_iff.mp hnext
  cases heq
  exact step_of_next requestCode_advanceRequest hs

end Schedules

def lookup (key : String) (steps : ℕ) : List (Event Bool Request ℕ) :=
  [.call true (.call (.get (.lit key))), .lock true] ++ List.replicate steps (.run true 0) ++
    [.unlock true]

/-- A put, and then a `STATS` during which `es` happens between the loads of `hits` and of
`misses`. -/
def betweenLoads (es : List (Event Bool Request ℕ)) : List (Event Bool Request ℕ) :=
  [.call true (.call (.put (.lit "a") (.lit "x") 5)), .lock true] ++ List.replicate 8 (.run true 0) ++
    [.unlock true, .call false .stats, .lock false, .run false 0, .run false 0] ++ es ++
    List.replicate 3 (.run false 0) ++ [.unlock false]

def missThenHit : List (Event Bool Request ℕ) := betweenLoads (lookup "b" 5 ++ lookup "a" 6)

def hitThenMiss : List (Event Bool Request ℕ) := betweenLoads (lookup "a" 6 ++ lookup "b" 5)

def isIdle : Rwlock.Thread Request (RequestFrame numBuckets) → Bool
  | .idle => true
  | _ => false

omit [DecidableEq T] in
theorem asked_of_busy {run : ℕ → Threads T numBuckets} {t : T} {asked done : ℕ}
    (hle : asked ≤ done) (hw : (run asked).thread t = .waiting .stats)
    (hbusy : ∀ i, i ≤ done → asked ≤ i → isIdle ((run i).thread t) = false) :
    Asked run t asked done := by
  refine ⟨hle, hw, fun i hi hid hidle => ?_⟩
  have hnot := hbusy i hid hi
  rw [hidle] at hnot
  cases hnot

/-- A miss and then a hit: the reply has the numbers of the time between. -/
theorem snapshot_of_missThenHit :
    ∃ c, 12 ≤ c ∧ c ≤ 36 ∧ Shows (shown (states 1 missThenHit c)) 1 0 1 1 0 := by
  have hmiss : ∀ j, j < 36 →
      shown (states 1 missThenHit j) .misses < shown (states 1 missThenHit (j + 1)) .misses →
      j ≤ 22 := by
    decide +kernel
  have hhit : ∀ i, i < 36 →
      shown (states 1 missThenHit i) .hits < shown (states 1 missThenHit (i + 1)) .hits →
      22 < i := by
    decide +kernel
  have hasked : Asked (states 1 missThenHit) false 12 35 :=
    asked_of_busy (by omega) rfl (by decide +kernel)
  refine (snapshot_iff_not_torn (isRun_states rfl) hasked (Nat.le_succ 35) (n := 1) rfl).mpr ?_
  rintro ⟨i, j, -, hij, hj, -, -, hi, hm⟩
  have hafter := hhit i (by omega) hi
  have hbefore := hmiss j (by omega) hm
  omega

theorem torn_snapshot :
    IsRun (fun _ => none) 0 (states 1 hitThenMiss) 36 ∧
      Asked (states 1 hitThenMiss) false 12 35 ∧
      (states 1 hitThenMiss 35).thread false = .inside 1 .stats (.stats (.unlock 1 0 1 1 0)) ∧
      (states 1 hitThenMiss 36).returned 1 = some (.stats 1 0 1 1 0) ∧
      ¬∃ c, 12 ≤ c ∧ c ≤ 36 ∧ Shows (shown (states 1 hitThenMiss c)) 1 0 1 1 0 := by
  have hnever : ∀ c, c ≤ 36 → shown (states 1 hitThenMiss c) .hits = 0 →
      shown (states 1 hitThenMiss c) .misses ≠ 1 := by
    decide +kernel
  refine ⟨isRun_states rfl, asked_of_busy (by omega) rfl (by decide +kernel), rfl, rfl, ?_⟩
  rintro ⟨c, -, hc, -, hhits, hmisses, -⟩
  exact hnever c hc hhits hmisses

end CpreLabs.Stats
