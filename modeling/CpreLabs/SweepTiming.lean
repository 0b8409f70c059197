import CpreLabs.HashTableStatistics

/-!
# What clients can learn about the moments of the sweeps

`kv_get` compares the clock with `expires_at`, so an expired entry and a swept one
look the same to it. `kv_del` does not, so whether it finds an expired entry depends
on the sweeper. Both facts are exact: sweeps are invisible precisely to the sequences
of client calls in which no `kv_del` names a key after its deadline.
-/
namespace CpreLabs

def Op.isSweep : Op → Bool
  | .sweep => true
  | _ => false

theorem Op.eq_sweep {op : Op} (h : op.isSweep = true) : op = .sweep := by
  cases op <;> simp [Op.isSweep] at h ⊢

/-- The calls of a run that clients made. -/
def clientCalls (run : List Call) : List Call := run.filter (fun c => !c.op.isSweep)

/-- A run of the client calls `ops` with sweeps at some moments in between. -/
structure Placement (ops run : List Call) : Prop where
  client : clientCalls run = ops
  sorted : run.Pairwise (fun a b => a.now ≤ b.now)

/-- The latest write to the key put a value that expires at `deadline`. -/
def LatestDeadline (calls : List Call) (key : CString) (deadline : ℕ) : Prop :=
  ∃ val ttl t, latestWrite calls key = some ⟨.put key val ttl, t⟩ ∧
    0 < ttl ∧ (deadline : ℤ) = t + ttl

theorem clientCalls_append (xs ys : List Call) :
    clientCalls (xs ++ ys) = clientCalls xs ++ clientCalls ys := List.filter_append xs ys

theorem clientCalls_cons_of_sweep {c : Call} (h : c.op.isSweep = true) (cs : List Call) :
    clientCalls (c :: cs) = clientCalls cs := by
  simp [clientCalls, h]

theorem clientCalls_cons_of_client {c : Call} (h : c.op.isSweep = false) (cs : List Call) :
    clientCalls (c :: cs) = c :: clientCalls cs := by
  simp [clientCalls, h]

theorem clientCalls_of_append {ops pre post : List Call} (h : clientCalls ops = ops)
    (he : ops = pre ++ post) : clientCalls pre = pre := by
  apply List.filter_eq_self.mpr
  intro c hc
  have hm : c ∈ ops := by simp [he, hc]
  rw [← h] at hm
  exact (List.mem_filter.mp hm).2

theorem Placement.keyFits {ops run : List Call} (h : Placement ops run)
    (hfits : ∀ c ∈ ops, c.op.KeyFits) : ∀ c ∈ run, c.op.KeyFits := by
  intro c hc
  cases hs : c.op.isSweep with
  | true =>
    rw [Op.eq_sweep hs]
    trivial
  | false =>
    apply hfits
    rw [← h.client]
    exact List.mem_filter.mpr ⟨hc, by simp [hs]⟩

theorem abstractMap_clientCalls (run : List Call) : abstractMap (clientCalls run) = abstractMap run := by
  have hw : (fun c : Call => if (!c.op.isSweep) = true then c.write? else none) = Call.write? := by
    funext c
    obtain ⟨op, now⟩ := c
    cases op <;> rfl
  rw [abstractMap, clientCalls, List.filterMap_filter, hw, abstractMap]

theorem latestWrite_clientCalls (run : List Call) (key : CString) :
    latestWrite (clientCalls run) key = latestWrite run key := by
  have hw : (fun c : Call => (!c.op.isSweep) && c.op.writes key) = fun c => c.op.writes key := by
    funext c
    obtain ⟨op, now⟩ := c
    cases op <;> rfl
  rw [latestWrite, clientCalls, ← List.filter_reverse, List.find?_filter]
  simp only [Bool.decide_and, Bool.decide_eq_true, hw, latestWrite]

theorem latestDeadline_clientCalls {run : List Call} {key : CString} {d : ℕ} :
    LatestDeadline (clientCalls run) key d ↔ LatestDeadline run key d := by
  unfold LatestDeadline
  rw [latestWrite_clientCalls]

theorem latestDeadline_iff {calls : List Call} {key : CString} {d : ℕ} :
    LatestDeadline calls key d ↔
      ∃ s, abstractMap calls key = some s ∧ s.deadline = WithTop.some d := by
  rw [abstractMap_apply]
  constructor
  · rintro ⟨val, ttl, t, hw, hpos, hd⟩
    refine ⟨_, by rw [hw]; rfl, ?_⟩
    have he : HashTable.expiryOf ttl t = d := by
      unfold HashTable.expiryOf
      split <;> omega
    have hne : d ≠ 0 := by omega
    simp [he, deadlineOf, hne]
  · rintro ⟨s, hs, hd⟩
    cases hw : latestWrite calls key with
    | none => simp [hw] at hs
    | some c =>
      have hkey := latestWrite_writes hw
      obtain ⟨op, t⟩ := c
      cases op with
      | put k val ttl =>
        obtain rfl : k = key := by simpa [Op.writes] using hkey
        simp only [hw, Option.bind_some, Call.write?, Option.some.injEq] at hs
        subst hs
        refine ⟨val, ttl, t, hw, ?_⟩
        by_cases hpos : ttl > 0
        · have hne : t + ttl.toNat ≠ 0 := by omega
          simp only [HashTable.expiryOf, if_pos hpos, deadlineOf, if_neg hne,
            WithTop.coe_inj] at hd
          exact ⟨hpos, by omega⟩
        · simp [HashTable.expiryOf, hpos, deadlineOf] at hd
      | get k => simp [Op.writes] at hkey
      | del k => simp [hw, Call.write?] at hs
      | sweep => simp [Op.writes] at hkey

namespace HashTable

variable {numBuckets : ℕ+}

/-- What the client calls of a run return. -/
def clientOutcomes : List Call → HashTable numBuckets → List Outcome
  | [], _ => []
  | c :: calls, table =>
      let rest := clientOutcomes calls (exec c table).2
      if c.op.isSweep then rest else (exec c table).1 :: rest

/-- The counters a client can read, other than the number of stored entries. -/
def clientCounters (table : HashTable numBuckets) : ℤ × ℤ × ℤ × ℤ :=
  (table.hits, table.misses, table.puts, table.dels)

/-- Any two placements of the sweeps give the same replies and the same counters. -/
def SweepInvisible (numBuckets : ℕ+) (ops : List Call) : Prop :=
  ∀ run run', Placement ops run → Placement ops run' →
    clientOutcomes run (kvInit numBuckets) = clientOutcomes run' (kvInit numBuckets) ∧
      clientCounters (execAll run (kvInit numBuckets)) =
        clientCounters (execAll run' (kvInit numBuckets))

/-- Once its deadline has passed a key is absent for `kv_get` and for `kv_del`, swept or not. -/
def ExpiredIsAbsent (numBuckets : ℕ+) (ops : List Call) : Prop :=
  ∀ run, Placement ops run → ∀ pre c post key d, run = pre ++ c :: post →
    (c.op = .get key ∨ c.op = .del key) → LatestDeadline pre key d → d ≤ c.now →
      (exec c (execAll pre (kvInit numBuckets))).1 = ⟨-1, none⟩

/-- What the abstract map answers to a call after earlier calls. -/
def specOutcome (pre : List Call) (c : Call) : Outcome :=
  match c.op with
  | .put _ _ _ => ⟨0, none⟩
  | .get key => getOutcome ((abstractMap pre).lookup key c.now)
  | .del key => ⟨if (abstractMap pre key).isSome then 0 else -1, none⟩
  | .sweep => ⟨0, none⟩

def specOutcomes : List Call → List Call → List Outcome
  | _, [] => []
  | pre, c :: calls => specOutcome pre c :: specOutcomes (pre ++ [c]) calls

theorem specOutcome_clientCalls (pre : List Call) (c : Call) :
    specOutcome (clientCalls pre) c = specOutcome pre c := by
  unfold specOutcome
  rw [abstractMap_clientCalls]

theorem clientOutcomes_append (xs ys : List Call) (table : HashTable numBuckets) :
    clientOutcomes (xs ++ ys) table =
      clientOutcomes xs table ++ clientOutcomes ys (execAll xs table) := by
  induction xs generalizing table with
  | nil => rfl
  | cons c xs ih =>
    cases h : c.op.isSweep <;> simp [clientOutcomes, h, ih, execAll]

theorem exec_eq_specOutcome {pre : List Call} {c : Call}
    (hsorted : (pre ++ [c]).Pairwise (fun a b => a.now ≤ b.now)) (hfits : ∀ d ∈ pre, d.op.KeyFits)
    (hdel : ∀ key d, c.op = .del key → LatestDeadline pre key d → c.now ≤ d) :
    (exec c (execAll pre (kvInit numBuckets))).1 = specOutcome pre c := by
  obtain ⟨hpre, -, hlast⟩ := List.pairwise_append.mp hsorted
  have hp : ExpiringMap.Pruned c.now (execAll pre (kvInit numBuckets)).contents (abstractMap pre) :=
    pruned_execAll hpre hfits (fun d hd => hlast d hd c (by simp))
  obtain ⟨op, now⟩ := c
  cases op with
  | put key val ttl => exact kvPut_outcome key val ttl now _
  | get key =>
    change (kvGet key now _).1 = _
    rw [kvGet_outcome, hp.lookup_eq le_rfl]
    rfl
  | del key =>
    change (kvDel key _).1 = _
    have hkept : ∀ s, abstractMap pre key = some s → WithTop.some now ≤ s.deadline := by
      intro s hs
      cases hd : s.deadline with
      | top => exact le_top
      | coe d => exact WithTop.coe_le_coe.mpr (hdel key d rfl (latestDeadline_iff.mpr ⟨s, hs, hd⟩))
    rw [kvDel_outcome, hp.kept hkept]
    rfl
  | sweep => rfl

/-- Replies of a run whose deletions come before the deadlines, read off its client calls. -/
theorem clientOutcomes_eq_specOutcomes (pre calls : List Call)
    (hsorted : (pre ++ calls).Pairwise (fun a b => a.now ≤ b.now))
    (hfits : ∀ c ∈ pre ++ calls, c.op.KeyFits)
    (hdel : ∀ xs key now ys d, calls = xs ++ ⟨.del key, now⟩ :: ys →
      LatestDeadline (pre ++ xs) key d → now ≤ d) :
    clientOutcomes calls (execAll pre (kvInit numBuckets)) =
      specOutcomes (clientCalls pre) (clientCalls calls) := by
  induction calls generalizing pre with
  | nil => rfl
  | cons c calls ih =>
    have hassoc : (pre ++ [c]) ++ calls = pre ++ c :: calls := by simp
    have hih := ih (pre ++ [c]) (hassoc ▸ hsorted) (hassoc ▸ hfits) (by
      intro xs key now ys d he hd
      exact hdel (c :: xs) key now ys d (by simp [he]) (by simpa using hd))
    rw [execAll_concat] at hih
    have hpre : (pre ++ [c]).Pairwise (fun a b => a.now ≤ b.now) :=
      hsorted.sublist (by rw [← hassoc]; exact List.sublist_append_left _ _)
    have hout : (exec c (execAll pre (kvInit numBuckets))).1 = specOutcome pre c := by
      apply exec_eq_specOutcome hpre (fun d hd => hfits d (by simp [hd]))
      intro key d hop hd
      obtain ⟨op, now⟩ := c
      obtain rfl : op = .del key := hop
      exact hdel [] key now calls d rfl (by simpa using hd)
    cases hs : c.op.isSweep with
    | true =>
      have hc : clientCalls [c] = [] := clientCalls_cons_of_sweep hs []
      rw [clientCalls_append, hc, List.append_nil] at hih
      simp only [clientOutcomes, hs, if_true, clientCalls_cons_of_sweep hs]
      exact hih
    | false =>
      rw [clientCalls_append, clientCalls_cons_of_client hs []] at hih
      simp only [clientOutcomes, hs, clientCalls_cons_of_client hs, specOutcomes,
        specOutcome_clientCalls, hout, Bool.false_eq_true, if_false]
      rw [hih]
      rfl

theorem countCalls_eq_client (p : Op → ℤ → Bool) (hp : ∀ ret, p .sweep ret = false)
    (run : List Call) (table : HashTable numBuckets) :
    countCalls p run table =
      ((clientCalls run).zip (clientOutcomes run table)).countP (fun co => p co.1.op co.2.ret) := by
  unfold countCalls
  induction run generalizing table with
  | nil => rfl
  | cons c run ih =>
    have hi := ih (exec c table).2
    cases hs : c.op.isSweep with
    | true =>
      have hskip : clientOutcomes (c :: run) table = clientOutcomes run (exec c table).2 := by
        simp [clientOutcomes, hs]
      have hno : p c.op (exec c table).1.ret = false := by
        rw [Op.eq_sweep hs, hp]
      rw [clientCalls_cons_of_sweep hs, hskip, ← hi]
      simp [outcomes, hno]
    | false =>
      simp only [outcomes, clientOutcomes, clientCalls_cons_of_client hs, hs, Bool.false_eq_true,
        if_false, List.zip_cons_cons, List.countP_cons, hi]

theorem clientCounters_congr {run run' : List Call} (hc : clientCalls run = clientCalls run')
    (ho : clientOutcomes run (kvInit numBuckets) = clientOutcomes run' (kvInit numBuckets)) :
    clientCounters (execAll run (kvInit numBuckets)) =
      clientCounters (execAll run' (kvInit numBuckets)) := by
  have hcount : ∀ p : Op → ℤ → Bool, (∀ ret, p .sweep ret = false) →
      countCalls p run (kvInit numBuckets) = countCalls p run' (kvInit numBuckets) := by
    intro p hp
    rw [countCalls_eq_client p hp, countCalls_eq_client p hp, hc, ho]
  have hs : Statistics run (kvInit numBuckets) _ := statistics_execAll run
  have hs' : Statistics run' (kvInit numBuckets) _ := statistics_execAll run'
  unfold clientCounters
  rw [hs.hits, hs.misses, hs.puts, hs.dels, hs'.hits, hs'.misses, hs'.puts, hs'.dels,
    hcount _ (fun _ => rfl), hcount _ (fun _ => rfl), hcount _ (fun _ => rfl),
    hcount _ (fun _ => rfl)]

theorem contents_execAll_of_client {calls : List Call} (hclient : clientCalls calls = calls)
    (hfits : ∀ c ∈ calls, c.op.KeyFits) :
    (execAll calls (kvInit numBuckets)).contents = abstractMap calls := by
  induction calls using List.reverseRecOn with
  | nil => rfl
  | append_singleton calls c ih =>
    have hnot : ∀ d ∈ calls ++ [c], d.op.isSweep = false := by
      intro d hd
      rw [← hclient] at hd
      simpa using (List.mem_filter.mp hd).2
    have hcalls : clientCalls calls = calls := by
      apply List.filter_eq_self.mpr
      intro d hd
      simp [hnot d (by simp [hd])]
    have hfits' : ∀ d ∈ calls, d.op.KeyFits := fun d hd => hfits d (by simp [hd])
    have hwell : (execAll calls (kvInit numBuckets)).WellPlaced := wellPlaced_execAll hfits'
    have hi := ih hcalls hfits'
    have hlast := hnot c (by simp)
    have hfit := hfits c (by simp)
    rw [execAll_concat, abstractMap_concat, ← hi]
    obtain ⟨op, now⟩ := c
    cases op with
    | put key val ttl => exact contents_kvPut hfit val ttl now _
    | get key => exact contents_kvGet key now _
    | del key => exact contents_kvDel hwell key
    | sweep => simp [Op.isSweep] at hlast

/-- A deletion finds what the latest write left, expired or not, if no sweep came in between. -/
theorem kvDel_outcome_of_client {pre : List Call} (hclient : clientCalls pre = pre)
    (hfits : ∀ c ∈ pre, c.op.KeyFits) {key : CString} {d : ℕ} (hd : LatestDeadline pre key d) :
    (kvDel key (execAll pre (kvInit numBuckets))).1 = ⟨0, none⟩ := by
  obtain ⟨s, hs, -⟩ := latestDeadline_iff.mp hd
  rw [kvDel_outcome, contents_execAll_of_client hclient hfits, hs]
  rfl

/-- A sweep just before the deletion removes the entry if its deadline lies before the clock. -/
theorem kvDel_outcome_after_sweep {pre : List Call} (hclient : clientCalls pre = pre)
    (hfits : ∀ c ∈ pre, c.op.KeyFits) {key : CString} {d now : ℕ}
    (hd : LatestDeadline pre key d) (hlt : d < now) :
    (kvDel key (sweeperPass now (execAll pre (kvInit numBuckets)))).1 = ⟨-1, none⟩ := by
  obtain ⟨s, hs, hsd⟩ := latestDeadline_iff.mp hd
  have hgone : s.deadline < WithTop.some now := by
    rw [hsd]
    exact WithTop.coe_lt_coe.mpr hlt
  rw [kvDel_outcome, contents_sweeperPass (wellPlaced_execAll hfits),
    contents_execAll_of_client hclient hfits]
  have hswept : (some s).filter (fun s => decide ¬ s.deadline < WithTop.some now) = none := by
    rw [Option.filter_some, if_neg (by rw [decide_eq_true_eq]; exact not_not.mpr hgone)]
  simp only [hs, hswept]
  rfl

theorem kvGet_outcome_of_deadline {pre : List Call} {key : CString} {now d : ℕ}
    (hpre : (pre ++ [(⟨.get key, now⟩ : Call)]).Pairwise (fun a b => a.now ≤ b.now))
    (hpreFits : ∀ c ∈ pre, c.op.KeyFits) (hd : LatestDeadline pre key d) (hle : d ≤ now) :
    (exec ⟨.get key, now⟩ (execAll pre (kvInit numBuckets))).1 = ⟨-1, none⟩ := by
  obtain ⟨s, hs, hsd⟩ := latestDeadline_iff.mp hd
  have hexpired : ¬ WithTop.some now < s.deadline := by
    rw [hsd]
    exact not_lt.mpr (WithTop.coe_le_coe.mpr hle)
  rw [exec_eq_specOutcome hpre hpreFits (by simp)]
  simp only [specOutcome, ExpiringMap.lookup, hs, if_neg hexpired, getOutcome]

section Exact

variable {ops : List Call} (hsorted : ops.Pairwise (fun a b => a.now ≤ b.now))
  (hclient : clientCalls ops = ops) (hfits : ∀ c ∈ ops, c.op.KeyFits)

include hfits

/-- Deletions up to the deadline: the replies are those of the abstract map. -/
theorem clientOutcomes_placement
    (hdel : ∀ pre key now post d, ops = pre ++ ⟨.del key, now⟩ :: post →
      LatestDeadline pre key d → now ≤ d) {run : List Call} (h : Placement ops run) :
    clientOutcomes run (kvInit numBuckets) = specOutcomes [] ops := by
  have hspec : clientOutcomes run (execAll [] (kvInit numBuckets)) =
      specOutcomes (clientCalls []) (clientCalls run) := by
    apply clientOutcomes_eq_specOutcomes [] run h.sorted (h.keyFits hfits)
    intro xs key now ys d he hd
    apply hdel (clientCalls xs) key now (clientCalls ys) d
    · rw [← h.client, he, clientCalls_append, clientCalls_cons_of_client rfl]
    · exact latestDeadline_clientCalls.mpr hd
  rw [h.client] at hspec
  exact hspec

include hsorted hclient

/-- Two placements can be told apart exactly when some key is deleted strictly after its
deadline. -/
theorem sweepInvisible_iff_del_le_deadline :
    SweepInvisible numBuckets ops ↔
      ∀ pre key now post d, ops = pre ++ ⟨.del key, now⟩ :: post →
        LatestDeadline pre key d → now ≤ d := by
  constructor
  · intro hinv pre key now post d he hd
    by_contra hlt
    have hlt : d < now := Nat.lt_of_not_le hlt
    have hpre : ∀ c ∈ pre, c ∈ ops := fun c hc => by simp [he, hc]
    have hpreClient := clientCalls_of_append hclient he
    have hpreFits : ∀ c ∈ pre, c.op.KeyFits := fun c hc => hfits c (hpre c hc)
    have hswept : Placement ops (pre ++ ⟨.sweep, now⟩ :: ⟨.del key, now⟩ :: post) := by
      constructor
      · rw [clientCalls_append, clientCalls_cons_of_sweep rfl, ← clientCalls_append, ← he, hclient]
      · rw [he] at hsorted
        simpa [List.pairwise_append] using hsorted
    have hplain : Placement ops ops := ⟨hclient, hsorted⟩
    have heq := (hinv _ _ hplain hswept).1
    nth_rewrite 1 [he] at heq
    rw [clientOutcomes_append, clientOutcomes_append] at heq
    have hheads := (List.cons.inj (List.append_cancel_left heq)).1
    change (kvDel key (execAll pre (kvInit numBuckets))).1 =
      (kvDel key (sweeperPass now (execAll pre (kvInit numBuckets)))).1 at hheads
    rw [kvDel_outcome_of_client hpreClient hpreFits hd,
      kvDel_outcome_after_sweep hpreClient hpreFits hd hlt] at hheads
    simp at hheads
  · intro hdel run run' h h'
    have ho : clientOutcomes run (kvInit numBuckets) = clientOutcomes run' (kvInit numBuckets) :=
      (clientOutcomes_placement hfits hdel h).trans (clientOutcomes_placement hfits hdel h').symm
    exact ⟨ho, clientCounters_congr (h.client.trans h'.client.symm) ho⟩

end Exact

/-- Sweeps are invisible, and expired keys absent for every command, exactly for the
sequences of client calls in which every deletion of a key comes before the deadline
its latest put set. -/
theorem sweepTiming_iff_del_lt_deadline (numBuckets : ℕ+) (ops : List Call)
    (hsorted : ops.Pairwise (fun a b => a.now ≤ b.now)) (hclient : clientCalls ops = ops)
    (hfits : ∀ c ∈ ops, c.op.KeyFits) :
    SweepInvisible numBuckets ops ∧ ExpiredIsAbsent numBuckets ops ↔
      ∀ pre key now post d, ops = pre ++ ⟨.del key, now⟩ :: post →
        LatestDeadline pre key d → now < d := by
  constructor
  · rintro ⟨-, habsent⟩ pre key now post d he hd
    by_contra hle
    have hpre : ∀ c ∈ pre, c ∈ ops := fun c hc => by simp [he, hc]
    have hout := habsent ops ⟨hclient, hsorted⟩ pre ⟨.del key, now⟩ post key d he (Or.inr rfl) hd
      (Nat.le_of_not_lt hle)
    have hfound : (kvDel key (execAll pre (kvInit numBuckets))).1 = ⟨0, none⟩ :=
      kvDel_outcome_of_client (clientCalls_of_append hclient he) (fun c hc => hfits c (hpre c hc)) hd
    exact absurd (hfound.symm.trans hout) (by decide)
  · intro hdel
    refine ⟨?_, ?_⟩
    · apply (sweepInvisible_iff_del_le_deadline hsorted hclient hfits).mpr
      intro pre key now post d he hd
      exact (hdel pre key now post d he hd).le
    · intro run h pre c post key d he hop hd hle
      have hrun := h.sorted
      rw [he] at hrun
      have hpre : (pre ++ [c]).Pairwise (fun a b => a.now ≤ b.now) :=
        hrun.sublist (by simp)
      obtain ⟨op, now⟩ := c
      rcases hop with rfl | rfl
      · exact kvGet_outcome_of_deadline hpre
          (fun c hc => h.keyFits hfits c (by simp [he, hc])) hd hle
      · have hlt := hdel (clientCalls pre) key now (clientCalls post) d
          (by rw [← h.client, he, clientCalls_append, clientCalls_cons_of_client rfl])
          (latestDeadline_clientCalls.mpr hd)
        exact absurd hle (Nat.not_le_of_lt hlt)

theorem sweepTiming_of_early_deletion :
    SweepInvisible 1 [⟨.put (.lit "a") (.lit "x") 5, 0⟩, ⟨.del (.lit "a"), 2⟩] ∧
      ExpiredIsAbsent 1 [⟨.put (.lit "a") (.lit "x") 5, 0⟩, ⟨.del (.lit "a"), 2⟩] ↔
    ∀ pre key now post d, [⟨.put (.lit "a") (.lit "x") 5, 0⟩, ⟨.del (.lit "a"), 2⟩] =
      pre ++ (⟨.del key, now⟩ : Call) :: post → LatestDeadline pre key d → now < d :=
  sweepTiming_iff_del_lt_deadline 1 _ (by decide) (by decide) (by decide)

/-- A key put for one second and deleted two seconds later: `kv_del` answers 0 if no sweep
came in between, and -1 if one did. -/
theorem sweepTiming_late_deletion :
    ¬ SweepInvisible 1 [⟨.put (.lit "a") (.lit "x") 1, 0⟩, ⟨.del (.lit "a"), 2⟩] := by
  intro h
  have heq := (h [⟨.put (.lit "a") (.lit "x") 1, 0⟩, ⟨.del (.lit "a"), 2⟩]
    [⟨.put (.lit "a") (.lit "x") 1, 0⟩, ⟨.sweep, 2⟩, ⟨.del (.lit "a"), 2⟩]
    ⟨by decide, by decide⟩ ⟨by decide, by decide⟩).1
  exact absurd heq (by decide)

end HashTable

end CpreLabs
