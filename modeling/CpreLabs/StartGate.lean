import CpreLabs.PthreadCounting

/-!
# The start gate of `bench_client.c`

`main` creates the workers, waits until all of them stand at the gate and releases them; a
worker without a connection returns at once. One program point per statement that touches the
gate; the operations of a worker behind the gate are one step.
-/
namespace CpreLabs.StartGate
open Pthread

/-- `start_gate_t` without its mutex and condition variable, and how many threads
`pthread_create` has started. -/
structure Shared where
  totalThreads : ℤ
  readyThreads : ℤ
  start : Bool
  created : ℕ

inductive Cond where
  | gate
  deriving DecidableEq

inductive Pc where
  | create (i : ℕ)
  | created (i : ℕ)
  | createFailed (i : ℕ)
  | waitTest
  | waitWait
  | waitUnlock
  /-- `start_gate_release`, after which `k` threads are joined. -/
  | relLock (k : ℕ)
  | relStart (k : ℕ)
  | relBroadcast (k : ℕ)
  | relUnlock (k : ℕ)
  | join (j k : ℕ)
  | unborn
  | connect
  | returnFailed
  | readyLock
  | readyInc
  | readyBroadcast
  | readyTest
  | readyWait
  | readyUnlock
  | operations
  | returnDone
  deriving DecidableEq

/-- `main`, or a worker. -/
abbrev Thread (numClients : ℕ) := Option (Fin numClients)

variable {numClients : ℕ}

/-- `main` from the creation of the threads on. -/
def mainInstr (numClients : ℕ) : Pc → Instr (Thread numClients) Cond Pc Shared
  | .create i => if i < numClients then .choose fun
        | .created j | .createFailed j => j = i
        | _ => false
      else .lock .waitTest
  | .created i => .exec fun g => (.create (i + 1), { g with created := i + 1 })
  | .createFailed i => .exec fun g => (.relLock i, { g with totalThreads := i })
  | .waitTest => .exec fun g =>
      (if g.readyThreads < g.totalThreads then .waitWait else .waitUnlock, g)
  | .waitWait => .wait .gate .waitTest
  | .waitUnlock => .unlock (.relLock numClients)
  | .relLock k => .lock (.relStart k)
  | .relStart k => .exec fun g => (.relBroadcast k, { g with start := true })
  | .relBroadcast k => .broadcast .gate (.relUnlock k)
  | .relUnlock k => .unlock (.join 0 k)
  | .join j k =>
      if h : j < numClients then
        if j < k then .join (some ⟨j, h⟩) (.join (j + 1) k) else .halt
      else .halt
  | _ => .choose fun _ => false

/-- `worker_main`, where `connected` tells whether `open_connection_stream` succeeds. -/
def workerInstr (i : Fin numClients) (connected : Bool) :
    Pc → Instr (Thread numClients) Cond Pc Shared
  | .unborn => .exec fun g => (if i < g.created then .connect else .unborn, g)
  | .connect => .exec fun g => (if connected then .readyLock else .returnFailed, g)
  | .returnFailed => .halt
  | .readyLock => .lock .readyInc
  | .readyInc => .exec fun g => (.readyBroadcast, { g with readyThreads := g.readyThreads + 1 })
  | .readyBroadcast => .broadcast .gate .readyTest
  | .readyTest => .exec fun g => (if !g.start then .readyWait else .readyUnlock, g)
  | .readyWait => .wait .gate .readyTest
  | .readyUnlock => .unlock .operations
  | .operations => .exec fun g => (.returnDone, g)
  | .returnDone => .halt
  | _ => .choose fun _ => false

def program (connects : Fin numClients → Bool) :
    Program (Thread numClients) Cond Pc Shared Empty where
  instr
    | none => mainInstr numClients
    | some i => workerInstr i (connects i)
  env e _ := e.elim

abbrev State (numClients : ℕ) := Config (Thread numClients) Cond Pc Shared

/-- After `start_gate_init`. -/
def start (numClients : ℕ) : State numClients where
  owner := none
  status
    | none => .running (.create 0)
    | some _ => .running .unborn
  shared := ⟨numClients, 0, false, 0⟩

/-- The worker has returned, or is blocked in `start_gate_worker_ready`. -/
def IdleWorker : Status Cond Pc → Prop
  | .running .returnFailed | .running .returnDone | .asleep .gate .readyTest => True
  | _ => False

/-- Every created worker has returned or is blocked, and `main` is blocked in
`start_gate_wait_until_ready`. -/
def Hang (s : State numClients) : Prop :=
  (∀ i : Fin numClients, i < s.shared.created → IdleWorker (s.status (some i))) ∧
    s.status none = .asleep .gate .waitTest

def inside : Pc → Bool
  | .waitTest | .waitWait | .waitUnlock | .relStart _ | .relBroadcast _ | .relUnlock _ => true
  | .readyInc | .readyBroadcast | .readyTest | .readyWait | .readyUnlock => true
  | _ => false

theorem bracketed (connects : Fin numClients → Bool) : (program connects).Bracketed inside := by
  intro t l
  cases t with
  | none =>
    cases l with
    | create i =>
      simp only [program, mainInstr]
      split
      · intro l' hok
        cases l' <;> first | rfl | cases hok
      · exact ⟨rfl, rfl⟩
    | waitTest =>
      intro g
      dsimp only
      split <;> rfl
    | join j k =>
      simp only [program, mainInstr]
      split
      · split <;> rfl
      · rfl
    | _ => simp [program, mainInstr, Instr.Bracketed, inside]
  | some i =>
    cases l with
    | unborn | connect | readyTest =>
      intro g
      dsimp only
      split <;> rfl
    | _ => simp [program, workerInstr, Instr.Bracketed, inside]

theorem owned_start : Owned inside (start numClients) := by
  intro t
  cases t <;> simp [start, Status.Agrees, inside]

/-- What `main` knows of `created` and `total_threads`, which only it writes. -/
def mainAt (numClients : ℕ) : Pc → ℕ → ℤ → Prop
  | .create i, created, total => i ≤ numClients ∧ created = i ∧ total = numClients
  | .created i, _, total => i < numClients ∧ total = numClients
  | .waitTest, created, total | .waitWait, created, total | .waitUnlock, created, total =>
      created = numClients ∧ total = numClients
  | .createFailed _, _, _ | .relLock _, _, _ | .relStart _, _, _ | .relBroadcast _, _, _ => True
  | .relUnlock _, _, _ | .join _ _, _, _ => True
  | _, _, _ => False

def MainStands (numClients : ℕ) : Status Cond Pc → Shared → Prop
  | .running l, g => mainAt numClients l g.created g.totalThreads
  | .asleep _ l, g | .woken _ l, g =>
      l = .waitTest ∧ mainAt numClients l g.created g.totalThreads

theorem keeps_mainStands (connects : Fin numClients → Bool) :
    (program connects).KeepsThread none (MainStands numClients) where
  woken c l g h := h
  resumed c l g h := h.2
  env st e := e.elim
  others st u l f g hu hi h := by
    cases u with
    | none => exact absurd rfl hu
    | some i =>
      have hsame : (f g).2.created = g.created ∧ (f g).2.totalThreads = g.totalThreads := by
        cases l <;> first | (cases hi; exact ⟨rfl, rfl⟩) | cases hi
      cases st <;> simpa only [MainStands, hsame.1, hsame.2] using h
  instr l s st g h hres := by
    cases l with
    | create i =>
      obtain ⟨hle, hcreated, htotal⟩ := h
      simp only [program, mainInstr] at hres
      split at hres
      · obtain ⟨l', hok, rfl, rfl⟩ := hres
        cases l' with
        | created j =>
          obtain rfl : j = i := by simpa using hok
          exact ⟨by assumption, htotal⟩
        | createFailed j => trivial
        | _ => cases hok
      · obtain ⟨rfl, rfl⟩ := hres
        exact ⟨by omega, htotal⟩
    | created i =>
      obtain ⟨rfl, rfl⟩ := hres
      exact ⟨h.1, rfl, h.2⟩
    | waitTest =>
      obtain ⟨rfl, rfl⟩ := hres
      dsimp only
      split <;> exact h
    | waitWait =>
      obtain ⟨rfl, rfl⟩ := hres
      exact ⟨rfl, h⟩
    | join j k =>
      simp only [program, mainInstr] at hres
      split at hres
      · split at hres
        · obtain ⟨rfl, -⟩ := hres
          trivial
        · exact hres.elim
      · exact hres.elim
    | createFailed k | waitUnlock | relLock k | relStart k | relBroadcast k | relUnlock k =>
      obtain ⟨rfl, rfl⟩ := hres
      trivial
    | _ => exact h.elim

/-- A worker returns before the gate only if it has no connection. -/
def workerAt (connected : Bool) : Pc → Prop
  | .returnFailed => connected = false
  | .unborn | .connect | .readyLock | .readyInc | .readyBroadcast | .readyTest => True
  | .readyWait | .readyUnlock | .operations | .returnDone => True
  | _ => False

theorem keeps_workerAt (connects : Fin numClients → Bool) (i : Fin numClients) :
    (program connects).KeepsThread (some i) (fun st _ => workerAt (connects i) st.point) where
  woken c l g h := h
  resumed c l g h := h
  env st e := e.elim
  others st u l f g hu hi h := h
  instr l s st g h hres := by
    cases l with
    | connect =>
      obtain ⟨rfl, -⟩ := hres
      cases hc : connects i <;> simp [workerAt]
    | unborn | readyTest =>
      obtain ⟨rfl, -⟩ := hres
      dsimp only [Status.point_running]
      split <;> trivial
    | returnFailed | returnDone => exact hres.elim
    | readyLock | readyInc | readyBroadcast | readyWait | readyUnlock | operations =>
      obtain ⟨rfl, -⟩ := hres
      trivial
    | _ => exact h.elim

/-- The points of a worker that has counted itself. -/
def reached : Pc → Bool
  | .readyBroadcast | .readyTest | .readyWait | .readyUnlock | .operations | .returnDone => true
  | _ => false

theorem tally_ready (connects : Fin numClients → Bool) :
    Tally (program connects) Shared.readyThreads reached where
  env e := e.elim
  instr t l := by
    cases t with
    | none =>
      cases l with
      | create i =>
        simp only [program, mainInstr]
        split
        · intro n hn
          cases n <;> first | rfl | cases hn
        · rfl
      | waitTest =>
        intro g
        dsimp only
        split <;> rfl
      | join j k =>
        simp only [program, mainInstr]
        split
        · split
          · rfl
          · trivial
        · trivial
      | _ => simp [program, mainInstr, Instr.Tallies, reached]
    | some i =>
      cases l with
      | unborn | connect | readyTest =>
        intro g
        dsimp only
        split <;> rfl
      | _ => simp [program, workerInstr, Instr.Tallies, reached]

variable {connects : Fin numClients → Bool} {s : State numClients}

theorem mainStands_of_reachable (h : Reachable (program connects) (start numClients) s) :
    MainStands numClients (s.status none) s.shared :=
  (keeps_mainStands connects).reachable h ⟨Nat.zero_le _, rfl, rfl⟩

theorem workerAt_of_reachable (h : Reachable (program connects) (start numClients) s)
    (i : Fin numClients) : workerAt (connects i) (s.status (some i)).point :=
  (keeps_workerAt connects i).reachable h trivial

theorem ready_of_reachable (h : Reachable (program connects) (start numClients) s) :
    s.shared.readyThreads = standing reached s.status := by
  refine (tally_ready connects).reachable h ?_
  have hnone : standing reached (start numClients).status = 0 := by
    apply count_eq_zero
    intro t
    cases t <;> rfl
  rw [hnone]
  rfl

theorem owned_of_reachable (h : Reachable (program connects) (start numClients) s) :
    Owned inside s :=
  Reachable.owned (bracketed connects) h owned_start

/-- Outside the mutex no worker writes to the gate. -/
theorem worker_exec {i : Fin numClients} {l : Pc} {f : Shared → Pc × Shared}
    (hi : (program connects).instr (some i) l = .exec f) (hl : inside l = false) (g : Shared) :
    (f g).2 = g := by
  cases l with
  | unborn | connect | operations =>
    cases hi
    rfl
  | readyInc | readyTest => cases hl
  | _ => cases hi

/-- `main` is about to wait: some worker is missing, and nobody can count itself before. -/
theorem ready_lt_of_waitWait (h : Reachable (program connects) (start numClients) s)
    (hmain : s.status none = .running .waitWait) :
    s.shared.readyThreads < s.shared.totalThreads := by
  induction h with
  | refl => cases hmain
  | @tail a b hreach hstep ih =>
    have hsame : a.status none = .running .waitWait → b.shared = a.shared := by
      intro ha
      rcases hstep.shared_cases with hv | ⟨e, -, -⟩ | ⟨t, l, f, hl, hi, -, hv⟩
      · exact hv
      · exact e.elim
      · rw [hv]
        cases t with
        | none =>
          rw [ha] at hl
          cases hl
          cases hi
        | some i =>
          apply worker_exec hi
          by_contra hin
          have hone := (owned_of_reachable hreach).unique ha rfl hl (by simpa using hin)
          cases hone
    rcases hstep.thread_cases none with hst | ⟨c, l, -, hst, -⟩ | ⟨c, l, hst, hst', -⟩ |
      ⟨l, hst, hres⟩
    · rw [hmain] at hst
      rw [hsame hst.symm]
      exact ih hst.symm
    · rw [hmain] at hst
      cases hst
    · rw [hmain] at hst'
      cases hst'
      have hstands := mainStands_of_reachable hreach
      rw [hst] at hstands
      cases hstands.1
    · rw [hmain] at hres
      cases l with
      | waitTest =>
        obtain ⟨hpc, hv⟩ := hres
        by_cases hless : a.shared.readyThreads < a.shared.totalThreads
        · rw [hv]
          exact hless
        · simp [hless] at hpc
      | create i =>
        simp only [program, mainInstr] at hres
        split at hres
        · obtain ⟨l', hok, hl', -⟩ := hres
          cases hl'
          cases hok
        · cases hres.1
      | join j k =>
        simp only [program, mainInstr] at hres
        split at hres
        · split at hres
          · cases hres.1
          · exact hres.elim
        · exact hres.elim
      | created i | createFailed i | waitWait | waitUnlock | relLock k | relStart k
      | relBroadcast k | relUnlock k => cases hres.1
      | _ =>
        obtain ⟨l', hok, -⟩ := hres
        cases hok

/-- What `main` sleeps under. -/
def Missing (k : Pc) (g : Shared) : Prop := k = .waitTest → g.readyThreads < g.totalThreads

/-- The points on the way to a broadcast after a change of what `main` waits for. -/
def calling : Pc → Bool
  | .readyBroadcast | .relLock _ | .relStart _ | .relBroadcast _ => true
  | _ => false

def knownBefore (l : Pc) (g : Shared) : Prop :=
  l = .waitWait → g.readyThreads < g.totalThreads

theorem guard_gate (connects : Fin numClients → Bool) :
    Guard (program connects) .gate Missing calling knownBefore where
  env e := e.elim
  instr t l := by
    cases t with
    | none =>
      cases l with
      | create i =>
        simp only [program, mainInstr]
        split <;> exact fun h => by cases h
      | createFailed i => exact fun k g hg _ => Or.inr rfl
      | created i => exact fun k g hg hor => hor
      | waitTest => exact fun k g hg hor => Or.inl (hor.resolve_right (by simp [calling]))
      | waitWait => exact ⟨fun _ g hg _ => hg rfl, fun h => by cases h⟩
      | relLock k => exact fun _ => Or.inl rfl
      | relStart k => exact fun _ g hg _ => Or.inr rfl
      | relBroadcast k => exact Or.inl rfl
      | join j k =>
        simp only [program, mainInstr]
        split
        · split
          · exact fun h => by cases h
          · trivial
        · trivial
      | _ => simp [program, mainInstr, Instr.Guards, calling]
    | some i =>
      cases l with
      | unborn | connect | readyTest | operations =>
        exact fun k g hg hor => Or.inl (hor.resolve_right (by simp [calling]))
      | readyInc => exact fun k g hg _ => Or.inr rfl
      | readyBroadcast => exact Or.inl rfl
      | readyWait => exact ⟨fun _ g hg hk => (nomatch hk), fun h => (nomatch h)⟩
      | _ => simp [program, workerInstr, Instr.Guards, calling]

theorem guarded_of_reachable (h : Reachable (program connects) (start numClients) s) :
    Guarded .gate Missing calling s := by
  induction h with
  | refl =>
    intro t k ht
    cases t <;> cases ht
  | tail hreach hstep ih =>
    refine (guard_gate connects).step ?_ hstep ih
    intro t l ht hl
    subst hl
    cases t with
    | none => exact ready_lt_of_waitWait hreach ht
    | some i =>
      have hat := workerAt_of_reachable hreach i
      rw [ht] at hat
      exact hat.elim

theorem reached_of_idleWorker (h : Reachable (program connects) (start numClients) s)
    {i : Fin numClients} (hi : connects i = true) (hidle : IdleWorker (s.status (some i))) :
    reached (s.status (some i)).point = true := by
  have hat := workerAt_of_reachable h i
  cases hst : s.status (some i) with
  | running l =>
    rw [hst] at hidle hat
    cases l with
    | returnFailed =>
      have hfailed : connects i = false := hat
      rw [hi] at hfailed
      cases hfailed
    | returnDone => rfl
    | _ => exact hidle.elim
  | asleep c l =>
    rw [hst] at hidle
    cases l with
    | readyTest => rfl
    | _ => exact hidle.elim
  | woken c l =>
    rw [hst] at hidle
    exact hidle.elim

theorem not_calling_of_idleWorker {st : Status Cond Pc} (hidle : IdleWorker st) {l : Pc}
    (hl : st = .running l) : calling l = false := by
  subst hl
  cases l <;> first | rfl | exact hidle.elim

theorem not_hang_of_connects (h : Reachable (program connects) (start numClients) s)
    (hall : ∀ i, connects i = true) : ¬Hang s := by
  rintro ⟨hidle, hmain⟩
  have hstands := mainStands_of_reachable h
  rw [hmain] at hstands
  obtain ⟨-, hcreated, htotal⟩ := hstands
  have hworkers : ∀ i, IdleWorker (s.status (some i)) := by
    intro i
    apply hidle
    rw [hcreated]
    exact i.isLt
  have hready : (numClients : ℤ) ≤ s.shared.readyThreads := by
    rw [ready_of_reachable h]
    have hle := Finset.card_le_card_of_injOn (s := (Finset.univ : Finset (Fin numClients)))
      (t := Finset.univ.filter (fun t => reached (s.status t).point = true)) some
      (fun i _ => by simpa using reached_of_idleWorker h (hall i) (hworkers i))
      (fun i _ j _ hij => Option.some.inj hij)
    rw [Finset.card_univ, Fintype.card_fin] at hle
    exact_mod_cast hle
  rcases guarded_of_reachable h none .waitTest hmain with hless | ⟨u, l, hu, hl⟩
  · have hmissing := hless rfl
    omega
  · cases u with
    | none =>
      rw [hmain] at hu
      cases hu
    | some i => simp [not_calling_of_idleWorker (hworkers i) hu] at hl

/-- `main` has created the first `k` threads, and none of them has run yet. -/
structure Creating (k : ℕ) (s : State numClients) : Prop where
  main : s.status none = .running (.create k)
  workers : ∀ i, s.status (some i) = .running .unborn
  owner : s.owner = none
  shared : s.shared = ⟨numClients, 0, false, k⟩

theorem exists_creating (connects : Fin numClients → Bool) {k : ℕ} (hk : k ≤ numClients) :
    ∃ s, Reachable (program connects) (start numClients) s ∧ Creating k s := by
  induction k with
  | zero => exact ⟨start numClients, .refl, rfl, fun _ => rfl, rfl, rfl⟩
  | succ k ih =>
    obtain ⟨s, hreach, hs⟩ := ih (by omega)
    have hchoose : (program connects).instr none (.create k) = .choose fun
        | .created j | .createFailed j => j = k
        | _ => false := if_pos hk
    obtain ⟨s', hlater, hmain, hothers, howner, hshared⟩ :=
      ((Alone.refl hs.main).choose (n := .created k) hchoose (by simp)).exec rfl
    refine ⟨s', hreach.trans hlater, hmain, fun i => ?_, howner.trans hs.owner, ?_⟩
    · rw [hothers _ (by simp), hs.workers i]
    · rw [hshared, hs.shared]

/-- The worker has returned for lack of a connection, or waits for the start. -/
def Settled (connected : Bool) (st : Status Cond Pc) : Prop :=
  if connected then st = .asleep .gate .readyTest ∨ st = .woken .gate .readyTest
  else st = .running .returnFailed

/-- All threads are created, the first `k` have come as far as they can. -/
structure Gathering (connects : Fin numClients → Bool) (k : ℕ) (s : State numClients) : Prop where
  main : s.status none = .running (.create numClients)
  settled : ∀ i : Fin numClients, i < k → Settled (connects i) (s.status (some i))
  unborn : ∀ i : Fin numClients, k ≤ i → s.status (some i) = .running .unborn
  owner : s.owner = none
  total : s.shared.totalThreads = numClients
  closed : s.shared.start = false
  created : s.shared.created = numClients

theorem settled_wakeAll {connected : Bool} {u : Thread numClients}
    (h : Settled connected (s.status u)) : Settled connected ((s.wakeAll .gate).status u) := by
  unfold Settled at h ⊢
  cases connected with
  | false => exact Config.wakeAll_running h
  | true =>
    right
    rcases h with hst | hst <;> simp [Config.wakeAll, hst]

theorem eq_of_lt_succ {k : ℕ} (hk : k < numClients) {i : Fin numClients} (hi : (i : ℕ) < k + 1)
    (hne : ¬(i : ℕ) < k) : i = ⟨k, hk⟩ := by
  apply Fin.ext
  dsimp only
  omega

theorem some_ne_of_val_ne {k : ℕ} {hk : k < numClients} {i : Fin numClients} (hne : (i : ℕ) ≠ k) :
    (some i : Thread numClients) ≠ some ⟨k, hk⟩ :=
  fun heq => hne (congrArg Fin.val (Option.some.inj heq))

/-- The worker `k` has come as far as it can, and the others still stand where they stood. -/
theorem Gathering.settle {k : ℕ} (hs : Gathering connects k s) (hk : k < numClients)
    {s' : State numClients} (hself : Settled (connects ⟨k, hk⟩) (s'.status (some ⟨k, hk⟩)))
    (hrunning : ∀ u l, u ≠ some ⟨k, hk⟩ → s.status u = .running l → s'.status u = .running l)
    (hsettled : ∀ u c, u ≠ some ⟨k, hk⟩ → Settled c (s.status u) → Settled c (s'.status u))
    (howner : s'.owner = none) (htotal : s'.shared.totalThreads = s.shared.totalThreads)
    (hstart : s'.shared.start = s.shared.start) (hcreated : s'.shared.created = s.shared.created) :
    Gathering connects (k + 1) s' := by
  refine ⟨hrunning _ _ (by simp) hs.main, fun i hi => ?_, fun i hi => ?_, howner,
    htotal.trans hs.total, hstart.trans hs.closed, hcreated.trans hs.created⟩
  · by_cases hik : (i : ℕ) < k
    · exact hsettled _ _ (some_ne_of_val_ne hik.ne) (hs.settled i hik)
    · rw [eq_of_lt_succ hk hi hik]
      exact hself
  · have hne : (i : ℕ) ≠ k := by omega
    exact hrunning _ _ (some_ne_of_val_ne hne) (hs.unborn i (by omega))

/-- A worker goes through `worker_main` up to its wait, or returns. -/
theorem Gathering.next {k : ℕ} (hs : Gathering connects k s) (hk : k < numClients) :
    ∃ s', Reachable (program connects) s s' ∧ Gathering connects (k + 1) s' := by
  have hborn := hs.unborn ⟨k, hk⟩ le_rfl
  have hcreated : ((⟨k, hk⟩ : Fin numClients) : ℕ) < s.shared.created := by
    rw [hs.created]
    exact hk
  have hconnect : Alone (program connects) s (some ⟨k, hk⟩) (.running .connect) s.owner s.shared := by
    have h := (Alone.refl (p := program connects) hborn).exec rfl
    rwa [if_pos hcreated] at h
  cases hc : connects ⟨k, hk⟩ with
  | false =>
    have hreturn := hconnect.exec rfl
    simp only [hc, Bool.false_eq_true, if_false] at hreturn
    obtain ⟨s', hreach, hself, hothers, howner, hshared⟩ := hreturn
    refine ⟨s', hreach, hs.settle hk ?_ (fun u l hu hl => ?_) (fun u c hu hset => ?_)
      (howner.trans hs.owner) ?_ ?_ ?_⟩
    · rw [hself, hc]
      exact rfl
    · rw [hothers u hu, hl]
    · rw [hothers u hu]
      exact hset
    all_goals rw [hshared]
  | true =>
    have hready := hconnect.exec rfl
    simp only [hc, if_true, hs.owner] at hready
    -- up to the broadcast, which wakes the workers that wait already
    obtain ⟨a, hreach, hself, hothers, howner, hshared⟩ := (hready.lock rfl).exec rfl
    have hbroadcast : Step (program connects) a ((a.wakeAll .gate).goto (some ⟨k, hk⟩) .readyTest) :=
      .broadcast hself rfl
    have hclosed : ((a.wakeAll .gate).goto (some ⟨k, hk⟩) .readyTest).shared.start = false := by
      change a.shared.start = false
      rw [hshared]
      exact hs.closed
    have htest := (Alone.refl (p := program connects)
      (Config.goto_self (a.wakeAll .gate) (some ⟨k, hk⟩) Pc.readyTest)).exec rfl
    simp only [hclosed, Bool.not_false, if_true] at htest
    have howner' : ((a.wakeAll .gate).goto (some ⟨k, hk⟩) .readyTest).owner = some (some ⟨k, hk⟩) :=
      howner
    rw [howner'] at htest
    obtain ⟨b, hlater, hself', hothers', hfree, hshared'⟩ := htest.wait rfl
    have hstatus : ∀ u, u ≠ some ⟨k, hk⟩ → b.status u = (a.wakeAll .gate).status u := by
      intro u hu
      rw [hothers' u hu, Config.goto_of_ne hu]
    have hkept : b.shared = { s.shared with readyThreads := s.shared.readyThreads + 1 } :=
      hshared'.trans hshared
    refine ⟨b, (hreach.tail hbroadcast).trans hlater, hs.settle hk ?_ (fun u l hu hl => ?_)
      (fun u c hu hset => ?_) hfree ?_ ?_ ?_⟩
    · rw [hself', hc]
      exact Or.inl rfl
    · rw [hstatus u hu]
      exact Config.wakeAll_running ((hothers u hu).trans hl)
    · rw [hstatus u hu]
      apply settled_wakeAll
      rw [hothers u hu]
      exact hset
    all_goals rw [hkept]

theorem exists_gathering (connects : Fin numClients → Bool) {k : ℕ} (hk : k ≤ numClients) :
    ∃ s, Reachable (program connects) (start numClients) s ∧ Gathering connects k s := by
  induction k with
  | zero =>
    obtain ⟨s, hreach, hs⟩ := exists_creating connects le_rfl
    refine ⟨s, hreach, hs.main, fun i hi => absurd hi (Nat.not_lt_zero _), fun i _ => hs.workers i,
      hs.owner, ?_, ?_, ?_⟩ <;> rw [hs.shared]
  | succ k ih =>
    obtain ⟨s, hreach, hs⟩ := ih (by omega)
    obtain ⟨s', hlater, hs'⟩ := hs.next hk
    exact ⟨s', hreach.trans hlater, hs'⟩

/-- Of the threads that have come to the gate, the first `k` sleep. -/
structure Sleeping (connects : Fin numClients → Bool) (k : ℕ) (s : State numClients) : Prop where
  gathered : Gathering connects numClients s
  idle : ∀ i : Fin numClients, i < k → IdleWorker (s.status (some i))

/-- A woken worker finds the gate closed, and goes to sleep again. -/
theorem Sleeping.next {k : ℕ} (hs : Sleeping connects k s) (hk : k < numClients) :
    ∃ s', Reachable (program connects) s s' ∧ Sleeping connects (k + 1) s' := by
  have hsettled := hs.gathered.settled ⟨k, hk⟩ hk
  have hdone : IdleWorker (s.status (some ⟨k, hk⟩)) → Sleeping connects (k + 1) s := by
    refine fun hidle => ⟨hs.gathered, fun i hi => ?_⟩
    by_cases hik : (i : ℕ) < k
    · exact hs.idle i hik
    · rw [eq_of_lt_succ hk hi hik]
      exact hidle
  cases hc : connects ⟨k, hk⟩ with
  | false =>
    rw [hc] at hsettled
    have hreturned : s.status (some ⟨k, hk⟩) = .running .returnFailed := hsettled
    exact ⟨s, .refl, hdone (by rw [hreturned]; trivial)⟩
  | true =>
    rw [hc] at hsettled
    rcases hsettled with hasleep | hwoken
    · exact ⟨s, .refl, hdone (by rw [hasleep]; trivial)⟩
    · have hresume := Alone.refl (p := program connects) hwoken
      rw [hs.gathered.owner] at hresume
      have htest := hresume.resume.exec rfl
      simp only [hs.gathered.closed, Bool.not_false, if_true] at htest
      obtain ⟨s', hreach, hself, hothers, howner, hshared⟩ := htest.wait rfl
      refine ⟨s', hreach, ⟨?_, fun i hi => ?_, fun i hi => ?_, howner, ?_, ?_, ?_⟩, fun i hi => ?_⟩
      · rw [hothers _ (by simp), hs.gathered.main]
      · by_cases hik : i = ⟨k, hk⟩
        · rw [hik, hself, hc]
          exact Or.inl rfl
        · rw [hothers _ (by simpa using hik)]
          exact hs.gathered.settled i hi
      · exact absurd i.isLt (by omega)
      · rw [hshared, hs.gathered.total]
      · rw [hshared, hs.gathered.closed]
      · rw [hshared, hs.gathered.created]
      · by_cases hik : (i : ℕ) < k
        · rw [hothers _ (some_ne_of_val_ne hik.ne)]
          exact hs.idle i hik
        · rw [eq_of_lt_succ hk hi hik, hself]
          trivial

theorem exists_sleeping (connects : Fin numClients → Bool) {k : ℕ} (hk : k ≤ numClients) :
    ∃ s, Reachable (program connects) (start numClients) s ∧ Sleeping connects k s := by
  induction k with
  | zero =>
    obtain ⟨s, hreach, hs⟩ := exists_gathering connects le_rfl
    exact ⟨s, hreach, hs, fun i hi => absurd hi (Nat.not_lt_zero _)⟩
  | succ k ih =>
    obtain ⟨s, hreach, hs⟩ := ih (by omega)
    obtain ⟨s', hlater, hs'⟩ := hs.next hk
    exact ⟨s', hreach.trans hlater, hs'⟩

theorem ready_lt_of_returnFailed (h : Reachable (program connects) (start numClients) s)
    (hmain : s.status none = .running (.create numClients)) {i : Fin numClients}
    (hi : s.status (some i) = .running .returnFailed) :
    s.shared.readyThreads < numClients := by
  rw [ready_of_reachable h]
  have hsub : Finset.univ.filter (fun t => reached (s.status t).point = true) ⊆
      ((Finset.univ : Finset (Thread numClients)).erase none).erase (some i) := by
    intro t ht
    have hreached : reached (s.status t).point = true := by simpa using ht
    refine Finset.mem_erase.mpr ⟨?_, Finset.mem_erase.mpr ⟨?_, Finset.mem_univ t⟩⟩
    · rintro rfl
      rw [hi] at hreached
      cases hreached
    · rintro rfl
      rw [hmain] at hreached
      cases hreached
  have hle := Finset.card_le_card hsub
  rw [Finset.card_erase_of_mem (by simp), Finset.card_erase_of_mem (by simp), Finset.card_univ,
    Fintype.card_option, Fintype.card_fin] at hle
  have hpos := i.pos
  have hlt : standing reached s.status < numClients := by
    change (Finset.univ.filter (fun t => reached (s.status t).point = true)).card < numClients
    omega
  exact_mod_cast hlt

/-- If some connection fails, `main` can be left waiting with all workers returned or blocked. -/
theorem exists_hang {i : Fin numClients} (hi : connects i = false) :
    ∃ s, Reachable (program connects) (start numClients) s ∧ Hang s := by
  obtain ⟨s, hreach, hs⟩ := exists_sleeping connects le_rfl
  have hgathered := hs.gathered
  have hreturned : s.status (some i) = .running .returnFailed := by
    have hsettled := hgathered.settled i i.isLt
    rw [hi] at hsettled
    exact hsettled
  have hless : s.shared.readyThreads < s.shared.totalThreads := by
    rw [hgathered.total]
    exact ready_lt_of_returnFailed hreach hgathered.main hreturned
  have hmain := Alone.refl (p := program connects) hgathered.main
  rw [hgathered.owner] at hmain
  have hlock : (program connects).instr none (.create numClients) = .lock .waitTest :=
    if_neg (lt_irrefl _)
  have htest := (hmain.lock hlock).exec rfl
  rw [if_pos hless] at htest
  obtain ⟨s', hlater, hself, hothers, -, -⟩ := htest.wait rfl
  refine ⟨s', hreach.trans hlater, fun j _ => ?_, hself⟩
  rw [hothers _ (by simp)]
  exact hs.idle j j.isLt

/-- The start gate cannot hang if and only if all workers get their connections. -/
theorem no_hang_iff_connects (connects : Fin numClients → Bool) :
    (∀ s, Reachable (program connects) (start numClients) s → ¬Hang s) ↔
      ∀ i, connects i = true := by
  constructor
  · intro hnever i
    by_contra hi
    obtain ⟨s, hreach, hhang⟩ := exists_hang (by simpa using hi)
    exact hnever s hreach hhang
  · exact fun hall s hreach => not_hang_of_connects hreach hall

/-- One client whose connection fails. -/
def hangSchedule (client : Fin numClients) : List (Event (Thread numClients) Pc Empty) :=
  [.choose none (.created client), .run none, .run (some client), .run (some client),
    .run none, .run none, .run none]

theorem hang_without_connection :
    ∃ s, Reachable (program fun _ : Fin 1 => false) (start 1) s ∧ Hang s := by
  have hhang : ∃ s, runSchedule (program fun _ : Fin 1 => false) (start 1)
      (hangSchedule 0) = some s ∧ Hang s := by
    refine ⟨_, rfl, fun i _ => ?_, rfl⟩
    obtain rfl : i = 0 := Subsingleton.elim _ _
    trivial
  obtain ⟨s, hrun, hs⟩ := hhang
  exact ⟨s, reachable_of_schedule _ hrun, hs⟩

end CpreLabs.StartGate
