import CpreLabs.ServerThreads

/-!
# No wakeup of the work queue is lost

For both condition variables the signals cover what is available: entries for `not_empty`,
free cells for `not_full`. After the broadcast of `main` nobody sleeps on `not_empty` again.
-/
namespace CpreLabs.WorkQueue
open Pthread

variable {T K : Type*} {capacity : ℕ+}

/-- What the threads that wait on a condition variable wait for. -/
def available (capacity : ℕ+) : Cond → Shared → ℤ
  | .notEmpty, s => s.queue.count
  | .notFull, s => capacity - s.queue.count

/-- The points on the way to take what is available, or to signal it. -/
def serving : Cond → Pc K → Bool
  | .notEmpty, .deqTest _ | .notEmpty, .deqCheck _ | .notEmpty, .deqTake _ => true
  | .notEmpty, .enqSignal _ => true
  | .notFull, .enqTest _ _ | .notFull, .enqStore _ _ => true
  | .notFull, .deqSignal _ _ => true
  | _, _ => false

theorem inside_of_serving {c : Cond} {l : Pc K} (h : serving c l = true) : inside l = true := by
  cases l with
  | caller k => cases c <;> cases h
  | _ => rfl

def knownInside (capacity : ℕ+) (l : Pc K) (v : Shared) : Prop :=
  inside l = true → asserted capacity (fun _ => True) l v

theorem accounting (callers : T → K → Action T K) (c : Cond) :
    Accounting (program capacity callers) c (available capacity c) (serving c)
      (knownInside capacity) where
  env e s := by cases c <;> exact le_rfl
  instr t l := by
    cases l with
    | caller k =>
      simp only [program, instr]
      have hout : serving c (.caller k) = false := by cases c <;> rfl
      cases callers t k with
      | testShutdown set clear =>
        intro v hv
        right
        cases c <;> exact le_rfl
      | choose ok =>
        intro n hn
        rw [hout]
        exact weight_nonneg _
      | halt => trivial
      | _ =>
        simp only [Instr.Accounts, hout]
        exact weight_nonneg _
    | enqTest fd k =>
      intro v hv
      by_cases hfull : v.queue.count = capacity
      · cases c <;> simp [hfull, available, serving]
      · cases c <;> simp [hfull, serving]
    | enqWait fd k =>
      cases c with
      | notEmpty => exact (rfl : serving .notEmpty (Pc.enqWait fd k) = false)
      | notFull =>
        refine ⟨rfl, fun v hv => ?_⟩
        have hfull := (hv rfl).2.2
        simp only [available]
        omega
    | enqStore fd k =>
      intro v hv
      right
      cases c with
      | notEmpty =>
        simp only [available, store, serving, weight_true, weight_false]
        omega
      | notFull =>
        simp only [available, store, serving, weight_true, weight_false]
        omega
    | enqSignal k =>
      cases c with
      | notEmpty => exact Or.inl rfl
      | notFull => exact Or.inr le_rfl
    | enqUnlock k => cases c <;> exact le_rfl
    | deqTest k =>
      intro v hv
      by_cases hwait : v.queue.count = 0 ∧ v.gShutdown = false
      · cases c <;> simp [hwait, available, serving]
      · cases c <;> simp [hwait, serving]
    | deqWait k =>
      cases c with
      | notEmpty =>
        refine ⟨rfl, fun v hv => ?_⟩
        have hempty : v.queue.count = 0 := (hv rfl).2
        exact hempty.le
      | notFull => exact (rfl : serving .notFull (Pc.deqWait k) = false)
    | deqCheck k =>
      intro v hv
      by_cases hend : v.queue.count = 0 ∧ v.gShutdown = true
      · cases c <;> simp [hend, available, serving]
      · cases c <;> simp [hend, serving]
    | deqTake k =>
      intro v hv
      right
      cases c <;> simp [available, serving, take]
    | deqSignal fd k =>
      cases c with
      | notEmpty => exact Or.inr le_rfl
      | notFull => exact Or.inl rfl
    | deqUnlock fd k => cases c <;> exact le_rfl
    | broadcast k =>
      cases c with
      | notEmpty => exact Or.inl rfl
      | notFull => exact Or.inr le_rfl
    | broadcastUnlock k => cases c <;> exact le_rfl

variable [DecidableEq T] [Fintype T]

theorem covered_of_reachable {callers : T → K → Action T K} {fds : ℤ → ℤ} {entry : T → K}
    {s : Config T Cond (Pc K) Shared}
    (h : Reachable (program capacity callers) (start fds entry) s) (c : Cond) :
    Covered c (available capacity c) (serving c) s := by
  induction h with
  | refl => exact ⟨by simp [start], by simp [start]⟩
  | tail hreach hstep ih =>
    have hasserts := asserts_reachable (P := fun _ => True) (fun _ _ _ _ _ => trivial) hreach
    exact (accounting callers c).step (fun t l ht hl => hasserts.held ht hl) hstep ih

/-- The thread does not sleep on `not_empty`, nor is it about to. -/
def Awake : Status Cond (Pc K) → Prop
  | .running (.deqWait _) => False
  | .running _ => True
  | .asleep c l => c = .notFull ∧ resumesAt c l
  | .woken c l => resumesAt c l

def Quiet (st : Status Cond (Pc K)) (v : Shared) : Prop := v.gShutdown = true ∧ Awake st

omit [DecidableEq T] [Fintype T] in
theorem Awake.not_asleep {st : Status Cond (Pc K)} (h : Awake st) :
    st.isAsleepOn .notEmpty = false := by
  cases st with
  | asleep c l =>
    obtain ⟨rfl, -⟩ := h
    rfl
  | _ => rfl

omit [DecidableEq T] [Fintype T] in
/-- Once `g_shutdown` is set, a thread that does not wait for entries never will. -/
theorem keeps_quiet (callers : T → K → Action T K) :
    (program capacity callers).Keeps (fun _ st v => Quiet st v) where
  woken t c l v h := ⟨h.1, h.2.2⟩
  resumed t c l v h := by
    obtain ⟨hflag, hresume⟩ := h
    refine ⟨hflag, ?_⟩
    cases l with
    | deqWait k => cases c <;> exact hresume
    | _ => trivial
  others t st u l f v hi h := ⟨(exec_gShutdown _ hi v).trans h.1, h.2⟩
  env t st e s h := ⟨rfl, h.2⟩
  instr t l s st v h hres := by
    obtain ⟨hflag, hawake⟩ := h
    cases l with
    | caller k =>
      simp only [program, instr] at hres
      cases hc : callers t k with
      | choose ok =>
        rw [hc] at hres
        obtain ⟨l', hok, rfl, rfl⟩ := hres
        cases l' with
        | caller k' => exact ⟨hflag, trivial⟩
        | _ => cases hok
      | join u k' =>
        rw [hc] at hres
        obtain ⟨rfl, rfl, -⟩ := hres
        exact ⟨hflag, trivial⟩
      | halt =>
        rw [hc] at hres
        exact hres.elim
      | _ =>
        rw [hc] at hres
        obtain ⟨rfl, rfl⟩ := hres
        exact ⟨hflag, trivial⟩
    | enqTest fd k =>
      obtain ⟨rfl, rfl⟩ := hres
      refine ⟨hflag, ?_⟩
      dsimp only
      split <;> trivial
    | enqWait fd k =>
      obtain ⟨rfl, rfl⟩ := hres
      exact ⟨hflag, rfl, trivial⟩
    | deqTest k =>
      obtain ⟨rfl, rfl⟩ := hres
      exact ⟨hflag, by simp [hflag, Awake]⟩
    | deqWait k => exact hawake.elim
    | deqCheck k =>
      obtain ⟨rfl, rfl⟩ := hres
      refine ⟨hflag, ?_⟩
      dsimp only
      split <;> trivial
    | _ =>
      obtain ⟨rfl, rfl⟩ := hres
      exact ⟨hflag, trivial⟩

end CpreLabs.WorkQueue

namespace CpreLabs.Server
open Pthread WorkQueue

variable {capacity numWorkers : ℕ+}

/-- `main` has broadcast and is unlocking the queue, joining the workers, or done. -/
def beyondBroadcast : Status Cond (Pc Caller) → Prop
  | .running (.broadcastUnlock _) | .running (.caller (.mainJoin _)) => True
  | _ => False

def PastBroadcast (s : State numWorkers) : Prop := beyondBroadcast (s.status none)

/-- `main` gets past its broadcast only by broadcasting. -/
theorem pastBroadcast_step {a b : State numWorkers} (hstep : Step (server capacity numWorkers) a b)
    (hloc : ∀ t, Located t (a.status t) a.shared) (h : PastBroadcast b) :
    PastBroadcast a ∨ ∃ k, a.status none = .running (.broadcast k) := by
  have hpast : ∀ {l}, a.status none = .running l → beyondBroadcast (.running l) →
      PastBroadcast a := by
    intro l hl hbeyond
    rwa [PastBroadcast, hl]
  unfold PastBroadcast at h
  cases hb : b.status none with
  | running l =>
    rw [hb] at h
    cases l with
    | caller k =>
      cases k with
      | mainJoin i =>
        rcases mainJoin_step hstep hloc hb with hst | ⟨-, k, hst⟩ | ⟨j, -, hst, -⟩
        · exact Or.inl (hpast hst trivial)
        · exact Or.inl (hpast hst trivial)
        · exact Or.inl (hpast hst trivial)
      | _ => exact h.elim
    | broadcastUnlock k =>
      rcases broadcastUnlock_cases capacity hstep (fun _ _ => (hloc none).resumes) hb with hst | hst
      · exact Or.inl (hpast hst trivial)
      · exact Or.inr ⟨k, hst⟩
    | _ => exact h.elim
  | asleep c l =>
    rw [hb] at h
    exact h.elim
  | woken c l =>
    rw [hb] at h
    exact h.elim

theorem quiet_of_broadcast {a b : State numWorkers} (howned : Owned inside a)
    (hloc : ∀ t, Located t (a.status t) a.shared) (hstep : Step (server capacity numWorkers) a b)
    {k : Caller} (hmain : a.status none = .running (.broadcast k)) (hpast : PastBroadcast b)
    (t : Thread numWorkers) : Quiet (b.status t) b.shared := by
  have hmoved : b.status none ≠ a.status none := by
    intro hsame
    rw [PastBroadcast, hsame, hmain] at hpast
    exact hpast
  have hb := hstep.broadcast_eq hmain rfl hmoved
  have hflag : a.shared.gShutdown = true := ((hloc none).stands hmain).2
  have ht := hloc t
  subst hb
  refine ⟨hflag, ?_⟩
  by_cases hnone : t = none
  · subst hnone
    rw [Config.goto_self]
    trivial
  · rw [Config.goto_of_ne hnone]
    rcases a.wakeAll_cases .notEmpty t with ⟨l, hst, hst'⟩ | ⟨hno, hst'⟩
    · rw [hst] at ht
      rw [hst']
      exact ht.2
    · rw [hst']
      cases hst : a.status t with
      | running l =>
        cases l with
        | deqWait k' =>
          exact hnone (howned.unique hst rfl hmain rfl)
        | _ => trivial
      | asleep c l =>
        rw [hst] at ht hno
        cases c with
        | notEmpty => cases hno
        | notFull => exact ⟨rfl, ht.2⟩
      | woken c l =>
        rw [hst] at ht
        exact ht.2

theorem quiet_of_pastBroadcast {fds : ℤ → ℤ} {s : State numWorkers}
    (h : Reachable (server capacity numWorkers) (serverStart numWorkers fds) s)
    (hpast : PastBroadcast s) (t : Thread numWorkers) : Quiet (s.status t) s.shared := by
  induction h generalizing t with
  | refl => exact hpast.elim
  | @tail a b hreach hstep ih =>
    have hloc := located_of_reachable hreach
    rcases pastBroadcast_step hstep hloc hpast with ha | ⟨k, hmain⟩
    · exact (keeps_quiet _).step hstep (ih ha) t
    · have howned := Reachable.owned (bracketed _ _) hreach (owned_start fds _)
      exact quiet_of_broadcast howned hloc hstep hmain hpast t

theorem covered_server {fds : ℤ → ℤ} {s : State numWorkers}
    (h : Reachable (server capacity numWorkers) (serverStart numWorkers fds) s) (hfree : s.owner = none)
    {c : Cond} {t : Thread numWorkers} (ht : (s.status t).isAsleepOn c = true) :
    available capacity c s.shared ≤ count (Status.isWokenOn c) s.status := by
  obtain ⟨l, hl⟩ := Status.isAsleepOn_iff.mp ht
  have howned := Reachable.owned (bracketed _ _) h (owned_start fds _)
  exact (covered_of_reachable h c).of_free howned (fun _ => inside_of_serving) hfree hl

/-- Workers never wait for room. -/
theorem not_woken_notFull {i : Fin numWorkers} {st : Status Cond (Pc Caller)} {v : Shared}
    (h : Located (some i : Thread numWorkers) st v) : st.isWokenOn .notFull = false := by
  by_contra hwoken
  obtain ⟨l, rfl⟩ := Status.isWokenOn_iff.mp (by simpa using hwoken)
  cases l with
  | enqTest fd k => exact h.1
  | _ => exact h.2

/-- `main` never waits for entries. -/
theorem not_woken_notEmpty {st : Status Cond (Pc Caller)} {v : Shared}
    (h : Located (none : Thread numWorkers) st v) : st.isWokenOn .notEmpty = false := by
  by_contra hwoken
  obtain ⟨l, rfl⟩ := Status.isWokenOn_iff.mp (by simpa using hwoken)
  cases l with
  | deqTest k => exact h.1
  | _ => exact h.2

theorem full_of_main_asleep {fds : ℤ → ℤ} {s : State numWorkers}
    (h : Reachable (server capacity numWorkers) (serverStart numWorkers fds) s)
    (hfree : s.owner = none) (hmain : (s.status none).isAsleepOn .notFull = true) :
    s.shared.queue.count = capacity := by
  have hle := (fifo_of_free h hfree).count_le
  have hcover := covered_server h hfree hmain
  have hnone : count (Status.isWokenOn .notFull) s.status = 0 := by
    refine count_eq_zero (fun t => ?_)
    cases t with
    | none => exact Status.not_woken_of_asleep hmain
    | some i => exact not_woken_notFull (located_of_reachable h (some i))
  rw [hnone] at hcover
  simp only [available] at hcover
  omega

theorem count_le_woken {fds : ℤ → ℤ} {s : State numWorkers}
    (h : Reachable (server capacity numWorkers) (serverStart numWorkers fds) s)
    (hfree : s.owner = none) {i : Fin numWorkers}
    (hi : (s.status (some i)).isAsleepOn .notEmpty = true) :
    s.shared.queue.count ≤
      count (Status.isWokenOn .notEmpty) (fun j : Fin numWorkers => s.status (some j)) := by
  have hmain := not_woken_notEmpty (located_of_reachable h none)
  rw [← count_option hmain]
  exact covered_server h hfree hi

/-- No wakeup is lost: with the mutex free, `main` sleeps only on a full queue, the woken
workers are enough for the entries while another one sleeps, and so the workers all sleep
only on an empty queue; after the broadcast of the shutdown no worker sleeps any more. -/
theorem no_lost_wakeup {fds : ℤ → ℤ} {s : State numWorkers}
    (h : Reachable (server capacity numWorkers) (serverStart numWorkers fds) s) :
    (s.owner = none →
      ((s.status none).isAsleepOn .notFull = true → s.shared.queue.count = capacity) ∧
      ((∃ i : Fin numWorkers, (s.status (some i)).isAsleepOn .notEmpty = true) →
        s.shared.queue.count ≤
          count (Status.isWokenOn .notEmpty) (fun i : Fin numWorkers => s.status (some i))) ∧
      ((∀ i : Fin numWorkers, (s.status (some i)).isAsleepOn .notEmpty = true) →
        s.shared.queue.count = 0)) ∧
    (PastBroadcast s → ∀ s', Reachable (server capacity numWorkers) s s' →
      ∀ i : Fin numWorkers, (s'.status (some i)).isAsleepOn .notEmpty = false) := by
  refine ⟨fun hfree => ⟨full_of_main_asleep h hfree, fun ⟨i, hi⟩ => count_le_woken h hfree hi,
    fun hall => ?_⟩, fun hpast s' hlater i => ?_⟩
  · have hnonneg := (fifo_of_free h hfree).count_nonneg
    have hle := count_le_woken h hfree (hall ⟨0, numWorkers.pos⟩)
    have hnone : count (Status.isWokenOn .notEmpty)
        (fun j : Fin numWorkers => s.status (some j)) = 0 :=
      count_eq_zero (fun j => Status.not_woken_of_asleep (hall j))
    omega
  · have hquiet := (keeps_quiet _).reachable hlater (quiet_of_pastBroadcast h hpast) (some i)
    exact hquiet.2.not_asleep

/-- Two workers go to sleep, `main` stores a connection and wakes the first. -/
def wakeSchedule (first second : Fin numWorkers) :
    List (Event (Thread numWorkers) (Pc Caller) Unit) :=
  List.replicate 3 (.run (some first)) ++ List.replicate 3 (.run (some second)) ++
    [.run none, .choose none (.caller (.mainEnqueue 7)), .run none, .run none, .run none,
      .signal none (some first), .run none]

def afterWake (capacity : ℕ+) (first second : Fin numWorkers) : State numWorkers :=
  (runSchedule (server capacity numWorkers) (serverStart numWorkers (fun _ => 0))
    (wakeSchedule first second)).getD (serverStart numWorkers (fun _ => 0))

theorem woken_worker_covers_entry :
    (afterWake 4 (0 : Fin (2 : ℕ+)) 1).shared.queue.count = 1 ∧
      (afterWake 4 (0 : Fin (2 : ℕ+)) 1).shared.queue.count ≤
        count (Status.isWokenOn .notEmpty)
          (fun i : Fin 2 => (afterWake 4 (0 : Fin (2 : ℕ+)) 1).status (some i)) := by
  have hrun : Reachable (server 4 2) (serverStart 2 (fun _ => 0)) (afterWake 4 0 1) :=
    reachable_of_schedule (wakeSchedule 0 1) rfl
  have hfree := (no_lost_wakeup hrun).1 rfl
  exact ⟨rfl, hfree.2.1 ⟨1, rfl⟩⟩

end CpreLabs.Server
