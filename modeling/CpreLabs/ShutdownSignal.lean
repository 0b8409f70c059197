import CpreLabs.QueueWakeups

/-!
# A shutdown request and the blocking calls of `main`

The server together with its surroundings: the connections that wait to be accepted, whether
`main` is inside `accept`, and which clients have nothing to say. The signal handler runs
between any two steps. `main` tests `g_shutdown` before `accept` only, and `queue_enqueue`
does not test it at all, so whether a request is heeded depends on where it meets `main`.
-/
namespace CpreLabs.Server
open Pthread WorkQueue

variable {capacity numWorkers : ℕ+}

structure System (numWorkers : ℕ+) where
  server : State numWorkers
  /-- The connections that `accept` can return. -/
  backlog : ℕ
  inAccept : Bool
  /-- A signal was delivered while `accept` was blocked, which makes it return `EINTR`. -/
  interrupted : Bool
  /-- The worker is blocked in `fgets` on a client that has not sent anything. -/
  awaiting : Fin numWorkers → Bool

def AtAccept (s : State numWorkers) : Prop := s.status none = .running (.caller .mainAccept)

/-- `sigint_handler`, run by `main`. -/
def System.signalled (s : System numWorkers) : System numWorkers :=
  { s with
    server := { s.server with shared := { s.server.shared with gShutdown := true } }
    interrupted := s.interrupted || (s.inAccept && s.backlog == 0) }

inductive SystemStep (capacity : ℕ+) : System numWorkers → System numWorkers → Prop
  /-- A step of a thread that neither takes `main` out of `accept`, nor a worker out of a
  blocked `fgets`. -/
  | internal {s b} (hstep : Step (server capacity numWorkers) s.server b)
      (hflag : b.shared.gShutdown = s.server.shared.gShutdown)
      (hmain : AtAccept s.server → AtAccept b)
      (hclients : ∀ i, s.awaiting i = true → b.status (some i) = s.server.status (some i)) :
      SystemStep capacity s { s with server := b }
  | callAccept {s} (hat : AtAccept s.server) (hout : s.inAccept = false) :
      SystemStep capacity s { s with inAccept := true }
  /-- `accept` returns a connection, or an error because of one. -/
  | accepted {s} (hat : AtAccept s.server) (hin : s.inAccept = true)
      (hnot : s.interrupted = false) (hpending : 0 < s.backlog) {k : Caller}
      (hk : acceptReturns k = true) :
      SystemStep capacity s { s with
        server := s.server.goto none (.caller k), backlog := s.backlog - 1, inAccept := false }
  | acceptInterrupted {s} (hat : AtAccept s.server) (hin : s.inAccept = true)
      (hsignal : s.interrupted = true) :
      SystemStep capacity s { s with
        server := s.server.goto none (.caller .mainTest), inAccept := false, interrupted := false }
  | signal {s} : SystemStep capacity s s.signalled
  | connect {s} : SystemStep capacity s { s with backlog := s.backlog + 1 }
  | exhausted {s} (i : Fin numWorkers) {conn : ℤ}
      (hat : s.server.status (some i) = .running (.caller (.workerClient conn))) :
      SystemStep capacity s { s with awaiting := Function.update s.awaiting i true }
  | input {s} (i : Fin numWorkers) :
      SystemStep capacity s { s with awaiting := Function.update s.awaiting i false }

/-- `main` enters its accept loop, nobody has connected. -/
def systemStart (numWorkers : ℕ+) (fds : ℤ → ℤ) : System numWorkers where
  server := serverStart numWorkers fds
  backlog := 0
  inAccept := false
  interrupted := false
  awaiting _ := false

def System.shutdown (s : System numWorkers) : Bool := s.server.shared.gShutdown

/-- The request is lost: `main` is blocked in `accept` with no connection pending, or in
`queue_enqueue` while every worker waits for its client. -/
def Lost (s : System numWorkers) : Prop :=
  s.shutdown = true ∧
    (AtAccept s.server ∧ s.inAccept = true ∧ s.backlog = 0 ∧ s.interrupted = false ∨
      (s.server.status none).isAsleepOn .notFull = true ∧
        ∀ i, s.awaiting i = true ∧
          ∃ conn, s.server.status (some i) = .running (.caller (.workerClient conn)))

/-- The worker will take an entry, if there is one, before it handles a client. -/
def TakesNext : Status Cond (Pc Caller) → Prop
  | .running (.caller .workerLoop) => True
  | .running (.deqTest _) | .running (.deqWait _) | .running (.deqCheck _) => True
  | .running (.deqTake _) => True
  | .asleep c _ | .woken c _ => c = .notEmpty
  | _ => False

/-- There is room in the queue, or a worker will make some without a client. -/
def Room (capacity : ℕ+) (s : State numWorkers) : Prop :=
  s.shared.queue.count < capacity ∨ ∃ i, TakesNext (s.status (some i))

/-- `main` is going to store a connection before it tests the flag again. -/
def WillStore : Status Cond (Pc Caller) → Prop
  | .running (.caller (.mainEnqueue _)) => True
  | .running (.enqTest _ _) | .running (.enqWait _ _) | .running (.enqStore _ _) => True
  | .asleep _ _ | .woken _ _ => True
  | _ => False

/-- `main` gets back to its test: `accept` returns, as it is interrupted or has a connection to
return, and a connection finds room in the queue. -/
def Returns (capacity : ℕ+) (interrupts : Prop) (s : System numWorkers) : Prop :=
  (AtAccept s.server → interrupts ∨ 0 < s.backlog ∧ Room capacity s.server) ∧
    (WillStore (s.server.status none) → Room capacity s.server)

/-- The place of a signal that is heeded: `main` is not about to call `accept` with no
connection pending, and if it has a connection to store, there is room or a worker makes some. -/
def Heeded (capacity : ℕ+) (s : System numWorkers) : Prop :=
  Returns capacity (s.inAccept = true ∧ s.backlog = 0) s

/-- A step in which the flag is raised only where this is heeded. -/
def HeededStep (capacity : ℕ+) (a b : System numWorkers) : Prop :=
  SystemStep capacity a b ∧ (a.shutdown = false → b.shutdown = true → Heeded capacity a)

theorem SystemStep.server_cases {a b : System numWorkers} (h : SystemStep capacity a b) :
    b.server = a.server ∨ Step (server capacity numWorkers) a.server b.server := by
  cases h with
  | internal hstep hflag hmain hclients => exact Or.inr hstep
  | @accepted hat hin hnot hpending k hk => exact Or.inr (.choose hat rfl hk)
  | acceptInterrupted hat hin hsignal =>
    have hback : acceptReturns .mainTest = true := rfl
    exact Or.inr (.choose hat rfl hback)
  | signal => exact Or.inr (.env ())
  | _ => exact Or.inl rfl

variable {fds : ℤ → ℤ} {a b : State numWorkers}

theorem fifo_of_running {l : Pc Caller} {t : Thread numWorkers}
    (h : Reachable (server capacity numWorkers) (serverStart numWorkers fds) a)
    (ht : a.status t = .running l) (hl : inside l = true) : Fifo capacity a.shared := by
  have hasserts := asserts_reachable (P := fun _ => True) (fun _ _ _ _ _ => trivial) h
  exact (hasserts.held ht hl).1.fifo

theorem count_le_step (h : Reachable (server capacity numWorkers) (serverStart numWorkers fds) a)
    (hstep : Step (server capacity numWorkers) a b)
    (hmain : ∀ fd k, a.status none = .running (.enqStore fd k) → b.status none = a.status none) :
    b.shared.queue.count ≤ a.shared.queue.count := by
  rcases hstep.shared_cases with hv | ⟨e, hv, -⟩ | ⟨t, l, f, hl, hi, hst, hv⟩
  · rw [hv]
  · rw [hv]
    exact le_rfl
  · rw [hv]
    have hloc := (located_of_reachable h t).stands hl
    cases l with
    | caller k => rw [exec_caller _ hi]
    | enqStore fd k =>
      cases t with
      | none =>
        cases hi
        have hsame := hmain fd k hl
        rw [hst, Function.update_self, hl] at hsame
        cases hsame
      | some i => exact hloc.elim
    | deqTake k =>
      cases hi
      simp only [take]
      omega
    | enqTest fd k | deqTest k | deqCheck k =>
      cases hi
      exact le_rfl
    | _ => cases hi

theorem takesNext_step (h : Reachable (server capacity numWorkers) (serverStart numWorkers fds) a)
    (hstep : Step (server capacity numWorkers) a b) {i : Fin numWorkers}
    (hi : TakesNext (a.status (some i))) :
    TakesNext (b.status (some i)) ∨ b.shared.queue.count < capacity := by
  have hloc := located_of_reachable h (some i)
  rcases hstep.thread_cases (some i) with hst | ⟨c, l, hst, hst', -⟩ | ⟨c, l, hst, hst', -⟩ |
    ⟨l, hst, hres⟩
  · left
    rwa [hst]
  · left
    rw [hst] at hi
    rw [hst']
    exact hi
  · left
    rw [hst] at hi hloc
    rw [hst']
    obtain rfl : c = .notEmpty := hi
    obtain ⟨-, hresume⟩ := hloc
    cases l with
    | deqTest k => trivial
    | _ => exact hresume.elim
  · rw [hst] at hi
    cases l with
    | caller k =>
      cases k with
      | workerLoop =>
        obtain ⟨hpc, -⟩ := hres
        left
        rw [hpc]
        trivial
      | _ => exact hi.elim
    | deqTest k =>
      obtain ⟨hpc, -⟩ := hres
      left
      rw [hpc]
      dsimp only
      split <;> trivial
    | deqWait k =>
      obtain ⟨hpc, -⟩ := hres
      left
      rw [hpc]
      rfl
    | deqCheck k =>
      obtain ⟨hpc, hv⟩ := hres
      by_cases hend : a.shared.queue.count = 0 ∧ a.shared.gShutdown = true
      · right
        rw [hv]
        dsimp only
        rw [hend.1]
        exact capacity_pos
      · left
        rw [hpc]
        dsimp only
        rw [if_neg hend]
        trivial
    | deqTake k =>
      obtain ⟨-, hv⟩ := hres
      have hle := (fifo_of_running h hst rfl).count_le
      right
      rw [hv]
      simp only [take]
      omega
    | _ => exact hi.elim

theorem Room.step (h : Reachable (server capacity numWorkers) (serverStart numWorkers fds) a)
    (hstep : Step (server capacity numWorkers) a b)
    (hmain : ∀ fd k, a.status none = .running (.enqStore fd k) → b.status none = a.status none)
    (hroom : Room capacity a) : Room capacity b := by
  rcases hroom with hless | ⟨i, hi⟩
  · exact Or.inl ((count_le_step h hstep hmain).trans_lt hless)
  · rcases takesNext_step h hstep hi with hi' | hless
    · exact Or.inr ⟨i, hi'⟩
    · exact Or.inl hless

/-- `main` gets to `accept` or towards a store only from there, and it leaves its store behind. -/
def Withdraws (a b : Config (Thread numWorkers) Cond (Pc Caller) Shared) : Prop :=
  (AtAccept b → AtAccept a) ∧
    (WillStore (b.status none) → ¬AtAccept a → WillStore (a.status none) ∧
      ∀ fd k, a.status none = .running (.enqStore fd k) → b.status none = a.status none)

theorem Withdraws.of_away {l : Pc Caller} (hl : b.status none = .running l)
    (hne : l ≠ .caller .mainAccept) (hw : ¬WillStore (.running l)) : Withdraws a b := by
  unfold Withdraws AtAccept
  rw [hl]
  exact ⟨fun h => absurd (Status.running.inj h) hne, fun h => absurd h hw⟩

theorem Withdraws.of_onway {l : Pc Caller} (hl : a.status none = .running l)
    (hw : WillStore (.running l)) (hne : ∀ fd k, l ≠ .enqStore fd k) (hb : ¬AtAccept b) :
    Withdraws a b := by
  refine ⟨fun h => absurd h hb, fun _ _ => ⟨hl ▸ hw, fun fd k h => ?_⟩⟩
  rw [hl] at h
  exact absurd (Status.running.inj h) (hne fd k)

theorem main_step (h : Reachable (server capacity numWorkers) (serverStart numWorkers fds) a)
    (hstep : Step (server capacity numWorkers) a b) (hflag : a.shared.gShutdown = true) :
    Withdraws a b := by
  have hloc := located_of_reachable h none
  rcases hstep.thread_cases none with hst | ⟨c, l, hst, hst', -⟩ | ⟨c, l, hst, hst', -⟩ |
    ⟨l, hst, hres⟩
  · unfold Withdraws AtAccept
    rw [hst]
    exact ⟨id, fun hw _ => ⟨hw, fun _ _ _ => rfl⟩⟩
  · unfold Withdraws AtAccept
    rw [hst, hst']
    exact ⟨fun h => (nomatch h), fun _ _ => ⟨trivial, fun fd k h => (nomatch h)⟩⟩
  · unfold Withdraws AtAccept
    rw [hst] at hloc ⊢
    rw [hst']
    refine ⟨fun h => ?_, fun _ _ => ⟨trivial, fun fd k h => (nomatch h)⟩⟩
    cases h
    cases c <;> exact hloc.2.elim
  · rw [hst] at hloc
    cases l with
    | caller k =>
      cases k with
      | mainTest =>
        obtain ⟨hpc, -⟩ := hres
        simp only [hflag, if_true] at hpc
        exact .of_away hpc (by simp) id
      | mainAccept => exact ⟨fun _ => hst, fun _ hat => absurd hst hat⟩
      | mainEnqueue conn =>
        obtain ⟨hpc, -⟩ := hres
        exact .of_onway hst trivial (by simp) (by simp [AtAccept, hpc])
      | mainShutdown =>
        obtain ⟨hpc, -⟩ := hres
        exact .of_away hpc (by simp) id
      | mainJoin i =>
        by_cases hi : i < (numWorkers : ℕ)
        · simp only [server, program, instr, callers, hi, dite_true] at hres
          exact .of_away hres.1 (by simp) id
        · simp [server, program, instr, callers, hi, Instr.Results] at hres
      | _ => exact hloc.elim
    | enqTest fd k =>
      obtain ⟨hpc, -⟩ := hres
      refine .of_onway hst trivial (by simp) ?_
      unfold AtAccept
      rw [hpc]
      dsimp only
      split <;> simp
    | enqWait fd k =>
      obtain ⟨hpc, -⟩ := hres
      exact .of_onway hst trivial (by simp) (by simp [AtAccept, hpc])
    | enqStore fd k =>
      obtain ⟨hpc, -⟩ := hres
      exact .of_away hpc (by simp) id
    | enqSignal k =>
      obtain ⟨hpc, -⟩ := hres
      exact .of_away hpc (by simp) id
    | enqUnlock k =>
      obtain ⟨hpc, -⟩ := hres
      obtain rfl : k = .mainTest := hloc
      exact .of_away hpc (by simp) id
    | broadcast k =>
      obtain ⟨hpc, -⟩ := hres
      exact .of_away hpc (by simp) id
    | broadcastUnlock k =>
      obtain ⟨hpc, -⟩ := hres
      obtain ⟨rfl, -⟩ : k = .mainJoin 0 ∧ _ := hloc
      exact .of_away hpc (by simp) id
    | _ => exact hloc.elim

structure Attended (capacity : ℕ+) (fds : ℤ → ℤ) (s : System numWorkers) : Prop where
  reachable : Reachable (server capacity numWorkers) (serverStart numWorkers fds) s.server
  atAccept : s.inAccept = true → AtAccept s.server
  returns : s.shutdown = true →
    Returns capacity (s.inAccept = true ∧ s.interrupted = true) s

theorem not_lost_of_attended {s : System numWorkers} (h : Attended capacity fds s) : ¬Lost s := by
  rintro ⟨hflag, ⟨hat, -, hnone, hnot⟩ | ⟨hmain, hclients⟩⟩
  · rcases (h.returns hflag).1 hat with ⟨-, hsignal⟩ | ⟨hsome, -⟩
    · rw [hnot] at hsignal
      cases hsignal
    · omega
  · obtain ⟨l, hl⟩ := Status.isAsleepOn_iff.mp hmain
    have hroom : Room capacity s.server := by
      apply (h.returns hflag).2
      rw [hl]
      trivial
    -- nobody is inside the queue's functions, so `main` sleeps on a full queue
    have howned := Reachable.owned (bracketed _ _) h.reachable (owned_start fds _)
    have hfree : s.server.owner = none := by
      cases howner : s.server.owner with
      | none => rfl
      | some t =>
        have hag := howned t
        cases t with
        | none =>
          rw [hl] at hag
          exact absurd howner hag.2
        | some i =>
          obtain ⟨-, conn, hconn⟩ := hclients i
          rw [hconn] at hag
          cases hag.mpr howner
    have hfull := full_of_main_asleep h.reachable hfree hmain
    rcases hroom with hless | ⟨i, hi⟩
    · omega
    · obtain ⟨-, conn, hconn⟩ := hclients i
      rw [hconn] at hi
      exact hi

theorem not_willStore_of_atAccept (hat : AtAccept a) : ¬WillStore (a.status none) := by
  rw [hat]
  exact id

theorem attended_internal {s : System numWorkers} (h : Attended capacity fds s)
    (hstep : Step (server capacity numWorkers) s.server b)
    (hflag : b.shared.gShutdown = s.server.shared.gShutdown)
    (hmain : AtAccept s.server → AtAccept b) : Attended capacity fds { s with server := b } := by
  refine ⟨h.reachable.tail hstep, fun hin => hmain (h.atAccept hin), fun hset => ?_⟩
  have hset' : s.server.shared.gShutdown = true := hflag.symm.trans hset
  obtain ⟨hat, hstore⟩ := h.returns hset'
  obtain ⟨hback, hway⟩ := main_step h.reachable hstep hset'
  refine ⟨fun hb => ?_, fun hb => ?_⟩
  · have ha := hback hb
    refine (hat ha).imp_right (And.imp_right (Room.step h.reachable hstep ?_))
    intro fd k hk
    rw [ha] at hk
    cases hk
  · have ha : ¬AtAccept s.server := fun ha => not_willStore_of_atAccept (hmain ha) hb
    obtain ⟨hw, hstays⟩ := hway hb ha
    exact Room.step h.reachable hstep hstays (hstore hw)

theorem attended_step {s s' : System numWorkers} (h : Attended capacity fds s)
    (hstep : HeededStep capacity s s') : Attended capacity fds s' := by
  obtain ⟨hstep, hheeded⟩ := hstep
  have hreach : Reachable (server capacity numWorkers) (serverStart numWorkers fds) s'.server := by
    rcases hstep.server_cases with hsame | hserver
    · rw [hsame]
      exact h.reachable
    · exact h.reachable.tail hserver
  cases hstep with
  | internal hserver hflag hmain hclients => exact attended_internal h hserver hflag hmain
  | callAccept hat hout =>
    refine ⟨hreach, fun _ => hat, fun hset => ?_⟩
    obtain ⟨haccept, hstore⟩ := h.returns hset
    refine ⟨fun ha => ?_, hstore⟩
    rcases haccept ha with ⟨hin, -⟩ | hsome
    · rw [hout] at hin
      cases hin
    · exact Or.inr hsome
  | @accepted hat hin hnot hpending k hk =>
    refine ⟨hreach, fun h => (nomatch h), fun hset => ?_⟩
    have hroom : Room capacity s.server := by
      rcases (h.returns hset).1 hat with ⟨-, hsignal⟩ | ⟨-, hroom⟩
      · rw [hnot] at hsignal
        cases hsignal
      · exact hroom
    refine ⟨fun hb => ?_, fun _ => hroom⟩
    have hpc : k = .mainAccept := by
      have heq := (Config.goto_self s.server none (Pc.caller k)).symm.trans hb
      injection heq with heq
      injection heq
    subst hpc
    cases hk
  | acceptInterrupted hat hin hsignal =>
    refine ⟨hreach, fun h => (nomatch h), fun _ => ⟨fun hb => ?_, fun hb => ?_⟩⟩
    · have heq := (Config.goto_self s.server none (Pc.caller Caller.mainTest)).symm.trans hb
      cases heq
    · rw [Config.goto_self] at hb
      exact hb.elim
  | signal =>
    refine ⟨hreach, h.atAccept, fun _ => ?_⟩
    cases hset : s.shutdown with
    | true =>
      obtain ⟨haccept, hstore⟩ := h.returns hset
      refine ⟨fun hat => ?_, hstore⟩
      refine (haccept hat).imp_left (And.imp_right ?_)
      intro hsignal
      simp [System.signalled, hsignal]
    | false =>
      obtain ⟨haccept, hstore⟩ := hheeded hset rfl
      refine ⟨fun hat => ?_, hstore⟩
      refine (haccept hat).imp_left ?_
      rintro ⟨hin, hnone⟩
      exact ⟨hin, by simp [System.signalled, hin, hnone]⟩
  | connect =>
    refine ⟨hreach, h.atAccept, fun hset => ?_⟩
    obtain ⟨haccept, hstore⟩ := h.returns hset
    refine ⟨fun hat => ?_, hstore⟩
    exact (haccept hat).imp_right (And.imp_left Nat.lt_succ_of_lt)
  | exhausted i hat => exact ⟨hreach, h.atAccept, h.returns⟩
  | input i => exact ⟨hreach, h.atAccept, h.returns⟩

/-- No shutdown request is lost in a run in which the signal meets `main` where it is heeded. -/
theorem request_not_lost {run : List (System numWorkers)}
    (hrun : (systemStart numWorkers fds :: run).IsChain (HeededStep capacity)) :
    ∀ s ∈ systemStart numWorkers fds :: run, ¬Lost s := by
  have hstart : Attended capacity fds (systemStart numWorkers fds) :=
    ⟨.refl, fun h => (nomatch h), fun h => (nomatch h)⟩
  have hall := hrun.cons_induction (Attended capacity fds) run (fun _ _ hab ha => attended_step ha hab)
    hstart
  intro s hs
  rcases List.mem_cons.mp hs with rfl | hs
  · exact not_lost_of_attended hstart
  · exact not_lost_of_attended (hall s hs)

def System.tested (s : System numWorkers) : System numWorkers :=
  { s with
    server := s.server.goto none (.caller (if s.shutdown then .mainShutdown else .mainAccept)) }

def System.calling (s : System numWorkers) : System numWorkers := { s with inAccept := true }

def System.interruptedAccept (s : System numWorkers) : System numWorkers :=
  { s with
    server := s.server.goto none (.caller .mainTest), inAccept := false, interrupted := false }

theorem tested_step (numWorkers : ℕ+) (fds : ℤ → ℤ) :
    SystemStep capacity (systemStart numWorkers fds) (systemStart numWorkers fds).tested := by
  have hstep : Step (server capacity numWorkers) (systemStart numWorkers fds).server
      (systemStart numWorkers fds).tested.server := step_of_next (e := .run none) rfl
  exact .internal hstep rfl (fun h => (nomatch h)) (fun _ h => (nomatch h))

/-- A signal that meets `main` in `accept`. -/
def interruptedRun (numWorkers : ℕ+) (fds : ℤ → ℤ) : List (System numWorkers) :=
  let asked := (systemStart numWorkers fds).tested.calling
  [(systemStart numWorkers fds).tested, asked, asked.signalled, asked.signalled.interruptedAccept]

theorem interrupted_not_lost :
    (systemStart 1 (fun _ => 0) :: interruptedRun 1 (fun _ => 0)).IsChain (HeededStep 2) ∧
      ∀ s ∈ systemStart 1 (fun _ => 0) :: interruptedRun 1 (fun _ => 0), ¬Lost s := by
  have hrun : (systemStart 1 (fun _ => 0) :: interruptedRun 1 (fun _ => 0)).IsChain
      (HeededStep 2) := by
    refine .cons_cons ⟨tested_step 1 _, fun _ h => (nomatch h)⟩ ?_
    refine .cons_cons ⟨.callAccept rfl rfl, fun _ h => (nomatch h)⟩ ?_
    refine .cons_cons ⟨.signal, fun _ _ => ⟨fun _ => Or.inl ⟨rfl, rfl⟩, False.elim⟩⟩ ?_
    exact .cons_cons ⟨.acceptInterrupted rfl rfl rfl, fun h => (nomatch h)⟩ (.singleton _)
  exact ⟨hrun, request_not_lost hrun⟩

/-- The signal meets `main` between its test of the flag and its call of `accept`. -/
theorem lost_before_accept :
    ∃ s, Relation.ReflTransGen (SystemStep 2) (systemStart 1 (fun _ => 0)) s ∧ Lost s := by
  have htested : SystemStep 2 (systemStart 1 (fun _ => 0)) (systemStart 1 (fun _ => 0)).tested :=
    tested_step 1 _
  have hsignalled := Relation.ReflTransGen.single htested |>.tail .signal
  exact ⟨_, hsignalled.tail (.callAccept rfl rfl), rfl, Or.inl ⟨rfl, rfl, rfl, rfl⟩⟩

end CpreLabs.Server
