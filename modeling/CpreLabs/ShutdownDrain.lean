import CpreLabs.ServerThreads

/-!
# What is left in the queue when `main` has joined the workers

A worker returns once it finds the queue empty and `g_shutdown` set, but `main` tests the
flag before `accept` and not again before it stores. So the queue is drained exactly in
the runs in which a worker is still there whenever `main` stores a connection.
-/
namespace CpreLabs.Server
open Pthread WorkQueue

variable {capacity numWorkers : ℕ+}

def HasReturned (s : State numWorkers) (i : Fin numWorkers) : Prop :=
  s.status (some i) = .running (.caller .workerReturn)

/-- `main` has joined all workers. -/
def Joined (s : State numWorkers) : Prop :=
  s.status none = .running (.caller (.mainJoin numWorkers))

/-- Every connection that was stored has been taken, once and in order. -/
def Drained (s : State numWorkers) : Prop :=
  s.shared.dequeued = s.shared.enqueued ∧ s.shared.queue.count = 0

/-- If `main` is about to store a connection, some worker has not returned. -/
def StoreMeetsWorker (s : State numWorkers) : Prop :=
  ∀ fd k, s.status none = .running (.enqStore fd k) → ∃ i, ¬HasReturned s i

/-- What holds inside the functions of the queue: `-1` is never a connection. -/
theorem server_asserts {fds : ℤ → ℤ} {s : State numWorkers}
    (h : Reachable (server capacity numWorkers) (serverStart numWorkers fds) s) :
    Asserts inside (Inv capacity (· ≠ -1)) (asserted capacity (· ≠ -1)) s := by
  refine asserts_reachable (fun t k fd k' hk => ?_) h
  cases k with
  | mainEnqueue conn =>
    cases hk
    omega
  | mainJoin i =>
    simp only [callers] at hk
    split at hk <;> cases hk
  | _ => cases hk

variable {a b : State numWorkers}

theorem HasReturned.step (hstep : Step (server capacity numWorkers) a b) {i : Fin numWorkers}
    (h : HasReturned a i) : HasReturned b i :=
  hstep.halted h rfl

theorem returned_step (hstep : Step (server capacity numWorkers) a b)
    (hloc : ∀ t, Located t (a.status t) a.shared) {i : Fin numWorkers} (h : HasReturned b i) :
    HasReturned a i ∨
      (∃ k, a.status (some i) = .running (.deqUnlock (-1) k)) ∧ b.shared = a.shared := by
  rcases caller_cases capacity hstep (fun _ _ => (hloc (some i)).resumes) h with
    hsame | ⟨k, hst, hres⟩ | ⟨l, hst, hto, hshared⟩
  · exact Or.inl hsame
  · have hl : workerAt _ := (hloc (some i)).stands hst
    cases k with
    | workerLoop => cases hres.1
    | workerClient conn =>
      obtain ⟨l', hok, hl', -⟩ := hres
      cases hl'
      cases hok
    | workerReturn => exact hres.elim
    | _ => exact hl.elim
  · have hl : workerAt _ := (hloc (some i)).stands hst
    cases l with
    | deqUnlock fd k =>
      cases hl
      have hminus : fd = -1 := by
        by_contra hne
        simp [returnsTo, dispatch, hne] at hto
      subst hminus
      exact Or.inr ⟨⟨_, hst⟩, hshared⟩
    | enqUnlock k => exact hl.elim
    | broadcastUnlock k => exact hl.elim
    | _ => exact hto.elim

theorem count_step (hstep : Step (server capacity numWorkers) a b)
    (hloc : ∀ t, Located t (a.status t) a.shared) :
    b.shared.queue.count = a.shared.queue.count ∨
      (∃ fd k, a.status none = .running (.enqStore fd k)) ∧
        b.shared.queue.count = a.shared.queue.count + 1 ∨
      ∃ i k, a.status (some i) = .running (.deqTake k) := by
  rcases hstep.shared_cases with hv | ⟨e, hv, -⟩ | ⟨t, l, f, hst, hi, -, hv⟩
  · exact Or.inl (by rw [hv])
  · exact Or.inl (by rw [hv]; rfl)
  · have hl := (hloc t).stands hst
    rw [hv]
    cases l with
    | caller k => exact Or.inl (by rw [exec_caller _ hi])
    | enqTest fd k =>
      cases hi
      exact Or.inl rfl
    | enqStore fd k =>
      cases hi
      cases t with
      | none => exact Or.inr (Or.inl ⟨⟨fd, k, hst⟩, rfl⟩)
      | some i => exact hl.elim
    | deqTest k =>
      cases hi
      exact Or.inl rfl
    | deqCheck k =>
      cases hi
      exact Or.inl rfl
    | deqTake k =>
      cases t with
      | none => exact hl.elim
      | some i => exact Or.inr (Or.inr ⟨i, k, hst⟩)
    | _ => cases hi

theorem returned_of_mainJoin {fds : ℤ → ℤ} {s : State numWorkers}
    (h : Reachable (server capacity numWorkers) (serverStart numWorkers fds) s) {i : ℕ}
    (hmain : s.status none = .running (.caller (.mainJoin i))) (j : Fin numWorkers)
    (hj : (j : ℕ) < i) : HasReturned s j := by
  induction h generalizing i j with
  | refl => cases hmain
  | tail hreach hstep ih =>
    rcases mainJoin_step hstep (located_of_reachable hreach) hmain with hsame | ⟨rfl, -⟩ |
      ⟨k, rfl, hk, hreturned⟩
    · exact (ih hsame j hj).step hstep
    · omega
    · rcases Nat.lt_succ_iff_lt_or_eq.mp hj with hlt | heq
      · exact (ih hk j hlt).step hstep
      · rw [Fin.ext heq]
        exact HasReturned.step hstep hreturned

theorem free_of_joined {fds : ℤ → ℤ} {s : State numWorkers}
    (h : Reachable (server capacity numWorkers) (serverStart numWorkers fds) s)
    (hjoined : Joined s) : s.owner = none := by
  have howned := (server_asserts h).owned
  cases ho : s.owner with
  | none => rfl
  | some t =>
    have hout : ∃ k, s.status t = .running (.caller k) := by
      cases t with
      | none => exact ⟨_, hjoined⟩
      | some j => exact ⟨_, returned_of_mainJoin h hjoined j j.isLt⟩
    obtain ⟨k, hk⟩ := hout
    have hin := (howned.owner_iff hk).mpr ho
    cases hin

/-- Entries wait only while some worker is there to take them. -/
def WorkerLeft (s : State numWorkers) : Prop :=
  0 < s.shared.queue.count → ∃ i, ¬HasReturned s i

theorem WorkerLeft.step {fds : ℤ → ℤ}
    (hreach : Reachable (server capacity numWorkers) (serverStart numWorkers fds) a)
    (hstep : Step (server capacity numWorkers) a b) (hmeets : StoreMeetsWorker a)
    (h : WorkerLeft a) : WorkerLeft b := by
  intro hb
  have hloc := located_of_reachable hreach
  have hbefore : ∃ i, ¬HasReturned a i := by
    rcases count_step hstep hloc with hsame | ⟨⟨fd, k, hstore⟩, -⟩ | ⟨i, k, htake⟩
    · exact h (by omega)
    · exact hmeets fd k hstore
    · exact ⟨i, by simp [HasReturned, htake]⟩
  obtain ⟨i, hi⟩ := hbefore
  refine ⟨i, fun hret => ?_⟩
  rcases returned_step hstep hloc hret with hret | ⟨⟨k, hunlock⟩, hshared⟩
  · exact hi hret
  · -- a worker that is about to return has seen the empty queue
    rcases ((server_asserts hreach).held hunlock rfl).2 with ⟨hne, -⟩ | ⟨-, hempty⟩
    · exact hne rfl
    · rw [hshared] at hb
      omega

/-- All workers have returned, and an entry is in the queue or about to be stored. -/
def Stuck (s : State numWorkers) : Prop :=
  (∀ i, HasReturned s i) ∧
    ((∃ fd k, s.status none = .running (.enqStore fd k)) ∨ 0 < s.shared.queue.count)

theorem stuck_of_not_meets {s : State numWorkers} (h : ¬StoreMeetsWorker s) : Stuck s := by
  simp only [StoreMeetsWorker, not_forall, not_exists, not_not] at h
  obtain ⟨fd, k, hstore, hall⟩ := h
  exact ⟨hall, Or.inl ⟨fd, k, hstore⟩⟩

theorem Stuck.step {fds : ℤ → ℤ}
    (hreach : Reachable (server capacity numWorkers) (serverStart numWorkers fds) a)
    (hstep : Step (server capacity numWorkers) a b) (h : Stuck a) : Stuck b := by
  obtain ⟨hall, hentry⟩ := h
  refine ⟨fun i => (hall i).step hstep, ?_⟩
  rcases hentry with ⟨fd, k, hstore⟩ | hcount
  · have hcount := ((server_asserts hreach).held hstore rfl).1.fifo.count_nonneg
    rcases hstep.thread_cases none with hsame | ⟨c, l, hst, -⟩ | ⟨c, l, hst, -⟩ | ⟨l, hst, hres⟩
    · exact Or.inl ⟨fd, k, hsame.trans hstore⟩
    · rw [hstore] at hst
      cases hst
    · rw [hstore] at hst
      cases hst
    · rw [hstore] at hst
      cases hst
      right
      rw [hres.2]
      simp only [store]
      omega
  · rcases count_step hstep (located_of_reachable hreach) with hsame | ⟨-, hmore⟩ | ⟨i, k, htake⟩
    · exact Or.inr (by omega)
    · exact Or.inr (by omega)
    · have hret := hall i
      rw [HasReturned, htake] at hret
      cases hret

/-- With all workers joined the queue is drained if and only if its count is 0. -/
theorem drained_of_count {fds : ℤ → ℤ} {s : State numWorkers}
    (h : Reachable (server capacity numWorkers) (serverStart numWorkers fds) s)
    (hjoined : Joined s) (hcount : s.shared.queue.count ≤ 0) : Drained s := by
  have hf := ((server_asserts h).free (free_of_joined h hjoined)).fifo
  have hzero : s.shared.queue.count = 0 := le_antisymm hcount hf.count_nonneg
  have heq := hf.enqueued_eq
  rw [hzero] at heq
  simp only [Int.toNat_zero, RingBuffer.window_zero, List.append_nil] at heq
  exact ⟨heq.symm, hzero⟩

/-- In every run at the end of which `main` has joined the workers, all connections stored
have been taken if and only if each of them was stored while some worker had not come to its
`return`. -/
theorem drained_iff_store_meets_worker {fds : ℤ → ℤ} {run : List (State numWorkers)}
    (hrun : (serverStart numWorkers fds :: run).IsChain (Step (server capacity numWorkers)))
    {last : State numWorkers} (hlast : last ∈ (serverStart numWorkers fds :: run).getLast?)
    (hjoined : Joined last) :
    Drained last ↔ ∀ s ∈ serverStart numWorkers fds :: run, StoreMeetsWorker s := by
  have hreach : ∀ s ∈ serverStart numWorkers fds :: run,
      Reachable (server capacity numWorkers) (serverStart numWorkers fds) s :=
    isChain_invariant hrun _ .refl (fun _ _ _ hab ha => ha.tail hab)
  have hmem : last ∈ serverStart numWorkers fds :: run := List.mem_of_getLast? hlast
  constructor
  · intro hdrained s hs
    by_contra hviolated
    obtain ⟨before, after, hsplit⟩ := List.append_of_mem hs
    rw [hsplit] at hrun hlast
    have hafter : ∀ x ∈ s :: after, Reachable (server capacity numWorkers)
        (serverStart numWorkers fds) x ∧ Stuck x :=
      isChain_invariant (List.IsChain.right_of_append hrun) _
        ⟨hreach s hs, stuck_of_not_meets hviolated⟩
        (fun _ _ _ hab ha => ⟨ha.1.tail hab, ha.2.step ha.1 hab⟩)
    have hlast' : last ∈ s :: after := by
      rw [List.getLast?_append_of_ne_nil _ (by simp)] at hlast
      exact List.mem_of_getLast? hlast
    rcases (hafter last hlast').2.2 with ⟨fd, k, hstore⟩ | hcount
    · rw [Joined, hstore] at hjoined
      cases hjoined
    · have hzero := hdrained.2
      omega
  · intro hmeets
    have hleft : ∀ s ∈ serverStart numWorkers fds :: run, WorkerLeft s :=
      isChain_invariant hrun _ (fun h => absurd h (lt_irrefl 0))
        (fun a ha _ hab h => h.step (hreach a ha) hab (hmeets a ha))
    refine drained_of_count (hreach last hmem) hjoined ?_
    by_contra hcount
    obtain ⟨i, hi⟩ := hleft last hmem (by omega)
    exact hi (returned_of_mainJoin (hreach last hmem) hjoined i i.isLt)

/-- One connection is served, then the signal arrives while `main` waits in `accept`, which
is interrupted. -/
def servedSchedule (worker : Fin numWorkers) :
    List (Event (Thread numWorkers) (Pc Caller) Unit) :=
  [.run none, .choose none (.caller (.mainEnqueue 7))] ++ List.replicate 5 (.run none) ++
    List.replicate 6 (.run (some worker)) ++
    [.choose (some worker) (.caller .workerLoop), .run none, .env (),
      .choose none (.caller .mainTest)] ++ List.replicate 4 (.run none) ++
    List.replicate 4 (.run (some worker)) ++ [.run none]

def servedRun (capacity : ℕ+) (worker : Fin numWorkers) : List (State numWorkers) :=
  serverStart numWorkers (fun _ => 0) ::
    scheduleStates (server capacity numWorkers) (serverStart numWorkers (fun _ => 0))
      (servedSchedule worker)

theorem served_store_meets_worker :
    (∃ last ∈ (servedRun 2 (0 : Fin (1 : ℕ+))).getLast?,
        Joined last ∧ last.shared.enqueued = [7] ∧ Drained last) ∧
      ∀ s ∈ servedRun 2 (0 : Fin (1 : ℕ+)), StoreMeetsWorker s := by
  have hrun := isChain_scheduleStates (server 2 1) (serverStart 1 (fun _ => 0))
    (servedSchedule 0)
  exact ⟨⟨_, rfl, rfl, rfl, rfl, rfl⟩,
    (drained_iff_store_meets_worker hrun rfl rfl).mp ⟨rfl, rfl⟩⟩

/-- `main` has tested `g_shutdown` and waits in `accept`; the signal arrives, the worker finds
the queue empty and returns, and then a connection does come in. -/
def droppedSchedule (worker : Fin numWorkers) :
    List (Event (Thread numWorkers) (Pc Caller) Unit) :=
  [.run none, .env ()] ++ List.replicate 4 (.run (some worker)) ++
    [.choose none (.caller (.mainEnqueue 7))] ++ List.replicate 10 (.run none)

theorem joined_not_drained : ∃ s : State 1,
    Reachable (server 2 1) (serverStart 1 (fun _ => 0)) s ∧ Joined s ∧
      s.shared.enqueued = [7] ∧ s.shared.dequeued = [] ∧ ¬Drained s := by
  have hrun : runSchedule (server 2 1) (serverStart 1 (fun _ => 0)) (droppedSchedule 0) =
    some ((runSchedule (server 2 1) (serverStart 1 (fun _ => 0)) (droppedSchedule 0)).getD
      (serverStart 1 (fun _ => 0))) := rfl
  refine ⟨_, reachable_of_schedule (droppedSchedule 0) hrun, rfl, rfl, rfl, fun h => ?_⟩
  cases h.1

end CpreLabs.Server
