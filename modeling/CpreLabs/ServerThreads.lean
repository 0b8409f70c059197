import CpreLabs.WorkQueue

/-!
# The threads of the server: `main` and the workers

The accept loop and the shutdown of `main`, and `worker_main`, as callers of the work
queue. The listening socket decides what `accept` returns, a client when `handle_client`
returns. The sweeper does not use the queue and is left out.
-/
namespace CpreLabs.Server
open Pthread WorkQueue

/-- Where a thread stands outside the queue's functions. -/
inductive Caller where
  /-- `while (!g_shutdown)` -/
  | mainTest
  | mainAccept
  /-- `accept` has returned a connection, so a number that is not negative. -/
  | mainEnqueue (conn : ℕ)
  | mainShutdown
  /-- `pthread_join(workers[i], NULL)`; all workers are joined once `i` is their number. -/
  | mainJoin (i : ℕ)
  | workerLoop
  | workerClient (conn : ℤ)
  | workerReturn
  deriving DecidableEq

/-- `main` is `none`. There is at least one worker: `main` rejects any other argument. -/
abbrev Thread (numWorkers : ℕ+) := Option (Fin numWorkers)

/-- `accept` fails, or returns a connection. -/
def acceptReturns : Caller → Bool
  | .mainTest | .mainEnqueue _ => true
  | _ => false

/-- `if (conn == -1) break;` -/
def dispatch (conn : ℤ) : Caller := if conn = -1 then .workerReturn else .workerClient conn

variable (capacity numWorkers : ℕ+)

def callers (_ : Thread numWorkers) : Caller → Action (Thread numWorkers) Caller
  | .mainTest => .testShutdown .mainShutdown .mainAccept
  | .mainAccept => .choose acceptReturns
  | .mainEnqueue conn => .enqueue conn .mainTest
  | .mainShutdown => .broadcast (.mainJoin 0)
  | .mainJoin i =>
      if h : i < numWorkers then .join (some ⟨i, h⟩) (.mainJoin (i + 1)) else .halt
  | .workerLoop => .dequeue dispatch
  | .workerClient _ => .choose (fun k => decide (k = .workerLoop))
  | .workerReturn => .halt

abbrev State := Config (Thread numWorkers) Cond (Pc Caller) Shared

def server : Program (Thread numWorkers) Cond (Pc Caller) Shared Unit :=
  program capacity (callers numWorkers)

/-- The state in which `main` enters its accept loop, over the memory of `malloc`. -/
def serverStart (fds : ℤ → ℤ) : State numWorkers :=
  start fds (fun t => if t = none then .mainTest else .workerLoop)

variable {capacity numWorkers}

/-- The program points of `main`, with what it has seen of `g_shutdown`. -/
def mainAt (v : Shared) : Pc Caller → Prop
  | .caller .mainTest | .caller .mainAccept | .caller (.mainEnqueue _) => True
  | .caller .mainShutdown | .caller (.mainJoin _) => v.gShutdown = true
  | .enqTest _ k | .enqWait _ k | .enqStore _ k | .enqSignal k | .enqUnlock k => k = .mainTest
  | .broadcast k | .broadcastUnlock k => k = .mainJoin 0 ∧ v.gShutdown = true
  | _ => False

/-- The program points of a worker. -/
def workerAt : Pc Caller → Prop
  | .caller .workerLoop | .caller (.workerClient _) | .caller .workerReturn => True
  | .deqTest k | .deqWait k | .deqCheck k | .deqTake k | .deqSignal _ k | .deqUnlock _ k =>
      k = dispatch
  | _ => False

def standsAt (v : Shared) : Thread numWorkers → Pc Caller → Prop
  | none => mainAt v
  | some _ => workerAt

/-- Where a thread stands, and what it waits for there. -/
def Located (t : Thread numWorkers) (st : Status Cond (Pc Caller)) (v : Shared) : Prop :=
  match st with
  | .running l => standsAt v t l
  | .asleep c l | .woken c l => standsAt v t l ∧ resumesAt c l

theorem Located.stands {t : Thread numWorkers} {st : Status Cond (Pc Caller)} {v : Shared}
    (h : Located t st v) {l : Pc Caller} (hst : st = .running l) : standsAt v t l := by
  subst hst
  exact h

theorem Located.resumes {t : Thread numWorkers} {st : Status Cond (Pc Caller)} {v : Shared}
    (h : Located t st v) {c : Cond} {l : Pc Caller} (hst : st = .woken c l) : resumesAt c l := by
  subst hst
  exact h.2

theorem located_main {l : Pc Caller} {s : State numWorkers} {st : Status Cond (Pc Caller)}
    {v : Shared} (hat : mainAt s.shared l)
    (hres : ((server capacity numWorkers).instr none l).Results (server capacity numWorkers) s st v) :
    Located (none : Thread numWorkers) st v := by
  cases l with
  | caller k =>
    cases k with
    | mainTest =>
      obtain ⟨rfl, rfl⟩ := hres
      cases hflag : s.shared.gShutdown <;> simp [Located, standsAt, mainAt, hflag]
    | mainAccept =>
      obtain ⟨l', hok, rfl, rfl⟩ := hres
      cases l' with
      | caller k' =>
        cases k' with
        | mainTest => trivial
        | mainEnqueue conn => trivial
        | _ => cases hok
      | _ => cases hok
    | mainEnqueue conn =>
      obtain ⟨rfl, rfl⟩ := hres
      rfl
    | mainShutdown =>
      obtain ⟨rfl, rfl⟩ := hres
      exact ⟨rfl, hat⟩
    | mainJoin i =>
      by_cases hi : i < (numWorkers : ℕ)
      · simp only [server, program, instr, callers, hi, dite_true] at hres
        obtain ⟨rfl, rfl, -⟩ := hres
        exact hat
      · simp [server, program, instr, callers, hi, Instr.Results] at hres
    | _ => exact hat.elim
  | enqTest fd k =>
    obtain ⟨rfl, rfl⟩ := hres
    dsimp only
    split <;> exact hat
  | enqWait fd k =>
    obtain ⟨rfl, rfl⟩ := hres
    exact ⟨hat, trivial⟩
  | enqStore fd k =>
    obtain ⟨rfl, rfl⟩ := hres
    exact hat
  | enqSignal k =>
    obtain ⟨rfl, rfl⟩ := hres
    exact hat
  | enqUnlock k =>
    obtain ⟨rfl, rfl⟩ := hres
    cases hat
    trivial
  | broadcast k =>
    obtain ⟨rfl, rfl⟩ := hres
    exact hat
  | broadcastUnlock k =>
    obtain ⟨rfl, rfl⟩ := hres
    obtain ⟨rfl, hflag⟩ := hat
    exact hflag
  | _ => exact hat.elim

theorem located_worker {i : Fin numWorkers} {l : Pc Caller} {s : State numWorkers}
    {st : Status Cond (Pc Caller)} {v : Shared} (hat : workerAt l)
    (hres : ((server capacity numWorkers).instr (some i) l).Results
      (server capacity numWorkers) s st v) : Located (some i : Thread numWorkers) st v := by
  cases l with
  | caller k =>
    cases k with
    | workerLoop =>
      obtain ⟨rfl, rfl⟩ := hres
      rfl
    | workerClient conn =>
      obtain ⟨l', hok, rfl, rfl⟩ := hres
      cases l' with
      | caller k' =>
        have hk : k' = .workerLoop := of_decide_eq_true hok
        subst hk
        trivial
      | _ => cases hok
    | workerReturn => exact hres.elim
    | _ => exact hat.elim
  | deqTest k =>
    obtain ⟨rfl, rfl⟩ := hres
    dsimp only
    split <;> exact hat
  | deqWait k =>
    obtain ⟨rfl, rfl⟩ := hres
    exact ⟨hat, trivial⟩
  | deqCheck k =>
    obtain ⟨rfl, rfl⟩ := hres
    dsimp only
    split <;> exact hat
  | deqTake k =>
    obtain ⟨rfl, rfl⟩ := hres
    exact hat
  | deqSignal fd k =>
    obtain ⟨rfl, rfl⟩ := hres
    exact hat
  | deqUnlock fd k =>
    obtain ⟨rfl, rfl⟩ := hres
    cases hat
    simp only [Located, standsAt, dispatch]
    split <;> trivial
  | _ => exact hat.elim

theorem mainAt_mono {v w : Shared} (hflag : v.gShutdown = true → w.gShutdown = true)
    {l : Pc Caller} (h : mainAt v l) : mainAt w l := by
  cases l with
  | caller k =>
    cases k with
    | mainShutdown => exact hflag h
    | mainJoin i => exact hflag h
    | _ => exact h
  | broadcast k => exact ⟨h.1, hflag h.2⟩
  | broadcastUnlock k => exact ⟨h.1, hflag h.2⟩
  | _ => exact h

theorem Located.mono {v w : Shared} (hflag : v.gShutdown = true → w.gShutdown = true)
    {t : Thread numWorkers} {st : Status Cond (Pc Caller)} (h : Located t st v) :
    Located t st w := by
  have hstands : ∀ l, standsAt v t l → standsAt w t l := by
    cases t with
    | none => exact fun l => mainAt_mono hflag
    | some i => exact fun l => id
  cases st with
  | running l => exact hstands l h
  | asleep c l => exact ⟨hstands l h.1, h.2⟩
  | woken c l => exact ⟨hstands l h.1, h.2⟩

theorem keeps_located : (server capacity numWorkers).Keeps Located where
  instr t l s st v hat hres := by
    cases t with
    | none => exact located_main hat hres
    | some i => exact located_worker hat hres
  woken t c l v h := h
  resumed t c l v h := h.1
  others t st u l f v hi h := h.mono (fun hflag => (exec_gShutdown _ hi v).trans hflag)
  env t st e s h := h.mono (fun _ => rfl)

theorem located_of_reachable {fds : ℤ → ℤ} {s : State numWorkers}
    (h : Reachable (server capacity numWorkers) (serverStart numWorkers fds) s)
    (t : Thread numWorkers) : Located t (s.status t) s.shared := by
  refine keeps_located.reachable h (fun u => ?_) t
  cases u with
  | none => trivial
  | some i => trivial

/-- `main` gets to its next `pthread_join` from its unlock, or by joining a worker. -/
theorem mainJoin_step {a b : State numWorkers} (hstep : Step (server capacity numWorkers) a b)
    (hloc : ∀ t, Located t (a.status t) a.shared) {i : ℕ}
    (h : b.status none = .running (.caller (.mainJoin i))) :
    a.status none = .running (.caller (.mainJoin i)) ∨
      (i = 0 ∧ ∃ k, a.status none = .running (.broadcastUnlock k)) ∨
      ∃ j : Fin numWorkers, i = j + 1 ∧ a.status none = .running (.caller (.mainJoin j)) ∧
        a.status (some j) = .running (.caller .workerReturn) := by
  rcases caller_cases capacity hstep (fun _ _ => (hloc none).resumes) h with
    hsame | ⟨k, hst, hres⟩ | ⟨l, hst, hto, -⟩
  · exact Or.inl hsame
  · have hl : mainAt _ _ := (hloc none).stands hst
    cases k with
    | mainTest =>
      have hpc := Status.running.inj hres.1
      dsimp only at hpc
      injection hpc with hpc
      split at hpc <;> cases hpc
    | mainAccept =>
      obtain ⟨l', hok, hl', -⟩ := hres
      cases hl'
      cases hok
    | mainEnqueue conn => cases hres.1
    | mainShutdown => cases hres.1
    | mainJoin j =>
      by_cases hj : j < (numWorkers : ℕ)
      · simp only [program, instr, callers, hj, dite_true] at hres
        obtain ⟨hpc, -, l', hworker, hhalt⟩ := hres
        cases hpc
        have hw : workerAt l' := (hloc (some ⟨j, hj⟩)).stands hworker
        refine Or.inr (Or.inr ⟨⟨j, hj⟩, rfl, hst, ?_⟩)
        cases l' with
        | caller k' =>
          cases k' with
          | workerReturn => exact hworker
          | workerLoop => cases hhalt
          | workerClient conn => cases hhalt
          | _ => exact hw.elim
        | _ => cases hhalt
      · simp [program, instr, callers, hj, Instr.Results] at hres
    | _ => exact hl.elim
  · have hl : mainAt _ _ := (hloc none).stands hst
    cases l with
    | enqUnlock k =>
      cases hl
      cases hto
    | broadcastUnlock k =>
      obtain ⟨rfl, -⟩ := hl
      cases hto
      exact Or.inr (Or.inl ⟨rfl, _, hst⟩)
    | deqUnlock fd k => exact hl.elim
    | _ => exact hto.elim

end CpreLabs.Server
