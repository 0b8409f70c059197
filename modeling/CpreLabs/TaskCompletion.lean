import CpreLabs.TaskDispatch

/-!
# Where the task dispatcher stops

Apart from wakeups without a signal, the dispatcher takes a bounded number of steps, and it
stops in one way only: the tasks are all enqueued, as many are processed as there are workers
for, and `main` gets to its end if no worker is left without a task.
-/
namespace CpreLabs.TaskDispatch
open Pthread

/-- The steps a thread has left, those of the worker it will wake included. -/
def rank (n : ℕ) : Pc → ℕ
  | .dispatch tasks => 12 * tasks.length + n + 2
  | .store _ rest => 12 * rest.length + n + 13
  | .overrun _ _ => 0
  | .increment _ rest => 12 * rest.length + n + 12
  | .report _ rest => 12 * rest.length + n + 11
  | .signal rest => 12 * rest.length + n + 10
  | .unlock rest => 12 * rest.length + n + 3
  | .join i => n - i + 1
  | .exited => 0
  | .wkLock => 6
  | .wkTest => 5
  | .wkPrintWait => 2
  | .wkWait => 1
  | .wkDecrement => 4
  | .wkTask => 3
  | .wkPrint _ => 2
  | .wkUnlock => 1
  | .wkReturn => 0

theorem lowers (n : ℕ) : (program n).Lowers (rank n) 6 := by
  intro t l
  cases t with
  | none =>
    cases l with
    | dispatch tasks =>
      cases tasks <;> simp only [program, mainInstr, Instr.Lowers, rank, List.length_cons] <;> omega
    | join i =>
      simp only [program, mainInstr]
      split <;> simp only [Instr.Lowers, rank] <;> omega
    | exited => trivial
    | store task rest =>
      intro q
      dsimp only
      split <;> simp only [rank] <;> omega
    | increment task rest | report task rest | signal rest | unlock rest =>
      simp only [program, mainInstr, Instr.Lowers, rank]
      omega
    | _ => exact fun m hm => by cases hm
  | some w =>
    cases l with
    | wkTest =>
      intro q
      dsimp only
      split <;> simp [rank]
    | wkReturn => trivial
    | wkLock | wkPrintWait | wkWait | wkDecrement | wkTask | wkPrint task | wkUnlock =>
      simp [program, workerInstr, Instr.Lowers, rank]
    | _ => exact fun m hm => by cases hm

theorem total_start (n : ℕ) (tasks : List String) :
    total (rank n) (start n tasks).status = 12 * tasks.length + n + 2 + n * 6 := by
  simp [total, start, Fintype.sum_option, Status.rank, rank]

/-- The length of a run, as far as it does not wake workers without a signal. -/
theorem length_le {n : ℕ} {tasks : List String} {es : List (Event (Thread n) Pc Empty)}
    {s : Config (Thread n) Cond Pc Shared}
    (h : runSchedule (program n) (start n tasks) es = some s) :
    es.length ≤ 12 * tasks.length + 7 * n + 2 + 7 * es.countP Event.free := by
  have hstart : Affordable (rank n) 6 (start n tasks) := by
    intro t c l ht
    cases t <;> cases ht
  have hle := (lowers n).length_le hstart h
  rw [total_start] at hle
  omega

/-- The points on the way to take a task, or to signal one. -/
def serving : Pc → Bool
  | .report _ _ | .signal _ | .wkTest | .wkDecrement => true
  | _ => false

def knownInside (l : Pc) (q : Shared) : Prop := inside l = true → asserted l q

theorem accounting (n : ℕ) :
    Accounting (program n) .hasTask Shared.count serving knownInside where
  env e := e.elim
  instr t l := by
    cases t with
    | none =>
      cases l with
      | dispatch tasks =>
        cases tasks with
        | nil => exact fun q _ => Or.inr le_rfl
        | cons task rest => exact le_rfl
      | store task rest =>
        intro q _
        right
        dsimp only
        split
        · rename_i q' hstore
          rw [(storeTask_others hstore).1]
          exact le_rfl
        · exact le_rfl
      | increment task rest =>
        intro q _
        right
        simp [serving]
      | report task rest => exact fun q _ => Or.inr le_rfl
      | signal rest => exact Or.inl rfl
      | unlock rest => exact le_rfl
      | join i =>
        simp only [program, mainInstr]
        split
        · exact le_rfl
        · exact fun q _ => Or.inr le_rfl
      | exited => trivial
      | _ => exact fun m hm => by cases hm
    | some w =>
      cases l with
      | wkLock => exact zero_le_one
      | wkTest =>
        intro q _
        by_cases hzero : q.count = 0
        · exact Or.inl hzero.le
        · right
          simp [hzero, serving]
      | wkPrintWait => exact fun q hq => Or.inl (hq rfl).2.le
      | wkWait => exact ⟨rfl, fun q hq => (hq rfl).2.le⟩
      | wkDecrement =>
        intro q _
        right
        simp [serving]
      | wkTask | wkPrint task => exact fun q _ => Or.inr le_rfl
      | wkUnlock => exact le_rfl
      | wkReturn => trivial
      | _ => exact fun m hm => by cases hm

theorem covered_of_reachable {n : ℕ} {tasks : List String}
    {s : Config (Thread n) Cond Pc Shared} (h : Reachable (program n) (start n tasks) s) :
    Covered .hasTask Shared.count serving s := by
  induction h with
  | refl =>
    refine ⟨fun t l ht => ?_, fun t l ht => ?_⟩
    · cases t <;> rcases ht with ht | ht <;> cases ht
    · cases t <;> cases ht
  | tail hreach hstep ih =>
    have hasserts := asserts_of_reachable hreach
    exact (accounting n).step (fun t l ht hl => hasserts.held ht hl) hstep ih

def Returned {n : ℕ} (s : Config (Thread n) Cond Pc Shared) (w : Fin n) : Prop :=
  s.status (some w) = .running .wkReturn

/-- How many workers `main` has joined. -/
def joined (n : ℕ) : Pc → ℕ
  | .join i => i
  | .exited => n
  | _ => 0

def Joined {n : ℕ} (s : Config (Thread n) Cond Pc Shared) : Prop :=
  ∀ l, s.status none = .running l → ∀ w : Fin n, w < joined n l → Returned s w

theorem joined_of_reachable {n : ℕ} {tasks : List String}
    {s : Config (Thread n) Cond Pc Shared} (h : Reachable (program n) (start n tasks) s) :
    Joined s := by
  induction h with
  | refl =>
    intro l hl w hw
    cases hl
    exact absurd hw (Nat.not_lt_zero _)
  | @tail s s' hreach hstep ih =>
    have hstay : ∀ w, Returned s w → Returned s' w := fun w hw => hstep.halted hw rfl
    intro l hl w hw
    rcases hstep.thread_cases none with hsame | ⟨c, l', -, hst', -⟩ | ⟨c, l', hst, -⟩ |
      ⟨l', hst, hres⟩
    · exact hstay w (ih l (hsame ▸ hl) w hw)
    · rw [hst'] at hl
      cases hl
    · have hat := mainAt_of_reachable hreach
      rw [hst] at hat
      exact hat.elim
    · have hbefore := ih l' hst
      cases l' with
      | join i =>
        simp only [program, mainInstr] at hres
        split at hres
        · rename_i hi
          obtain ⟨hnext, -, m, hm, hhalt⟩ := hres
          rw [hl] at hnext
          cases hnext
          rcases Nat.lt_succ_iff_lt_or_eq.mp hw with hless | heq
          · exact hstay w (hbefore w hless)
          · have hwi : w = ⟨i, hi⟩ := Fin.ext heq
            have hret : m = .wkReturn := by
              cases m <;> first | rfl | cases hhalt
            rw [hret] at hm
            exact hstay w (hwi ▸ hm)
        · rename_i hi
          obtain ⟨hnext, -⟩ := hres
          exact hstay w (hbefore w (w.isLt.trans_le (Nat.le_of_not_lt hi)))
      | exited => exact hres.elim
      | dispatch ts =>
        cases ts with
        | nil | cons task rest =>
          obtain ⟨hnext, -⟩ := hres
          rw [hl] at hnext
          cases hnext
          exact absurd hw (Nat.not_lt_zero _)
      | store task rest =>
        obtain ⟨hnext, -⟩ := hres
        rw [hl] at hnext
        dsimp only at hnext
        split at hnext <;> (cases hnext; exact absurd hw (Nat.not_lt_zero _))
      | overrun task rest =>
        obtain ⟨m, hok, -⟩ := hres
        cases hok
      | increment task rest | report task rest | signal rest | unlock rest =>
        obtain ⟨hnext, -⟩ := hres
        rw [hl] at hnext
        cases hnext
        exact absurd hw (Nat.not_lt_zero _)
      | _ =>
        have hat := mainAt_of_reachable hreach
        rw [hst] at hat
        cases hat.1

variable {n : ℕ} {tasks : List String} {s : Config (Thread n) Cond Pc Shared}

theorem owner_eq_none_of_quiet (h : Reachable (program n) (start n tasks) s)
    (htasks : tasks.length ≤ maxTasks) (hquiet : Quiet (program n) s) : s.owner = none := by
  apply hquiet.owner_eq_none (bracketed n) (asserts_of_reachable h).owned
  intro t l hst hin
  cases t with
  | none =>
    have hat := mainAt_of_reachable h
    rw [hst] at hat
    cases l with
    | overrun task rest => exact absurd hst (not_overrun h htasks task rest)
    | store task rest | increment task rest | report task rest | signal rest | unlock rest =>
      trivial
    | dispatch ts | join i | exited => cases hin
    | _ => cases hat.1
  | some w =>
    have hat := workerAt_of_reachable h w
    rw [hst] at hat
    cases l with
    | wkLock | wkReturn => cases hin
    | wkTest | wkPrintWait | wkWait | wkDecrement | wkTask | wkPrint task | wkUnlock => trivial
    | _ => cases hat

/-- A worker that cannot go on has returned or sleeps. -/
theorem worker_of_quiet (h : Reachable (program n) (start n tasks) s)
    (htasks : tasks.length ≤ maxTasks) (hquiet : Quiet (program n) s) (w : Fin n) :
    Returned s w ∨ s.status (some w) = .asleep .hasTask .wkTest := by
  have hfree := owner_eq_none_of_quiet h htasks hquiet
  have hat := workerAt_of_reachable h w
  cases hst : s.status (some w) with
  | running l =>
    have hblocked := hquiet.blocked hst
    have howned := (asserts_of_reachable h).owned.owner_iff hst
    rw [hst] at hat
    cases l with
    | wkReturn => exact Or.inl hst
    | wkLock => exact absurd hfree hblocked
    | wkWait | wkUnlock =>
      rw [hfree] at howned
      cases howned.mp rfl
    | wkTest | wkPrintWait | wkDecrement | wkTask | wkPrint task => exact hblocked.elim
    | _ => cases hat
  | asleep c l =>
    rw [hst] at hat
    cases c
    cases hat
    exact Or.inr rfl
  | woken c l => exact absurd hfree (hquiet.not_free_of_woken hst)

/-- `main` that cannot go on has enqueued all tasks, and has ended or waits for a sleeper. -/
theorem main_of_quiet (h : Reachable (program n) (start n tasks) s)
    (htasks : tasks.length ≤ maxTasks) (hquiet : Quiet (program n) s) : enqueued s.shared.output = tasks ∧
      (s.status none = .running .exited ∨ ∃ w, ¬Returned s w) := by
  have hfree := owner_eq_none_of_quiet h htasks hquiet
  have hat := mainAt_of_reachable h
  cases hst : s.status none with
  | running l =>
    have hblocked := hquiet.blocked hst
    have howned := (asserts_of_reachable h).owned.owner_iff hst
    rw [hst] at hat
    obtain ⟨hmain, hlist⟩ := hat
    cases l with
    | overrun task rest => exact absurd hst (not_overrun h htasks task rest)
    | dispatch ts =>
      cases ts with
      | nil => exact hblocked.elim
      | cons task rest => exact absurd hfree hblocked
    | unlock rest =>
      rw [hfree] at howned
      cases howned.mp rfl
    | store task rest | increment task rest | report task rest | signal rest =>
      exact hblocked.elim
    | join i =>
      refine ⟨(List.append_nil _).symm.trans hlist, Or.inr ?_⟩
      simp only [program, mainInstr] at hblocked
      split at hblocked
      · rename_i hi
        exact ⟨⟨i, hi⟩, fun hret => hblocked _ hret rfl⟩
      · exact hblocked.elim
    | exited =>
      exact ⟨(List.append_nil _).symm.trans hlist, Or.inl rfl⟩
    | _ => cases hmain
  | asleep c l | woken c l =>
    rw [hst] at hat
    exact hat.elim

/-- Where a worker sleeps for good, every task has been processed. -/
theorem processed_of_asleep (h : Reachable (program n) (start n tasks) s)
    (htasks : tasks.length ≤ maxTasks) (hquiet : Quiet (program n) s) {w : Fin n}
    (hw : s.status (some w) = .asleep .hasTask .wkTest) :
    (processed s.shared.output).length = tasks.length := by
  have hfree := owner_eq_none_of_quiet h htasks hquiet
  have hasserts := asserts_of_reachable h
  have hwoken : count (Status.isWokenOn Cond.hasTask) s.status = 0 := by
    apply count_eq_zero
    intro t
    cases hst : s.status t with
    | woken c l => exact absurd hfree (hquiet.not_free_of_woken hst)
    | _ => rfl
  have hin : ∀ l, serving l = true → inside l = true := by
    intro l hl
    cases l <;> first | rfl | cases hl
  have hcover := (covered_of_reachable h).of_free hasserts.owned hin hfree hw
  rw [hwoken] at hcover
  obtain ⟨stack, hreplay, hcount, -⟩ := hasserts.free hfree
  have hlength := (perm_of_replay hreplay).length_eq
  rw [List.length_append, List.length_map, List.length_map, (main_of_quiet h htasks hquiet).1] at hlength
  omega

/-- As many tasks are processed as both the tasks and the workers allow. -/
theorem length_processed_of_quiet (h : Reachable (program n) (start n tasks) s)
    (htasks : tasks.length ≤ maxTasks) (hquiet : Quiet (program n) s) :
    (processed s.shared.output).length = min n tasks.length ∧
      ((∀ w, Returned s w) ↔ n ≤ tasks.length) := by
  have hcount := length_processed h
  by_cases hall : ∀ w, Returned s w
  · have hn : (processed s.shared.output).length = n := by
      rw [hcount, Finset.filter_true_of_mem, Finset.card_univ, Fintype.card_fin]
      intro w _
      rw [hall w]
      rfl
    obtain ⟨stack, hreplay⟩ := exists_replay h
    have hlength := (perm_of_replay hreplay).length_eq
    rw [List.length_append, List.length_map, List.length_map, (main_of_quiet h htasks hquiet).1] at hlength
    have hle : n ≤ tasks.length := by omega
    exact ⟨by omega, iff_of_true hall hle⟩
  · obtain ⟨w, hw⟩ := not_forall.mp hall
    have hasleep := (worker_of_quiet h htasks hquiet w).resolve_left hw
    have hdone := processed_of_asleep h htasks hquiet hasleep
    have hless : (processed s.shared.output).length < n := by
      rw [hcount]
      have hlt : (Finset.univ.filter
          fun w : Fin n => hasTask (s.status (some w)).point = true).card <
          (Finset.univ : Finset (Fin n)).card := by
        apply Finset.card_lt_card
        apply Finset.filter_ssubset.mpr
        refine ⟨w, Finset.mem_univ w, ?_⟩
        rw [hasleep]
        simp [hasTask]
      rwa [Finset.card_univ, Fintype.card_fin] at hlt
    exact ⟨by omega, iff_of_false hall (by omega)⟩

/-- With room in the array for all tasks, a run is bounded but for the wakeups without a signal, and
where only these can follow, the tasks have been handed out as far as there are workers for them,
each to one worker; `main` has come to its end exactly if no worker is left without a task. -/
theorem dispatch_completes (htasks : tasks.length ≤ maxTasks) {es : List (Event (Thread n) Pc Empty)}
    (h : runSchedule (program n) (start n tasks) es = some s) :
    es.length ≤ 12 * tasks.length + 7 * n + 2 + 7 * es.countP Event.free ∧
      (Quiet (program n) s →
        enqueued s.shared.output = tasks ∧
        (processed s.shared.output).length = min n tasks.length ∧
        (s.status none = .running .exited ↔ n ≤ tasks.length) ∧
        ∀ w, Returned s w ∨ s.status (some w) = .asleep .hasTask .wkTest) := by
  refine ⟨length_le h, fun hquiet => ?_⟩
  have hreach := reachable_of_schedule es h
  obtain ⟨henqueued, hmain⟩ := main_of_quiet hreach htasks hquiet
  obtain ⟨hprocessed, hreturned⟩ := length_processed_of_quiet hreach htasks hquiet
  refine ⟨henqueued, hprocessed, ⟨fun hexit => ?_, fun hle => ?_⟩, worker_of_quiet hreach htasks hquiet⟩
  · exact hreturned.mp (fun w => joined_of_reachable hreach _ hexit w w.isLt)
  · obtain hexit | ⟨w, hw⟩ := hmain
    · exact hexit
    · exact absurd (hreturned.mpr hle w) hw

/-- A worker waits for the task, is signalled and takes it. -/
def oneTask (w : Fin n) : List (Event (Thread n) Pc Empty) :=
  List.replicate 4 (.run (some w)) ++ List.replicate 4 (.run none) ++ [.signal none (some w)] ++
    [.run none, .resume (some w)] ++ List.replicate 5 (.run (some w)) ++
    List.replicate 3 (.run none)

def afterOneTask (task : String) (w : Fin n) : Config (Thread n) Cond Pc Shared :=
  (runSchedule (program n) (start n [task]) (oneTask w)).getD (start n [])

theorem quiet_afterOneTask : Quiet (program 1) (afterOneTask "Compute report" 0) := by
  apply quiet_of_halted
  intro t
  cases t with
  | none => exact ⟨.exited, rfl, rfl⟩
  | some w =>
    obtain rfl : w = 0 := Subsingleton.elim w 0
    exact ⟨.wkReturn, rfl, rfl⟩

theorem one_task_completes :
    let s := afterOneTask "Compute report" (0 : Fin 1)
    runSchedule (program 1) (start 1 ["Compute report"]) (oneTask 0) = some s ∧
      s.status none = .running .exited ∧ (processed s.shared.output).length = 1 := by
  have hrun : runSchedule (program 1) (start 1 ["Compute report"]) (oneTask 0) =
      some (afterOneTask "Compute report" 0) := rfl
  obtain ⟨-, hprocessed, hexit, -⟩ := (dispatch_completes (by decide) hrun).2 quiet_afterOneTask
  exact ⟨hrun, hexit.mpr le_rfl, hprocessed⟩

end CpreLabs.TaskDispatch
