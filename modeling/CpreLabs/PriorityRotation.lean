import CpreLabs.SchedulersSound

/-!
# Round robin with priority is strict and fair

The three circular queues of `round_robin_priority` are queues that rotate: at every tick the one
of the highest priority with an unfinished process does.
-/
namespace CpreLabs.Lab4
open UnitTick Rotation

/-- The processes that join the queue of a priority at time `t`. -/
def Table.arrivalsOf (proc : Table) (t : ℤ) (level : Fin numPriorities) : List Pid :=
  (List.finRange numProcesses).filter (fun i => (proc i).arrivaltime = t ∧ (proc i).priority = level)

/-- From the highest priority to the lowest. -/
def priorities : List (Fin numPriorities) := (List.finRange numPriorities).reverse

theorem priorities_sorted : priorities.Pairwise (· > ·) :=
  List.pairwise_reverse.mpr (List.pairwise_lt_finRange numPriorities)

theorem mem_priorities (level : Fin numPriorities) : level ∈ priorities :=
  List.mem_reverse.mpr (List.mem_finRange level)

section Call

variable {g : Globals} {proc : Table} {t : ℤ} {l : Fin numPriorities → List Pid}

theorem serveLevels_lists (proc : Table) (h : ∀ level, (g.priorityQueue level).Holds (l level))
    (levels : List (Fin numPriorities)) :
    (serveLevels proc levels g).1 = (serveLists proc.hasFinished levels l).1 ∧
      ∀ level, ((serveLevels proc levels g).2.priorityQueue level).Holds
        ((serveLists proc.hasFinished levels l).2 level) := by
  induction levels generalizing g l with
  | nil => exact ⟨rfl, h⟩
  | cons level levels ih =>
    have hsize : (l level).length ≤ (g.priorityQueue level).size.toNat := by
      rw [(h level).size, Int.toNat_natCast]
    obtain ⟨hchoice, hholds, -⟩ := serveLevel_rotate proc (h level) _ hsize
    obtain ⟨⟨c, q⟩, hr⟩ : ∃ r, serveLevel proc (g.priorityQueue level).size.toNat
      (g.priorityQueue level) = r := ⟨_, rfl⟩
    obtain ⟨⟨c', l'⟩, hr'⟩ : ∃ r, rotate proc.hasFinished (l level) = r := ⟨_, rfl⟩
    rw [hr, hr'] at hchoice hholds
    obtain rfl : c = c' := hchoice
    have hset := holds_setPriorityQueue h level hholds
    rw [serveLevels, hr, serveLists, hr']
    cases c with
    | some process => exact ⟨rfl, hset⟩
    | none => exact ih hset

/-- A call appends the arrivals and lets the queues rotate. -/
theorem roundRobinPriority_lists (h : ∀ level, (g.priorityQueue level).Holds (l level))
    (hroom : ∀ level, (l level).length + numProcesses ≤ maxQueueSize) (proc : Table) (t : ℤ) :
    (roundRobinPriority g proc t).1 = (serveLists proc.hasFinished priorities
        (fun level => l level ++ proc.arrivalsOf t level)).1 ∧
      ∀ level, ((roundRobinPriority g proc t).2.priorityQueue level).Holds
        ((serveLists proc.hasFinished priorities
          (fun level => l level ++ proc.arrivalsOf t level)).2 level) := by
  have harrivals := fun level => (arrivalsByPriority_holds proc t (List.finRange numProcesses) h
    (fun level => by rw [List.length_finRange]; exact hroom level) level).1
  exact serveLevels_lists proc harrivals priorities

end Call

/-- The queues in the simulation of `round_robin_priority`. -/
def Workload.levels (w : Workload) : ℕ → Fin numPriorities → List Pid
  | 0 => fun _ => []
  | k + 1 => (serveLists (w.run roundRobinPriority k).procCopy.hasFinished priorities
      (fun level => w.levels k level ++ (w.run roundRobinPriority k).procCopy.arrivalsOf k level)).2

/-- As long as the circular queues hold the lists, these and the arrivals have every ready process
once. -/
theorem levels_step (w : Workload) (k : ℕ)
    (hholds : ∀ level, ((w.run roundRobinPriority k).globals.priorityQueue level).Holds
      (w.levels k level)) :
    (∀ level, ((w.run roundRobinPriority (k + 1)).globals.priorityQueue level).Holds
        (w.levels (k + 1) level)) ∧
      (∀ level, (w.levels k level ++
        (w.run roundRobinPriority k).procCopy.arrivalsOf k level).Nodup) ∧
      (∀ i, (w.run roundRobinPriority k).Ready i → i ∈ w.levels k (w.priority i) ++
        (w.run roundRobinPriority k).procCopy.arrivalsOf k (w.priority i)) ∧
      w.choices roundRobinPriority k = (serveLists (w.run roundRobinPriority k).procCopy.hasFinished
        priorities (fun level => w.levels k level ++
          (w.run roundRobinPriority k).procCopy.arrivalsOf k level)).1 := by
  obtain ⟨hbooks, l, hleveled⟩ := run_of_sound sound_roundRobinPriority w k
  have hl : w.levels k = l := funext fun level => (hholds level).unique (hleveled.holds level)
  have hroom : ∀ level, (w.levels k level).length + numProcesses ≤ maxQueueSize := by
    intro level
    have hlen := (hleveled.nodup level).length_le_card
    rw [Fintype.card_fin] at hlen
    rw [hl]
    exact (Nat.add_le_add_right hlen _).trans (by decide)
  obtain ⟨hchoice, hnext⟩ :=
    roundRobinPriority_lists hholds hroom (w.run roundRobinPriority k).procCopy k
  obtain ⟨l', hlevels, hnodup, -, hall⟩ := hleveled.arrivals
  have hl' : ∀ level, w.levels k level ++
      (w.run roundRobinPriority k).procCopy.arrivalsOf k level = l' level := by
    intro level
    refine (arrivalsByPriority_holds _ k (List.finRange numProcesses) hholds
      (fun level => ?_) level).1.unique (hlevels.holds level)
    rw [List.length_finRange]
    exact hroom level
  refine ⟨fun level => ?_, fun level => ?_, fun i hi => ?_, ?_⟩
  · rw [Workload.run, tick_globals, hbooks.time]
    exact hnext level
  · rw [hl']
    exact hnodup level
  · rw [hl', ← hbooks.priority]
    refine hall i ?_ hi.2
    rw [← hbooks.time]
    exact hi.1
  · rw [Workload.choices, Simulation.choice, hbooks.time]
    exact hchoice

theorem levels_holds (w : Workload) (k : ℕ) (level : Fin numPriorities) :
    ((w.run roundRobinPriority k).globals.priorityQueue level).Holds (w.levels k level) := by
  induction k generalizing level with
  | zero => exact Queue.holds_initQueue _
  | succ k ih => exact (levels_step w k ih).1 level

theorem levels_nodup (w : Workload) (k : ℕ) (level : Fin numPriorities) :
    (w.levels k level ++ (w.run roundRobinPriority k).procCopy.arrivalsOf k level).Nodup :=
  (levels_step w k (levels_holds w k)).2.1 level

theorem levels_ready (w : Workload) (k : ℕ) {i : Pid} (h : (w.run roundRobinPriority k).Ready i) :
    i ∈ w.levels k (w.priority i) ++
      (w.run roundRobinPriority k).procCopy.arrivalsOf k (w.priority i) :=
  (levels_step w k (levels_holds w k)).2.2.1 i h

theorem levels_choice (w : Workload) (k : ℕ) :
    w.choices roundRobinPriority k = (serveLists (w.run roundRobinPriority k).procCopy.hasFinished
      priorities (fun level => w.levels k level ++
        (w.run roundRobinPriority k).procCopy.arrivalsOf k level)).1 :=
  (levels_step w k (levels_holds w k)).2.2.2

/-- The queue of a priority has processes of that priority only. -/
theorem levels_own (w : Workload) (k : ℕ) (level : Fin numPriorities) :
    ∀ i ∈ w.levels k level ++ (w.run roundRobinPriority k).procCopy.arrivalsOf k level,
      w.priority i = level := by
  have hnew : ∀ k, ∀ i ∈ (w.run roundRobinPriority k).procCopy.arrivalsOf k level,
      w.priority i = level := by
    intro k i hi
    have hpriority := (run_of_sound sound_roundRobinPriority w k).1.priority i
    rw [Table.arrivalsOf, List.mem_filter, decide_eq_true_eq] at hi
    rw [← hpriority]
    exact hi.2.2
  induction k with
  | zero =>
    intro i hi
    exact hnew 0 i hi
  | succ k ih =>
    intro i hi
    rcases List.mem_append.mp hi with hi | hi
    · exact ih i (mem_of_mem_serveLists priorities _ level hi)
    · exact hnew (k + 1) i hi

/-- The simulation of `round_robin_priority` is a run of the rotating queues. -/
theorem levelRun_levels (w : Workload) :
    LevelRun priorities (fun k => (w.run roundRobinPriority k).procCopy.hasFinished)
      (fun k => (w.run roundRobinPriority k).procCopy.arrivalsOf k) (w.choices roundRobinPriority)
      w.levels :=
  ⟨fun _ => rfl, levels_choice w⟩

/-- Round robin with priority runs a process of the highest priority at every tick, and of two that
are ready over an interval neither runs more than once more than the other. -/
theorem roundRobinPriority_strict_fair (w : Workload) :
    (∀ k, w.choices roundRobinPriority k = none → ∀ j, ¬(w.run roundRobinPriority k).Ready j) ∧
      (∀ k i, w.choices roundRobinPriority k = some i → (w.run roundRobinPriority k).Ready i ∧
        ∀ j, (w.run roundRobinPriority k).Ready j → w.priority j ≤ w.priority i) ∧
      ∀ p q a b, w.priority p = w.priority q → a ≤ b →
        (∀ k, a ≤ k → k < b →
          (w.run roundRobinPriority k).Ready p ∧ (w.run roundRobinPriority k).Ready q) →
        |((served (w.choices roundRobinPriority) b p : ℤ) -
            served (w.choices roundRobinPriority) a p) -
          ((served (w.choices roundRobinPriority) b q : ℤ) -
            served (w.choices roundRobinPriority) a q)| ≤ 1 := by
  have hcontract := contract_of_sound sound_roundRobinPriority w
  refine ⟨fun k => (hcontract.idle k).mp, fun k i hi => ⟨hcontract.ready k i hi, fun j hj => ?_⟩,
    fun p q a b hpriority hab hready => ?_⟩
  · obtain ⟨i', hi', hle⟩ := (levelRun_levels w).strict priorities_sorted
      (mem_priorities (w.priority j)) (levels_own w k) (levels_ready w k hj) hj.2
    rw [Option.some.inj (hi.symm.trans hi')]
    exact hle
  · by_cases hpq : p = q
    · rw [hpq, sub_self, abs_zero]
      exact Int.one_nonneg
    · have hp := fun k hak hkb => (hready k hak hkb).1
      have hq := fun k hak hkb => (hready k hak hkb).2
      refine (levelRun_levels w).fair priorities_sorted (mem_priorities (w.priority p))
        (levels_own w) (fun k => levels_nodup w k _) hpq hab (fun k hak hkb => ?_)
        (fun k hak hkb => ?_)
      · exact ⟨levels_ready w k (hp k hak hkb), (hp k hak hkb).2⟩
      · rw [hpriority]
        exact ⟨levels_ready w k (hq k hak hkb), (hq k hak hkb).2⟩

end CpreLabs.Lab4
