import CpreLabs.PriorityRotation
import CpreLabs.SchedulingGoals

/-!
# Lower priorities do not matter

Rotating queues that agree from some level up still do after a tick, and what is taken from one of
these is taken in both. So a process is not affected by those of lower priority: whatever they are,
it runs at the same ticks.
-/
namespace CpreLabs.Rotation

variable {ι κ : Type*} {finished finished' : ι → Bool}

theorem rotate_congr {l : List ι} (h : ∀ i ∈ l, finished i = finished' i) :
    rotate finished l = rotate finished' l := by
  induction l with
  | nil => rfl
  | cons i l ih =>
    rw [rotate, rotate, h i List.mem_cons_self, ih (fun j hj => h j (List.mem_cons_of_mem i hj))]

theorem update_rotate_none [DecidableEq κ] {l : κ → List ι} {m m' : κ} {l₁ : List ι}
    (h : rotate finished (l m) = (none, l₁)) {i : ι} (hi : i ∈ Function.update l m l₁ m') :
    i ∈ l m' := by
  by_cases heq : m' = m
  · subst heq
    rw [Function.update_self] at hi
    have hmem : i ∈ (rotate finished (l m')).2 := by
      rw [h]
      exact hi
    exact mem_of_mem_rotate hmem
  · rwa [Function.update_of_ne heq] at hi

theorem mem_of_serveLists [DecidableEq κ] (levels : List κ) {l : κ → List ι} {i : ι}
    (h : (serveLists finished levels l).1 = some i) : ∃ m ∈ levels, i ∈ l m := by
  induction levels generalizing l with
  | nil => cases h
  | cons m levels ih =>
    obtain ⟨⟨c, l₁⟩, hr⟩ : ∃ r, rotate finished (l m) = r := ⟨_, rfl⟩
    rw [serveLists, hr] at h
    cases c with
    | some j =>
      cases h
      have hfirst : (rotate finished (l m)).1 = some i := by rw [hr]
      exact ⟨m, List.mem_cons_self, (mem_of_rotate hfirst).1⟩
    | none =>
      obtain ⟨m', hm', hi⟩ := ih h
      exact ⟨m', List.mem_cons_of_mem m hm', update_rotate_none hr hi⟩

/-- A queue that is none of those served stays as it is. -/
theorem serveLists_others [DecidableEq κ] (levels : List κ) (l : κ → List ι) {m : κ}
    (hm : m ∉ levels) : (serveLists finished levels l).2 m = l m := by
  induction levels generalizing l with
  | nil => rfl
  | cons m' levels ih =>
    rw [List.mem_cons, not_or] at hm
    obtain ⟨hne, hm⟩ := hm
    obtain ⟨⟨c, l₁⟩, hr⟩ : ∃ r, rotate finished (l m') = r := ⟨_, rfl⟩
    rw [serveLists, hr]
    cases c with
    | some j => exact Function.update_of_ne hne _ _
    | none =>
      simp only
      rw [ih _ hm, Function.update_of_ne hne]

/-- Queues that agree from the level `top` up. -/
theorem serveLists_above [LinearOrder κ] {top : κ} {levels : List κ}
    (hsorted : levels.Pairwise (· > ·)) {l l' : κ → List ι} (hsame : ∀ m, top ≤ m → l m = l' m)
    (hfinished : ∀ m, top ≤ m → ∀ i ∈ l m, finished i = finished' i) :
    (∀ m, top ≤ m → (serveLists finished levels l).2 m = (serveLists finished' levels l').2 m) ∧
      ((∃ i, (serveLists finished levels l).1 = some i ∧
          (serveLists finished' levels l').1 = some i) ∨
        (∀ i, (serveLists finished levels l).1 = some i → ∃ m, ¬top ≤ m ∧ i ∈ l m) ∧
          ∀ i, (serveLists finished' levels l').1 = some i → ∃ m, ¬top ≤ m ∧ i ∈ l' m) := by
  induction levels generalizing l l' with
  | nil =>
    have hnone : ∀ {i : ι}, (none : Option ι) ≠ some i := fun h => Option.some_ne_none _ h.symm
    exact ⟨hsame, Or.inr ⟨fun i hi => absurd hi hnone, fun i hi => absurd hi hnone⟩⟩
  | cons m levels ih =>
    obtain ⟨hfirst, hrest⟩ := List.pairwise_cons.mp hsorted
    by_cases htop : top ≤ m
    · obtain ⟨⟨c, l₁⟩, hr⟩ : ∃ r, rotate finished (l m) = r := ⟨_, rfl⟩
      have hr' : rotate finished' (l' m) = (c, l₁) := by
        rw [← hsame m htop, ← rotate_congr (hfinished m htop), hr]
      have hupdate : ∀ m', top ≤ m' →
          Function.update l m l₁ m' = Function.update l' m l₁ m' := by
        intro m' hm'
        by_cases heq : m' = m
        · rw [heq, Function.update_self, Function.update_self]
        · rw [Function.update_of_ne heq, Function.update_of_ne heq, hsame m' hm']
      rw [serveLists, hr, serveLists, hr']
      cases c with
      | some i => exact ⟨hupdate, Or.inl ⟨i, rfl, rfl⟩⟩
      | none =>
        obtain ⟨hlists, hchoice⟩ := ih hrest hupdate
          (fun m' hm' i hi => hfinished m' hm' i (update_rotate_none hr hi))
        refine ⟨hlists, hchoice.imp_right fun hboth => ?_⟩
        obtain ⟨hlow, hlow'⟩ := hboth
        refine ⟨fun i hi => ?_, fun i hi => ?_⟩
        · obtain ⟨m', hm', hmem⟩ := hlow i hi
          exact ⟨m', hm', update_rotate_none hr hmem⟩
        · obtain ⟨m', hm', hmem⟩ := hlow' i hi
          exact ⟨m', hm', update_rotate_none hr' hmem⟩
    · have hbelow : ∀ m' ∈ m :: levels, ¬top ≤ m' := by
        intro m' hm' hle
        rcases List.mem_cons.mp hm' with rfl | hm'
        · exact htop hle
        · exact htop (hle.trans (hfirst m' hm').le)
      refine ⟨fun m' hm' => ?_, Or.inr ⟨fun i hi => ?_, fun i hi => ?_⟩⟩
      · rw [serveLists_others _ l (fun hmem => hbelow m' hmem hm'),
          serveLists_others _ l' (fun hmem => hbelow m' hmem hm'), hsame m' hm']
      · obtain ⟨m', hm', hmem⟩ := mem_of_serveLists _ hi
        exact ⟨m', hbelow m' hm', hmem⟩
      · obtain ⟨m', hm', hmem⟩ := mem_of_serveLists _ hi
        exact ⟨m', hbelow m' hm', hmem⟩

end CpreLabs.Rotation

namespace CpreLabs.Lab4
open UnitTick Rotation

/-- The tables have the same processes of the priority `top` and higher ones; the others may
differ in everything. -/
def Workload.AgreesFrom (top : Fin numPriorities) (w w' : Workload) : Prop :=
  ∀ i, top ≤ w.priority i ∨ top ≤ w'.priority i → w.priority i = w'.priority i ∧
    w.arrivaltime i = w'.arrivaltime i ∧ w.runtime i = w'.runtime i

section Isolation

variable {w w' : Workload} {top : Fin numPriorities}

theorem arrivalsOf_run (w : Workload) (k : ℕ) (level : Fin numPriorities) :
    (w.run roundRobinPriority k).procCopy.arrivalsOf k level =
      (List.finRange numProcesses).filter
        (fun i => w.arrivaltime i = k ∧ w.priority i = level) := by
  have hbooks := (run_of_sound sound_roundRobinPriority w k).1
  rw [Table.arrivalsOf]
  apply List.filter_congr
  intro i _
  apply decide_eq_decide.mpr
  rw [hbooks.arrivaltime, hbooks.priority, Int.ofNat_inj]

theorem arrivalsOf_agrees (h : w.AgreesFrom top w') (k : ℕ) {level : Fin numPriorities}
    (hlevel : top ≤ level) :
    (w.run roundRobinPriority k).procCopy.arrivalsOf k level =
      (w'.run roundRobinPriority k).procCopy.arrivalsOf k level := by
  rw [arrivalsOf_run, arrivalsOf_run]
  apply List.filter_congr
  intro i _
  apply decide_eq_decide.mpr
  constructor
  · intro ⟨harr, hpriority⟩
    obtain ⟨hpriority', harr', -⟩ := h i (Or.inl (hpriority ▸ hlevel))
    exact ⟨harr' ▸ harr, hpriority' ▸ hpriority⟩
  · intro ⟨harr, hpriority⟩
    obtain ⟨hpriority', harr', -⟩ := h i (Or.inr (hpriority ▸ hlevel))
    exact ⟨harr' ▸ harr, hpriority' ▸ hpriority⟩

theorem hasFinished_agrees (h : w.AgreesFrom top w') {k : ℕ} {i : Pid} (hi : top ≤ w.priority i)
    (hserved : served (w.choices roundRobinPriority) k i =
      served (w'.choices roundRobinPriority) k i) :
    (w.run roundRobinPriority k).procCopy.hasFinished i =
      (w'.run roundRobinPriority k).procCopy.hasFinished i := by
  have hfin := (run_of_sound sound_roundRobinPriority w k).1.finished i
  have hfin' := (run_of_sound sound_roundRobinPriority w' k).1.finished i
  obtain ⟨-, -, hruntime⟩ := h i (Or.inl hi)
  apply Bool.eq_iff_iff.mpr
  rw [Table.hasFinished, Table.hasFinished, hfin, hfin', hruntime, hserved]

/-- The queues from `top` up, and what their processes have had of the CPU. -/
def Alike (top : Fin numPriorities) (w w' : Workload) (k : ℕ) : Prop :=
  (∀ level, top ≤ level → w.levels k level = w'.levels k level) ∧
    ∀ i, top ≤ w.priority i → served (w.choices roundRobinPriority) k i =
      served (w'.choices roundRobinPriority) k i

theorem Alike.tick (h : w.AgreesFrom top w') {k : ℕ} (halike : Alike top w w' k) :
    (∀ level, top ≤ level → w.levels (k + 1) level = w'.levels (k + 1) level) ∧
      ∀ i, top ≤ w.priority i →
        (w.choices roundRobinPriority k = some i ↔ w'.choices roundRobinPriority k = some i) := by
  obtain ⟨hlevels, hserved⟩ := halike
  have hsame : ∀ level, top ≤ level → w.levels k level ++
      (w.run roundRobinPriority k).procCopy.arrivalsOf k level = w'.levels k level ++
        (w'.run roundRobinPriority k).procCopy.arrivalsOf k level := by
    intro level hlevel
    rw [hlevels level hlevel, arrivalsOf_agrees h k hlevel]
  have hfinished : ∀ level, top ≤ level → ∀ i ∈ w.levels k level ++
      (w.run roundRobinPriority k).procCopy.arrivalsOf k level,
      (w.run roundRobinPriority k).procCopy.hasFinished i =
        (w'.run roundRobinPriority k).procCopy.hasFinished i := by
    intro level hlevel i hi
    have hpriority := levels_own w k level i hi
    have htop : top ≤ w.priority i := hpriority ▸ hlevel
    exact hasFinished_agrees h htop (hserved i htop)
  obtain ⟨hlists, hchoice⟩ := serveLists_above priorities_sorted hsame hfinished
  refine ⟨hlists, fun i hi => ?_⟩
  rw [levels_choice, levels_choice]
  rcases hchoice with ⟨j, hj, hj'⟩ | ⟨hlow, hlow'⟩
  · rw [hj, hj']
  · constructor
    · intro hrun
      obtain ⟨level, hlevel, hmem⟩ := hlow i hrun
      rw [levels_own w k level i hmem] at hi
      exact absurd hi hlevel
    · intro hrun
      obtain ⟨level, hlevel, hmem⟩ := hlow' i hrun
      rw [(h i (Or.inl hi)).1, levels_own w' k level i hmem] at hi
      exact absurd hi hlevel

theorem alike (h : w.AgreesFrom top w') (k : ℕ) : Alike top w w' k := by
  induction k with
  | zero => exact ⟨fun _ _ => rfl, fun i _ => by rw [served_zero, served_zero]⟩
  | succ k ih =>
    obtain ⟨hlevels, hchoice⟩ := ih.tick h
    refine ⟨hlevels, fun i hi => ?_⟩
    rw [served_succ, served_succ, ih.2 i hi]
    simp only [hchoice i hi]

/-- The first ticks of a process in two schedules that run it at the same ticks. -/
theorem first_tick_unique {σ σ' : ℕ → Option Pid} {i : Pid} (h : ∀ k, σ k = some i ↔ σ' k = some i)
    {j j' : ℕ} (hj : σ j = some i) (hnone : served σ j i = 0) (hj' : σ' j' = some i)
    (hnone' : served σ' j' i = 0) : j = j' := by
  by_contra hne
  rcases Nat.lt_or_gt_of_ne hne with hlt | hlt
  · have hpos := served_pos_iff.mpr ⟨j, hlt, (h j).mp hj⟩
    omega
  · have hpos := served_pos_iff.mpr ⟨j', hlt, (h j').mpr hj'⟩
    omega

/-- Processes of lower priority change nothing for the others, whenever they arrive, however long
they run and whatever their priorities are. -/
theorem roundRobinPriority_isolated (h : w.AgreesFrom top w') :
    (∀ k i, top ≤ w.priority i →
      (w.choices roundRobinPriority k = some i ↔ w'.choices roundRobinPriority k = some i)) ∧
      ∀ s s', w.Ends roundRobinPriority s → w'.Ends roundRobinPriority s' →
        ∀ i, top ≤ w.priority i →
          (s.procCopy i).starttime = (s'.procCopy i).starttime ∧
            (s.procCopy i).endtime = (s'.procCopy i).endtime := by
  have hchoices : ∀ k i, top ≤ w.priority i →
      (w.choices roundRobinPriority k = some i ↔ w'.choices roundRobinPriority k = some i) :=
    fun k => ((alike h k).tick h).2
  refine ⟨hchoices, fun s s' hends hends' i hi => ⟨?_, ?_⟩⟩
  · obtain ⟨j, hj, hnone, hstart⟩ := starttime_of_ends sound_roundRobinPriority hends i
    obtain ⟨j', hj', hnone', hstart'⟩ := starttime_of_ends sound_roundRobinPriority hends' i
    rw [hstart, hstart', first_tick_unique (fun k => hchoices k i hi) hj hnone hj' hnone']
  · rw [endtime_of_ends sound_roundRobinPriority hends,
      endtime_of_ends sound_roundRobinPriority hends', completion, completion,
      (h i (Or.inl hi)).2.2]
    simp only [(alike h _).2 i hi]

/-- Half of the processes at one priority, the others at another and `n` ticks longer. -/
def twoClasses (first second : Fin numPriorities) (n : ℕ) : Workload where
  arrivaltime i := i
  runtime i := if i.val < 10 then 10 else 10 + n
  priority i := if i.val < 10 then first else second
  runtime_pos i := by
    split <;> omega

theorem roundRobinPriority_isolated_twoClasses :
    (twoClasses ⟨2, by decide⟩ ⟨0, by decide⟩ 0).choices roundRobinPriority 13 =
        some ⟨3, by decide⟩ ↔
      (twoClasses ⟨2, by decide⟩ ⟨1, by decide⟩ 19).choices roundRobinPriority 13 =
        some ⟨3, by decide⟩ := by
  have hagrees : (twoClasses ⟨2, by decide⟩ ⟨0, by decide⟩ 0).AgreesFrom ⟨2, by decide⟩
      (twoClasses ⟨2, by decide⟩ ⟨1, by decide⟩ 19) := by
    intro i hi
    by_cases hlow : i.val < 10
    · simp [twoClasses, hlow]
    · simp [twoClasses, hlow] at hi
  apply (roundRobinPriority_isolated hagrees).1
  simp [twoClasses]

end Isolation

end CpreLabs.Lab4
