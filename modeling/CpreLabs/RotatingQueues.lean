import CpreLabs.UnitTickScheduling
import Mathlib.Data.List.Sublists
import Mathlib.Order.Basic
import Mathlib.Tactic.Ring

/-!
# Queues that rotate

A tick drops the finished jobs at the front of a queue and moves the first other job to its end.
Of several queues only the first one with such a job rotates. Two jobs that wait in one queue are
served alternately.
-/
namespace CpreLabs.Rotation
open UnitTick

variable {ι κ : Type*}

/-- The first unfinished job, and the queue with it at the end. -/
def rotate (finished : ι → Bool) : List ι → Option ι × List ι
  | [] => (none, [])
  | i :: l => if finished i then rotate finished l else (some i, l ++ [i])

/-- The first of the queues with an unfinished job rotates. -/
def serveLists [DecidableEq κ] (finished : ι → Bool) :
    List κ → (κ → List ι) → Option ι × (κ → List ι)
  | [], l => (none, l)
  | level :: levels, l =>
    match rotate finished (l level) with
    | (some i, l') => (some i, Function.update l level l')
    | (none, l') => serveLists finished levels (Function.update l level l')

section Rotate

variable {finished : ι → Bool} {l : List ι}

theorem rotate_spec (finished : ι → Bool) (l : List ι) :
    (∃ i before after, l = before ++ i :: after ∧ (∀ j ∈ before, finished j = true) ∧
      finished i = false ∧ rotate finished l = (some i, after ++ [i])) ∨
    ((∀ j ∈ l, finished j = true) ∧ rotate finished l = (none, [])) := by
  induction l with
  | nil => exact Or.inr ⟨fun j hj => (nomatch hj), rfl⟩
  | cons x l ih =>
    cases hx : finished x with
    | false =>
      refine Or.inl ⟨x, [], l, rfl, fun j hj => (nomatch hj), hx, ?_⟩
      rw [rotate, hx, if_neg Bool.false_ne_true]
    | true =>
      rw [rotate, hx, if_pos rfl]
      rcases ih with ⟨i, before, after, hl, hbefore, hi, hrotate⟩ | ⟨hall, hrotate⟩
      · refine Or.inl ⟨i, x :: before, after, by rw [hl, List.cons_append], fun j hj => ?_, hi,
          hrotate⟩
        rcases List.mem_cons.mp hj with rfl | hj
        · exact hx
        · exact hbefore j hj
      · refine Or.inr ⟨fun j hj => ?_, hrotate⟩
        rcases List.mem_cons.mp hj with rfl | hj
        · exact hx
        · exact hall j hj

theorem mem_of_rotate {i : ι} (h : (rotate finished l).1 = some i) :
    i ∈ l ∧ finished i = false := by
  rcases rotate_spec finished l with ⟨j, before, after, hl, -, hj, hrotate⟩ | ⟨-, hrotate⟩
  · rw [hrotate] at h
    cases h
    exact ⟨hl ▸ List.mem_append_right _ List.mem_cons_self, hj⟩
  · rw [hrotate] at h
    cases h

theorem mem_of_mem_rotate {i : ι} (hi : i ∈ (rotate finished l).2) : i ∈ l := by
  rcases rotate_spec finished l with ⟨j, before, after, hl, -, -, hrotate⟩ | ⟨-, hrotate⟩
  · rw [hrotate] at hi
    rw [hl]
    exact List.mem_append_right _ ((List.perm_append_singleton j after).mem_iff.mp hi)
  · rw [hrotate] at hi
    cases hi

/-- A list of two jobs in a queue, of which the finished ones in front are dropped. -/
theorem sublist_of_dropped {p q : ι} {before rest : List ι} (h : [p, q].Sublist (before ++ rest))
    (hbefore : ∀ j ∈ before, finished j = true) (hp : finished p = false) :
    [p, q].Sublist rest := by
  induction before with
  | nil => exact h
  | cons x before ih =>
    have hx := hbefore x List.mem_cons_self
    cases h with
    | cons _ h => exact ih h (fun j hj => hbefore j (List.mem_cons_of_mem x hj))
    | cons_cons _ h =>
      rw [hp] at hx
      cases hx

end Rotate

/-- The job that is behind has had the CPU once more, or as often. -/
def InTurn (l : List ι) (p q : ι) (ahead : ℤ) : Prop :=
  ([p, q].Sublist l ∧ (ahead = 0 ∨ ahead = -1)) ∨ ([q, p].Sublist l ∧ (ahead = 0 ∨ ahead = 1))

section InTurn

variable {finished : ι → Bool} {l : List ι} {p q : ι} {ahead : ℤ}

theorem InTurn.symm (h : InTurn l p q ahead) : InTurn l q p (-ahead) := by
  rcases h with ⟨hsub, hahead⟩ | ⟨hsub, hahead⟩
  · exact Or.inr ⟨hsub, by omega⟩
  · exact Or.inl ⟨hsub, by omega⟩

theorem InTurn.append (h : InTurn l p q ahead) (new : List ι) : InTurn (l ++ new) p q ahead := by
  rcases h with ⟨hsub, hahead⟩ | ⟨hsub, hahead⟩
  · exact Or.inl ⟨hsub.trans (List.sublist_append_left l new), hahead⟩
  · exact Or.inr ⟨hsub.trans (List.sublist_append_left l new), hahead⟩

theorem inTurn_of_mem (hp : p ∈ l) (hq : q ∈ l) (hpq : p ≠ q) : InTurn l p q 0 := by
  induction l with
  | nil => cases hp
  | cons x l ih =>
    rcases List.mem_cons.mp hp with rfl | hp'
    · have hq' := (List.mem_cons.mp hq).resolve_left hpq.symm
      exact Or.inl ⟨(List.singleton_sublist.mpr hq').cons_cons p, Or.inl rfl⟩
    · rcases List.mem_cons.mp hq with rfl | hq'
      · exact Or.inr ⟨(List.singleton_sublist.mpr hp').cons_cons q, Or.inl rfl⟩
      · rcases ih hp' hq' with ⟨hsub, hahead⟩ | ⟨hsub, hahead⟩
        · exact Or.inl ⟨hsub.cons x, hahead⟩
        · exact Or.inr ⟨hsub.cons x, hahead⟩

theorem inTurn_of_first [DecidableEq ι] {i : ι} {after : List ι} (hsub : [p, q].Sublist (i :: after))
    (hahead : ahead = 0 ∨ ahead = -1) (hpq : p ≠ q) (hnodup : (i :: after).Nodup) :
    InTurn (after ++ [i]) p q
      (ahead + (if i = p then 1 else 0) - if i = q then 1 else 0) := by
  have hiq : i ≠ q := by
    rintro rfl
    cases hsub with
    | cons _ h => exact (List.nodup_cons.mp hnodup).1 (h.subset (List.mem_cons_of_mem p List.mem_cons_self))
    | cons_cons _ h => exact hpq rfl
  rw [if_neg hiq]
  cases hsub with
  | cons _ h =>
    have hip : i ≠ p := by
      rintro rfl
      exact (List.nodup_cons.mp hnodup).1 (h.subset List.mem_cons_self)
    rw [if_neg hip]
    exact Or.inl ⟨h.trans (List.sublist_append_left after [i]), by omega⟩
  | cons_cons _ h =>
    rw [if_pos rfl]
    have hback : [q, p].Sublist (after ++ [p]) := h.append (List.Sublist.refl [p])
    exact Or.inr ⟨hback, by omega⟩

theorem InTurn.rotate [DecidableEq ι] (h : InTurn l p q ahead) (hnodup : l.Nodup) (hpq : p ≠ q)
    (hp : finished p = false) (hq : finished q = false) :
    ∃ i, (rotate finished l).1 = some i ∧ InTurn (rotate finished l).2 p q
      (ahead + (if i = p then 1 else 0) - if i = q then 1 else 0) := by
  have hmem : p ∈ l := by
    rcases h with ⟨hsub, -⟩ | ⟨hsub, -⟩
    · exact hsub.subset List.mem_cons_self
    · exact hsub.subset (List.mem_cons_of_mem q List.mem_cons_self)
  rcases rotate_spec finished l with ⟨i, before, after, hl, hbefore, -, hrotate⟩ | ⟨hall, -⟩
  · rw [hrotate]
    rw [hl] at h hnodup
    have hrest := (List.nodup_append.mp hnodup).2.1
    refine ⟨i, rfl, ?_⟩
    rcases h with ⟨hsub, hahead⟩ | ⟨hsub, hahead⟩
    · exact inTurn_of_first (sublist_of_dropped hsub hbefore hp) hahead hpq hrest
    · have hneg : -ahead = 0 ∨ -ahead = -1 := by omega
      have hturn :=
        (inTurn_of_first (sublist_of_dropped hsub hbefore hq) hneg hpq.symm hrest).symm
      have hsum : -(-ahead + (if i = q then 1 else 0) - if i = p then 1 else 0) =
          ahead + (if i = p then 1 else 0) - if i = q then 1 else 0 := by omega
      rw [hsum] at hturn
      exact hturn
  · have hdone := hall p hmem
    rw [hp] at hdone
    cases hdone

end InTurn

theorem mem_of_mem_serveLists [DecidableEq κ] {finished : ι → Bool} (levels : List κ) (l : κ → List ι) (m : κ) {i : ι}
    (hi : i ∈ (serveLists finished levels l).2 m) : i ∈ l m := by
  induction levels generalizing l with
  | nil => exact hi
  | cons m' levels ih =>
    have hupdate : i ∈ Function.update l m' (rotate finished (l m')).2 m → i ∈ l m := by
      intro hi
      by_cases heq : m = m'
      · rw [heq, Function.update_self] at hi
        rw [heq]
        exact mem_of_mem_rotate hi
      · rw [Function.update_of_ne heq] at hi
        exact hi
    obtain ⟨⟨c, l'⟩, hr⟩ : ∃ r, rotate finished (l m') = r := ⟨_, rfl⟩
    rw [hr] at hupdate
    rw [serveLists, hr] at hi
    cases c with
    | some j => exact hupdate hi
    | none => exact hupdate (ih _ hi)

section Levels

variable [LinearOrder κ] [DecidableEq κ] {finished : ι → Bool} {level : κ}

/-- While a job waits in a queue, that queue rotates or one before it does. -/
theorem serveLists_level {levels : List κ} (hsorted : levels.Pairwise (· > ·))
    (hlevel : level ∈ levels) (l : κ → List ι) {p : ι} (hp : p ∈ l level)
    (hunfinished : finished p = false) :
    (∃ m i, level < m ∧ i ∈ l m ∧ (serveLists finished levels l).1 = some i ∧
      (serveLists finished levels l).2 level = l level) ∨
    ((serveLists finished levels l).1 = (rotate finished (l level)).1 ∧
      (serveLists finished levels l).2 level = (rotate finished (l level)).2) := by
  induction levels generalizing l with
  | nil => cases hlevel
  | cons m levels ih =>
    obtain ⟨hfirst, hrest⟩ := List.pairwise_cons.mp hsorted
    rcases rotate_spec finished (l m) with
      ⟨i, before, after, hl, -, -, hrotate⟩ | ⟨hall, hrotate⟩
    · have hserve : serveLists finished (m :: levels) l =
          (some i, Function.update l m (after ++ [i])) := by
        rw [serveLists, hrotate]
      rw [hserve]
      rcases List.mem_cons.mp hlevel with rfl | hlevel
      · rw [hrotate]
        exact Or.inr ⟨rfl, Function.update_self ..⟩
      · have hlt : level < m := hfirst level hlevel
        refine Or.inl ⟨m, i, hlt, ?_, rfl, Function.update_of_ne hlt.ne _ _⟩
        rw [hl]
        exact List.mem_append_right _ List.mem_cons_self
    · have hserve : serveLists finished (m :: levels) l =
          serveLists finished levels (Function.update l m []) := by
        rw [serveLists, hrotate]
      rcases List.mem_cons.mp hlevel with rfl | hlevel
      · rw [hall p hp] at hunfinished
        cases hunfinished
      · have hsame : Function.update l m [] level = l level :=
          Function.update_of_ne (hfirst level hlevel).ne _ _
        have hrest' := ih hrest hlevel (Function.update l m []) (by rw [hsame]; exact hp)
        rw [hserve]
        rw [hsame] at hrest'
        rcases hrest' with ⟨m', i, hlt, hi, hchoice, hkeep⟩ | hturn
        · refine Or.inl ⟨m', i, hlt, ?_, hchoice, hkeep⟩
          by_cases heq : m' = m
          · rw [heq, Function.update_self] at hi
            cases hi
          · rw [Function.update_of_ne heq] at hi
            exact hi
        · exact Or.inr hturn

/-- The queues before the ticks, and the jobs that the ticks run. -/
structure LevelRun (levels : List κ) (finished : ℕ → ι → Bool) (arrived : ℕ → κ → List ι)
    (σ : ℕ → Option ι) (l : ℕ → κ → List ι) : Prop where
  step : ∀ k, l (k + 1) =
    (serveLists (finished k) levels (fun level => l k level ++ arrived k level)).2
  choice : ∀ k, σ k =
    (serveLists (finished k) levels (fun level => l k level ++ arrived k level)).1

variable {levels : List κ} {done : ℕ → ι → Bool} {arrived : ℕ → κ → List ι} {σ : ℕ → Option ι}
variable {l : ℕ → κ → List ι} {priority : ι → κ} {p q : ι}

/-- The job that runs is of the highest priority. -/
theorem LevelRun.strict (h : LevelRun levels done arrived σ l) (hsorted : levels.Pairwise (· > ·))
    (hlevel : level ∈ levels) {k : ℕ} (hown : ∀ m, ∀ i ∈ l k m ++ arrived k m, priority i = m)
    (hp : p ∈ l k level ++ arrived k level) (hunfinished : done k p = false) :
    ∃ i, σ k = some i ∧ level ≤ priority i := by
  rw [h.choice]
  rcases serveLists_level hsorted hlevel (fun level => l k level ++ arrived k level) hp
      hunfinished with
    ⟨m, i, hlt, hi, hchoice, -⟩ | ⟨hchoice, -⟩
  · exact ⟨i, hchoice, (hown m i hi).symm ▸ hlt.le⟩
  · rw [hchoice]
    rcases rotate_spec (done k) (l k level ++ arrived k level) with
      ⟨i, before, after, -, -, -, hrotate⟩ | ⟨hall, -⟩
    · have hi : (rotate (done k) (l k level ++ arrived k level)).1 = some i := by rw [hrotate]
      exact ⟨i, hi, (hown level i (mem_of_rotate hi).1).ge⟩
    · rw [hall p hp] at hunfinished
      cases hunfinished

theorem LevelRun.inTurn [DecidableEq ι] (h : LevelRun levels done arrived σ l)
    (hsorted : levels.Pairwise (· > ·)) (hlevel : level ∈ levels) {k : ℕ}
    (hown : ∀ m, ∀ i ∈ l k m ++ arrived k m, priority i = m)
    (hnodup : (l k level ++ arrived k level).Nodup) (hpq : p ≠ q) (hp : done k p = false)
    (hq : done k q = false) {ahead : ℤ} (hturn : InTurn (l k level ++ arrived k level) p q ahead) :
    InTurn (l (k + 1) level) p q
      (ahead + (if σ k = some p then 1 else 0) - if σ k = some q then 1 else 0) := by
  have hmem : p ∈ l k level ++ arrived k level ∧ q ∈ l k level ++ arrived k level := by
    rcases hturn with ⟨hsub, -⟩ | ⟨hsub, -⟩
    · exact ⟨hsub.subset List.mem_cons_self,
        hsub.subset (List.mem_cons_of_mem p List.mem_cons_self)⟩
    · exact ⟨hsub.subset (List.mem_cons_of_mem q List.mem_cons_self),
        hsub.subset List.mem_cons_self⟩
  rw [h.step, h.choice]
  rcases serveLists_level hsorted hlevel (fun level => l k level ++ arrived k level) hmem.1 hp with
    ⟨m, i, hlt, hi, hchoice, hkeep⟩ | ⟨hchoice, hrotate⟩
  · have hne : ∀ x ∈ l k level ++ arrived k level, ¬some i = some x := by
      intro x hx heq
      have hx' := hown level x hx
      rw [← Option.some.inj heq, hown m i hi] at hx'
      exact hlt.ne hx'.symm
    rw [hkeep, hchoice, if_neg (hne p hmem.1), if_neg (hne q hmem.2), add_zero, sub_zero]
    exact hturn
  · obtain ⟨i, hi, hnext⟩ := hturn.rotate hnodup hpq hp hq
    rw [hrotate, hchoice, hi]
    simp only [Option.some.injEq]
    exact hnext

/-- Two jobs that wait in one queue over some ticks are served equally often, up to one. -/
theorem LevelRun.fair [DecidableEq ι] (h : LevelRun levels done arrived σ l)
    (hsorted : levels.Pairwise (· > ·)) (hlevel : level ∈ levels)
    (hown : ∀ k m, ∀ i ∈ l k m ++ arrived k m, priority i = m)
    (hnodup : ∀ k, (l k level ++ arrived k level).Nodup) (hpq : p ≠ q) {a b : ℕ} (hab : a ≤ b)
    (hp : ∀ k, a ≤ k → k < b → p ∈ l k level ++ arrived k level ∧ done k p = false)
    (hq : ∀ k, a ≤ k → k < b → q ∈ l k level ++ arrived k level ∧ done k q = false) :
    |((served σ b p : ℤ) - served σ a p) - ((served σ b q : ℤ) - served σ a q)| ≤ 1 := by
  have hturn : b = a ∨ InTurn (l b level) p q
      (((served σ b p : ℤ) - served σ a p) - ((served σ b q : ℤ) - served σ a q)) := by
    induction b, hab using Nat.le_induction with
    | base => exact Or.inl rfl
    | succ k hak ih =>
      obtain ⟨hpk, hpk'⟩ := hp k hak (Nat.lt_succ_self k)
      obtain ⟨hqk, hqk'⟩ := hq k hak (Nat.lt_succ_self k)
      have hbefore : InTurn (l k level ++ arrived k level) p q
          (((served σ k p : ℤ) - served σ a p) - ((served σ k q : ℤ) - served σ a q)) := by
        rcases ih (fun m ham hmk => hp m ham (Nat.lt_succ_of_lt hmk))
          (fun m ham hmk => hq m ham (Nat.lt_succ_of_lt hmk)) with rfl | hturn
        · rw [sub_self, sub_self, sub_self]
          exact inTurn_of_mem hpk hqk hpq
        · exact hturn.append _
      have hnext := h.inTurn hsorted hlevel (hown k) (hnodup k) hpq hpk' hqk' hbefore
      have hsum : ((served σ (k + 1) p : ℤ) - served σ a p) -
          ((served σ (k + 1) q : ℤ) - served σ a q) =
          ((served σ k p : ℤ) - served σ a p) - ((served σ k q : ℤ) - served σ a q) +
            (if σ k = some p then 1 else 0) - if σ k = some q then 1 else 0 := by
        rw [served_succ, served_succ]
        push_cast
        ring
      rw [hsum]
      exact Or.inr hnext
  rcases hturn with rfl | ⟨-, hahead⟩ | ⟨-, hahead⟩
  · simp
  · rcases hahead with heq | heq <;> rw [heq] <;> decide
  · rcases hahead with heq | heq <;> rw [heq] <;> decide

end Levels

end CpreLabs.Rotation
