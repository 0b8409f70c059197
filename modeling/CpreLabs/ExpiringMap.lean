import Mathlib.Data.List.Induction
import Mathlib.Order.WithBot
import Mathlib.Logic.Function.Basic
import Mathlib.Tactic.Common

/-!
# Maps whose entries stop counting at a deadline

An entry is live strictly before its deadline, and `⊤` is the deadline of an entry
that never stops counting. A map may forget entries whose deadline has passed: no
later lookup can tell, which is what makes lazy and eager removal agree.
-/
namespace CpreLabs

/-- A value with the moment from which it no longer counts. -/
structure Stored (V T : Type*) where
  value : V
  deadline : WithTop T

/-- A map from keys to values with deadlines. -/
abbrev ExpiringMap (K V T : Type*) := K → Option (Stored V T)

abbrev Write (K V T : Type*) := K × Option (Stored V T)

namespace ExpiringMap

variable {K V T : Type*} [DecidableEq K] [LinearOrder T]

/-- What a reader at `now` sees under a key. -/
def lookup (m : ExpiringMap K V T) (k : K) (now : T) : Option V :=
  match m k with
  | none => none
  | some s => if (now : WithTop T) < s.deadline then some s.value else none

def applyWrites (m : ExpiringMap K V T) (ws : List (Write K V T)) : ExpiringMap K V T :=
  ws.foldl (fun m w => Function.update m w.1 w.2) m

def lastWrite (ws : List (Write K V T)) (k : K) : Option (Write K V T) :=
  ws.reverse.find? (fun w => decide (w.1 = k))

omit [LinearOrder T] in
theorem applyWrites_concat (m : ExpiringMap K V T) (ws : List (Write K V T)) (w : Write K V T) :
    applyWrites m (ws ++ [w]) = Function.update (applyWrites m ws) w.1 w.2 := by
  simp [applyWrites]

omit [LinearOrder T] in
theorem lastWrite_concat (ws : List (Write K V T)) (w : Write K V T) (k : K) :
    lastWrite (ws ++ [w]) k = if w.1 = k then some w else lastWrite ws k := by
  by_cases h : w.1 = k <;> simp [lastWrite, h]

omit [LinearOrder T] in
/-- Only the last write to a key decides its entry. -/
theorem applyWrites_apply (m : ExpiringMap K V T) (ws : List (Write K V T)) (k : K) :
    applyWrites m ws k = ((lastWrite ws k).map Prod.snd).getD (m k) := by
  induction ws using List.reverseRecOn with
  | nil => simp [applyWrites, lastWrite]
  | append_singleton ws w ih =>
    rw [applyWrites_concat, lastWrite_concat]
    by_cases h : w.1 = k
    · subst h
      simp
    · rw [Function.update_of_ne (Ne.symm h), if_neg h, ih]

/-- `c` is `m` without some of the entries whose deadline lies before `now`. -/
def Pruned (now : T) (c m : ExpiringMap K V T) : Prop :=
  ∀ k, c k = m k ∨ (c k = none ∧ ∃ s, m k = some s ∧ s.deadline < (now : WithTop T))

omit [DecidableEq K] in
theorem Pruned.refl (now : T) (m : ExpiringMap K V T) : Pruned now m m := fun _ => Or.inl rfl

omit [DecidableEq K] in
theorem Pruned.mono {now later : T} {c m : ExpiringMap K V T}
    (h : Pruned now c m) (hle : now ≤ later) : Pruned later c m := by
  intro k
  rcases h k with h | ⟨hc, s, hm, hs⟩
  · exact Or.inl h
  · exact Or.inr ⟨hc, s, hm, hs.trans_le (WithTop.coe_le_coe.mpr hle)⟩

theorem Pruned.update {now : T} {c m : ExpiringMap K V T} (h : Pruned now c m)
    (k : K) (s : Option (Stored V T)) :
    Pruned now (Function.update c k s) (Function.update m k s) := by
  intro j
  by_cases hj : j = k
  · subst hj
    exact Or.inl (by simp)
  · simpa only [Function.update_of_ne hj] using h j

omit [DecidableEq K] in
/-- Dropping further entries whose deadline has passed keeps the relation. -/
theorem Pruned.drop {now : T} {c m : ExpiringMap K V T} (h : Pruned now c m)
    (p : Stored V T → Bool) (hp : ∀ s, p s = false → s.deadline < (now : WithTop T)) :
    Pruned now (fun k => (c k).filter p) m := by
  intro k
  rcases h k with hk | ⟨hk, s, hm, hs⟩
  · cases hm : m k with
    | none => exact Or.inl (by simp [hk, hm])
    | some s =>
      cases hps : p s with
      | true => exact Or.inl (by simp [hk, hm, hps])
      | false => exact Or.inr ⟨by simp [hk, hm, hps], s, rfl, hp s hps⟩
  · exact Or.inr ⟨by simp [hk], s, hm, hs⟩

omit [DecidableEq K] in
/-- No lookup from `now` on can tell the two maps apart. -/
theorem Pruned.lookup_eq {now later : T} {c m : ExpiringMap K V T} (h : Pruned now c m)
    (hle : now ≤ later) (k : K) : c.lookup k later = m.lookup k later := by
  rcases h k with hk | ⟨hk, s, hm, hs⟩
  · simp only [lookup, hk]
  · have hlt : ¬ (later : WithTop T) < s.deadline :=
      not_lt.mpr (hs.le.trans (WithTop.coe_le_coe.mpr hle))
    simp only [lookup, hk, hm, if_neg hlt]

omit [DecidableEq K] in
theorem Pruned.kept {now : T} {c m : ExpiringMap K V T} (h : Pruned now c m) {k : K}
    (hk : ∀ s, m k = some s → (now : WithTop T) ≤ s.deadline) : c k = m k := by
  rcases h k with h | ⟨_, s, hm, hs⟩
  · exact h
  · exact absurd hs (not_lt.mpr (hk s hm))

end ExpiringMap

end CpreLabs
