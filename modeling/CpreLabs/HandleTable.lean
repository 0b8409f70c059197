import Mathlib.Logic.Function.Basic
import Mathlib.Tactic.Common

/-!
# Tables of handles

A table gives out numbers and takes them back. Whoever may hold a number has a slot for it; the
books are kept if every number in use is in one slot, and nothing else is in any.
-/
namespace CpreLabs.Handles

variable {F V X : Type*} {table : F → Option V} {slot : X → Option F} {x y : X} {fd : F}

structure Balanced (table : F → Option V) (slot : X → Option F) : Prop where
  used_iff : ∀ fd, (∃ v, table fd = some v) ↔ ∃ x, slot x = some fd
  unique : ∀ x y fd, slot x = some fd → slot y = some fd → x = y

theorem Balanced.used (h : Balanced table slot) (hx : slot x = some fd) :
    ∃ v, table fd = some v :=
  (h.used_iff fd).mpr ⟨x, hx⟩

/-- A number that is given out is in no slot yet. -/
theorem Balanced.ne_of_free (h : Balanced table slot) (hfree : table fd = none) {g : F}
    (hx : slot x = some g) : g ≠ fd := by
  intro heq
  obtain ⟨v, hv⟩ := h.used hx
  rw [heq, hfree] at hv
  cases hv

/-- What the number in a slot stands for. -/
def refers (table : F → Option V) (slot : X → Option F) (x : X) : Option V := (slot x).bind table

theorem refers_of_slot (hx : slot x = some fd) : refers table slot x = table fd := by
  rw [refers, hx, Option.bind_some]

theorem refers_of_none (hx : slot x = none) : refers table slot x = none := by
  rw [refers, hx, Option.bind_none]

variable [DecidableEq F] [DecidableEq X]

theorem Balanced.open (h : Balanced table slot) (hfree : table fd = none) (hx : slot x = none)
    (v : V) :
    Balanced (Function.update table fd (some v)) (Function.update slot x (some fd)) := by
  constructor
  · intro g
    by_cases hg : g = fd
    · subst hg
      rw [Function.update_self]
      exact ⟨fun _ => ⟨x, Function.update_self ..⟩, fun _ => ⟨v, rfl⟩⟩
    · rw [Function.update_of_ne hg, h.used_iff]
      constructor
      · intro ⟨y, hy⟩
        have hne : y ≠ x := by
          intro heq
          rw [heq, hx] at hy
          cases hy
        exact ⟨y, by rw [Function.update_of_ne hne, hy]⟩
      · intro ⟨y, hy⟩
        by_cases hyx : y = x
        · rw [hyx, Function.update_self] at hy
          exact absurd (Option.some.inj hy).symm hg
        · rw [Function.update_of_ne hyx] at hy
          exact ⟨y, hy⟩
  · intro y z g hy hz
    by_cases hyx : y = x <;> by_cases hzx : z = x
    · rw [hyx, hzx]
    · rw [hyx, Function.update_self] at hy
      rw [Function.update_of_ne hzx] at hz
      exact absurd (Option.some.inj hy).symm (h.ne_of_free hfree hz)
    · rw [hzx, Function.update_self] at hz
      rw [Function.update_of_ne hyx] at hy
      exact absurd (Option.some.inj hz).symm (h.ne_of_free hfree hy)
    · rw [Function.update_of_ne hyx] at hy
      rw [Function.update_of_ne hzx] at hz
      exact h.unique y z g hy hz

theorem Balanced.refers_open (h : Balanced table slot) (hfree : table fd = none) (v : V) :
    refers (Function.update table fd (some v)) (Function.update slot x (some fd)) =
      Function.update (refers table slot) x (some v) := by
  funext y
  by_cases hyx : y = x
  · rw [hyx, Function.update_self, refers, Function.update_self, Option.bind_some,
      Function.update_self]
  · rw [Function.update_of_ne hyx, refers, refers, Function.update_of_ne hyx]
    cases hy : slot y with
    | none => rfl
    | some g => exact Function.update_of_ne (h.ne_of_free hfree hy) _ _

theorem Balanced.close (h : Balanced table slot) (hx : slot x = some fd) :
    Balanced (Function.update table fd none) (Function.update slot x none) := by
  have hstill : ∀ y g, Function.update slot x none y = some g → y ≠ x ∧ slot y = some g := by
    intro y g hy
    by_cases hyx : y = x
    · rw [hyx, Function.update_self] at hy
      cases hy
    · rw [Function.update_of_ne hyx] at hy
      exact ⟨hyx, hy⟩
  constructor
  · intro g
    by_cases hg : g = fd
    · subst hg
      rw [Function.update_self]
      constructor
      · intro ⟨v, hv⟩
        cases hv
      · intro ⟨y, hy⟩
        obtain ⟨hyx, hy⟩ := hstill y g hy
        exact absurd (h.unique y x g hy hx) hyx
    · rw [Function.update_of_ne hg, h.used_iff]
      constructor
      · intro ⟨y, hy⟩
        have hne : y ≠ x := by
          intro heq
          rw [heq, hx] at hy
          exact hg (Option.some.inj hy).symm
        exact ⟨y, by rw [Function.update_of_ne hne, hy]⟩
      · intro ⟨y, hy⟩
        exact ⟨y, (hstill y g hy).2⟩
  · intro y z g hy hz
    exact h.unique y z g (hstill y g hy).2 (hstill z g hz).2

theorem Balanced.refers_close (h : Balanced table slot) (hx : slot x = some fd) :
    refers (Function.update table fd none) (Function.update slot x none) =
      Function.update (refers table slot) x none := by
  funext y
  by_cases hyx : y = x
  · rw [hyx, Function.update_self, refers, Function.update_self, Option.bind_none]
  · rw [Function.update_of_ne hyx, refers, refers, Function.update_of_ne hyx]
    cases hy : slot y with
    | none => rfl
    | some g =>
      have hne : g ≠ fd := by
        intro heq
        rw [heq] at hy
        exact hyx (h.unique y x fd hy hx)
      exact Function.update_of_ne hne _ _

omit [DecidableEq F] in
/-- A number goes from one slot to another. -/
theorem Balanced.move (h : Balanced table slot) (hx : slot x = some fd) (hy : slot y = none) :
    Balanced table (Function.update (Function.update slot x none) y (some fd)) := by
  have hback : ∀ z g, Function.update (Function.update slot x none) y (some fd) z = some g →
      z = y ∧ g = fd ∨ z ≠ x ∧ z ≠ y ∧ slot z = some g := by
    intro z g hz
    by_cases hzy : z = y
    · rw [hzy, Function.update_self] at hz
      exact Or.inl ⟨hzy, (Option.some.inj hz).symm⟩
    · rw [Function.update_of_ne hzy] at hz
      by_cases hzx : z = x
      · rw [hzx, Function.update_self] at hz
        cases hz
      · rw [Function.update_of_ne hzx] at hz
        exact Or.inr ⟨hzx, hzy, hz⟩
  constructor
  · intro g
    rw [h.used_iff]
    constructor
    · intro ⟨z, hz⟩
      have hzy : z ≠ y := by
        intro heq
        rw [heq, hy] at hz
        cases hz
      by_cases hzx : z = x
      · rw [hzx, hx] at hz
        exact ⟨y, by rw [Function.update_self, hz]⟩
      · exact ⟨z, by rw [Function.update_of_ne hzy, Function.update_of_ne hzx, hz]⟩
    · intro ⟨z, hz⟩
      rcases hback z g hz with ⟨-, rfl⟩ | ⟨-, -, hz⟩
      · exact ⟨x, hx⟩
      · exact ⟨z, hz⟩
  · intro z w g hz hw
    rcases hback z g hz with ⟨hzy, hg⟩ | ⟨hzx, -, hz⟩ <;>
      rcases hback w g hw with ⟨hwy, hg'⟩ | ⟨hwx, -, hw⟩
    · rw [hzy, hwy]
    · rw [hg] at hw
      exact absurd (h.unique w x fd hw hx) hwx
    · rw [hg'] at hz
      exact absurd (h.unique z x fd hz hx) hzx
    · exact h.unique z w g hz hw

omit [DecidableEq F] in
theorem refers_move (table : F → Option V) (y : X) (hx : slot x = some fd) :
    refers table (Function.update (Function.update slot x none) y (some fd)) =
      Function.update (Function.update (refers table slot) x none) y (refers table slot x) := by
  funext z
  by_cases hzy : z = y
  · rw [hzy, Function.update_self, refers, Function.update_self, refers_of_slot hx, Option.bind_some]
  · rw [Function.update_of_ne hzy, refers, Function.update_of_ne hzy]
    by_cases hzx : z = x
    · rw [hzx, Function.update_self, Function.update_self, Option.bind_none]
    · rw [Function.update_of_ne hzx, Function.update_of_ne hzx, refers]

end CpreLabs.Handles
