import Mathlib.Algebra.Order.Ring.Int
import Mathlib.Data.Int.ModEq
import Mathlib.Tactic.Ring
import Mathlib.Tactic.Common

/-!
# Ring buffers

The `n` cells that start at `head` and wrap around after `capacity` cells, as a list.
Indices are integers; a push writes behind the window, a pop moves its head.
-/
namespace CpreLabs.RingBuffer

variable {α : Type*}

def window (buffer : ℤ → α) (capacity head : ℤ) (n : ℕ) : List α :=
  (List.range n).map (fun i : ℕ => buffer ((head + i) % capacity))

@[simp] theorem window_zero (buffer : ℤ → α) (capacity head : ℤ) :
    window buffer capacity head 0 = [] := rfl

/-- Positions closer together than the capacity are different cells. -/
theorem cell_ne {capacity head : ℤ} {i n : ℕ} (hi : i < n) (hn : (n : ℤ) < capacity) :
    (head + i) % capacity ≠ (head + n) % capacity := by
  intro heq
  obtain ⟨k, hk⟩ := Int.ModEq.dvd heq
  have hdist : (n : ℤ) - i = capacity * k := by omega
  have hpos : 0 < capacity * k := by omega
  have hk1 : 1 ≤ k := by
    by_contra hlt
    have hnonpos : capacity * k ≤ 0 := mul_nonpos_of_nonneg_of_nonpos (by omega) (by omega)
    omega
  have hge : capacity ≤ capacity * k := le_mul_of_one_le_right (by omega) hk1
  omega

/-- Writing behind a window that is not full appends to it. -/
theorem window_push (buffer : ℤ → α) {capacity : ℤ} (head : ℤ) {n : ℕ} (x : α)
    (hn : (n : ℤ) < capacity) :
    window (Function.update buffer ((head + n) % capacity) x) capacity head (n + 1) =
      window buffer capacity head n ++ [x] := by
  have hold : ∀ i ∈ List.range n,
      Function.update buffer ((head + n) % capacity) x ((head + i) % capacity) =
        buffer ((head + i) % capacity) := by
    intro i hi
    exact Function.update_of_ne (cell_ne (List.mem_range.mp hi) hn) _ _
  simp only [window, List.range_succ, List.map_append, List.map_cons, List.map_nil,
    Function.update_self]
  rw [List.map_congr_left hold]

/-- The first cell of a window, and the window behind it. -/
theorem window_pop (buffer : ℤ → α) {capacity head : ℤ} (n : ℕ) (h0 : 0 ≤ head)
    (hlt : head < capacity) :
    window buffer capacity head (n + 1) =
      buffer head :: window buffer capacity ((head + 1) % capacity) n := by
  have hshift : ∀ i : ℕ, (head + (i + 1 : ℕ)) % capacity =
      ((head + 1) % capacity + i) % capacity := by
    intro i
    rw [Int.emod_add_emod]
    congr 1
    push_cast
    ring
  simp only [window, List.range_succ_eq_map, List.map_cons, List.map_map, Function.comp_def,
    Nat.succ_eq_add_one, hshift, Nat.cast_zero, add_zero, Int.emod_eq_of_lt h0 hlt]

end CpreLabs.RingBuffer
