import Mathlib.Data.List.TakeWhile
import Mathlib.Algebra.Order.Group.Int
import Mathlib.Tactic.Common

/-!
# C strings, the arrays that hold them, and the routines of `string.h`

A string is the list of its bytes before the terminating NUL, so a NUL inside it
cannot be written down. An array `char[n + 1]` holds a string of at most `n` bytes.
-/
namespace CpreLabs

/-- The bytes of a string literal. -/
def ascii (s : String) : List UInt8 := s.toList.map (fun c => c.toNat.toUInt8)

/-- The bytes of a C string, without the terminating NUL. -/
structure CString where
  bytes : List UInt8
  noNul : ∀ b ∈ bytes, b ≠ 0
  deriving DecidableEq

namespace CString

@[ext] theorem ext {s t : CString} (h : s.bytes = t.bytes) : s = t := by
  cases s; cases t; cases h; rfl

def length (s : CString) : ℕ := s.bytes.length

/-- What a buffer holds when it is read as a string: everything before the first NUL. -/
def ofBuffer (buffer : List UInt8) : CString :=
  ⟨buffer.takeWhile (· != 0), fun b hb => by simpa using List.mem_takeWhile_imp hb⟩

/-- A string literal. -/
def lit (s : String) : CString := ofBuffer (ascii s)

def take (n : ℕ) (s : CString) : CString :=
  ⟨s.bytes.take n, fun b hb => s.noNul b (List.mem_of_mem_take hb)⟩

@[simp] theorem bytes_take (n : ℕ) (s : CString) : (s.take n).bytes = s.bytes.take n := rfl

theorem take_of_length_le {n : ℕ} {s : CString} (h : s.length ≤ n) : s.take n = s :=
  ext (List.take_of_length_le h)

theorem length_take_le (n : ℕ) (s : CString) : (s.take n).length ≤ n := by
  simp [length]

/-- A buffer without NUL is one string. -/
theorem bytes_ofBuffer {buffer : List UInt8} (h : ∀ b ∈ buffer, b ≠ 0) :
    (ofBuffer buffer).bytes = buffer := by
  exact List.takeWhile_eq_self_iff.mpr (by simpa using h)

end CString

/-- Difference of the first two bytes that disagree, with the terminating NUL read as 0. -/
def strcmpBytes : List UInt8 → List UInt8 → ℤ
  | [], [] => 0
  | [], b :: _ => -(b.toNat : ℤ)
  | a :: _, [] => a.toNat
  | a :: as, b :: bs => if a = b then strcmpBytes as bs else (a.toNat : ℤ) - b.toNat

def strcmp (s t : CString) : ℤ := strcmpBytes s.bytes t.bytes

def strncmp (s t : CString) (n : ℕ) : ℤ := strcmp (s.take n) (t.take n)

private theorem toNat_pos {b : UInt8} (h : b ≠ 0) : 0 < b.toNat :=
  Nat.pos_of_ne_zero fun h0 => h (UInt8.toNat_inj.mp h0)

private theorem strcmpBytes_eq_zero_iff (xs ys : List UInt8)
    (hx : ∀ b ∈ xs, b ≠ 0) (hy : ∀ b ∈ ys, b ≠ 0) : strcmpBytes xs ys = 0 ↔ xs = ys := by
  induction xs generalizing ys with
  | nil =>
    cases ys with
    | nil => simp [strcmpBytes]
    | cons b bs =>
      have hb := toNat_pos (hy b (by simp))
      simp only [strcmpBytes, reduceCtorEq, iff_false]
      omega
  | cons a as ih =>
    cases ys with
    | nil =>
      have ha := toNat_pos (hx a (by simp))
      simp only [strcmpBytes, reduceCtorEq, iff_false]
      omega
    | cons b bs =>
      by_cases h : a = b
      · have hi := ih bs (fun c hc => hx c (by simp [hc])) (fun c hc => hy c (by simp [hc]))
        simp [strcmpBytes, h, hi]
      · have hn : a.toNat ≠ b.toNat := fun he => h (UInt8.toNat_inj.mp he)
        simp only [strcmpBytes, h, ↓reduceIte, List.cons.injEq, false_and, iff_false]
        omega

/-- `strcmp` answers 0 exactly on equal strings. -/
@[simp] theorem strcmp_eq_zero_iff (s t : CString) : strcmp s t = 0 ↔ s = t :=
  (strcmpBytes_eq_zero_iff s.bytes t.bytes s.noNul t.noNul).trans
    ⟨CString.ext, fun h => by rw [h]⟩

/-- `strncmp` answers 0 exactly when the first `n` bytes agree. -/
theorem strncmp_eq_zero_iff (s t : CString) (n : ℕ) :
    strncmp s t n = 0 ↔ s.bytes.take n = t.bytes.take n :=
  (strcmp_eq_zero_iff _ _).trans ⟨congrArg CString.bytes, fun h => CString.ext h⟩

/-- The string held in an array `char[n + 1]`. -/
structure CharArray (n : ℕ) where
  str : CString
  fits : str.length ≤ n
  deriving DecidableEq

namespace CharArray

variable {n : ℕ}

@[ext] theorem ext {a b : CharArray n} (h : a.str = b.str) : a = b := by
  cases a; cases b; cases h; rfl

/-- `strncpy(array, s, n); array[n] = '\0';` -/
def strncpy (n : ℕ) (s : CString) : CharArray n := ⟨s.take n, s.length_take_le n⟩

@[simp] theorem str_strncpy {s : CString} (h : s.length ≤ n) : (strncpy n s).str = s :=
  CString.take_of_length_le h

@[simp] theorem strncpy_str (a : CharArray n) : strncpy n a.str = a :=
  ext (CString.take_of_length_le a.fits)

theorem strncpy_eq_iff {s : CString} (h : s.length ≤ n) (a : CharArray n) :
    strncpy n s = a ↔ a.str = s := by
  constructor
  · rintro rfl
    exact str_strncpy h
  · rintro rfl
    exact strncpy_str a

end CharArray

end CpreLabs
