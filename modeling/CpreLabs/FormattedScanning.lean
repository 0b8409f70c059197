import CpreLabs.CStrings
import Mathlib.Algebra.Order.Group.Int
import Mathlib.Data.List.DropRight
import Mathlib.Tactic.Common
import Mathlib.Tactic.Ring

/-!
# `sscanf`, decimal numbers and the words of a line

A format is a list of directives. A conversion that stops at its width leaves the rest of
the word to the next conversion, so what a format assigns depends on the words of its input
and on their lengths.
-/
namespace CpreLabs

/-- `isspace` in the C locale. -/
def isSpace (b : UInt8) : Bool := b = 32 || (9 ≤ b && b ≤ 13)

/-- `isdigit`. -/
def isDigit (b : UInt8) : Bool := 48 ≤ b && b ≤ 57

/-- The whitespace-delimited words of a line. -/
def words (input : List UInt8) : List (List UInt8) :=
  (input.splitOnP isSpace).filter (fun word => !word.isEmpty)

namespace Scanf

inductive Directive where
  /-- An ordinary character: the next byte must be this one. -/
  | byte (b : UInt8)
  /-- White space: any number of white-space bytes, none included. -/
  | space
  /-- `%<width>s`. -/
  | str (width : ℕ)
  /-- `%d`. -/
  | int

/-- What a conversion stores through its argument. -/
inductive Field where
  | str (bytes : List UInt8)
  | int (value : ℤ)
  deriving DecidableEq

/-- The ordinary characters of a format. -/
def literal (text : String) : List Directive := (ascii text).map .byte

def skipSpace (input : List UInt8) : List UInt8 := input.dropWhile isSpace

def scanStr (width : ℕ) (input : List UInt8) : Option (List UInt8 × List UInt8) :=
  let input := skipSpace input
  match (input.takeWhile (fun b => !isSpace b)).take width with
  | [] => none
  | field => some (field, input.drop field.length)

def decimalValue (digits : List UInt8) : ℕ :=
  digits.foldl (fun value b => 10 * value + (b.toNat - 48)) 0

def longMin : ℤ := -9223372036854775808
def longMax : ℤ := 9223372036854775807

/-- `%d` converts as `strtol` does, which saturates, and stores the result as a 32-bit `int`. -/
def storeInt (value : ℤ) : ℤ := Int.bmod (max longMin (min value longMax)) 4294967296

def scanInt (input : List UInt8) : Option (ℤ × List UInt8) :=
  let input := skipSpace input
  let sign := input.takeWhile (fun b => b = 43 || b = 45) |>.take 1
  let input := input.drop sign.length
  match input.takeWhile isDigit with
  | [] => none
  | digits =>
      let value : ℤ := decimalValue digits
      some (storeInt (if sign = [45] then -value else value), input.drop digits.length)

/-- The conversions `sscanf` completes before it fails or reaches the end of the format; their
number is what it returns, apart from `EOF`. -/
def scan : List Directive → List UInt8 → List Field
  | [], _ => []
  | .byte b :: format, input =>
      match input with
      | [] => []
      | c :: rest => if c = b then scan format rest else []
  | .space :: format, input => scan format (skipSpace input)
  | .str width :: format, input =>
      match scanStr width input with
      | none => []
      | some (field, rest) => .str field :: scan format rest
  | .int :: format, input =>
      match scanInt input with
      | none => []
      | some (value, rest) => .int value :: scan format rest

end Scanf

def sscanf (s : CString) (format : List Scanf.Directive) : List Scanf.Field :=
  Scanf.scan format s.bytes

/-- `%ld`. -/
def decimal (value : ℤ) : List UInt8 :=
  if value < 0 then 45 :: ascii (Nat.repr value.natAbs) else ascii (Nat.repr value.natAbs)

section Words

/-- A word: not empty, and without white space. -/
def IsWord (word : List UInt8) : Prop := word ≠ [] ∧ ∀ b ∈ word, isSpace b = false

instance : DecidablePred IsWord := fun word =>
  decidable_of_iff (word ≠ [] ∧ word.all (fun b => !isSpace b) = true) (by simp [IsWord])

@[simp] theorem words_nil : words [] = [] := rfl

theorem words_space {b : UInt8} (hb : isSpace b = true) (input : List UInt8) :
    words (b :: input) = words input := by
  simp [words, List.splitOnP_cons_eq_if_modifyHead, hb]

theorem words_word {word : List UInt8} (hw : IsWord word) : words word = [word] := by
  simp [words, List.splitOnP_eq_singleton hw.2, hw.1]

/-- A word ends where white space or the end of the line follows. -/
theorem words_append {word rest : List UInt8} (hw : IsWord word)
    (hrest : ∀ b ∈ rest.head?, isSpace b = true) : words (word ++ rest) = word :: words rest := by
  cases rest with
  | nil => rw [List.append_nil, words_word hw, words_nil]
  | cons b rest =>
    have hb := hrest b rfl
    rw [words_space hb, words, List.splitOnP_append_cons_of_forall_mem hw.2 b hb]
    simp [words, hw.1]

theorem words_skipSpace (input : List UInt8) : words (Scanf.skipSpace input) = words input := by
  induction input with
  | nil => rfl
  | cons b input ih =>
    cases hb : isSpace b with
    | true => rw [words_space hb, ← ih, Scanf.skipSpace, List.dropWhile_cons_of_pos hb]; rfl
    | false => rw [Scanf.skipSpace, List.dropWhile_cons_of_neg (by simp [hb])]

/-- Behind the leading white space stands the first word, if there is one. -/
theorem skipSpace_cases (input : List UInt8) :
    (words input = [] ∧ Scanf.skipSpace input = []) ∨
      ∃ word rest, IsWord word ∧ (∀ b ∈ rest.head?, isSpace b = true) ∧
        Scanf.skipSpace input = word ++ rest ∧ words input = word :: words rest := by
  rw [← words_skipSpace]
  cases h : Scanf.skipSpace input with
  | nil => exact .inl ⟨rfl, rfl⟩
  | cons b bs =>
    have hb : isSpace b = false := by
      have hhead := List.head?_dropWhile_not isSpace input
      rw [show input.dropWhile isSpace = b :: bs from h] at hhead
      simpa using hhead
    have hw : IsWord ((b :: bs).takeWhile (fun b => !isSpace b)) := by
      refine ⟨by simp [hb], fun c hc => ?_⟩
      simpa using List.mem_takeWhile_imp hc
    have hrest : ∀ c ∈ ((b :: bs).dropWhile (fun b => !isSpace b)).head?, isSpace c = true := by
      intro c hc
      have hhead := List.head?_dropWhile_not (fun b => !isSpace b) (b :: bs)
      rw [hc] at hhead
      simpa using hhead
    have happ := List.takeWhile_append_dropWhile (p := fun b => !isSpace b) (l := b :: bs)
    refine .inr ⟨_, _, hw, hrest, happ.symm, ?_⟩
    rw [← words_append hw hrest, happ]

/-- The first word of a line reaches at least as far as a word the line starts with. -/
theorem prefix_first_word {input xs word : List UInt8} {later : List (List UInt8)}
    (hxs : IsWord xs) (h : xs <+: input) (hw : words input = word :: later) : xs <+: word := by
  have hskip : Scanf.skipSpace input = input := by
    obtain ⟨rest, rfl⟩ := h
    cases xs with
    | nil => exact absurd rfl hxs.1
    | cons x xs => exact List.dropWhile_cons_of_neg (by simp [hxs.2 x (by simp)])
  rcases skipSpace_cases input with ⟨hnil, -⟩ | ⟨w, rest, -, hrest, hsplit, hwords⟩
  · rw [hnil] at hw
    cases hw
  · obtain ⟨rfl, -⟩ := List.cons.inj (hwords.symm.trans hw)
    rw [hskip] at hsplit
    subst hsplit
    rcases List.prefix_or_prefix_of_prefix h (List.prefix_append w rest) with h | ⟨more, rfl⟩
    · exact h
    · cases more with
      | nil => simp
      | cons b more =>
        obtain ⟨_, h⟩ := (List.prefix_append_right_inj w).mp h
        have hb := hxs.2 b (by simp)
        rw [hrest b (by rw [← h]; rfl)] at hb
        cases hb

theorem of_mem_words {input word : List UInt8} (h : word ∈ words input) :
    IsWord word ∧ ∀ b ∈ word, b ∈ input := by
  induction hn : input.length using Nat.strong_induction_on generalizing input with
  | _ n ih =>
    rcases skipSpace_cases input with ⟨hnil, -⟩ | ⟨w, rest, hw, -, hskip, hwords⟩
    · rw [hnil] at h
      cases h
    · have hsub : (w ++ rest).Sublist input := hskip ▸ List.dropWhile_sublist _
      rw [hwords] at h
      rcases List.mem_cons.mp h with rfl | h
      · exact ⟨hw, fun b hb => hsub.subset (List.mem_append_left _ hb)⟩
      · have hlen := hsub.length_le
        have hpos := List.length_pos_of_ne_nil hw.1
        rw [List.length_append] at hlen
        obtain ⟨hword, hmem⟩ := ih rest.length (by omega) h rfl
        exact ⟨hword, fun b hb => hsub.subset (List.mem_append_right _ (hmem b hb))⟩

end Words

namespace Scanf

section Fields

/-- The words left to the next conversion when one of this width has taken the first. -/
def afterField (width : ℕ) (word : List UInt8) (later : List (List UInt8)) :
    List (List UInt8) := if word.length ≤ width then later else word.drop width :: later

/-- Cutting a word makes no byte appear. -/
theorem of_mem_afterField {width : ℕ} {word w : List UInt8} {later : List (List UInt8)}
    (h : w ∈ afterField width word later) :
    ∃ v ∈ word :: later, ∀ b ∈ w, b ∈ v := by
  rw [afterField] at h
  split at h
  · exact ⟨w, List.mem_cons_of_mem _ h, fun b hb => hb⟩
  · rcases List.mem_cons.mp h with rfl | h
    · exact ⟨word, by simp, fun b hb => List.mem_of_mem_drop hb⟩
    · exact ⟨w, List.mem_cons_of_mem _ h, fun b hb => hb⟩

/-- `%<width>s` takes the first word as far as its width reaches; what is left of the word is
the first word for the next conversion. -/
theorem scanStr_of_words {width : ℕ} (hwidth : 0 < width) {input word : List UInt8}
    {later : List (List UInt8)} (h : words input = word :: later) :
    ∃ rest, scanStr width input = some (word.take width, rest) ∧
      words rest = afterField width word later := by
  rcases skipSpace_cases input with ⟨hnil, -⟩ | ⟨w, rest, hw, hrest, hskip, hwords⟩
  · rw [hnil] at h
    cases h
  · obtain ⟨rfl, rfl⟩ := List.cons.inj (hwords.symm.trans h)
    have htake : (w ++ rest).takeWhile (fun b => !isSpace b) = w := by
      rw [List.takeWhile_append_of_pos (fun b hb => by simp [hw.2 b hb])]
      cases rest with
      | nil => simp
      | cons b bs => simp [hrest b rfl]
    have hfield : w.take width ≠ [] := by
      rw [ne_eq, List.take_eq_nil_iff, not_or]
      exact ⟨Nat.ne_of_gt hwidth, hw.1⟩
    have hdrop : (w ++ rest).drop (w.take width).length = w.drop width ++ rest := by
      have hsplit : w ++ rest = w.take width ++ (w.drop width ++ rest) := by
        rw [← List.append_assoc, List.take_append_drop]
      conv_lhs => arg 2; rw [hsplit]
      exact List.drop_left
    refine ⟨w.drop width ++ rest, ?_, ?_⟩
    · simp only [scanStr, hskip, htake]
      rw [hdrop]
    · by_cases hlen : w.length ≤ width
      · rw [afterField, if_pos hlen, List.drop_eq_nil_of_le hlen, List.nil_append]
      · have hleft : IsWord (w.drop width) := by
          refine ⟨fun h => hlen (List.drop_eq_nil_iff.mp h), fun b hb => ?_⟩
          exact hw.2 b (List.mem_of_mem_drop hb)
        rw [afterField, if_neg hlen, words_append hleft hrest]

theorem scanStr_of_words_nil (width : ℕ) {input : List UInt8} (h : words input = []) :
    scanStr width input = none := by
  rcases skipSpace_cases input with ⟨-, hskip⟩ | ⟨w, rest, -, -, -, hwords⟩
  · simp [scanStr, hskip]
  · rw [h] at hwords
    cases hwords

theorem scanInt_skipSpace (input : List UInt8) : scanInt (skipSpace input) = scanInt input := by
  have h : skipSpace (skipSpace input) = skipSpace input := List.dropWhile_idempotent ..
  unfold scanInt
  rw [h]

theorem scanInt_of_words_nil {input : List UInt8} (h : words input = []) :
    scanInt input = none := by
  rcases skipSpace_cases input with ⟨-, hskip⟩ | ⟨w, rest, -, -, -, hwords⟩
  · simp [scanInt, hskip]
  · rw [h] at hwords
    cases hwords

theorem scan_literal (text : List UInt8) (format : List Directive) (input : List UInt8) :
    scan (text.map .byte ++ format) input =
      if text <+: input then scan format (input.drop text.length) else [] := by
  induction text generalizing input with
  | nil => simp
  | cons b text ih =>
    cases input with
    | nil => simp [scan]
    | cons c rest =>
      simp only [List.map_cons, List.cons_append, scan, ih, List.length_cons, List.drop_succ_cons,
        List.cons_prefix_cons]
      by_cases hc : c = b
      · simp [hc]
      · simp [hc, Ne.symm hc]

end Fields

section Decimal

private theorem digit_toUInt8 {c : Char} (hc : c.isDigit = true) :
    isDigit c.toNat.toUInt8 = true ∧ c.toNat.toUInt8.toNat = c.toNat := by
  simp only [Char.isDigit, Bool.and_eq_true, decide_eq_true_eq, ge_iff_le] at hc
  have hle : 48 ≤ c.toNat ∧ c.toNat ≤ 57 := by
    exact ⟨by simpa using UInt32.le_iff_toNat_le.mp hc.1, by simpa using UInt32.le_iff_toNat_le.mp hc.2⟩
  have hn : c.toNat.toUInt8.toNat = c.toNat := by
    simp only [Nat.toUInt8, UInt8.toNat_ofNat']
    omega
  refine ⟨?_, hn⟩
  simp only [isDigit, Bool.and_eq_true, decide_eq_true_eq, UInt8.le_iff_toNat_le, hn]
  exact hle

theorem isDigit_of_mem_repr {n : ℕ} {b : UInt8} (hb : b ∈ ascii n.repr) : isDigit b = true := by
  simp only [ascii, Nat.toList_repr, List.mem_map] at hb
  obtain ⟨c, hc, rfl⟩ := hb
  exact (digit_toUInt8 (Nat.isDigit_of_mem_toDigits (by omega) (by omega) hc)).1

theorem not_space_of_isDigit {b : UInt8} (h : isDigit b = true) : isSpace b = false := by
  simp only [isSpace, isDigit, Bool.or_eq_false_iff, Bool.and_eq_true, decide_eq_true_eq,
    Bool.and_eq_false_iff, decide_eq_false_iff_not, ← UInt8.toNat_inj,
    UInt8.le_iff_toNat_le] at h ⊢
  simp only [UInt8.reduceToNat] at h ⊢
  omega

theorem not_sign_of_isDigit {b : UInt8} (h : isDigit b = true) : (b = 43 || b = 45) = false := by
  simp only [isDigit, Bool.and_eq_true, decide_eq_true_eq, Bool.or_eq_false_iff,
    decide_eq_false_iff_not, ← UInt8.toNat_inj, UInt8.le_iff_toNat_le] at h ⊢
  simp only [UInt8.reduceToNat] at h ⊢
  omega

theorem isWord_repr (n : ℕ) : IsWord (ascii n.repr) := by
  refine ⟨?_, fun b hb => not_space_of_isDigit (isDigit_of_mem_repr hb)⟩
  simp [ascii, Nat.toDigits_ne_nil]

theorem decimalValue_repr (n : ℕ) : decimalValue (ascii n.repr) = n := by
  have hfold : ∀ (cs : List Char) (init : ℕ), (∀ c ∈ cs, c.isDigit = true) →
      (cs.map (fun c => c.toNat.toUInt8)).foldl (fun value b => 10 * value + (b.toNat - 48)) init =
        Nat.ofDigitChars 10 cs init := by
    intro cs
    induction cs with
    | nil => simp
    | cons c cs ih =>
      intro init hcs
      obtain ⟨hc, hcs⟩ := List.forall_mem_cons.mp hcs
      rw [List.map_cons, List.foldl_cons, ih _ hcs, Nat.ofDigitChars_cons, (digit_toUInt8 hc).2]
      rfl
  rw [decimalValue, ascii, Nat.toList_repr, hfold]
  · exact Nat.ofDigitChars_ten_toDigits
  · exact fun c hc => Nat.isDigit_of_mem_toDigits (by omega) (by omega) hc

/-- Reading back a printed number. -/
theorem scanInt_of_words {n : ℕ} {input : List UInt8} {later : List (List UInt8)}
    (h : words input = ascii n.repr :: later) :
    ∃ rest, scanInt input = some (storeInt n, rest) := by
  rcases skipSpace_cases input with ⟨hnil, -⟩ | ⟨w, rest, hw, hrest, hskip, hwords⟩
  · rw [hnil] at h
    cases h
  · obtain ⟨rfl, -⟩ := List.cons.inj (hwords.symm.trans h)
    have hdigits := fun b => @isDigit_of_mem_repr n b
    have hne : ascii n.repr ≠ [] := hw.1
    have hsign : (ascii n.repr ++ rest).takeWhile (fun b => b = 43 || b = 45) = [] := by
      cases hd : ascii n.repr with
      | nil => exact absurd hd hw.1
      | cons b bs =>
        have hb := hdigits b (by simp [hd])
        rw [List.cons_append, List.takeWhile_cons_of_neg]
        rw [not_sign_of_isDigit hb]
        exact Bool.false_ne_true
    have htake : (ascii n.repr ++ rest).takeWhile isDigit = ascii n.repr := by
      rw [List.takeWhile_append_of_pos hdigits]
      cases rest with
      | nil => simp
      | cons b bs =>
        have hb := hrest b rfl
        have hd : isDigit b = false := by
          cases hd : isDigit b with
          | false => rfl
          | true =>
            rw [not_space_of_isDigit hd] at hb
            cases hb
        simp [hd]
    refine ⟨rest, ?_⟩
    simp only [scanInt, hskip, hsign, List.take_nil, List.length_nil, List.drop_zero, htake,
      List.drop_left, decimalValue_repr]
    simp

theorem storeInt_of_range {value : ℤ} (hlow : -2147483648 ≤ value) (hhigh : value < 2147483648) :
    storeInt value = value := by
  have hclamp : max longMin (min value longMax) = value := by
    simp only [longMin, longMax]
    omega
  rw [storeInt, hclamp]
  exact Int.bmod_eq_of_le (by omega) (by omega)

theorem storeInt_of_lt {n : ℕ} (h : n < 2147483648) : storeInt n = n :=
  storeInt_of_range (by omega) (by omega)

/-- More digits behind a number. -/
theorem decimalValue_append (xs ys : List UInt8) :
    decimalValue (xs ++ ys) = decimalValue xs * 10 ^ ys.length + decimalValue ys := by
  induction ys using List.reverseRecOn with
  | nil => rw [List.append_nil, List.length_nil, pow_zero, Nat.mul_one]; rfl
  | append_singleton ys b ih =>
    have hstep : ∀ zs : List UInt8, decimalValue (zs ++ [b]) = 10 * decimalValue zs + (b.toNat - 48) := by
      intro zs
      rw [decimalValue, List.foldl_append]
      rfl
    rw [← List.append_assoc, hstep, hstep, ih, List.length_append, List.length_singleton, pow_succ]
    ring

end Decimal

end Scanf

end CpreLabs
