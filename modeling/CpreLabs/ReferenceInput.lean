import CpreLabs.FormattedScanning
import CpreLabs.PageSimulator
import CpreLabs.TokenSplitting
import Mathlib.Data.Bool.AllAny

/-!
# Where the reference string comes from

`main` reads it from a file if `argv[3]` names one, through a buffer, and takes it from the
argument itself otherwise. The two agree on a text as long as its numbers are within the buffer.
-/
namespace CpreLabs.PageSim
open Tokens

/-- The delimiters `" ,\t\n"`. -/
def isDelimiter (b : UInt8) : Bool := b = 32 || b = 44 || b = 9 || b = 10

/-- A call of `strtok`: the token, and what the next call goes on with. -/
def strtok (input : List UInt8) : Option (List UInt8 × List UInt8) :=
  match input.dropWhile isDelimiter with
  | [] => none
  | rest =>
    let token := rest.takeWhile (fun b => !isDelimiter b)
    some (token, rest.drop (token.length + 1))

def atoi (token : List UInt8) : ℤ :=
  match Scanf.scanInt token with
  | some (value, _) => value
  | none => 0

/-- The loop of `parse_ref_string`, which has room for `maxLen` more numbers. -/
def parseTokens : ℕ → List UInt8 → List ℤ
  | 0, _ => []
  | maxLen + 1, input =>
    match strtok input with
    | none => []
    | some (token, rest) => atoi token :: parseTokens maxLen rest

def parseRefString (str : CString) (maxLen : ℕ) : List ℤ := parseTokens maxLen str.bytes

def bufSize : ℕ := maxRefLength * 4

/-- The reference string; `file` is what `fopen` finds under the name `argument`, if anything. -/
def mainRefString (argument : CString) (file : Option (List UInt8)) : List ℤ :=
  match file with
  | some content => parseRefString (.ofBuffer (content.take (bufSize - 1))) maxRefLength
  | none => parseRefString argument maxRefLength

theorem strtok_cases (input : List UInt8) :
    (strtok input = none ∧ tokens isDelimiter input = []) ∨
      ∃ token rest, strtok input = some (token, rest) ∧
        tokens isDelimiter input = token :: tokens isDelimiter rest := by
  induction input with
  | nil => exact Or.inl ⟨rfl, tokens_nil⟩
  | cons b input ih =>
    cases hb : isDelimiter b with
    | true =>
      have hstrtok : strtok (b :: input) = strtok input := by
        rw [strtok, List.dropWhile_cons_of_pos hb, strtok]
      rw [hstrtok, tokens_cons_sep hb]
      exact ih
    | false =>
      obtain ⟨head, rest, hsplit, hhead, hrest⟩ := exists_head isDelimiter (b :: input)
      have hne : head ≠ [] := by
        rintro rfl
        have hfirst := hrest b (by rw [List.nil_append] at hsplit; rw [← hsplit]; rfl)
        rw [hb] at hfirst
        cases hfirst
      have htake : (b :: input).takeWhile (fun b => !isDelimiter b) = head := by
        rw [hsplit, List.takeWhile_append_of_pos (fun x hx => by rw [hhead x hx]; rfl)]
        cases rest with
        | nil => rw [List.takeWhile_nil, List.append_nil]
        | cons x rest =>
          rw [List.takeWhile_cons_of_neg (by rw [hrest x rfl]; exact Bool.false_ne_true),
            List.append_nil]
      refine Or.inr ⟨head, rest.drop 1, ?_, ?_⟩
      · have hdrop : (b :: input).drop (head.length + 1) = rest.drop 1 := by
          rw [hsplit, ← List.drop_drop, List.drop_left]
        rw [strtok, List.dropWhile_cons_of_neg (by rw [hb]; exact Bool.false_ne_true)]
        simp only [htake, hdrop]
      · rw [hsplit, tokens_append_of_head? hrest, tokens_token ⟨hne, hhead⟩, List.singleton_append]
        cases rest with
        | nil => rfl
        | cons x rest => rw [tokens_cons_sep (hrest x rfl), List.drop_succ_cons, List.drop_zero]

theorem parseTokens_eq (maxLen : ℕ) (input : List UInt8) :
    parseTokens maxLen input = ((tokens isDelimiter input).take maxLen).map atoi := by
  induction maxLen generalizing input with
  | zero => rw [List.take_zero]; rfl
  | succ maxLen ih =>
    rw [parseTokens]
    rcases strtok_cases input with ⟨hnone, htokens⟩ | ⟨token, rest, hsome, htokens⟩
    · rw [hnone, htokens, List.take_nil]
      rfl
    · rw [hsome, htokens, List.take_succ_cons, List.map_cons, ← ih]

/-- What digits stand for behind a sign. -/
def signedValue (sign digits : List UInt8) : ℤ :=
  if sign = [45] then -(Scanf.decimalValue digits : ℤ) else Scanf.decimalValue digits

/-- Digits, with a sign or without, that stand for an `int`. -/
def IsPageNumber (token : List UInt8) : Prop :=
  ∃ sign digits, token = sign ++ digits ∧ (sign = [] ∨ sign = [43] ∨ sign = [45]) ∧
    digits ≠ [] ∧ (∀ b ∈ digits, isDigit b = true) ∧
    -2147483648 ≤ signedValue sign digits ∧ signedValue sign digits < 2147483648

theorem atoi_signed {sign digits : List UInt8} (hsign : sign = [] ∨ sign = [43] ∨ sign = [45])
    (hdigits : ∀ b ∈ digits, isDigit b = true) :
    atoi (sign ++ digits) = Scanf.storeInt (signedValue sign digits) := by
  have hnosign : digits.takeWhile (fun b => b = 43 || b = 45) = [] := by
    cases digits with
    | nil => rfl
    | cons b digits =>
      rw [List.takeWhile_cons_of_neg]
      rw [Scanf.not_sign_of_isDigit (hdigits b List.mem_cons_self)]
      exact Bool.false_ne_true
  have hskip : Scanf.skipSpace (sign ++ digits) = sign ++ digits := by
    rcases hsign with rfl | rfl | rfl
    · cases digits with
      | nil => rfl
      | cons b digits =>
        exact List.dropWhile_cons_of_neg (by
          rw [Scanf.not_space_of_isDigit (hdigits b List.mem_cons_self)]
          exact Bool.false_ne_true)
    · rfl
    · rfl
  have htake : ((sign ++ digits).takeWhile (fun b => b = 43 || b = 45)).take 1 = sign := by
    rcases hsign with rfl | rfl | rfl
    · rw [List.nil_append, hnosign]
      rfl
    · rfl
    · rfl
  have hall : digits.takeWhile isDigit = digits := List.takeWhile_eq_self_iff.mpr hdigits
  rw [atoi, Scanf.scanInt]
  simp only [hskip, htake, List.drop_left, hall]
  cases digits with
  | nil =>
    rcases hsign with rfl | rfl | rfl
    · rfl
    · rfl
    · rfl
  | cons b digits => rfl

theorem decimalValue_take {digits : List UInt8} {k : ℕ} (hk : k < digits.length) :
    Scanf.decimalValue (digits.take k) ≤ Scanf.decimalValue digits ∧
      (Scanf.decimalValue (digits.take k) = Scanf.decimalValue digits ↔
        Scanf.decimalValue digits = 0) := by
  have happend := Scanf.decimalValue_append (digits.take k) (digits.drop k)
  rw [List.take_append_drop, List.length_drop] at happend
  obtain ⟨m, hm⟩ : ∃ m, digits.length - k = m + 1 := ⟨digits.length - k - 1, by omega⟩
  rw [hm, pow_succ, ← Nat.mul_assoc, Nat.mul_comm _ 10] at happend
  have hle := Nat.le_mul_of_pos_right (Scanf.decimalValue (digits.take k))
    (Nat.pow_pos (n := m) (by omega : 0 < 10))
  constructor
  · omega
  · constructor <;> intro h <;> omega

/-- A number that is cut keeps its value only if it is zero. -/
theorem IsPageNumber.atoi_take {token : List UInt8} (h : IsPageNumber token) {k : ℕ} (hpos : 0 < k)
    (hk : k < token.length) : atoi (token.take k) = atoi token ↔ atoi token = 0 := by
  obtain ⟨sign, digits, rfl, hsign, -, hdigits, hlow, hhigh⟩ := h
  have hlength : sign.length ≤ 1 := by
    rcases hsign with rfl | rfl | rfl
    · exact Nat.zero_le 1
    · exact le_rfl
    · exact le_rfl
  have htake : (sign ++ digits).take k = sign ++ digits.take (k - sign.length) := by
    rw [List.take_append, List.take_of_length_le (by omega)]
  rw [List.length_append] at hk
  have hcut : k - sign.length < digits.length := by
    omega
  obtain ⟨hle, heq⟩ := decimalValue_take hcut
  rw [htake, atoi_signed hsign fun b hb => hdigits b (List.mem_of_mem_take hb),
    atoi_signed hsign hdigits, Scanf.storeInt_of_range hlow hhigh]
  unfold signedValue at hlow hhigh ⊢
  by_cases hminus : sign = [45]
  · rw [if_pos hminus] at hlow hhigh ⊢
    rw [if_pos hminus, Scanf.storeInt_of_range (by omega) (by omega)]
    omega
  · rw [if_neg hminus] at hlow hhigh ⊢
    rw [if_neg hminus, Scanf.storeInt_of_range (by omega) (by omega)]
    omega

/-- Both ways in lead to the same references, hence to the same faults. -/
structure SameInput (text path : CString) : Prop where
  refString : mainRefString path (some text.bytes) = mainRefString text none
  faults : ∀ numFrames,
    simulateFifo (mainRefString path (some text.bytes)) numFrames =
        simulateFifo (mainRefString text none) numFrames ∧
      simulateLru (mainRefString path (some text.bytes)) numFrames =
        simulateLru (mainRefString text none) numFrames ∧
      simulateOpt (mainRefString path (some text.bytes)) numFrames =
        simulateOpt (mainRefString text none) numFrames

/-- Every number of the text begins within the buffer, and ends there unless it is zero. -/
def FitsBuffer (text : CString) : Prop :=
  ∀ before token after, Occurs isDelimiter text.bytes before token after →
    before.length < bufSize - 1 ∧
      (before.length + token.length ≤ bufSize - 1 ∨ atoi token = 0)

theorem mainRefString_eq_iff {text : CString} (path : CString)
    (hnumbers : ∀ token ∈ tokens isDelimiter text.bytes, IsPageNumber token)
    (hcount : (tokens isDelimiter text.bytes).length ≤ maxRefLength) :
    mainRefString path (some text.bytes) = mainRefString text none ↔ FitsBuffer text := by
  have hnul : ∀ b ∈ text.bytes.take (bufSize - 1), b ≠ 0 :=
    fun b hb => text.noNul b (List.mem_of_mem_take hb)
  have hsplit := List.take_append_drop (bufSize - 1) text.bytes
  have hcount' := length_tokens_le isDelimiter (text.bytes.take (bufSize - 1))
    (text.bytes.drop (bufSize - 1))
  rw [hsplit] at hcount'
  have hprefix := map_tokens_prefix_iff isDelimiter atoi (text.bytes.take (bufSize - 1))
    (text.bytes.drop (bufSize - 1))
  rw [hsplit] at hprefix
  rw [mainRefString, mainRefString, parseRefString, parseRefString, parseTokens_eq, parseTokens_eq,
    CString.bytes_ofBuffer hnul, List.take_of_length_le hcount,
    List.take_of_length_le (hcount'.trans hcount), hprefix]
  refine forall₄_congr fun before token after hocc => ?_
  have hlengths := congrArg List.length hocc.split
  have htoken := List.length_pos_of_ne_nil hocc.token.1
  rw [List.length_append, List.length_append] at hlengths
  rw [List.length_take]
  rcases Nat.lt_or_ge (bufSize - 1) (before.length + token.length) with hcut | hend
  · have hmin : min (bufSize - 1) text.bytes.length = bufSize - 1 := by omega
    rw [hmin]
    refine and_congr_right fun hstart => ?_
    have hnumber : IsPageNumber token := hnumbers token (by
      rw [hocc.tokens_eq]
      exact List.mem_append_right _ List.mem_cons_self)
    rw [hnumber.atoi_take (by omega) (by omega)]
  · refine iff_of_true ⟨?_, Or.inl ?_⟩ ⟨by omega, Or.inl hend⟩ <;> omega

/-- A text of at most 1000 page numbers gives the same references from a file as from the argument
if and only if its numbers are within the buffer. -/
theorem sameInput_iff_fitsBuffer (text path : CString)
    (hnumbers : ∀ token ∈ tokens isDelimiter text.bytes, IsPageNumber token)
    (hcount : (tokens isDelimiter text.bytes).length ≤ maxRefLength) :
    SameInput text path ↔ FitsBuffer text := by
  rw [← mainRefString_eq_iff path hnumbers hcount]
  refine ⟨SameInput.refString, fun h => ⟨h, fun numFrames => ?_⟩⟩
  rw [h]
  exact ⟨rfl, rfl, rfl⟩

theorem fitsBuffer_of_length_le {text : CString} (h : text.length ≤ bufSize - 1) :
    FitsBuffer text := by
  intro before token after hocc
  have hlengths : text.length = _ := congrArg List.length hocc.split
  have htoken := List.length_pos_of_ne_nil hocc.token.1
  rw [List.length_append, List.length_append] at hlengths
  refine ⟨?_, Or.inl ?_⟩ <;> omega

theorem isPageNumber_repr {n : ℕ} (h : n < 2147483648) : IsPageNumber (ascii n.repr) := by
  have hvalue : signedValue [] (ascii n.repr) = n := by
    rw [signedValue, if_neg (List.cons_ne_nil _ _).symm, Scanf.decimalValue_repr]
  refine ⟨[], ascii n.repr, rfl, Or.inl rfl, (Scanf.isWord_repr n).1,
    fun b hb => Scanf.isDigit_of_mem_repr hb, ?_, ?_⟩ <;> rw [hvalue] <;> omega

theorem sameInput_of_usage :
    SameInput (.lit "7 0 1 2 0 3 0 4 2 3 0 3 2") (.lit "refstring.txt") := by
  have htokens : tokens isDelimiter (CString.lit "7 0 1 2 0 3 0 4 2 3 0 3 2").bytes =
      [7, 0, 1, 2, 0, 3, 0, 4, 2, 3, 0, 3, 2].map (fun n : ℕ => ascii n.repr) := by decide
  refine (sameInput_iff_fitsBuffer _ _ ?_ (by decide)).mpr (fitsBuffer_of_length_le (by decide))
  intro token htoken
  rw [htokens] at htoken
  obtain ⟨n, hn, rfl⟩ := List.mem_map.mp htoken
  have hsmall : ∀ n ∈ [7, 0, 1, 2, 0, 3, 0, 4, 2, 3, 0, 3, 2], n < 2147483648 := by decide
  exact isPageNumber_repr (hsmall n hn)

/-- As many references as there may be, all to one page with four digits. -/
def longText : CString :=
  .ofBuffer ((List.replicate maxRefLength (ascii "1000")).flatMap (· ++ ascii " "))

theorem bytes_longText : longText.bytes =
    (List.replicate maxRefLength (ascii "1000")).flatMap (· ++ ascii " ") := by
  have hnul : 0 ∉ ascii "1000" ++ ascii " " := by decide
  refine CString.bytes_ofBuffer fun b hb => ?_
  obtain ⟨token, htoken, hb⟩ := List.mem_flatMap.mp hb
  rw [List.eq_of_mem_replicate htoken] at hb
  exact ne_of_mem_of_not_mem hb hnul

theorem tokens_longText :
    tokens isDelimiter longText.bytes = List.replicate maxRefLength (ascii "1000") := by
  rw [bytes_longText]
  refine tokens_flatMap (by decide) fun token htoken => ?_
  rw [List.eq_of_mem_replicate htoken]
  exact ⟨by decide, List.all_iff_forall_prop.mp (by decide)⟩

/-- Of the 1000 references in this text the buffer holds 800. -/
theorem not_sameInput_of_longText :
    (∀ token ∈ tokens isDelimiter longText.bytes, IsPageNumber token) ∧
      (tokens isDelimiter longText.bytes).length = maxRefLength ∧
      ¬ SameInput longText (.lit "refstring.txt") := by
  have hnumbers : ∀ token ∈ tokens isDelimiter longText.bytes, IsPageNumber token := by
    intro token htoken
    rw [tokens_longText] at htoken
    rw [List.eq_of_mem_replicate htoken]
    exact isPageNumber_repr (n := 1000) (by omega)
  have hcount : (tokens isDelimiter longText.bytes).length = maxRefLength := by
    rw [tokens_longText, List.length_replicate]
  refine ⟨hnumbers, hcount, fun h => ?_⟩
  have hfits := (mainRefString_eq_iff _ hnumbers hcount.le).mp h.refString
  have hlength : ∀ n, ((List.replicate n (ascii "1000")).flatMap (· ++ ascii " ")).length = n * 5 := by
    intro n
    induction n with
    | zero => rfl
    | succ n ih =>
      rw [List.replicate_succ, List.flatMap_cons, List.length_append, ih, Nat.succ_mul,
        Nat.add_comm]
      rfl
  have hlast : Occurs isDelimiter longText.bytes
      ((List.replicate 998 (ascii "1000")).flatMap (· ++ ascii " ") ++ ascii "1000 ")
      (ascii "1000") (ascii " ") := by
    have hspace : ∀ x, some (32 : UInt8) = some x → isDelimiter x = true := by
      intro x hx
      rw [← Option.some.inj hx]
      decide
    refine ⟨?_, ⟨by decide, List.all_iff_forall_prop.mp (by decide)⟩, fun x hx => ?_, hspace⟩
    · have hsplit : List.replicate maxRefLength (ascii "1000") =
          List.replicate 998 (ascii "1000") ++ [ascii "1000", ascii "1000"] := by
        rw [show maxRefLength = 998 + 2 from rfl, List.replicate_add]
        rfl
      rw [bytes_longText, hsplit, List.flatMap_append, List.append_assoc, List.append_assoc]
      rfl
    · rw [List.getLast?_append_of_ne_nil _ (by decide)] at hx
      exact hspace x hx
  have hstart := (hfits _ _ _ hlast).1
  rw [List.length_append, hlength] at hstart
  revert hstart
  decide

end CpreLabs.PageSim
