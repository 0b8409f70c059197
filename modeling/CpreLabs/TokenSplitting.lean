import Mathlib.Data.List.DropRight
import Mathlib.Data.List.Induction
import Mathlib.Tactic.Common

/-!
# Tokens between separators

The tokens of a sequence are its longest non-empty pieces without a separator. Cutting the sequence
at a separator cuts the list of its tokens.
-/
namespace CpreLabs.Tokens

variable {α : Type*} {sep : α → Bool} {a b input token : List α}

def tokens (sep : α → Bool) (input : List α) : List (List α) :=
  (input.splitOnP sep).filter (fun token => !token.isEmpty)

/-- The text is a token between what comes before it and after it. -/
structure Occurs (sep : α → Bool) (input before token after : List α) : Prop where
  split : input = before ++ token ++ after
  token : token ≠ [] ∧ ∀ x ∈ token, sep x = false
  before : ∀ x ∈ before.getLast?, sep x = true
  after : ∀ x ∈ after.head?, sep x = true

@[simp] theorem tokens_nil : tokens sep [] = [] := by
  simp [tokens]

theorem tokens_append_sep {s : α} (hs : sep s = true) (a b : List α) :
    tokens sep (a ++ s :: b) = tokens sep a ++ tokens sep b := by
  rw [tokens, List.splitOnP_append_cons a b hs, List.filter_append]
  rfl

theorem tokens_cons_sep {s : α} (hs : sep s = true) (b : List α) :
    tokens sep (s :: b) = tokens sep b := by
  have happend := tokens_append_sep hs [] b
  rw [tokens_nil, List.nil_append, List.nil_append] at happend
  exact happend

theorem tokens_token (h : token ≠ [] ∧ ∀ x ∈ token, sep x = false) :
    tokens sep token = [token] := by
  rw [tokens, List.splitOnP_eq_singleton h.2, List.filter_cons_of_pos, List.filter_nil]
  simpa using h.1

theorem tokens_append_of_getLast? (h : ∀ x ∈ a.getLast?, sep x = true) :
    tokens sep (a ++ b) = tokens sep a ++ tokens sep b := by
  rcases List.eq_nil_or_concat a with rfl | ⟨a, s, rfl⟩
  · rw [tokens_nil, List.nil_append, List.nil_append]
  · rw [List.concat_eq_append] at h ⊢
    have hs := h s (by simp)
    rw [List.append_assoc, List.singleton_append, tokens_append_sep hs, tokens_append_sep hs,
      tokens_nil, List.append_nil]

theorem tokens_append_of_head? (h : ∀ x ∈ b.head?, sep x = true) :
    tokens sep (a ++ b) = tokens sep a ++ tokens sep b := by
  cases b with
  | nil => rw [tokens_nil, List.append_nil, List.append_nil]
  | cons s b =>
    have hs := h s rfl
    rw [tokens_append_sep hs, tokens_cons_sep hs]

theorem Occurs.tokens_eq {before after : List α} (h : Occurs sep input before token after) :
    tokens sep input = tokens sep before ++ token :: tokens sep after := by
  rw [h.split, List.append_assoc, tokens_append_of_getLast? h.before,
    tokens_append_of_head? h.after, tokens_token h.token]
  rfl

/-- Writing tokens with a separator behind each and reading them back. -/
theorem tokens_flatMap {ts : List (List α)} {s : α} (hs : sep s = true)
    (h : ∀ token ∈ ts, token ≠ [] ∧ ∀ x ∈ token, sep x = false) :
    tokens sep (ts.flatMap (· ++ [s])) = ts := by
  induction ts with
  | nil => exact tokens_nil
  | cons token ts ih =>
    rw [List.flatMap_cons, List.append_assoc, List.singleton_append, tokens_append_sep hs,
      tokens_token (h token List.mem_cons_self),
      ih fun t ht => h t (List.mem_cons_of_mem _ ht), List.singleton_append]

theorem exists_tail (sep : α → Bool) (a : List α) : ∃ front tail, a = front ++ tail ∧
    (∀ x ∈ front.getLast?, sep x = true) ∧ ∀ x ∈ tail, sep x = false := by
  induction a using List.reverseRecOn with
  | nil => exact ⟨[], [], rfl, fun x hx => absurd hx (by simp), fun x hx => absurd hx List.not_mem_nil⟩
  | append_singleton a s ih =>
    obtain ⟨front, tail, rfl, hfront, htail⟩ := ih
    cases hs : sep s with
    | true =>
      refine ⟨front ++ tail ++ [s], [], by simp, fun x hx => ?_, fun x hx => absurd hx List.not_mem_nil⟩
      rw [List.getLast?_concat] at hx
      rw [← Option.some.inj hx]
      exact hs
    | false =>
      refine ⟨front, tail ++ [s], by simp, hfront, fun x hx => ?_⟩
      rcases List.mem_append.mp hx with hx | hx
      · exact htail x hx
      · rw [List.mem_singleton.mp hx]
        exact hs

theorem exists_head (sep : α → Bool) (b : List α) : ∃ head rest, b = head ++ rest ∧
    (∀ x ∈ head, sep x = false) ∧ ∀ x ∈ rest.head?, sep x = true := by
  induction b with
  | nil => exact ⟨[], [], rfl, fun x hx => absurd hx List.not_mem_nil, fun x hx => absurd hx (by simp)⟩
  | cons s b ih =>
    obtain ⟨head, rest, rfl, hhead, hrest⟩ := ih
    cases hs : sep s with
    | true =>
      refine ⟨[], s :: (head ++ rest), rfl, fun x hx => absurd hx List.not_mem_nil, fun x hx => ?_⟩
      rw [← Option.some.inj hx]
      exact hs
    | false =>
      refine ⟨s :: head, rest, rfl, fun x hx => ?_, hrest⟩
      rcases List.mem_cons.mp hx with rfl | hx
      · exact hs
      · exact hhead x hx

theorem exists_occurs (h : tokens sep input ≠ []) :
    ∃ before token after, Occurs sep input before token after := by
  induction input with
  | nil => exact absurd tokens_nil h
  | cons s input ih =>
    cases hs : sep s with
    | true =>
      rw [tokens_cons_sep hs] at h
      obtain ⟨before, token, after, hocc⟩ := ih h
      refine ⟨s :: before, token, after, ?_, hocc.token, fun x hx => ?_, hocc.after⟩
      · rw [hocc.split, List.cons_append, List.cons_append]
      · cases before with
        | nil =>
          rw [← Option.some.inj hx]
          exact hs
        | cons y before => exact hocc.before x (by rwa [List.getLast?_cons_cons] at hx)
    | false =>
      obtain ⟨head, rest, hsplit, hhead, hrest⟩ := exists_head sep (s :: input)
      have hne : head ≠ [] := by
        rintro rfl
        rw [List.nil_append] at hsplit
        have hfirst := hrest s (by rw [← hsplit]; rfl)
        rw [hs] at hfirst
        cases hfirst
      exact ⟨[], head, rest, hsplit, ⟨hne, hhead⟩, fun x hx => absurd hx (by simp), hrest⟩

theorem length_tokens_le (sep : α → Bool) (a b : List α) :
    (tokens sep a).length ≤ (tokens sep (a ++ b)).length := by
  obtain ⟨front, tail, rfl, hfront, htail⟩ := exists_tail sep a
  rw [List.append_assoc, tokens_append_of_getLast? hfront, tokens_append_of_getLast? hfront,
    List.length_append, List.length_append]
  apply Nat.add_le_add_left
  cases tail with
  | nil =>
    rw [tokens_nil]
    exact Nat.zero_le _
  | cons x tail =>
    rw [tokens_token ⟨List.cons_ne_nil x tail, htail⟩]
    obtain ⟨head, rest, rfl, hhead, hrest⟩ := exists_head sep b
    have htoken : x :: tail ++ head ≠ [] ∧ ∀ y ∈ x :: tail ++ head, sep y = false :=
      ⟨by simp, fun y hy => (List.mem_append.mp hy).elim (htail y) (hhead y)⟩
    rw [← List.append_assoc, tokens_append_of_head? hrest, tokens_token htoken,
      List.length_append, List.length_singleton, List.length_singleton]
    exact Nat.le_add_right 1 _

/-- A token of what follows a separator or begins with one. -/
theorem Occurs.append_left {before after : List α} (h : Occurs sep input before token after)
    (hhead : ∀ x ∈ input.head?, sep x = true) (a : List α) :
    Occurs sep (a ++ input) (a ++ before) token after := by
  refine ⟨?_, h.token, fun x hx => ?_, h.after⟩
  · rw [h.split, List.append_assoc, List.append_assoc, List.append_assoc]
  · rcases List.eq_nil_or_concat before with rfl | ⟨before, y, rfl⟩
    · obtain ⟨y, token, rfl⟩ := List.exists_cons_of_ne_nil h.token.1
      have hfirst := hhead y (by rw [h.split]; rfl)
      rw [h.token.2 y List.mem_cons_self] at hfirst
      cases hfirst
    · have hbefore := h.before
      rw [List.concat_eq_append] at hx hbefore
      rw [← List.append_assoc, List.getLast?_concat] at hx
      exact hbefore x (by rw [List.getLast?_concat]; exact hx)

/-- A prefix that ends in a token has the part of it for its last token. -/
theorem Occurs.tokens_cut {before after : List α} (h : Occurs sep (a ++ b) before token after)
    (hstart : before.length < a.length) (hcut : a.length < before.length + token.length) :
    tokens sep a = tokens sep before ++ [token.take (a.length - before.length)] := by
  have hbefore : before <+: a ++ b := ⟨token ++ after, by rw [h.split, List.append_assoc]⟩
  obtain ⟨x, rfl⟩ := List.prefix_of_prefix_length_le hbefore (List.prefix_append a b) hstart.le
  have hsplit := h.split
  rw [List.append_assoc, List.append_assoc] at hsplit
  rw [List.length_append] at hstart hcut
  have hx : x = token.take x.length := by
    have htake := congrArg (List.take x.length) (List.append_cancel_left hsplit)
    rw [List.take_left, List.take_append_of_le_length (by omega)] at htake
    exact htake
  have htoken : x ≠ [] ∧ ∀ y ∈ x, sep y = false := by
    refine ⟨fun hnil => ?_, fun y hy => ?_⟩
    · rw [hnil, List.length_nil] at hstart
      omega
    · rw [hx] at hy
      exact h.token.2 y (List.mem_of_mem_take hy)
  rw [List.length_append, Nat.add_sub_cancel_left, ← hx, tokens_append_of_getLast? h.before,
    tokens_token htoken]

/-- A token behind a prefix is one more than the prefix has. -/
theorem Occurs.length_tokens_lt {before after : List α}
    (h : Occurs sep (a ++ b) before token after) (hlate : a.length ≤ before.length) :
    (tokens sep a).length < (tokens sep (a ++ b)).length := by
  have hbefore : before <+: a ++ b := ⟨token ++ after, by rw [h.split, List.append_assoc]⟩
  obtain ⟨c, rfl⟩ := List.prefix_of_prefix_length_le (List.prefix_append a b) hbefore hlate
  have hle := length_tokens_le sep a c
  rw [h.tokens_eq, List.length_append, List.length_cons]
  omega

variable {β : Type*}

variable (sep) in
/-- The tokens of a prefix have the values of all tokens if and only if every token begins in the
prefix, and ends in it or has the value of its part there. -/
theorem map_tokens_prefix_iff (value : List α → β) (a b : List α) :
    (tokens sep a).map value = (tokens sep (a ++ b)).map value ↔
      ∀ before token after, Occurs sep (a ++ b) before token after →
        before.length < a.length ∧ (before.length + token.length ≤ a.length ∨
          value (token.take (a.length - before.length)) = value token) := by
  constructor
  · intro hvalues before token after hocc
    rcases Nat.lt_or_ge before.length a.length with hstart | hlate
    · refine ⟨hstart, ?_⟩
      rcases Nat.lt_or_ge a.length (before.length + token.length) with hcut | hend
      · rw [hocc.tokens_eq, hocc.tokens_cut hstart hcut, List.map_append, List.map_append] at hvalues
        exact Or.inr (List.cons.inj (List.append_cancel_left hvalues)).1
      · exact Or.inl hend
    · have hlt := hocc.length_tokens_lt hlate
      have hlengths := congrArg List.length hvalues
      rw [List.length_map, List.length_map] at hlengths
      omega
  · intro hall
    obtain ⟨front, tail, rfl, hfront, htail⟩ := exists_tail sep a
    obtain ⟨head, rest, rfl, hhead, hrest⟩ := exists_head sep b
    have hnone : tokens sep rest = [] := by
      by_contra hsome
      obtain ⟨before, token, after, hocc⟩ := exists_occurs hsome
      have hlate := hall (front ++ tail ++ head ++ before) token after (by
        rw [← List.append_assoc]
        exact hocc.append_left hrest _)
      simp only [List.length_append] at hlate
      omega
    have hword : ∀ y ∈ tail ++ head, sep y = false := fun y hy =>
      (List.mem_append.mp hy).elim (htail y) (hhead y)
    rw [List.append_assoc, tokens_append_of_getLast? hfront, tokens_append_of_getLast? hfront,
      ← List.append_assoc, tokens_append_of_head? hrest, hnone, List.append_nil, List.map_append,
      List.map_append]
    congr 1
    by_cases hne : tail ++ head = []
    · rw [hne, (List.append_eq_nil_iff.mp hne).1]
    · obtain ⟨hstart, hend⟩ := hall front (tail ++ head) rest
        ⟨by simp only [List.append_assoc], ⟨hne, hword⟩, hfront, hrest⟩
      rw [List.length_append] at hstart
      have htoken : tail ≠ [] := fun hnil => by
        rw [hnil, List.length_nil] at hstart
        omega
      rw [tokens_token ⟨htoken, htail⟩, tokens_token ⟨hne, hword⟩, List.map_singleton,
        List.map_singleton]
      congr 1
      rcases hend with hinside | hvalue
      · rw [List.length_append, List.length_append] at hinside
        rw [List.eq_nil_of_length_eq_zero (by omega : head.length = 0), List.append_nil]
      · rw [List.length_append, Nat.add_sub_cancel_left, List.take_left] at hvalue
        exact hvalue

end CpreLabs.Tokens
