import CpreLabs.HandleClient

/-!
# What the tests of `handle_client` recognize

The three `sscanf` formats and the three prefix tests start with different letters, so the
order of the tests does not matter. A command's arguments are the words behind its prefix,
each cut where its width ends.
-/
namespace CpreLabs.HandleClient

open Scanf

variable {s : CString}

theorem strncmp_lit_iff {text : String} (h : (CString.lit text).bytes = ascii text) {n : ℕ}
    (hn : (ascii text).length = n) : strncmp s (.lit text) n = 0 ↔ ascii text <+: s.bytes := by
  rw [strncmp_eq_zero_iff, h, List.prefix_iff_eq_take, hn, List.take_of_length_le hn.le, eq_comm]

theorem strncmp_put : strncmp s (.lit "PUT") 3 = 0 ↔ ascii "PUT" <+: s.bytes :=
  strncmp_lit_iff (by decide) (by decide)

theorem strncmp_stats : strncmp s (.lit "STATS") 5 = 0 ↔ ascii "STATS" <+: s.bytes :=
  strncmp_lit_iff (by decide) (by decide)

theorem strncmp_quit : strncmp s (.lit "QUIT") 4 = 0 ↔ ascii "QUIT" <+: s.bytes :=
  strncmp_lit_iff (by decide) (by decide)

/-- A line starts with at most one of two words whose first letters differ. -/
theorem not_prefix_of_head? {xs ys input : List UInt8} (h : xs <+: input) (hx : xs ≠ [])
    (hy : ys ≠ []) (hxy : xs.head? ≠ ys.head?) : ¬ ys <+: input := by
  intro hys
  have hhead : ∀ {zs : List UInt8}, zs <+: input → zs ≠ [] → input.head? = zs.head? := by
    rintro zs ⟨rest, rfl⟩ hz
    rw [List.head?_append_of_ne_nil _ hz]
  exact hxy ((hhead h hx).symm.trans (hhead hys hy))

theorem only_get {input : List UInt8} (h : ascii "GET" <+: input) : ¬ ascii "PUT" <+: input ∧
    ¬ ascii "DEL" <+: input ∧ ¬ ascii "STATS" <+: input ∧ ¬ ascii "QUIT" <+: input := by
  refine ⟨?_, ?_, ?_, ?_⟩ <;> exact not_prefix_of_head? h (by decide) (by decide) (by decide)

theorem only_put {input : List UInt8} (h : ascii "PUT" <+: input) : ¬ ascii "GET" <+: input :=
  not_prefix_of_head? h (by decide) (by decide) (by decide)

theorem only_del {input : List UInt8} (h : ascii "DEL" <+: input) : ¬ ascii "GET" <+: input ∧
    ¬ ascii "PUT" <+: input ∧ ¬ ascii "STATS" <+: input ∧ ¬ ascii "QUIT" <+: input := by
  refine ⟨?_, ?_, ?_, ?_⟩ <;> exact not_prefix_of_head? h (by decide) (by decide) (by decide)

theorem only_stats {input : List UInt8} (h : ascii "STATS" <+: input) :
    ¬ ascii "GET" <+: input ∧ ¬ ascii "PUT" <+: input ∧ ¬ ascii "DEL" <+: input := by
  refine ⟨?_, ?_, ?_⟩ <;> exact not_prefix_of_head? h (by decide) (by decide) (by decide)

theorem only_quit {input : List UInt8} (h : ascii "QUIT" <+: input) :
    ¬ ascii "GET" <+: input ∧ ¬ ascii "PUT" <+: input ∧ ¬ ascii "DEL" <+: input ∧
      ¬ ascii "STATS" <+: input := by
  refine ⟨?_, ?_, ?_, ?_⟩ <;> exact not_prefix_of_head? h (by decide) (by decide) (by decide)

/-- A format with one `%s` behind a word. -/
theorem sscanf_word (text : String) {width : ℕ} (hwidth : 0 < width) :
    sscanf s (literal text ++ [.space, .str width]) =
      if ascii text <+: s.bytes then
        match words (s.bytes.drop (ascii text).length) with
        | [] => []
        | word :: _ => [.str (word.take width)]
      else [] := by
  rw [sscanf, literal, scan_literal]
  split
  · rename_i h
    simp only [scan]
    rw [← words_skipSpace]
    cases hw : words (skipSpace (s.bytes.drop (ascii text).length)) with
    | nil => simp [scanStr_of_words_nil width hw]
    | cons word later =>
      obtain ⟨rest, hrest, -⟩ := scanStr_of_words hwidth hw
      simp [hrest]
  · rfl

/-- The third argument of `PUT`: 0 unless a number is left to read. -/
def ttlArgument (rest : List UInt8) : ℤ :=
  match scanInt rest with
  | some (ttl, _) => ttl
  | none => 0

/-- The fields of `PUT`, from the words behind it. -/
theorem scan_put {input key val : List UInt8} {later later' : List (List UInt8)}
    (hkey : words input = key :: later) (hval : afterField maxKeyLen key later = val :: later') :
    ∃ rest, words rest = afterField maxValLen val later' ∧
      scan [.space, .str maxKeyLen, .space, .str maxValLen, .space, .int] input =
        .str (key.take maxKeyLen) :: .str (val.take maxValLen) ::
          ((scanInt rest).map (fun p => Field.int p.1)).toList := by
  obtain ⟨rest, hrest, hwords⟩ :=
    scanStr_of_words (by decide : 0 < maxKeyLen) ((words_skipSpace input).trans hkey)
  obtain ⟨rest', hrest', hwords'⟩ :=
    scanStr_of_words (by decide : 0 < maxValLen)
      ((words_skipSpace rest).trans (hwords.trans hval))
  refine ⟨rest', hwords', ?_⟩
  simp only [scan, hrest, hrest', scanInt_skipSpace]
  cases scanInt rest' with
  | none => rfl
  | some p => rfl

theorem sscanf_get : sscanf s getFormat =
    if ascii "GET" <+: s.bytes then
      match words (s.bytes.drop 3) with
      | [] => []
      | word :: _ => [.str (word.take maxKeyLen)]
    else [] := sscanf_word "GET" (by decide)

theorem sscanf_del : sscanf s delFormat =
    if ascii "DEL" <+: s.bytes then
      match words (s.bytes.drop 3) with
      | [] => []
      | word :: _ => [.str (word.take maxKeyLen)]
    else [] := sscanf_word "DEL" (by decide)

theorem sscanf_put (h : ascii "PUT" <+: s.bytes) : sscanf s putFormat =
    scan [.space, .str maxKeyLen, .space, .str maxValLen, .space, .int] (s.bytes.drop 3) := by
  rw [sscanf, putFormat, literal, scan_literal, if_pos h]
  rfl

/-- What is left when neither `GET` nor `PUT` nor `DEL` has found its argument. -/
theorem parseLine_of_fields_nil (hget : sscanf s getFormat = []) (hput : ¬ ascii "PUT" <+: s.bytes)
    (hdel : sscanf s delFormat = []) : parseLine s =
      if ascii "STATS" <+: s.bytes then .stats
      else if ascii "QUIT" <+: s.bytes then .quit
      else .malformed := by
  simp only [parseLine, hget, hdel, strncmp_put, strncmp_stats, strncmp_quit, if_neg hput]

theorem parseLine_get (h : ascii "GET" <+: s.bytes) : parseLine s =
    match words (s.bytes.drop 3) with
    | [] => .malformed
    | word :: _ => .get (.ofBuffer (word.take maxKeyLen)) := by
  have hfields := sscanf_get (s := s)
  rw [if_pos h] at hfields
  cases hw : words (s.bytes.drop 3) with
  | nil =>
    rw [hw] at hfields
    obtain ⟨hput, hdel, hstats, hquit⟩ := only_get h
    rw [parseLine_of_fields_nil hfields hput (by rw [sscanf_del, if_neg hdel]), if_neg hstats,
      if_neg hquit]
  | cons word later =>
    rw [hw] at hfields
    simp only [parseLine, hfields]

theorem parseLine_del (h : ascii "DEL" <+: s.bytes) : parseLine s =
    match words (s.bytes.drop 3) with
    | [] => .malformed
    | word :: _ => .del (.ofBuffer (word.take maxKeyLen)) := by
  obtain ⟨hget, hput, hstats, hquit⟩ := only_del h
  have hnone : sscanf s getFormat = [] := by rw [sscanf_get, if_neg hget]
  have hfields := sscanf_del (s := s)
  rw [if_pos h] at hfields
  cases hw : words (s.bytes.drop 3) with
  | nil =>
    rw [hw] at hfields
    rw [parseLine_of_fields_nil hnone hput hfields, if_neg hstats, if_neg hquit]
  | cons word later =>
    rw [hw] at hfields
    simp only [parseLine, hnone, strncmp_put, if_neg hput, hfields]

/-- A line that starts with `STATS` is that command whatever follows. -/
theorem parseLine_stats (h : ascii "STATS" <+: s.bytes) : parseLine s = .stats := by
  obtain ⟨hget, hput, hdel⟩ := only_stats h
  rw [parseLine_of_fields_nil (by rw [sscanf_get, if_neg hget]) hput
    (by rw [sscanf_del, if_neg hdel]), if_pos h]

/-- A line that starts with `QUIT` is that command whatever follows. -/
theorem parseLine_quit (h : ascii "QUIT" <+: s.bytes) : parseLine s = .quit := by
  obtain ⟨hget, hput, hdel, hstats⟩ := only_quit h
  rw [parseLine_of_fields_nil (by rw [sscanf_get, if_neg hget]) hput
    (by rw [sscanf_del, if_neg hdel]), if_neg hstats, if_pos h]

/-- A line that starts with `PUT` and has too few arguments for it: none, or a single one which
the width of the key does not split. -/
def TooFew (arguments : List (List UInt8)) : Prop :=
  arguments = [] ∨ ∃ word, arguments = [word] ∧ word.length ≤ maxKeyLen

theorem parseLine_put_tooFew (h : ascii "PUT" <+: s.bytes)
    (hfew : TooFew (words (s.bytes.drop 3))) : parseLine s = .malformedPut := by
  have hnone : sscanf s getFormat = [] := by rw [sscanf_get, if_neg (only_put h)]
  have hshort : sscanf s putFormat = [] ∨ ∃ field, sscanf s putFormat = [.str field] := by
    rw [sscanf_put h]
    rcases hfew with hw | ⟨word, hw, hlen⟩
    · left
      simp [scan, scanStr_of_words_nil maxKeyLen ((words_skipSpace _).trans hw)]
    · right
      obtain ⟨rest, hrest, hwords⟩ :=
        scanStr_of_words (by decide : 0 < maxKeyLen) ((words_skipSpace _).trans hw)
      rw [afterField, if_pos hlen] at hwords
      have hval := scanStr_of_words_nil maxValLen ((words_skipSpace rest).trans hwords)
      exact ⟨word.take maxKeyLen, by simp [scan, hrest, hval]⟩
  rcases hshort with hfields | ⟨field, hfields⟩
  · simp only [parseLine, hnone, strncmp_put, if_pos h, hfields]
  · simp only [parseLine, hnone, strncmp_put, if_pos h, hfields]

/-- The key is the first word behind `PUT`, cut at its width; the value is what comes next. -/
theorem parseLine_put (h : ascii "PUT" <+: s.bytes) {key val : List UInt8}
    {later later' : List (List UInt8)} (hkey : words (s.bytes.drop 3) = key :: later)
    (hval : afterField maxKeyLen key later = val :: later') :
    ∃ rest, words rest = afterField maxValLen val later' ∧
      parseLine s = .put (.ofBuffer (key.take maxKeyLen)) (.ofBuffer (val.take maxValLen))
        (ttlArgument rest) := by
  have hnone : sscanf s getFormat = [] := by rw [sscanf_get, if_neg (only_put h)]
  obtain ⟨rest, hrest, hfields⟩ := scan_put hkey hval
  refine ⟨rest, hrest, ?_⟩
  simp only [parseLine, hnone, strncmp_put, if_pos h, sscanf_put h, hfields, ttlArgument]
  cases scanInt rest with
  | none => rfl
  | some p => rfl

/-- The words behind a prefix that are too few, or give the fields of a put. -/
theorem tooFew_or (arguments : List (List UInt8)) :
    TooFew arguments ∨ ∃ key later val later', arguments = key :: later ∧
      afterField maxKeyLen key later = val :: later' := by
  cases arguments with
  | nil => exact .inl (.inl rfl)
  | cons key later =>
    cases hval : afterField maxKeyLen key later with
    | cons val later' => exact .inr ⟨key, later, val, later', rfl, hval⟩
    | nil =>
      left
      right
      rw [afterField] at hval
      split at hval
      · exact ⟨key, by rw [hval], ‹_›⟩
      · cases hval

theorem parseLine_other (hget : ¬ ascii "GET" <+: s.bytes) (hput : ¬ ascii "PUT" <+: s.bytes)
    (hdel : ¬ ascii "DEL" <+: s.bytes) (hstats : ¬ ascii "STATS" <+: s.bytes)
    (hquit : ¬ ascii "QUIT" <+: s.bytes) : parseLine s = .malformed := by
  rw [parseLine_of_fields_nil (by rw [sscanf_get, if_neg hget]) hput
    (by rw [sscanf_del, if_neg hdel]), if_neg hstats, if_neg hquit]

/-- What a line must look like to be taken for a command. -/
inductive Recognized (s : CString) : Command → Prop
  | get {word later} : ascii "GET" <+: s.bytes → words (s.bytes.drop 3) = word :: later →
      Recognized s (.get (.ofBuffer (word.take maxKeyLen)))
  | getNothing : ascii "GET" <+: s.bytes → words (s.bytes.drop 3) = [] → Recognized s .malformed
  | put {key later val later' rest} : ascii "PUT" <+: s.bytes →
      words (s.bytes.drop 3) = key :: later → afterField maxKeyLen key later = val :: later' →
      words rest = afterField maxValLen val later' →
      Recognized s (.put (.ofBuffer (key.take maxKeyLen)) (.ofBuffer (val.take maxValLen))
        (ttlArgument rest))
  | putTooFew : ascii "PUT" <+: s.bytes → TooFew (words (s.bytes.drop 3)) →
      Recognized s .malformedPut
  | del {word later} : ascii "DEL" <+: s.bytes → words (s.bytes.drop 3) = word :: later →
      Recognized s (.del (.ofBuffer (word.take maxKeyLen)))
  | delNothing : ascii "DEL" <+: s.bytes → words (s.bytes.drop 3) = [] → Recognized s .malformed
  | stats : ascii "STATS" <+: s.bytes → Recognized s .stats
  | quit : ascii "QUIT" <+: s.bytes → Recognized s .quit
  | other : Recognized s .malformed

theorem recognized_parseLine (s : CString) : Recognized s (parseLine s) := by
  by_cases hget : ascii "GET" <+: s.bytes
  · rw [parseLine_get hget]
    cases hw : words (s.bytes.drop 3) with
    | nil => exact .getNothing hget hw
    | cons word later => exact .get hget hw
  by_cases hput : ascii "PUT" <+: s.bytes
  · rcases tooFew_or (words (s.bytes.drop 3)) with hfew | ⟨key, later, val, later', hkey, hval⟩
    · rw [parseLine_put_tooFew hput hfew]
      exact .putTooFew hput hfew
    · obtain ⟨rest, hrest, hparse⟩ := parseLine_put hput hkey hval
      rw [hparse]
      exact .put hput hkey hval hrest
  by_cases hdel : ascii "DEL" <+: s.bytes
  · rw [parseLine_del hdel]
    cases hw : words (s.bytes.drop 3) with
    | nil => exact .delNothing hdel hw
    | cons word later => exact .del hdel hw
  by_cases hstats : ascii "STATS" <+: s.bytes
  · rw [parseLine_stats hstats]
    exact .stats hstats
  by_cases hquit : ascii "QUIT" <+: s.bytes
  · rw [parseLine_quit hquit]
    exact .quit hquit
  · rw [parseLine_other hget hput hdel hstats hquit]
    exact .other

theorem parseLine_eq_quit : parseLine s = .quit ↔ ascii "QUIT" <+: s.bytes := by
  refine ⟨fun h => ?_, parseLine_quit⟩
  have hs := recognized_parseLine s
  rw [h] at hs
  cases hs with
  | quit hquit => exact hquit

end CpreLabs.HandleClient
