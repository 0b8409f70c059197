import CpreLabs.ClientSessions

/-!
# Which lines are taken for a command

A command should be the first word of its line, with its arguments as words of their own behind it.
The tests look at a prefix of the line, so what they execute is such a command exactly where
nothing sticks to the prefix.
-/
namespace CpreLabs.HandleClient

open HashTable LineFraming

variable {C : Type*} [DecidableEq C] {numBuckets : ℕ+} {line word : List UInt8} {k : ℕ}

/-- The word of a command and the number of arguments it requires. -/
def Command.request : Command → Option (List UInt8 × ℕ)
  | .get _ => some (ascii "GET", 1)
  | .put _ _ _ => some (ascii "PUT", 2)
  | .del _ => some (ascii "DEL", 1)
  | .stats => some (ascii "STATS", 0)
  | .quit => some (ascii "QUIT", 0)
  | .malformedPut | .malformed => none

/-- The first word of the line is this one, with at least `k` words behind it. -/
def Asks (line word : List UInt8) (k : ℕ) : Prop :=
  (words line).head? = some word ∧ k < (words line).length

instance : Decidable (Asks line word k) := inferInstanceAs (Decidable (_ ∧ _))

/-- A pass that reads the line executes only what the line asks for, and answers every other line
with an error, without any effect. -/
structure ExactRecognition (client : C) (now : ℕ) (s : State C numBuckets) (line : List UInt8)
    (e : Exchange C numBuckets) : Prop where
  reads : (handleClient client now s).log = s.log ++ [e] ∧ e.client = client ∧ e.line = line
  executes : ∀ r, e.command.request = some r → Asks line r.1 r.2
  refuses : (¬ Asks line (ascii "GET") 1 ∧ ¬ Asks line (ascii "PUT") 2 ∧
      ¬ Asks line (ascii "DEL") 1 ∧ ¬ Asks line (ascii "STATS") 0 ∧ ¬ Asks line (ascii "QUIT") 0) →
    ascii "ERROR" <+: e.reply ∧ (handleClient client now s).table = s.table ∧
      ((handleClient client now s).connections client).serving = true

theorem words_eq_nil_iff {input : List UInt8} :
    words input = [] ↔ ∀ b ∈ input, isSpace b = true := by
  rcases skipSpace_cases input with ⟨hnil, hskip⟩ | ⟨w, rest, hw, -, hskip, hwords⟩
  · exact ⟨fun _ => List.dropWhile_eq_nil_iff.mp hskip, fun _ => hnil⟩
  · rw [hwords]
    refine ⟨fun h => absurd h (List.cons_ne_nil _ _), fun hall => ?_⟩
    have hnil := List.dropWhile_eq_nil_iff.mpr hall
    rw [show input.dropWhile isSpace = w ++ rest from hskip, List.append_eq_nil_iff] at hnil
    exact absurd hnil.1 hw.1

/-- What stands behind the first `n` bytes, if anything, is white space. -/
def EndsAt (n : ℕ) (line : List UInt8) : Prop := ∀ b ∈ (line.drop n).head?, isSpace b = true

theorem asks_iff (hw : IsWord word) (h : word <+: line) :
    Asks line word k ↔ EndsAt word.length line ∧ k ≤ (words (line.drop word.length)).length := by
  obtain ⟨rest, rfl⟩ := h
  rw [EndsAt, List.drop_left]
  constructor
  · rintro ⟨hhead, hlen⟩
    have hends : ∀ b ∈ rest.head?, isSpace b = true := by
      intro b hb
      by_contra hspace
      obtain ⟨more, rfl⟩ : ∃ more, rest = b :: more := by
        cases rest with
        | nil => cases hb
        | cons x more => exact ⟨more, by rw [Option.some.inj hb]⟩
      have hlonger : IsWord (word ++ [b]) := by
        refine ⟨by simp, fun c hc => ?_⟩
        rcases List.mem_append.mp hc with hc | hc
        · exact hw.2 c hc
        · rw [List.mem_singleton.mp hc]
          simpa using hspace
      have hsplit : word ++ b :: more = (word ++ [b]) ++ more := by simp
      obtain ⟨later, hlater⟩ : ∃ later, words (word ++ b :: more) = word :: later := by
        cases hwords : words (word ++ b :: more) with
        | nil => rw [hwords] at hhead; cases hhead
        | cons first later =>
          rw [hwords] at hhead
          exact ⟨later, by rw [Option.some.inj hhead]⟩
      have hprefix := prefix_first_word hlonger ⟨more, hsplit.symm⟩ hlater
      have hle := hprefix.length_le
      rw [List.length_append, List.length_singleton] at hle
      omega
    rw [words_append hw hends, List.length_cons] at hlen
    exact ⟨hends, by omega⟩
  · rintro ⟨hends, hlen⟩
    rw [Asks, words_append hw hends, List.length_cons]
    exact ⟨rfl, by omega⟩

/-- The words a string has before a NUL are no reason to think that the line has none. -/
theorem words_of_ofBuffer (n : ℕ) (h : words ((CString.ofBuffer line).bytes.drop n) ≠ []) :
    0 < (words (line.drop n)).length := by
  have hpre : (CString.ofBuffer line).bytes.drop n <+: line.drop n :=
    (List.takeWhile_prefix _).drop n
  refine List.length_pos_of_ne_nil fun hnil => h ?_
  rw [words_eq_nil_iff] at hnil ⊢
  exact fun b hb => hnil b (hpre.subset hb)

/-- Behind a prefix that is executed there is white space, and a put has two words there. -/
structure Separated (line : List UInt8) : Prop where
  get : ascii "GET" <+: line → words ((CString.ofBuffer line).bytes.drop 3) ≠ [] → EndsAt 3 line
  put : ascii "PUT" <+: line → ¬ TooFew (words ((CString.ofBuffer line).bytes.drop 3)) →
    EndsAt 3 line ∧ 2 ≤ (words (line.drop 3)).length
  del : ascii "DEL" <+: line → words ((CString.ofBuffer line).bytes.drop 3) ≠ [] → EndsAt 3 line
  stats : ascii "STATS" <+: line → EndsAt 5 line
  quit : ascii "QUIT" <+: line → EndsAt 4 line

theorem asks_get (h : ascii "GET" <+: line) : Asks line (ascii "GET") k ↔
    EndsAt 3 line ∧ k ≤ (words (line.drop 3)).length := asks_iff (by decide) h

theorem asks_put (h : ascii "PUT" <+: line) : Asks line (ascii "PUT") k ↔
    EndsAt 3 line ∧ k ≤ (words (line.drop 3)).length := asks_iff (by decide) h

theorem asks_del (h : ascii "DEL" <+: line) : Asks line (ascii "DEL") k ↔
    EndsAt 3 line ∧ k ≤ (words (line.drop 3)).length := asks_iff (by decide) h

theorem asks_stats (h : ascii "STATS" <+: line) : Asks line (ascii "STATS") k ↔
    EndsAt 5 line ∧ k ≤ (words (line.drop 5)).length := asks_iff (by decide) h

theorem asks_quit (h : ascii "QUIT" <+: line) : Asks line (ascii "QUIT") k ↔
    EndsAt 4 line ∧ k ≤ (words (line.drop 4)).length := asks_iff (by decide) h

theorem not_tooFew {arguments later later' : List (List UInt8)} {key val : List UInt8}
    (hkey : arguments = key :: later)
    (hval : Scanf.afterField maxKeyLen key later = val :: later') : ¬ TooFew arguments := by
  rintro (hnil | ⟨single, hsingle, hlen⟩)
  · rw [hkey] at hnil
    cases hnil
  · rw [hkey] at hsingle
    cases hsingle
    rw [Scanf.afterField, if_pos hlen] at hval
    cases hval

/-- The command that a line is taken for is one that it asks for. -/
def Justified (line : List UInt8) : Prop :=
  ∀ r, (parseLine (.ofBuffer line)).request = some r → Asks line r.1 r.2

theorem justified_of_separated (h : Separated line) : Justified line := by
  intro r hr
  have hs := recognized_parseLine (.ofBuffer line)
  generalize parseLine (.ofBuffer line) = command at hr hs
  cases hs with
  | get hprefix hwords =>
    cases hr
    have hline := (prefix_ofBuffer_iff (by decide)).mp hprefix
    have hsome : words ((CString.ofBuffer line).bytes.drop 3) ≠ [] := by
      rw [hwords]
      exact List.cons_ne_nil _ _
    exact (asks_get hline).mpr ⟨h.get hline hsome, words_of_ofBuffer 3 hsome⟩
  | put hprefix hkey hval =>
    cases hr
    have hline := (prefix_ofBuffer_iff (by decide)).mp hprefix
    exact (asks_put hline).mpr (h.put hline (not_tooFew hkey hval))
  | del hprefix hwords =>
    cases hr
    have hline := (prefix_ofBuffer_iff (by decide)).mp hprefix
    have hsome : words ((CString.ofBuffer line).bytes.drop 3) ≠ [] := by
      rw [hwords]
      exact List.cons_ne_nil _ _
    exact (asks_del hline).mpr ⟨h.del hline hsome, words_of_ofBuffer 3 hsome⟩
  | stats hprefix =>
    cases hr
    have hline := (prefix_ofBuffer_iff (by decide)).mp hprefix
    exact (asks_stats hline).mpr ⟨h.stats hline, Nat.zero_le _⟩
  | quit hprefix =>
    cases hr
    have hline := (prefix_ofBuffer_iff (by decide)).mp hprefix
    exact (asks_quit hline).mpr ⟨h.quit hline, Nat.zero_le _⟩
  | _ => cases hr

/-- A prefix that is executed with the word behind it as its argument ends where it should. -/
theorem endsAt_of_justified (h : Justified line) {command : CString → Command}
    (hrequest : ∀ key, (command key).request = some (word, 1))
    (hasks : Asks line word 1 ↔ EndsAt 3 line ∧ 1 ≤ (words (line.drop 3)).length)
    (hparse : parseLine (.ofBuffer line) =
      match words ((CString.ofBuffer line).bytes.drop 3) with
      | [] => .malformed
      | key :: _ => command (.ofBuffer (key.take maxKeyLen)))
    (hsome : words ((CString.ofBuffer line).bytes.drop 3) ≠ []) : EndsAt 3 line := by
  unfold Justified at h
  rw [hparse] at h
  cases hwords : words ((CString.ofBuffer line).bytes.drop 3) with
  | nil => exact absurd hwords hsome
  | cons key later =>
    rw [hwords] at h
    exact (hasks.mp (h _ (hrequest _))).1

theorem separated_of_justified (h : Justified line) : Separated line := by
  constructor
  · intro hline hsome
    exact endsAt_of_justified h (fun _ => rfl) (asks_get hline)
      (parseLine_get ((prefix_ofBuffer_iff (by decide)).mpr hline)) hsome
  · intro hline hmany
    rcases tooFew_or (words ((CString.ofBuffer line).bytes.drop 3)) with
      hfew | ⟨key, later, val, later', hkey, hval⟩
    · exact absurd hfew hmany
    · obtain ⟨rest, -, hparse⟩ :=
        parseLine_put ((prefix_ofBuffer_iff (by decide)).mpr hline) hkey hval
      exact (asks_put hline).mp (h _ (by rw [hparse]; rfl))
  · intro hline hsome
    exact endsAt_of_justified h (fun _ => rfl) (asks_del hline)
      (parseLine_del ((prefix_ofBuffer_iff (by decide)).mpr hline)) hsome
  · intro hline
    have hparse := parseLine_stats ((prefix_ofBuffer_iff (by decide)).mpr hline)
    exact ((asks_stats hline).mp (h _ (by rw [hparse]; rfl))).1
  · intro hline
    have hparse := parseLine_quit ((prefix_ofBuffer_iff (by decide)).mpr hline)
    exact ((asks_quit hline).mp (h _ (by rw [hparse]; rfl))).1

section Pass

variable {s : State C numBuckets} {client : C} {now : ℕ} {ls : List (List UInt8)}

theorem handleClient_line (hserving : (s.connections client).serving = true)
    (hline : lines (· == newline) (s.connections client).unread = line :: ls)
    (hlen : line.length ≤ 575) :
    handleClient client now s =
      ⟨(respond (parseLine (.ofBuffer line)) now s.table).2,
        Function.update s.connections client ⟨ls.flatten, !isQuit line⟩,
        s.log ++ [⟨client, line, s.table, now,
          (respond (parseLine (.ofBuffer line)) now s.table).1⟩]⟩ := by
  have hread : fgets maxLineLen (s.connections client).unread = some (line, ls.flatten) := by
    have hfirst := readLine_of_lines (n := 575) (by omega) hline
    rw [List.take_of_length_le hlen, List.drop_eq_nil_of_le hlen, List.nil_append] at hfirst
    exact hfirst
  simp [handleClient, hserving, hread, isQuit]

theorem respond_refused {command : Command} (h : command.request = none)
    (table : HashTable numBuckets) :
    ascii "ERROR" <+: (respond command now table).1 ∧ (respond command now table).2 = table := by
  cases command with
  | malformedPut => exact ⟨by simp only [respond]; decide, rfl⟩
  | malformed => exact ⟨by simp only [respond]; decide, rfl⟩
  | _ => cases h

theorem exactRecognition_of_justified (hserving : (s.connections client).serving = true)
    (hline : lines (· == newline) (s.connections client).unread = line :: ls)
    (hlen : line.length ≤ 575) (h : Justified line) :
    ∃ e, ExactRecognition client now s line e := by
  refine ⟨⟨client, line, s.table, now, (respond (parseLine (.ofBuffer line)) now s.table).1⟩,
    ⟨?_, rfl, rfl⟩, h, fun hnone => ?_⟩
  · rw [handleClient_line hserving hline hlen]
  · rw [handleClient_line hserving hline hlen]
    have hrefused : (parseLine (.ofBuffer line)).request = none := by
      obtain ⟨hget, hput, hdel, hstats, hquit⟩ := hnone
      unfold Justified at h
      generalize parseLine (.ofBuffer line) = command at h
      cases command with
      | get key => exact absurd (h _ rfl) hget
      | put key val ttl => exact absurd (h _ rfl) hput
      | del key => exact absurd (h _ rfl) hdel
      | stats => exact absurd (h _ rfl) hstats
      | quit => exact absurd (h _ rfl) hquit
      | malformedPut => rfl
      | malformed => rfl
    have hopen : isQuit line = false := by
      rw [isQuit, decide_eq_false_iff_not]
      intro hquit
      rw [hquit] at hrefused
      cases hrefused
    obtain ⟨hreply, htable⟩ := respond_refused hrefused s.table
    refine ⟨hreply, htable, ?_⟩
    simp only [Function.update_self, hopen, Bool.not_false]

theorem justified_of_exactRecognition (hserving : (s.connections client).serving = true)
    (hline : lines (· == newline) (s.connections client).unread = line :: ls)
    (hlen : line.length ≤ 575) {e : Exchange C numBuckets}
    (h : ExactRecognition client now s line e) : Justified line := by
  intro r hr
  obtain ⟨hlog, -, -⟩ := h.reads
  rw [handleClient_line hserving hline hlen] at hlog
  obtain rfl := (List.cons.inj (List.append_cancel_left hlog)).1
  exact h.executes r hr

/-- A pass over a line of at most 575 bytes is exact, whatever the table, if and only if nothing
sticks to the prefix that the tests look at. -/
theorem exactRecognition_iff_separated (client : C) (now : ℕ) (s : State C numBuckets)
    (line : List UInt8) (ls : List (List UInt8))
    (hserving : (s.connections client).serving = true)
    (hline : lines (· == newline) (s.connections client).unread = line :: ls)
    (hlen : line.length ≤ 575) :
    (∃ e, ExactRecognition client now s line e) ↔ Separated line :=
  ⟨fun ⟨_, h⟩ => separated_of_justified (justified_of_exactRecognition hserving hline hlen h),
    fun h => exactRecognition_of_justified hserving hline hlen (justified_of_separated h)⟩

end Pass

theorem exactRecognition_of_put :
    ∃ e, ExactRecognition () 0 (start (kvInit 1) fun _ : Unit => ascii "PUT color red\n")
      (ascii "PUT color red\n") e := by
  refine (exactRecognition_iff_separated () 0 _ (ascii "PUT color red\n") [] rfl (by decide)
    (by decide)).mpr ⟨?_, ?_, ?_, ?_, ?_⟩
  · exact fun h => absurd h (by decide)
  · exact fun _ _ => ⟨fun b hb => by
      obtain rfl := Option.some.inj (show some (32 : UInt8) = some b from hb)
      decide, by decide⟩
  · exact fun h => absurd h (by decide)
  · exact fun h => absurd h (by decide)
  · exact fun h => absurd h (by decide)

/-- A word that begins with `GET` is executed. -/
theorem not_exactRecognition_of_longer_word :
    ¬ ∃ e, ExactRecognition () 0 (start (kvInit 1) fun _ : Unit => ascii "GETfoo\n")
      (ascii "GETfoo\n") e := by
  rintro ⟨e, h⟩
  have hline : lines (· == newline) (ascii "GETfoo\n") = [ascii "GETfoo\n"] := by
    decide
  have hjustified := justified_of_exactRecognition rfl hline (by decide) h
  have hends := (separated_of_justified hjustified).get (by decide) (by decide)
  have hspace := hends 102 (by decide)
  revert hspace
  decide

end CpreLabs.HandleClient
