import Mathlib.Data.List.Basic
import Mathlib.Tactic.Common

/-!
# Lines of a stream, and readers whose buffer has a fixed size

A line ends with its separator or with the stream. A reader takes at most `n` items at a
time, so it returns a longer line in pieces; it goes on until the stream ends or until it
has read a piece that tells it to stop.
-/
namespace CpreLabs.LineFraming

variable {α : Type*} {sep stop : α → Bool}

section Lines

variable (sep)

/-- The lines of a stream, each with the separator that ends it. -/
def lines : List α → List (List α)
  | [] => []
  | a :: as =>
      if sep a then [a] :: lines as
      else match lines as with
        | [] => [[a]]
        | line :: ls => (a :: line) :: ls

/-- What one read takes: at most `n` items, up to the first separator. -/
def takeLine : ℕ → List α → List α
  | 0, _ => []
  | _, [] => []
  | n + 1, a :: as => if sep a then [a] else a :: takeLine n as

/-- One read, with what it leaves; nothing at the end of the stream. -/
def readLine (n : ℕ) (stream : List α) : Option (List α × List α) :=
  match takeLine sep n stream with
  | [] => none
  | piece => some (piece, stream.drop piece.length)

end Lines

theorem lines_eq_nil {stream : List α} : lines sep stream = [] ↔ stream = [] := by
  cases stream with
  | nil => simp [lines]
  | cons a as =>
    simp only [lines, reduceCtorEq, iff_false]
    split
    · simp
    · split <;> simp

theorem lines_cons {stream line : List α} {ls : List (List α)}
    (h : lines sep stream = line :: ls) :
    line ≠ [] ∧ stream = line ++ ls.flatten ∧ lines sep ls.flatten = ls := by
  induction stream generalizing line ls with
  | nil => simp [lines] at h
  | cons a as ih =>
    simp only [lines] at h
    split at h
    · cases h
      cases hl : lines sep as with
      | nil =>
        obtain rfl := lines_eq_nil.mp hl
        simp [lines]
      | cons line ls =>
        obtain ⟨-, has, -⟩ := ih hl
        have hflat : (line :: ls).flatten = as := by rw [List.flatten_cons, ← has]
        rw [hflat]
        exact ⟨by simp, rfl, hl⟩
    · cases hl : lines sep as with
      | nil =>
        rw [hl] at h
        cases h
        obtain rfl := lines_eq_nil.mp hl
        simp [lines]
      | cons line' ls' =>
        rw [hl] at h
        cases h
        obtain ⟨-, has, hls⟩ := ih hl
        exact ⟨by simp, by rw [List.cons_append, ← has], hls⟩

theorem takeLine_eq_take {stream line : List α} {ls : List (List α)} (n : ℕ)
    (h : lines sep stream = line :: ls) : takeLine sep n stream = line.take n := by
  induction stream generalizing n line ls with
  | nil => simp [lines] at h
  | cons a as ih =>
    cases n with
    | zero => simp [takeLine]
    | succ n =>
      simp only [lines] at h
      simp only [takeLine]
      split at h
      · cases h
        rw [if_pos ‹_›]
        simp
      · rw [if_neg ‹_›]
        cases hl : lines sep as with
        | nil =>
          rw [hl] at h
          cases h
          obtain rfl := lines_eq_nil.mp hl
          cases n <;> simp [takeLine]
        | cons line' ls' =>
          rw [hl] at h
          cases h
          rw [ih n hl, List.take_succ_cons]

theorem readLine_eq_none {n : ℕ} (hn : 0 < n) {stream : List α} :
    readLine sep n stream = none ↔ stream = [] := by
  obtain ⟨n, rfl⟩ := Nat.exists_eq_succ_of_ne_zero (Nat.ne_of_gt hn)
  cases stream with
  | nil => simp [readLine, takeLine]
  | cons a as => cases h : sep a <;> simp [readLine, takeLine, h]

theorem readLine_of_lines {n : ℕ} (hn : 0 < n) {stream line : List α} {ls : List (List α)}
    (h : lines sep stream = line :: ls) :
    readLine sep n stream = some (line.take n, line.drop n ++ ls.flatten) := by
  obtain ⟨hne, hstream, -⟩ := lines_cons h
  have hpiece : line.take n ≠ [] := by
    rw [ne_eq, List.take_eq_nil_iff, not_or]
    exact ⟨Nat.ne_of_gt hn, hne⟩
  have hdrop : stream.drop (line.take n).length = line.drop n ++ ls.flatten := by
    have h : stream = line.take n ++ (line.drop n ++ ls.flatten) := by
      rw [hstream, ← List.append_assoc, List.take_append_drop]
    rw [h, List.drop_left]
  rw [readLine, takeLine_eq_take n h]
  split
  · exact absurd ‹_› hpiece
  · rw [hdrop]

/-- Whatever a read returns is the first line as far as it fits. -/
theorem lines_of_readLine {n : ℕ} (hn : 0 < n) {stream piece rest : List α}
    (h : readLine sep n stream = some (piece, rest)) :
    ∃ line ls, lines sep stream = line :: ls ∧ piece = line.take n ∧
      rest = line.drop n ++ ls.flatten := by
  cases hl : lines sep stream with
  | nil =>
    rw [(readLine_eq_none hn).mpr (lines_eq_nil.mp hl)] at h
    cases h
  | cons line ls =>
    rw [readLine_of_lines hn hl] at h
    cases h
    exact ⟨line, ls, rfl, rfl, rfl⟩

theorem lines_append {line : List α} (h : ∀ a ∈ line, sep a = false) {b : α}
    (hb : sep b = true) (rest : List α) :
    lines sep (line ++ b :: rest) = (line ++ [b]) :: lines sep rest := by
  induction line with
  | nil => simp [lines, hb]
  | cons a as ih =>
    obtain ⟨ha, has⟩ := List.forall_mem_cons.mp h
    simp [lines, ha, ih has]

theorem lines_flatten {ls : List (List α)}
    (h : ∀ line ∈ ls, ∃ text b, line = text ++ [b] ∧ sep b = true ∧ ∀ a ∈ text, sep a = false) :
    lines sep ls.flatten = ls := by
  induction ls with
  | nil => rfl
  | cons line ls ih =>
    obtain ⟨hline, hls⟩ := List.forall_mem_cons.mp h
    obtain ⟨text, b, rfl, hb, htext⟩ := hline
    rw [List.flatten_cons, List.append_assoc, List.singleton_append, lines_append htext hb, ih hls]

/-- A list up to and including the first item that says `stop`. -/
def upTo (stop : α → Bool) : List α → List α
  | [] => []
  | a :: as => if stop a then [a] else a :: upTo stop as

/-- A reader started on `stream`: the pieces read, what it has not read, and whether it goes
on reading. -/
inductive Reads (sep : α → Bool) (stop : List α → Bool) (n : ℕ) (stream : List α) :
    List (List α) → List α → Bool → Prop
  | start : Reads sep stop n stream [] stream true
  | read {pieces rest piece rest'} : Reads sep stop n stream pieces rest true →
      readLine sep n rest = some (piece, rest') →
      Reads sep stop n stream (pieces ++ [piece]) rest' (!stop piece)
  | eof {pieces rest} : Reads sep stop n stream pieces rest true →
      readLine sep n rest = none → Reads sep stop n stream pieces rest false

/-- The pieces are the lines: one for each, starting where the line starts, and all of it
unless nothing is read after it. -/
structure Framed (pieces ls : List (List α)) : Prop where
  length : pieces.length = ls.length
  starts : ∀ (i : ℕ) piece line, pieces[i]? = some piece → ls[i]? = some line → piece <+: line
  whole : ∀ (i : ℕ) piece line, pieces[i]? = some piece → ls[i]? = some line →
    i + 1 < ls.length → piece = line

theorem Framed.concat (before : List (List α)) {piece line : List α} (h : piece <+: line) :
    Framed (before ++ [piece]) (before ++ [line]) := by
  refine ⟨by simp, fun i p l hp hl => ?_, fun i p l hp hl hi => ?_⟩
  · rcases Nat.lt_or_ge i before.length with hi | hi
    · rw [List.getElem?_append_left hi] at hp hl
      rw [hp] at hl
      cases hl
      exact List.prefix_rfl
    · rw [List.getElem?_append_right hi, List.getElem?_singleton] at hp hl
      split at hp
      · rw [if_pos ‹_›] at hl
        cases hp
        cases hl
        exact h
      · cases hp
  · have hi : i < before.length := by simpa using hi
    rw [List.getElem?_append_left hi] at hp hl
    rw [hp] at hl
    exact Option.some.inj hl

theorem Framed.refl (ls : List (List α)) : Framed ls ls := by
  rcases List.eq_nil_or_concat ls with rfl | ⟨before, line, rfl⟩
  · exact ⟨rfl, by simp, by simp⟩
  · rw [List.concat_eq_append]
    exact .concat before List.prefix_rfl

/-- Where a reader stands, given the lines it has to read: between two lines, behind the piece
that told it to stop, or behind a line it has split. -/
inductive Progress (sep : α → Bool) (stop : List α → Bool) (n : ℕ) (ls : List (List α)) :
    List (List α) → List α → Bool → Prop
  | between {pieces rest going} : (∀ piece ∈ pieces, piece.length ≤ n) →
      pieces ++ (if going then upTo stop (lines sep rest) else []) = ls →
      Progress sep stop n ls pieces rest going
  | stopped {before line rest} : (∀ piece ∈ before, piece.length ≤ n) →
      before ++ [line] = ls → stop line = true →
      Progress sep stop n ls (before ++ [line.take n]) rest false
  | split {before line later after rest going} : before ++ line :: later = ls →
      n < line.length → stop line = false → (after = [] → going = true ∧ rest ≠ []) →
      Progress sep stop n ls (before ++ line.take n :: after) rest going

section Reader

variable {stop : List α → Bool} {n : ℕ} {stream rest : List α} {pieces : List (List α)}
  {going : Bool}

theorem Reads.progress (hn : 0 < n) (hstop : ∀ line, stop (line.take n) = stop line)
    (h : Reads sep stop n stream pieces rest going) :
    Progress sep stop n (upTo stop (lines sep stream)) pieces rest going := by
  induction h with
  | start => exact .between (by simp) (by simp)
  | @read pieces rest piece rest' _ hread ih =>
    generalize hgoing : true = going at ih
    cases ih with
    | between hshort hls =>
      subst hgoing
      obtain ⟨line, later, hl, rfl, rfl⟩ := lines_of_readLine hn hread
      obtain ⟨-, -, hlater⟩ := lines_cons hl
      rw [if_pos rfl, hl, upTo] at hls
      rw [hstop]
      cases hs : stop line with
      | true =>
        rw [if_pos hs] at hls
        exact .stopped hshort hls hs
      | false =>
        rw [if_neg (by simp [hs])] at hls
        by_cases hlong : n < line.length
        · refine .split hls hlong hs fun _ => ⟨rfl, fun h => ?_⟩
          have hdrop := List.drop_eq_nil_iff.mp (List.append_eq_nil_iff.mp h).1
          omega
        · have hfits : line.length ≤ n := by omega
          rw [List.take_of_length_le hfits, List.drop_eq_nil_of_le hfits, List.nil_append]
          refine .between (fun p hp => ?_) ?_
          · rcases List.mem_append.mp hp with hp | hp
            · exact hshort p hp
            · rw [List.mem_singleton.mp hp]
              exact hfits
          · rw [hlater, ← hls]
            simp
    | stopped => cases hgoing
    | split hls hlong hs _ =>
      rw [List.append_assoc, List.cons_append]
      exact .split hls hlong hs (by simp)
  | eof _ hread ih =>
    have hrest := (readLine_eq_none hn).mp hread
    generalize hgoing : true = going at ih
    cases ih with
    | between hshort hls =>
      subst hgoing hrest
      exact .between hshort (by simpa [lines, upTo] using hls)
    | stopped => cases hgoing
    | split hls hlong hs hafter =>
      exact .split hls hlong hs fun h => absurd hrest (hafter h).2

/-- When the reader has finished, it has read line by line exactly if every line it had to
read fits the buffer, or is the one that told it to stop. -/
theorem Reads.framed_iff (hn : 0 < n) (hstop : ∀ line, stop (line.take n) = stop line)
    (h : Reads sep stop n stream pieces rest false) :
    Framed pieces (upTo stop (lines sep stream)) ↔
      ∀ line ∈ upTo stop (lines sep stream), line.length ≤ n ∨ stop line = true := by
  have hp := h.progress hn hstop
  generalize upTo stop (lines sep stream) = ls at hp
  generalize hgoing : false = going at hp
  cases hp with
  | between hshort hls =>
    subst hgoing
    obtain rfl : pieces = ls := by simpa using hls
    exact ⟨fun _ line hline => .inl (hshort line hline), fun _ => .refl pieces⟩
  | @stopped before line _ hshort hls hs =>
    subst hls
    refine ⟨fun _ l hl => ?_, fun _ => .concat before (List.take_prefix n line)⟩
    rcases List.mem_append.mp hl with hl | hl
    · exact .inl (hshort l hl)
    · rw [List.mem_singleton.mp hl]
      exact .inr hs
  | @split before line later after _ _ hls hlong hs hafter =>
    subst hls hgoing
    refine ⟨fun hf => ?_, fun hfits => ?_⟩
    · have hne : after ≠ [] := fun h => absurd (hafter h).1 (by simp)
      have hpos := List.length_pos_of_ne_nil hne
      have hlen := hf.length
      have hcut := hf.whole before.length (line.take n) line (by simp) (by simp)
        (by simp only [List.length_append, List.length_cons] at hlen ⊢; omega)
      have hcutlen := congrArg List.length hcut
      rw [List.length_take] at hcutlen
      omega
    · rcases hfits line (by simp) with h | h
      · omega
      · rw [hs] at h
        cases h

/-- When the lines fit, a piece is its line, as far as the buffer reaches. -/
theorem Reads.pieces_eq (hn : 0 < n) (hstop : ∀ line, stop (line.take n) = stop line)
    (h : Reads sep stop n stream pieces rest going)
    (hfits : ∀ line ∈ upTo stop (lines sep stream), line.length ≤ n ∨ stop line = true) :
    pieces <+: (upTo stop (lines sep stream)).map (List.take n) ∧
      (going = false → pieces = (upTo stop (lines sep stream)).map (List.take n)) := by
  have hshort : ∀ ls : List (List α), (∀ l ∈ ls, l.length ≤ n) → ls.map (List.take n) = ls :=
    fun ls h => (List.map_congr_left fun l hl => List.take_of_length_le (h l hl)).trans
      (List.map_id ls)
  have hp := h.progress hn hstop
  generalize upTo stop (lines sep stream) = ls at hp hfits
  cases hp with
  | between hpieces hls =>
    rw [← hls, List.map_append, hshort pieces hpieces]
    exact ⟨List.prefix_append _ _, fun hgoing => by simp [hgoing]⟩
  | @stopped before line _ hbefore hls hs =>
    rw [← hls, List.map_append, hshort before hbefore]
    exact ⟨List.prefix_rfl, fun _ => rfl⟩
  | @split before line later after _ _ hls hlong hs _ =>
    rcases hfits line (by simp [← hls]) with h | h
    · omega
    · rw [hs] at h
      cases h

/-- The pieces and what is left make up the stream, and no piece is empty. -/
theorem Reads.stream_eq (hn : 0 < n) (h : Reads sep stop n stream pieces rest going) :
    stream = pieces.flatten ++ rest ∧ ∀ piece ∈ pieces, piece ≠ [] := by
  induction h with
  | start => simp
  | @read pieces rest piece rest' _ hread ih =>
    obtain ⟨hstream, hne⟩ := ih
    obtain ⟨line, later, hl, rfl, rfl⟩ := lines_of_readLine hn hread
    obtain ⟨hline, hrest, -⟩ := lines_cons hl
    refine ⟨?_, fun p hp => ?_⟩
    · rw [hstream, hrest, List.flatten_append, List.flatten_singleton, List.append_assoc,
        ← List.append_assoc (line.take n), List.take_append_drop]
    · rcases List.mem_append.mp hp with hp | hp
      · exact hne p hp
      · rw [List.mem_singleton.mp hp, ne_eq, List.take_eq_nil_iff, not_or]
        exact ⟨Nat.ne_of_gt hn, hline⟩
  | eof _ _ ih => exact ih

theorem length_le_flatten {ls : List (List α)} (h : ∀ l ∈ ls, l ≠ []) :
    ls.length ≤ ls.flatten.length := by
  induction ls with
  | nil => simp
  | cons l ls ih =>
    obtain ⟨hl, hls⟩ := List.forall_mem_cons.mp h
    have hrest := ih hls
    have hpos := List.length_pos_of_ne_nil hl
    simp only [List.length_cons, List.flatten_cons, List.length_append]
    omega

theorem Reads.length_le (hn : 0 < n) (h : Reads sep stop n stream pieces rest going) :
    pieces.length ≤ stream.length := by
  obtain ⟨hstream, hne⟩ := h.stream_eq hn
  have hle := length_le_flatten hne
  rw [hstream, List.length_append]
  omega

end Reader

end CpreLabs.LineFraming
