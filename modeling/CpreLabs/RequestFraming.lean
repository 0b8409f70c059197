import CpreLabs.ClientSessions

/-!
# One reply for each line

`fgets` reads at most 575 bytes at a time. A line that is longer is carried out in pieces, and
each piece is answered as if it were a line.
-/
namespace CpreLabs.HandleClient

open HashTable LineFraming Scanf

variable {C : Type*} {numBuckets : ℕ+}

/-- The lines of a stream that are to be answered: up to and including the first `QUIT`. -/
def requestLines (stream : List UInt8) : List (List UInt8) :=
  upTo (fun line => ascii "QUIT" <+: line) (lines (· == newline) stream)

theorem requestLines_eq (stream : List UInt8) :
    requestLines stream = upTo isQuit (lines (· == newline) stream) := by
  have hquit : (fun line : List UInt8 => decide (ascii "QUIT" <+: line)) = isQuit := by
    funext line
    rw [Bool.eq_iff_iff, isQuit_iff, decide_eq_true_iff]
  rw [requestLines, hquit]

/-- What a client may expect of the passes made for it. -/
structure FramedSession (stream : List UInt8) (exchanges : List (Exchange C numBuckets)) :
    Prop where
  /-- One command for each line, which starts where the line starts. -/
  commands : Framed (exchanges.map Exchange.line) (requestLines stream)
  replies : lines (· == newline) (exchanges.flatMap Exchange.reply) =
    exchanges.map Exchange.reply
  /-- A reply is decided by the line, the table and the clock. -/
  decided : ∀ (i : ℕ) e line, exchanges[i]? = some e → (requestLines stream)[i]? = some line →
    e.reply = (respond (parseLine (.ofBuffer line)) e.now e.table).1

def IsReplyLine (reply : List UInt8) : Prop := ∃ text, newline ∉ text ∧ reply = text ++ [newline]

theorem newline_not_mem_decimal (value : ℤ) : newline ∉ decimal value := by
  have hrepr : ∀ n : ℕ, newline ∉ ascii n.repr := fun n h => by
    cases isDigit_of_mem_repr h
  rw [decimal]
  split
  · rw [List.mem_cons, not_or]
    exact ⟨by decide, hrepr _⟩
  · exact hrepr _

/-- Every value stored is part of one line. -/
def Printable (table : HashTable numBuckets) : Prop :=
  ∀ key s, table.contents key = some s → newline ∉ s.value.str.bytes

theorem isReplyLine_respond {command : Command} {now : ℕ} {table : HashTable numBuckets}
    (h : Printable table) :
    IsReplyLine (respond command now table).1 := by
  have hok : IsReplyLine respOk := ⟨ascii "OK", by decide, by decide⟩
  have hnone : IsReplyLine respNotFound := ⟨ascii "NOT_FOUND", by decide, by decide⟩
  cases command with
  | get key =>
    simp only [respond]
    split
    · rename_i out t hget
      obtain ⟨s, hs, rfl⟩ := kvGet_found (congrArg Prod.fst hget)
      refine ⟨ascii "VALUE " ++ s.value.str.bytes, ?_, rfl⟩
      rw [List.mem_append, not_or]
      exact ⟨by decide, h key s hs⟩
    · exact hnone
  | put key val ttl => exact hok
  | malformedPut => exact ⟨ascii "ERROR Malformed PUT command", by decide, rfl⟩
  | del key =>
    simp only [respond]
    split
    · exact hok
    · exact hnone
  | stats =>
    refine ⟨_, ?_, rfl⟩
    simp only [List.mem_append, not_or]
    exact ⟨⟨⟨⟨⟨⟨⟨⟨⟨by decide, newline_not_mem_decimal _⟩, by decide⟩, newline_not_mem_decimal _⟩,
      by decide⟩, newline_not_mem_decimal _⟩, by decide⟩, newline_not_mem_decimal _⟩, by decide⟩,
      newline_not_mem_decimal _⟩
  | quit => exact ⟨ascii "BYE", by decide, rfl⟩
  | malformed => exact ⟨ascii "ERROR Malformed command", by decide, rfl⟩

theorem isSpace_of_put {s key val : CString} {ttl : ℤ} (h : parseLine s = .put key val ttl) :
    ∀ b ∈ val.bytes, isSpace b = false := by
  have hs := recognized_parseLine s
  rw [h] at hs
  cases hs with
  | @put word later word' later' rest _ hargs hval _ =>
    intro b hb
    obtain ⟨v, hv, hmem⟩ := of_mem_afterField (w := word') (by rw [hval]; simp)
    rw [← hargs] at hv
    have hb : b ∈ word' := List.mem_of_mem_take ((List.takeWhile_sublist _).subset hb)
    exact (of_mem_words hv).1.2 b (hmem b hb)

theorem printable_kvInit : Printable (kvInit numBuckets) := by
  intro key s hs
  cases hs

theorem History.printable {table t : HashTable numBuckets} {log : List (Exchange C numBuckets)}
    (h : History table log t) (ht : table.WellPlaced) (hp : Printable table) : Printable t := by
  intro key s hs
  rcases h.contents_cases ht hs with hs | ⟨e, _, val, ttl, hput, hval⟩
  · exact hp key s hs
  · rw [hval]
    intro hmem
    cases isSpace_of_put hput newline (List.mem_of_mem_take hmem)

section Serving

variable [DecidableEq C] {table : HashTable numBuckets} {streams : C → List UInt8}

theorem isReplyLine_of_mem (ht : table.WellPlaced) (hp : Printable table)
    {events : List (Event C)} {e : Exchange C numBuckets}
    (he : e ∈ (serve events (start table streams)).log) : IsReplyLine e.reply := by
  have hist := history_serve table streams events
  obtain ⟨before, after, hlog⟩ := List.append_of_mem he
  rw [hlog] at hist
  rw [hist.before.2]
  exact isReplyLine_respond (hist.before.1.printable ht hp)

theorem lines_written (ht : table.WellPlaced) (hp : Printable table) (events : List (Event C))
    (client : C) :
    lines (· == newline) ((serve events (start table streams)).written client) =
      ((serve events (start table streams)).exchanges client).map Exchange.reply := by
  rw [State.written, List.flatMap_def]
  refine lines_flatten fun reply hreply => ?_
  obtain ⟨e, he, rfl⟩ := List.mem_map.mp hreply
  obtain ⟨text, htext, hline⟩ := isReplyLine_of_mem ht hp (List.mem_of_mem_filter he)
  exact ⟨text, newline, hline, by simp, fun b hb => by simpa using ne_of_mem_of_not_mem hb htext⟩

def passes (client : C) (events : List (Event C)) : ℕ :=
  events.countP fun
    | .pass c _ => c = client
    | .sweep _ => false

theorem passes_concat (client other : C) (now : ℕ) (events : List (Event C)) :
    passes client (events ++ [.pass other now]) =
      passes client events + if other = client then 1 else 0 := by
  simp [passes]

theorem length_exchanges (events : List (Event C)) (client : C)
    (h : ((serve events (start table streams)).connections client).serving = true) :
    ((serve events (start table streams)).exchanges client).length = passes client events := by
  induction events using List.reverseRecOn with
  | nil => rfl
  | append_singleton events event ih =>
    rw [serve_concat] at h ⊢
    cases event with
    | sweep now =>
      rw [passes, List.countP_append]
      exact ih h
    | pass other now =>
      rw [passes_concat]
      rcases handleClient_cases other now (serve events (start table streams)) with
        ⟨hserving, hs⟩ | ⟨-, -, hs⟩ | ⟨e, unread, hserving, -, hclient, -, -, -, hs⟩
      · rw [next, hs] at h ⊢
        have hc : other ≠ client := fun hc => by rw [← hc, hserving] at h; cases h
        rw [if_neg hc]
        exact ih h
      · rw [next, hs] at h ⊢
        by_cases hc : other = client
        · simp [hc] at h
        · simp only [Function.update_of_ne (Ne.symm hc)] at h
          rw [if_neg hc]
          exact ih h
      · rw [next, hs] at h ⊢
        by_cases hc : other = client
        · rw [hc] at hserving
          simp [hc, hclient, State.exchanges, ← ih hserving]
        · simp only [Function.update_of_ne (Ne.symm hc)] at h
          simp [hc, hclient, State.exchanges, ← ih h]

theorem finished_of_passes (events : List (Event C)) (client : C)
    (h : (streams client).length < passes client events) :
    ((serve events (start table streams)).connections client).serving = false := by
  cases hserving : ((serve events (start table streams)).connections client).serving with
  | false => rfl
  | true =>
    have hle := (reads_serve table streams events client).length_le
      (by omega)
    rw [List.length_map, length_exchanges events client hserving] at hle
    omega

/-- For every stream a client sends, and whatever happens on the other connections: the client
is served to the end, and then it has been answered line by line if and only if each line up to
and including the first `QUIT` fits the buffer, or is that `QUIT`. -/
theorem framedSession_iff (streams : C → List UInt8) (events : List (Event C)) (client : C) :
    ((streams client).length < passes client events →
      ((serve events (start (kvInit numBuckets) streams)).connections client).serving = false) ∧
    (((serve events (start (kvInit numBuckets) streams)).connections client).serving = false →
      (FramedSession (streams client)
          ((serve events (start (kvInit numBuckets) streams)).exchanges client) ↔
        ∀ line ∈ requestLines (streams client), line.length ≤ 575 ∨ ascii "QUIT" <+: line)) := by
  refine ⟨finished_of_passes events client, fun hfinished => ?_⟩
  have hreads := reads_serve (kvInit numBuckets) streams events client
  rw [hfinished] at hreads
  have hiff := hreads.framed_iff (by omega) (isQuit_take (by omega))
  rw [← requestLines_eq] at hiff
  simp only [← isQuit_iff]
  refine ⟨fun h => hiff.mp h.commands, fun hfits => ⟨hiff.mpr hfits, ?_, ?_⟩⟩
  · exact lines_written wellPlaced_kvInit printable_kvInit events client
  · intro i e line he hline
    have hist := history_serve (kvInit numBuckets) streams events
    have hreply := hist.reply_eq (List.mem_of_mem_filter (List.mem_of_getElem? he))
    rw [requestLines_eq] at hfits hline
    have hpieces := (hreads.pieces_eq (by omega) (isQuit_take (by omega)) hfits).2 rfl
    have hpiece : e.line = line.take 575 := by
      have h := congrArg (fun ls : List (List UInt8) => ls[i]?) hpieces
      simpa [he, hline] using h
    rw [hreply, Exchange.command, hpiece]
    rcases hfits line (List.mem_of_getElem? hline) with h | h
    · rw [List.take_of_length_le h]
    · have hquit : parseLine (.ofBuffer line) = .quit := by simpa [isQuit] using h
      have hquit' : parseLine (.ofBuffer (line.take 575)) = .quit := by
        rw [← isQuit_take (n := 575) (by omega)] at h
        simpa [isQuit] using h
      rw [hquit, hquit']

theorem framedSession_of_short_lines :
    FramedSession (ascii "PUT a b\nGET a\nQUIT")
      ((serve (List.replicate 3 (.pass () 0))
        (start (kvInit 1) fun _ => ascii "PUT a b\nGET a\nQUIT")).exchanges ()) :=
  ((framedSession_iff (fun _ => ascii "PUT a b\nGET a\nQUIT") (List.replicate 3 (.pass () 0))
    ()).2 (by decide +kernel)).mpr (by decide +kernel)

/-- One line of 581 bytes: a `PUT`, spaces up to the end of the buffer, and what looks like a
`DEL`. -/
def paddedStream : List UInt8 :=
  ascii "PUT k v" ++ List.replicate 568 32 ++ ascii "DEL k\n"

/-- The one line gets two replies, and its end deletes the key. -/
theorem not_framedSession_of_long_line :
    ¬ ∀ (streams : Unit → List UInt8) (events : List (Event Unit)) (client : Unit),
      ((serve events (start (kvInit 1) streams)).connections client).serving = false →
        FramedSession (streams client)
          ((serve events (start (kvInit 1) streams)).exchanges client) := by
  intro h
  have hframed := h (fun _ => paddedStream) (List.replicate 3 (.pass () 0)) () (by decide +kernel)
  have hwritten : (((serve (List.replicate 3 (.pass () 0))
      (start (kvInit 1) fun _ => paddedStream)).exchanges ()).map Exchange.line).length = 2 := by
    decide +kernel
  have hlines : (requestLines paddedStream).length = 1 := by decide +kernel
  have hlength := hframed.commands.length
  omega

end Serving

end CpreLabs.HandleClient
