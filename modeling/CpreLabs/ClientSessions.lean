import CpreLabs.CommandParsing
import CpreLabs.HashTableRefinement

/-!
# Runs of the server over its connections

What one pass or sweep does, and what therefore holds after any sequence of them: every
connection is read by a reader of lines, the replies are those of the commands read, and the
tables the passes found are one history.
-/
namespace CpreLabs.HandleClient

open HashTable LineFraming

variable {C : Type*} {numBuckets : ℕ+}

/-- The line makes `handle_client` leave its loop. -/
def isQuit (line : List UInt8) : Bool := parseLine (.ofBuffer line) = .quit

theorem prefix_ofBuffer_iff {xs input : List UInt8} (h : 0 ∉ xs) :
    xs <+: (CString.ofBuffer input).bytes ↔ xs <+: input := by
  change xs <+: input.takeWhile (· != 0) ↔ xs <+: input
  induction xs generalizing input with
  | nil => simp
  | cons x xs ih =>
    rw [List.mem_cons, not_or] at h
    obtain ⟨hx, hxs⟩ := h
    cases input with
    | nil => simp
    | cons b input =>
      by_cases hb : b = 0
      · simp [hb, Ne.symm hx]
      · simp [hb, ih hxs]

theorem isQuit_iff {line : List UInt8} : isQuit line = true ↔ ascii "QUIT" <+: line := by
  rw [isQuit, decide_eq_true_eq, parseLine_eq_quit, prefix_ofBuffer_iff (by decide)]

theorem isQuit_take {n : ℕ} (hn : 4 ≤ n) (line : List UInt8) : isQuit (line.take n) = isQuit line := by
  rw [Bool.eq_iff_iff, isQuit_iff, isQuit_iff]
  refine ⟨fun h => h.trans (List.take_prefix n line), fun h => ?_⟩
  have hword : (ascii "QUIT").length = 4 := by decide
  have hlen := h.length_le
  refine List.prefix_of_prefix_length_le h (List.take_prefix n line) ?_
  rw [List.length_take]
  omega

/-- The table along a run, with the passes made so far. -/
inductive History (table : HashTable numBuckets) :
    List (Exchange C numBuckets) → HashTable numBuckets → Prop
  | start : History table [] table
  | pass {log} (e : Exchange C numBuckets) : History table log e.table →
      e.reply = (respond e.command e.now e.table).1 →
      History table (log ++ [e]) (respond e.command e.now e.table).2
  | sweep {log t} (now : ℕ) : History table log t → History table log (sweeperPass now t)

theorem append_cons_eq_concat {before after log : List (Exchange C numBuckets)}
    {e d : Exchange C numBuckets} (h : before ++ e :: after = log ++ [d]) :
    (after = [] ∧ before = log ∧ e = d) ∨
      ∃ later, after = later ++ [d] ∧ before ++ e :: later = log := by
  rcases List.eq_nil_or_concat after with rfl | ⟨later, d', rfl⟩
  · obtain ⟨hlog, hd⟩ := List.append_inj' h rfl
    exact .inl ⟨rfl, hlog, (List.cons.inj hd).1⟩
  · rw [List.concat_eq_append, ← List.cons_append, ← List.append_assoc] at h
    obtain ⟨hlog, hd⟩ := List.append_inj' h rfl
    exact .inr ⟨later, by rw [List.concat_eq_append, hd], hlog⟩

theorem History.split {table t : HashTable numBuckets} {before after : List (Exchange C numBuckets)}
    {e : Exchange C numBuckets} (h : History table (before ++ e :: after) t) :
    (History table before e.table ∧ e.reply = (respond e.command e.now e.table).1) ∧
      History (respond e.command e.now e.table).2 after t := by
  generalize hlog : before ++ e :: after = log at h
  induction h generalizing after with
  | start => simp at hlog
  | @pass log d hd hreply ih =>
    rcases append_cons_eq_concat hlog with ⟨rfl, rfl, rfl⟩ | ⟨later, rfl, hearlier⟩
    · exact ⟨⟨hd, hreply⟩, .start⟩
    · obtain ⟨hbefore, hafter⟩ := ih hearlier
      exact ⟨hbefore, .pass d hafter hreply⟩
  | sweep now _ ih =>
    obtain ⟨hbefore, hafter⟩ := ih hlog
    exact ⟨hbefore, .sweep now hafter⟩

theorem History.before {table t : HashTable numBuckets}
    {before after : List (Exchange C numBuckets)} {e : Exchange C numBuckets}
    (h : History table (before ++ e :: after) t) :
    History table before e.table ∧ e.reply = (respond e.command e.now e.table).1 := h.split.1

theorem History.after {table t : HashTable numBuckets}
    {before after : List (Exchange C numBuckets)} {e : Exchange C numBuckets}
    (h : History table (before ++ e :: after) t) :
    History (respond e.command e.now e.table).2 after t := h.split.2

theorem History.reply_eq {table t : HashTable numBuckets} {log : List (Exchange C numBuckets)}
    (h : History table log t) {e : Exchange C numBuckets} (he : e ∈ log) :
    e.reply = (respond e.command e.now e.table).1 := by
  obtain ⟨before, after, rfl⟩ := List.append_of_mem he
  exact h.before.2

/-- What a call leaves under a key was there before, or is what it has put there. -/
theorem contents_exec {table : HashTable numBuckets} (h : table.WellPlaced) {c : Call}
    (hc : c.op.KeyFits) {key : CString} {s : Stored (CharArray maxValLen) ℕ}
    (hs : (exec c table).2.contents key = some s) :
    table.contents key = some s ∨
      ∃ val ttl, c.op = .put key val ttl ∧ s.value = CharArray.strncpy maxValLen val := by
  obtain ⟨op, now⟩ := c
  cases op with
  | put k val ttl =>
    simp only [exec, contents_kvPut hc] at hs
    by_cases hk : key = k
    · subst hk
      rw [Function.update_self] at hs
      cases hs
      exact .inr ⟨val, ttl, rfl, rfl⟩
    · rw [Function.update_of_ne hk] at hs
      exact .inl hs
  | get k =>
    simp only [exec, contents_kvGet] at hs
    exact .inl hs
  | del k =>
    simp only [exec, contents_kvDel h] at hs
    by_cases hk : key = k
    · subst hk
      rw [Function.update_self] at hs
      cases hs
    · rw [Function.update_of_ne hk] at hs
      exact .inl hs
  | sweep =>
    simp only [exec, contents_sweeperPass h, Option.filter_eq_some_iff] at hs
    exact .inl hs.1

/-- An entry without a deadline stays while its key is not written. -/
theorem contents_exec_of_not_writes {table : HashTable numBuckets} (h : table.WellPlaced)
    {c : Call} (hc : c.op.KeyFits) {key : CString} (hw : c.op.writes key = false)
    {s : Stored (CharArray maxValLen) ℕ} (hs : table.contents key = some s) (ht : s.deadline = ⊤) :
    (exec c table).2.contents key = some s := by
  obtain ⟨op, now⟩ := c
  cases op with
  | put k val ttl =>
    have hk : key ≠ k := fun hk => by simp [Op.writes, hk] at hw
    simp only [exec, contents_kvPut hc, Function.update_of_ne hk, hs]
  | get k => simp only [exec, contents_kvGet, hs]
  | del k =>
    have hk : key ≠ k := fun hk => by simp [Op.writes, hk] at hw
    simp only [exec, contents_kvDel h, Function.update_of_ne hk, hs]
  | sweep => simp [exec, contents_sweeperPass h, hs, ht]

theorem Command.call_fits {s : CString} {op : Op} (h : (parseLine s).call = some op) : op.Fits := by
  have hlen : ∀ (bytes : List UInt8) (n : ℕ), (CString.ofBuffer (bytes.take n)).length ≤ n := by
    intro bytes n
    exact (List.takeWhile_sublist _).length_le.trans (List.length_take_le n bytes)
  have hs := recognized_parseLine s
  generalize parseLine s = command at h hs
  cases hs with
  | get => cases h; exact hlen _ _
  | put => cases h; exact ⟨hlen _ _, hlen _ _⟩
  | del => cases h; exact hlen _ _
  | _ => cases h

/-- A command that calls a function of the table answers with what the call returns. -/
theorem respond_call {command : Command} {op : Op} (h : command.call = some op) (now : ℕ)
    (table : HashTable numBuckets) :
    respond command now table =
      (callReply command (exec ⟨op, now⟩ table).1, (exec ⟨op, now⟩ table).2) := by
  cases command with
  | get key =>
    cases h
    simp only [respond, exec, kvGet]
    cases search key (table.buckets (bucketIndex numBuckets key)) with
    | none => rfl
    | some curr =>
      dsimp only
      by_cases hexpired : curr.expiresAt ≠ 0 ∧ now ≥ curr.expiresAt
      · rw [if_pos hexpired]
        rfl
      · rw [if_neg hexpired]
        rfl
  | put key val ttl =>
    cases h
    rfl
  | del key =>
    cases h
    simp only [respond, exec, callReply]
    split <;> simp [*]
  | _ => cases h

theorem respond_plain {command : Command} {reply : List UInt8}
    (h : plainReply command = some reply) (now : ℕ) (table : HashTable numBuckets) :
    respond command now table = (reply, table) := by
  cases command with
  | malformedPut | quit | malformed =>
    cases h
    rfl
  | _ => cases h

theorem respond_table (command : Command) (now : ℕ) (table : HashTable numBuckets) :
    (respond command now table).2 =
      (command.call.elim table fun op => (exec ⟨op, now⟩ table).2) := by
  cases command with
  | get key =>
    simp only [respond, Command.call, Option.elim, exec]
    split <;> simp_all
  | del key =>
    simp only [respond, Command.call, Option.elim, exec]
    split <;> rfl
  | _ => rfl

/-- The passes of a run by the calls they make on the table: a command that calls a function of the
table leaves what the call leaves and answers with what it returns, the others leave the table as
it is. -/
inductive Performed (table : HashTable numBuckets) :
    List (Exchange C numBuckets) → HashTable numBuckets → Prop
  | start : Performed table [] table
  | call {log op} (e : Exchange C numBuckets) : Performed table log e.table →
      e.command.call = some op → e.reply = callReply e.command (exec ⟨op, e.now⟩ e.table).1 →
      Performed table (log ++ [e]) (exec ⟨op, e.now⟩ e.table).2
  | stats {log} (e : Exchange C numBuckets) : Performed table log e.table →
      e.command = .stats → e.reply = statsReply e.table → Performed table (log ++ [e]) e.table
  | plain {log} (e : Exchange C numBuckets) : Performed table log e.table →
      plainReply e.command = some e.reply → Performed table (log ++ [e]) e.table
  | sweep {log t} (now : ℕ) : Performed table log t →
      Performed table log (exec ⟨.sweep, now⟩ t).2

theorem performed_iff_history {table t : HashTable numBuckets}
    {log : List (Exchange C numBuckets)} : Performed table log t ↔ History table log t := by
  constructor
  · intro h
    induction h with
    | start => exact .start
    | call e _ hcall hreply ih =>
      have hpass := History.pass e ih (by rw [respond_call hcall, hreply])
      rwa [respond_call hcall] at hpass
    | stats e _ hstats hreply ih =>
      have hpass := History.pass e ih (by rw [hstats, hreply]; rfl)
      rwa [hstats] at hpass
    | plain e _ hreply ih =>
      have hpass := History.pass e ih (by rw [respond_plain hreply])
      rwa [respond_plain hreply] at hpass
    | sweep now _ ih => exact .sweep now ih
  · intro h
    induction h with
    | start => exact .start
    | @pass log e _ hreply ih =>
      cases hcall : e.command.call with
      | some op =>
        rw [respond_call hcall] at hreply ⊢
        exact .call e ih hcall hreply
      | none =>
        cases hplain : plainReply e.command with
        | some reply =>
          rw [respond_plain hplain] at hreply ⊢
          exact .plain e ih (hplain.trans (congrArg some hreply.symm))
        | none =>
          have hstats : e.command = .stats := by
            cases hcommand : e.command with
            | stats => rfl
            | get key | put key val ttl | del key =>
              rw [hcommand] at hcall
              cases hcall
            | malformedPut | quit | malformed =>
              rw [hcommand] at hplain
              cases hplain
          rw [hstats] at hreply ⊢
          exact .stats e ih hstats hreply
    | sweep now _ ih => exact .sweep now ih

theorem History.wellPlaced {table t : HashTable numBuckets} {log : List (Exchange C numBuckets)}
    (h : History table log t) (ht : table.WellPlaced) : t.WellPlaced := by
  induction h with
  | start => exact ht
  | pass e _ _ ih =>
    rw [respond_table]
    cases hcall : e.command.call with
    | none => exact ih
    | some op => exact ih.exec (Command.call_fits hcall).keyFits
  | sweep now _ ih => exact ih.sweeperPass now

/-- What the table holds was there at the start or has been put there by one of the passes. -/
theorem History.contents_cases {table t : HashTable numBuckets}
    {log : List (Exchange C numBuckets)} (h : History table log t) (ht : table.WellPlaced)
    {key : CString} {s : Stored (CharArray maxValLen) ℕ} (hs : t.contents key = some s) :
    table.contents key = some s ∨ ∃ e ∈ log, ∃ val ttl, e.command = .put key val ttl ∧
      s.value = CharArray.strncpy maxValLen val := by
  induction h with
  | start => exact .inl hs
  | @pass log e hh _ ih =>
    have hlater : (table.contents key = some s ∨ ∃ d ∈ log, ∃ val ttl,
        d.command = .put key val ttl ∧ s.value = CharArray.strncpy maxValLen val) →
        table.contents key = some s ∨ ∃ d ∈ log ++ [e], ∃ val ttl,
          d.command = .put key val ttl ∧ s.value = CharArray.strncpy maxValLen val := by
      rintro (h | ⟨d, hd, h⟩)
      · exact .inl h
      · exact .inr ⟨d, List.mem_append_left _ hd, h⟩
    rw [respond_table] at hs
    cases hcall : e.command.call with
    | none =>
      rw [hcall] at hs
      exact hlater (ih hs)
    | some op =>
      rw [hcall] at hs
      rcases contents_exec (hh.wellPlaced ht) (Command.call_fits hcall).keyFits hs with
        hs | ⟨val, ttl, hop, hval⟩
      · exact hlater (ih hs)
      · subst hop
        refine .inr ⟨e, by simp, val, ttl, ?_, hval⟩
        cases hcommand : e.command with
        | put => rw [hcommand] at hcall; cases hcall; rfl
        | _ => rw [hcommand] at hcall; cases hcall
  | @sweep log t now hh ih =>
    rcases contents_exec (c := ⟨.sweep, now⟩) (hh.wellPlaced ht) trivial hs with hs | ⟨_, _, hop, _⟩
    · exact ih hs
    · cases hop

/-- An entry without a deadline stays while no pass writes its key. -/
theorem History.contents_kept {table t : HashTable numBuckets}
    {log : List (Exchange C numBuckets)} (h : History table log t) (ht : table.WellPlaced)
    {key : CString} (hw : ∀ e ∈ log, ∀ op, e.command.call = some op → op.writes key = false)
    {s : Stored (CharArray maxValLen) ℕ} (hs : table.contents key = some s)
    (hd : s.deadline = ⊤) : t.contents key = some s := by
  induction h with
  | start => exact hs
  | @pass log e hh _ ih =>
    have hs := ih fun d hd => hw d (List.mem_append_left _ hd)
    rw [respond_table]
    cases hcall : e.command.call with
    | none => exact hs
    | some op =>
      exact contents_exec_of_not_writes (hh.wellPlaced ht) (Command.call_fits hcall).keyFits
        (hw e (by simp) op hcall) hs hd
  | @sweep log t now hh ih =>
    exact contents_exec_of_not_writes (c := ⟨.sweep, now⟩) (hh.wellPlaced ht) trivial rfl (ih hw) hd

section Serving

variable [DecidableEq C]

theorem serve_concat (events : List (Event C)) (event : Event C) (s : State C numBuckets) :
    serve (events ++ [event]) s = next (serve events s) event := by
  simp [serve]

theorem handleClient_cases (client : C) (now : ℕ) (s : State C numBuckets) :
    ((s.connections client).serving = false ∧ handleClient client now s = s) ∨
    ((s.connections client).serving = true ∧ fgets maxLineLen (s.connections client).unread = none ∧
      handleClient client now s = { s with
        connections := Function.update s.connections client
          ⟨(s.connections client).unread, false⟩ }) ∨
    ∃ e : Exchange C numBuckets, ∃ unread, (s.connections client).serving = true ∧
      fgets maxLineLen (s.connections client).unread = some (e.line, unread) ∧
      e.client = client ∧ e.table = s.table ∧ e.now = now ∧
      e.reply = (respond e.command e.now e.table).1 ∧
      handleClient client now s =
        ⟨(respond e.command e.now e.table).2,
          Function.update s.connections client ⟨unread, !isQuit e.line⟩, s.log ++ [e]⟩ := by
  cases hserving : (s.connections client).serving with
  | false => exact .inl ⟨rfl, by simp [handleClient, hserving]⟩
  | true =>
    right
    cases hline : fgets maxLineLen (s.connections client).unread with
    | none => exact .inl ⟨rfl, rfl, by simp [handleClient, hserving, hline]⟩
    | some p =>
      obtain ⟨line, unread⟩ := p
      refine .inr ⟨⟨client, line, s.table, now,
        (respond (parseLine (.ofBuffer line)) now s.table).1⟩, unread, rfl, rfl, rfl, rfl, rfl,
        rfl, ?_⟩
      simp [handleClient, hserving, hline, Exchange.command, isQuit]

theorem history_serve (table : HashTable numBuckets) (streams : C → List UInt8)
    (events : List (Event C)) :
    History table (serve events (start table streams)).log
      (serve events (start table streams)).table := by
  induction events using List.reverseRecOn with
  | nil => exact .start
  | append_singleton events event ih =>
    rw [serve_concat]
    cases event with
    | sweep now => exact .sweep now ih
    | pass client now =>
      rcases handleClient_cases client now (serve events (start table streams)) with
        ⟨-, h⟩ | ⟨-, -, h⟩ | ⟨e, unread, -, -, -, ht, -, hreply, h⟩
      · rw [next, h]
        exact ih
      · rw [next, h]
        exact ih
      · rw [next, h]
        exact .pass e (ht ▸ ih) hreply

/-- Each connection is read line by line through a buffer of 575 bytes. -/
theorem reads_serve (table : HashTable numBuckets) (streams : C → List UInt8)
    (events : List (Event C)) (client : C) :
    Reads (· == newline) isQuit 575 (streams client)
      (((serve events (start table streams)).exchanges client).map Exchange.line)
      ((serve events (start table streams)).connections client).unread
      ((serve events (start table streams)).connections client).serving := by
  induction events using List.reverseRecOn with
  | nil => exact .start
  | append_singleton events event ih =>
    rw [serve_concat]
    cases event with
    | sweep now => exact ih
    | pass other now =>
      rcases handleClient_cases other now (serve events (start table streams)) with
        ⟨-, h⟩ | ⟨hserving, hread, h⟩ | ⟨e, unread, hserving, hread, hclient, -, -, -, h⟩
      · rw [next, h]
        exact ih
      · rw [next, h]
        by_cases hc : other = client
        · subst hc
          rw [hserving] at ih
          simpa [State.exchanges] using Reads.eof ih hread
        · simpa [State.exchanges, Function.update_of_ne (Ne.symm hc)] using ih
      · rw [next, h]
        by_cases hc : other = client
        · subst hc
          rw [hserving] at ih
          simpa [State.exchanges, hclient] using Reads.read ih hread
        · simpa [State.exchanges, hclient, hc, Function.update_of_ne (Ne.symm hc)] using ih

end Serving

end CpreLabs.HandleClient
