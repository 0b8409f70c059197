import CpreLabs.RequestFraming

/-!
# Encoding requests and having them carried out

A well-formed request is encoded as one line, fits the read buffer at its largest, and is parsed
back into the command it stands for, whatever bytes its tokens consist of.
-/
namespace CpreLabs.HandleClient

open HashTable LineFraming Scanf

variable {C : Type*} {numBuckets : ℕ+}

/-- A key or a value as clients may send it. -/
structure Token (maximum : ℕ) where
  bytes : List UInt8
  isWord : IsWord bytes
  noNul : 0 ∉ bytes
  short : bytes.length ≤ maximum

def Token.str {maximum : ℕ} (token : Token maximum) : CString :=
  ⟨token.bytes, fun _ hb => ne_of_mem_of_not_mem hb token.noNul⟩

/-- A time to live from 1 to `INT_MAX`. -/
abbrev Ttl := { seconds : ℕ // 1 ≤ seconds ∧ seconds ≤ 2147483647 }

inductive Request where
  | get (key : Token maxKeyLen)
  | put (key : Token maxKeyLen) (val : Token maxValLen)
  | putTtl (key : Token maxKeyLen) (val : Token maxValLen) (ttl : Ttl)
  | del (key : Token maxKeyLen)
  | stats
  | quit

namespace Request

def tokens : Request → List (List UInt8)
  | get key => [ascii "GET", key.bytes]
  | put key val => [ascii "PUT", key.bytes, val.bytes]
  | putTtl key val ttl => [ascii "PUT", key.bytes, val.bytes, ascii (Nat.repr ttl)]
  | del key => [ascii "DEL", key.bytes]
  | stats => [ascii "STATS"]
  | quit => [ascii "QUIT"]

/-- The words with single spaces between them. -/
def text (r : Request) : List UInt8 := [32].intercalate r.tokens

def encode (r : Request) : List UInt8 := r.text ++ [newline]

/-- What the request asks for. -/
def command : Request → Command
  | get key => .get key.str
  | put key val => .put key.str val.str 0
  | putTtl key val ttl => .put key.str val.str ttl
  | del key => .del key.str
  | stats => .stats
  | quit => .quit

def call : Request → Option Op
  | get key => some (.get key.str)
  | put key val => some (.put key.str val.str 0)
  | putTtl key val ttl => some (.put key.str val.str ttl)
  | del key => some (.del key.str)
  | stats | quit => none

theorem call_command (r : Request) : r.command.call = r.call := by
  cases r <;> rfl

end Request

theorem words_intercalate {ws : List (List UInt8)} (h : ∀ w ∈ ws, IsWord w) :
    words ([32].intercalate ws ++ [newline]) = ws := by
  induction ws with
  | nil => rfl
  | cons w ws ih =>
    obtain ⟨hw, hws⟩ := List.forall_mem_cons.mp h
    cases ws with
    | nil =>
      rw [List.intercalate_singleton, words_append hw (by simp; decide)]
      rfl
    | cons w' ws =>
      rw [List.intercalate_cons_cons, List.append_assoc, List.append_assoc,
        words_append hw (by simp; decide), List.singleton_append, words_space (by decide), ih hws]

theorem length_intercalate {ws : List (List UInt8)} (h : ws ≠ []) :
    ([32].intercalate ws ++ [newline]).length = (ws.map List.length).sum + ws.length := by
  induction ws with
  | nil => exact absurd rfl h
  | cons w ws ih =>
    cases ws with
    | nil => simp
    | cons w' ws =>
      have hrest := ih (by simp)
      rw [List.intercalate_cons_cons]
      simp only [List.length_append, List.length_cons, List.length_nil, List.map_cons,
        List.sum_cons] at hrest ⊢
      omega

theorem mem_intercalate {ws : List (List UInt8)} {b : UInt8} (h : b ∈ [32].intercalate ws) :
    b = 32 ∨ ∃ w ∈ ws, b ∈ w := by
  induction ws with
  | nil => cases h
  | cons w ws ih =>
    cases ws with
    | nil =>
      rw [List.intercalate_singleton] at h
      exact .inr ⟨w, by simp, h⟩
    | cons w' ws =>
      rw [List.intercalate_cons_cons, List.mem_append, List.mem_append] at h
      rcases h with (h | h) | h
      · exact .inr ⟨w, by simp, h⟩
      · exact .inl (List.mem_singleton.mp h)
      · rcases ih h with h | ⟨v, hv, h⟩
        · exact .inl h
        · exact .inr ⟨v, List.mem_cons_of_mem _ hv, h⟩

namespace Request

theorem isWord_of_mem_tokens (r : Request) : ∀ w ∈ r.tokens, IsWord w ∧ 0 ∉ w := by
  have hword : ∀ {w : List UInt8},
      w ∈ [ascii "GET", ascii "PUT", ascii "DEL", ascii "STATS", ascii "QUIT"] →
        IsWord w ∧ 0 ∉ w := by
    decide
  have htoken : ∀ {maximum : ℕ} (token : Token maximum),
      IsWord token.bytes ∧ 0 ∉ token.bytes := fun token => ⟨token.isWord, token.noNul⟩
  have hnumber : ∀ n : ℕ, IsWord (ascii n.repr) ∧ 0 ∉ ascii n.repr := by
    refine fun n => ⟨isWord_repr n, fun h => ?_⟩
    cases isDigit_of_mem_repr h
  cases r with
  | get key =>
    simp only [tokens, List.forall_mem_cons]
    exact ⟨hword (by simp), htoken key, by simp⟩
  | put key val =>
    simp only [tokens, List.forall_mem_cons]
    exact ⟨hword (by simp), htoken key, htoken val, by simp⟩
  | putTtl key val ttl =>
    simp only [tokens, List.forall_mem_cons]
    exact ⟨hword (by simp), htoken key, htoken val, hnumber ttl, by simp⟩
  | del key =>
    simp only [tokens, List.forall_mem_cons]
    exact ⟨hword (by simp), htoken key, by simp⟩
  | stats =>
    simp only [tokens, List.forall_mem_cons]
    exact ⟨hword (by simp), by simp⟩
  | quit =>
    simp only [tokens, List.forall_mem_cons]
    exact ⟨hword (by simp), by simp⟩

theorem noNul_encode (r : Request) : ∀ b ∈ r.encode, b ≠ 0 := by
  intro b hb
  rcases List.mem_append.mp hb with hb | hb
  · rcases mem_intercalate hb with rfl | ⟨w, hw, hb⟩
    · decide
    · exact ne_of_mem_of_not_mem hb (r.isWord_of_mem_tokens w hw).2
  · rw [List.mem_singleton.mp hb]
    decide

theorem newline_not_mem_text (r : Request) : newline ∉ r.text := by
  intro hb
  rcases mem_intercalate hb with h | ⟨w, hw, hb⟩
  · cases h
  · cases (r.isWord_of_mem_tokens w hw).1.2 newline hb

theorem length_encode (r : Request) : r.encode.length ≤ 575 := by
  have hkey := fun key : Token maxKeyLen => key.short
  have hval := fun val : Token maxValLen => val.short
  simp only [maxKeyLen, maxValLen] at hkey hval
  have hword : (ascii "GET").length = 3 ∧ (ascii "PUT").length = 3 ∧ (ascii "DEL").length = 3 ∧
      (ascii "STATS").length = 5 ∧ (ascii "QUIT").length = 4 := by decide
  have hlen : r.encode.length = (r.tokens.map List.length).sum + r.tokens.length :=
    length_intercalate (by cases r <;> simp [tokens])
  rw [hlen]
  cases r with
  | get key =>
    have hk := hkey key
    simp only [tokens, List.map_cons, List.map_nil, List.sum_cons, List.sum_nil, List.length_cons,
      List.length_nil]
    omega
  | put key val =>
    have hk := hkey key
    have hv := hval val
    simp only [tokens, List.map_cons, List.map_nil, List.sum_cons, List.sum_nil, List.length_cons,
      List.length_nil]
    omega
  | putTtl key val ttl =>
    have hk := hkey key
    have hv := hval val
    have hdigits : (ascii (Nat.repr ttl)).length ≤ 10 := by
      have hle := ttl.2.2
      have hlen : (Nat.repr ttl).length ≤ 10 := (Nat.length_repr_le_iff (by omega)).mpr (by omega)
      rw [ascii, List.length_map, String.length_toList]
      exact hlen
    simp only [tokens, List.map_cons, List.map_nil, List.sum_cons, List.sum_nil, List.length_cons,
      List.length_nil]
    omega
  | del key =>
    have hk := hkey key
    simp only [tokens, List.map_cons, List.map_nil, List.sum_cons, List.sum_nil, List.length_cons,
      List.length_nil]
    omega
  | stats =>
    simp only [tokens, List.map_cons, List.map_nil, List.sum_cons, List.sum_nil, List.length_cons,
      List.length_nil]
    omega
  | quit =>
    simp only [tokens, List.map_cons, List.map_nil, List.sum_cons, List.sum_nil, List.length_cons,
      List.length_nil]
    omega

theorem bytes_encode (r : Request) : (CString.ofBuffer r.encode).bytes = r.encode :=
  CString.bytes_ofBuffer r.noNul_encode

theorem words_drop_encode {r : Request} {w w' : List UInt8} {ws : List (List UInt8)}
    (h : r.tokens = w :: w' :: ws) :
    w <+: (CString.ofBuffer r.encode).bytes ∧
      words ((CString.ofBuffer r.encode).bytes.drop w.length) = w' :: ws := by
  have hwords : ∀ v ∈ w' :: ws, IsWord v := fun v hv =>
    (r.isWord_of_mem_tokens v (by rw [h]; exact List.mem_cons_of_mem _ hv)).1
  have hsplit : r.encode = w ++ 32 :: ([32].intercalate (w' :: ws) ++ [newline]) := by
    rw [encode, text, h, List.intercalate_cons_cons]
    simp
  rw [r.bytes_encode, hsplit, List.drop_left, words_space (by decide), words_intercalate hwords]
  exact ⟨List.prefix_append _ _, rfl⟩

theorem ofBuffer_token {maximum : ℕ} (token : Token maximum) :
    CString.ofBuffer (token.bytes.take maximum) = token.str := by
  rw [List.take_of_length_le token.short]
  exact CString.ext (CString.bytes_ofBuffer token.str.noNul)

theorem afterField_token {maximum : ℕ} (token : Token maximum) (later : List (List UInt8)) :
    afterField maximum token.bytes later = later := if_pos token.short

theorem parseLine_encode (r : Request) : parseLine (.ofBuffer r.encode) = r.command := by
  cases r with
  | get key =>
    obtain ⟨hstart, hwords⟩ := words_drop_encode (r := .get key) rfl
    rw [parseLine_get hstart, show words (List.drop 3 _) = _ from hwords]
    exact congrArg Command.get (ofBuffer_token key)
  | put key val =>
    obtain ⟨hstart, hwords⟩ := words_drop_encode (r := .put key val) rfl
    obtain ⟨rest, hrest, hparse⟩ := parseLine_put hstart hwords (afterField_token key _)
    rw [afterField_token] at hrest
    rw [hparse, ofBuffer_token, ofBuffer_token, ttlArgument, scanInt_of_words_nil hrest]
    rfl
  | putTtl key val ttl =>
    obtain ⟨hstart, hwords⟩ := words_drop_encode (r := .putTtl key val ttl) rfl
    obtain ⟨rest, hrest, hparse⟩ := parseLine_put hstart hwords (afterField_token key _)
    rw [afterField_token] at hrest
    obtain ⟨left, hscan⟩ := scanInt_of_words hrest
    rw [hparse, ofBuffer_token, ofBuffer_token, ttlArgument, hscan]
    exact congrArg (Command.put key.str val.str) (storeInt_of_lt (Nat.lt_succ_of_le ttl.2.2))
  | del key =>
    obtain ⟨hstart, hwords⟩ := words_drop_encode (r := .del key) rfl
    rw [parseLine_del hstart, show words (List.drop 3 _) = _ from hwords]
    exact congrArg Command.del (ofBuffer_token key)
  | stats => exact parseLine_stats (by decide)
  | quit => exact parseLine_quit (by decide)

theorem isQuit_encode (r : Request) : isQuit r.encode = true ↔ r = .quit := by
  rw [isQuit, decide_eq_true_eq, parseLine_encode]
  cases r <;> simp [command]

end Request

/-- The requests of a connection, with the `QUIT` that ends it. -/
def session (requests : List Request) : List Request := requests ++ [Request.quit]

def sent (requests : List Request) : List UInt8 := (requests.map Request.encode).flatten

theorem requestLines_sent {requests : List Request} (h : ∀ r ∈ requests, r ≠ Request.quit) :
    requestLines (sent (session requests)) = (session requests).map Request.encode := by
  have hlines : lines (· == newline) (sent (session requests)) =
      (session requests).map Request.encode := by
    refine lines_flatten fun line hline => ?_
    obtain ⟨r, -, rfl⟩ := List.mem_map.mp hline
    exact ⟨r.text, newline, rfl, by simp, fun b hb => by
      simpa using ne_of_mem_of_not_mem hb r.newline_not_mem_text⟩
  rw [requestLines_eq, hlines, session]
  clear hlines
  induction requests with
  | nil => decide
  | cons r requests ih =>
    obtain ⟨hr, hrequests⟩ := List.forall_mem_cons.mp h
    rw [List.cons_append, List.map_cons, upTo, if_neg (mt r.isQuit_encode.mp hr), ih hrequests]

theorem respond_get {key : CString} {now : ℕ} {table : HashTable numBuckets}
    {out : CharArray maxValLen} (h : (kvGet key now table).1 = ⟨0, some out⟩) :
    (respond (.get key) now table).1 = valueReply out.str.bytes := by
  cases hget : kvGet key now table with
  | mk res left =>
    rw [hget] at h
    cases h
    simp only [respond, hget]

section Serving

variable [DecidableEq C] {streams : C → List UInt8}

/-- The commands carried out for a client are those of the requests it sends, in their order: all
of them once its connection is finished. -/
theorem commands_of_requests (table : HashTable numBuckets) {client : C} {requests : List Request}
    (h : ∀ r ∈ requests, r ≠ Request.quit) (hsent : streams client = sent (session requests))
    (events : List (Event C)) :
    ((serve events (start table streams)).exchanges client).map Exchange.command <+:
        (session requests).map Request.command ∧
      (((serve events (start table streams)).connections client).serving = false →
        ((serve events (start table streams)).exchanges client).map Exchange.command =
          (session requests).map Request.command) := by
  have hreads := reads_serve table streams events client
  have hlines : upTo isQuit (lines (· == newline) (streams client)) =
      (session requests).map Request.encode := by
    rw [hsent, ← requestLines_eq]
    exact requestLines_sent h
  obtain ⟨hsome, hall⟩ := hreads.pieces_eq (by omega) (isQuit_take (by omega)) fun line hline => by
    rw [hlines] at hline
    obtain ⟨r, -, rfl⟩ := List.mem_map.mp hline
    exact .inl r.length_encode
  have hpieces : ((session requests).map Request.encode).map (List.take 575) =
      (session requests).map Request.encode := by
    rw [List.map_map]
    exact List.map_congr_left fun r _ => List.take_of_length_le r.length_encode
  rw [hlines, hpieces] at hsome hall
  have hcommands : (session requests).map Request.command = ((session requests).map
      Request.encode).map (fun line => parseLine (.ofBuffer line)) := by
    rw [List.map_map]
    exact List.map_congr_left fun r _ => r.parseLine_encode.symm
  have hlog : ((serve events (start table streams)).exchanges client).map Exchange.command =
      (((serve events (start table streams)).exchanges client).map Exchange.line).map
        (fun line => parseLine (.ofBuffer line)) := by
    rw [List.map_map]
    rfl
  rw [hlog, hcommands]
  exact ⟨hsome.map _, fun hfinished => congrArg _ (hall hfinished)⟩

omit [DecidableEq C] in
/-- A value put without a time to live is what the next `GET` of its key answers, if nobody
writes the key in between. -/
theorem get_after_put {table t : HashTable numBuckets} {before between after : List (Exchange C numBuckets)}
    {put get : Exchange C numBuckets} (ht : table.WellPlaced)
    (h : History table (before ++ put :: (between ++ get :: after)) t) {key val : CString}
    (hval : val.length ≤ maxValLen) (hput : put.command = .put key val 0)
    (hget : get.command = .get key)
    (hw : ∀ e ∈ between, ∀ op, e.command.call = some op → op.writes key = false) :
    get.reply = valueReply val.bytes := by
  obtain ⟨hbefore, hreply⟩ := h.before
  have hplaced := (hbefore.pass put hreply).wellPlaced ht
  obtain ⟨hbetween, hanswer⟩ := h.after.before
  have hfits : (Op.put key val 0).Fits := Command.call_fits (s := .ofBuffer put.line)
    (show put.command.call = _ by rw [hput]; rfl)
  have hstored : (respond put.command put.now put.table).2.contents key =
      some ⟨CharArray.strncpy maxValLen val, ⊤⟩ := by
    rw [hput]
    simp only [respond]
    rw [contents_kvPut hfits.1, Function.update_self]
    rfl
  have hfound := hbetween.contents_kept hplaced hw hstored rfl
  have hlookup : get.table.contents.lookup key get.now =
      some (CharArray.strncpy maxValLen val) := by
    simp [ExpiringMap.lookup, hfound]
  have hout := kvGet_outcome key get.now get.table
  rw [hlookup] at hout
  rw [hanswer, hget, respond_get hout, CharArray.str_strncpy hval]

end Serving

/-- What a client that sends well-formed requests may expect. -/
structure Served [DecidableEq C] (table : HashTable numBuckets) (s : State C numBuckets)
    (client : C) (requests : List Request) : Prop where
  /-- Its requests are carried out in order, with the tokens it sent. -/
  commands : (s.exchanges client).map Exchange.command <+: requests.map Request.command
  /-- The calls made for it on the table. -/
  calls : (s.exchanges client).filterMap (fun e => e.command.call) <+: requests.filterMap Request.call
  complete : (s.connections client).serving = false →
    (s.exchanges client).map Exchange.command = requests.map Request.command
  /-- The table changes by the calls of the passes and by sweeps, and by nothing else. -/
  performed : Performed table s.log s.table
  written : lines (· == newline) (s.written client) = (s.exchanges client).map Exchange.reply
  reply : ∀ e ∈ s.exchanges client,
    (∀ op, e.command.call = some op →
      e.reply = callReply e.command (exec ⟨op, e.now⟩ e.table).1) ∧
    (e.command = .stats → e.reply = statsReply e.table) ∧
    (e.command = .quit → e.reply = ascii "BYE\n")
  value : ∀ e ∈ s.exchanges client, ∀ key out, e.command = .get key →
    (kvGet key e.now e.table).1 = ⟨0, some out⟩ →
      e.reply = ascii "VALUE " ++ out.str.bytes ++ ascii "\n"
  getAfterPut : ∀ before put between get after, ∀ key : Token maxKeyLen, ∀ val : Token maxValLen,
    s.log = before ++ put :: (between ++ get :: after) →
    put.command = (Request.put key val).command → get.command = (Request.get key).command →
    (∀ e ∈ between, ∀ op, e.command.call = some op → op.writes key.str = false) →
      get.reply = ascii "VALUE " ++ val.bytes ++ ascii "\n"

/-- From every reachable table and with any other clients and sweeps in between: the requests of a
session are carried out as they were meant, and answered by one line each. -/
theorem requests_served [DecidableEq C] {D : Type*} {past : List (Exchange D numBuckets)}
    {table : HashTable numBuckets} (hreachable : Performed (kvInit numBuckets) past table)
    (streams : C → List UInt8) (client : C) (requests : List Request)
    (hquit : ∀ r ∈ requests, r ≠ Request.quit)
    (hsent : streams client = sent (session requests)) (events : List (Event C)) :
    Served table (serve events (start table streams)) client (session requests) ∧
      ((streams client).length < passes client events →
        ((serve events (start table streams)).connections client).serving = false) := by
  have hpast := performed_iff_history.mp hreachable
  have hplaced := hpast.wellPlaced wellPlaced_kvInit
  have hprintable := hpast.printable wellPlaced_kvInit printable_kvInit
  have hist := history_serve table streams events
  have hreply : ∀ e ∈ (serve events (start table streams)).exchanges client,
      e.reply = (respond e.command e.now e.table).1 :=
    fun e he => hist.reply_eq (List.mem_of_mem_filter he)
  obtain ⟨hcommands, hcomplete⟩ := commands_of_requests table hquit hsent events
  refine ⟨⟨hcommands, ?_, hcomplete, performed_iff_history.mpr hist,
    lines_written hplaced hprintable events client, ?_, ?_, ?_⟩, finished_of_passes events client⟩
  · have hcalls := hcommands.filterMap Command.call
    rw [List.filterMap_map, List.filterMap_map] at hcalls
    simpa only [Function.comp_def, Request.call_command] using hcalls
  · intro e he
    have hanswer := hreply e he
    refine ⟨fun op hop => ?_, fun hstats => ?_, fun hbye => ?_⟩
    · rw [hanswer, respond_call hop]
    · rw [hanswer, hstats]
      rfl
    · rw [hanswer, hbye]
      rfl
  · intro e he key out hcommand hout
    rw [hreply e he, hcommand]
    exact respond_get hout
  · intro before put between get after key val hlog hput hget hw
    exact get_after_put hplaced (hlog ▸ hist) (show val.str.length ≤ _ from val.short) hput hget hw

/-- The requests `PUT 7 GET 9`, `GET 7`, `GET 7`, `DEL 7`, `DEL 7`, `STATS` and `QUIT`. -/
def commandWordSession : List Request :=
  [.putTtl ⟨ascii "7", by decide, by decide, by decide⟩ ⟨ascii "GET", by decide, by decide, by decide⟩
      ⟨9, by decide⟩,
    .get ⟨ascii "7", by decide, by decide, by decide⟩,
    .get ⟨ascii "7", by decide, by decide, by decide⟩,
    .del ⟨ascii "7", by decide, by decide, by decide⟩,
    .del ⟨ascii "7", by decide, by decide, by decide⟩, .stats]

/-- The entry lives from 3 to 12: the second `GET` comes too late, and the second `DEL` finds
nothing. -/
theorem commandWordSession_served :
    (serve [.pass () 3, .sweep 5, .pass () 11, .pass () 12, .pass () 13, .pass () 14, .pass () 15,
        .pass () 16] (start (kvInit 1) fun _ => sent (session commandWordSession))).written () =
        ascii ("OK\nVALUE GET\nNOT_FOUND\nOK\nNOT_FOUND\n" ++
          "STATS keys=0 hits=1 misses=1 puts=1 dels=1\nBYE\n") ∧
      Served (kvInit 1) (serve [.pass () 3, .sweep 5, .pass () 11, .pass () 12, .pass () 13,
        .pass () 14, .pass () 15, .pass () 16]
        (start (kvInit 1) fun _ => sent (session commandWordSession))) ()
        (session commandWordSession) := by
  refine ⟨by decide +kernel, ?_⟩
  have hquit : ∀ r ∈ commandWordSession, r ≠ Request.quit := by simp [commandWordSession]
  exact (requests_served (D := Unit) .start _ () commandWordSession hquit rfl _).1

end CpreLabs.HandleClient
