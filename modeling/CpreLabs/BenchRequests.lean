import CpreLabs.BenchClient
import CpreLabs.CommandRecognition
import CpreLabs.RequestRoundTrip

/-!
# The requests and responses of `bench_client.c`

The two ends of a connection were written independently. What the client formats are tokens that
the server reads back, what the server writes are lines that the client accepts, and as long as a
key has only been put without a time to live, there is an answer for it.
-/
namespace CpreLabs.BenchClient

open HandleClient HashTable LineFraming Scanf

variable {numBuckets : ℕ+} {b : Benchmark}

/-- The command that an operation stands for. -/
def Operation.command : Operation → Command
  | get key => .get key
  | put key val => .put key val 0

/-- The string is sent as one word, and fits the array it is copied to. -/
def IsToken (maximum : ℕ) (s : CString) : Prop := ∃ token : Token maximum, token.str = s

/-- Bytes that are neither white space nor NUL are printed as a token, however many they are. -/
theorem isToken_snprintf {bufSize maximum : ℕ} {text : List UInt8} (hsize : 1 < bufSize)
    (hmax : bufSize ≤ maximum) (hne : text ≠ []) (h : ∀ x ∈ text, isSpace x = false ∧ x ≠ 0) :
    IsToken maximum (snprintf bufSize text) := by
  have htake : ∀ x ∈ text.take (bufSize - 1), isSpace x = false ∧ x ≠ 0 :=
    fun x hx => h x (List.mem_of_mem_take hx)
  have hword : IsWord (text.take (bufSize - 1)) := by
    refine ⟨?_, fun x hx => (htake x hx).1⟩
    rw [ne_eq, List.take_eq_nil_iff, not_or]
    exact ⟨by omega, hne⟩
  have hlen : (text.take (bufSize - 1)).length ≤ maximum := by
    rw [List.length_take]
    omega
  refine ⟨⟨_, hword, fun hnul => (htake 0 hnul).2 rfl, hlen⟩, CString.ext ?_⟩
  exact (CString.bytes_ofBuffer fun x hx => (htake x hx).2).symm

theorem plain_of_all {text : List UInt8} (h : text.all (fun x => !isSpace x && x != 0) = true) :
    ∀ x ∈ text, isSpace x = false ∧ x ≠ 0 := by
  simpa using h

theorem plain_repr (n : ℕ) : ∀ x ∈ ascii (Nat.repr n), isSpace x = false ∧ x ≠ 0 := by
  intro x hx
  refine ⟨(isWord_repr n).2 x hx, fun hnul => ?_⟩
  rw [hnul] at hx
  cases isDigit_of_mem_repr hx

theorem plain_key (index : ℕ) :
    ∀ x ∈ ascii "key" ++ padded 4 index, isSpace x = false ∧ x ≠ 0 := by
  rw [padded, List.forall_mem_append, List.forall_mem_append]
  refine ⟨plain_of_all (by decide), fun x hx => ?_, plain_repr index⟩
  rw [List.eq_of_mem_replicate hx]
  decide

theorem plain_value (threadIndex opIndex : ℕ) :
    ∀ x ∈ ascii "value_t" ++ ascii (Nat.repr threadIndex) ++ ascii "_o" ++
      ascii (Nat.repr opIndex), isSpace x = false ∧ x ≠ 0 := by
  rw [List.forall_mem_append, List.forall_mem_append, List.forall_mem_append]
  exact ⟨⟨⟨plain_of_all (by decide), plain_repr threadIndex⟩, plain_of_all (by decide)⟩,
    plain_repr opIndex⟩

theorem isToken_makeKey (index : ℕ) : IsToken maxKeyLen (makeKey index) :=
  isToken_snprintf (by decide) (by decide) (by simp [ascii]) (plain_key index)

theorem isToken_makeValue (threadIndex opIndex : ℕ) :
    IsToken maxValLen (makeValue threadIndex opIndex) :=
  isToken_snprintf (by decide) (by decide) (by simp [ascii]) (plain_value threadIndex opIndex)

theorem isToken_seedValue (i : ℕ) : IsToken maxValLen (seedValue i) := by
  refine isToken_snprintf (by decide) (by decide) (by simp [ascii]) ?_
  rw [List.forall_mem_append]
  exact ⟨plain_of_all (by decide), plain_repr i⟩

theorem bytes_snprintf {bufSize : ℕ} {text : List UInt8} (hlen : text.length < bufSize)
    (h : ∀ x ∈ text, isSpace x = false ∧ x ≠ 0) : (snprintf bufSize text).bytes = text := by
  rw [snprintf, List.take_of_length_le (by omega)]
  exact CString.bytes_ofBuffer fun x hx => (h x hx).2

theorem length_repr_le {n k : ℕ} (hk : 0 < k) (hn : n < 10 ^ k) :
    (ascii (Nat.repr n)).length ≤ k := by
  rw [ascii, List.length_map, String.length_toList]
  exact (Nat.length_repr_le_iff hk).mpr hn

theorem bytes_makeKey {index : ℕ} (h : index < keyPoolSize) :
    (makeKey index).bytes = ascii "key" ++ padded 4 index := by
  refine bytes_snprintf ?_ (plain_key index)
  have hdigits : (ascii (Nat.repr index)).length ≤ 4 :=
    length_repr_le (by omega) (by simp only [keyPoolSize] at h; omega)
  have hword : (ascii "key").length = 3 := by
    decide
  rw [padded, List.length_append, List.length_append, List.length_replicate, hword]
  simp only [keyBufSize]
  omega

theorem bytes_makeValue (t : Fin b.numClients) {i : ℕ} (hi : i < b.opsPerClient) :
    (makeValue t i).bytes =
      ascii "value_t" ++ ascii (Nat.repr t) ++ ascii "_o" ++ ascii (Nat.repr i) := by
  refine bytes_snprintf ?_ (plain_value t i)
  have hclients := b.numClients_range.2
  have hops := b.opsPerClient_range.2
  have hthread : (ascii (Nat.repr t)).length ≤ 10 :=
    length_repr_le (by omega) (by omega)
  have hop : (ascii (Nat.repr i)).length ≤ 10 :=
    length_repr_le (by omega) (by omega)
  have hwords : (ascii "value_t").length = 7 ∧ (ascii "_o").length = 2 := by
    decide
  rw [List.length_append, List.length_append, List.length_append, hwords.1, hwords.2]
  simp only [valBufSize]
  omega

/-- The operation prints tokens, and its key is one of the pool. -/
inductive FromPool : Operation → Prop
  | get {index} : index < keyPoolSize → FromPool (.get (makeKey index))
  | put {index val} : index < keyPoolSize → IsToken maxValLen val →
      FromPool (.put (makeKey index) val)

theorem fromPool_operation (client : Client b) {i : ℕ} (hi : i < b.numOps client) :
    FromPool (b.operation client i) := by
  cases client with
  | none => exact .put hi (isToken_seedValue i)
  | some t =>
    have hindex : (b.rand t i).1 % keyPoolSize < keyPoolSize := Nat.mod_lt _ (by decide)
    rw [Benchmark.operation]
    split
    · exact .get hindex
    · exact .put hindex (isToken_makeValue _ _)

/-- What is printed is the encoding of a request for what is meant. -/
theorem FromPool.line_eq {op : Operation} (h : FromPool op) :
    ∃ r : Request, op.line = r.encode ∧ r.command = op.command ∧ r ≠ .quit := by
  cases h with
  | @get index hindex =>
    obtain ⟨key, hkey⟩ := isToken_makeKey index
    refine ⟨.get key, ?_, congrArg Command.get hkey, fun h => by cases h⟩
    rw [← hkey]
    simp [Operation.line, Request.encode, Request.text, Request.tokens, Token.str, ascii, newline]
  | @put index _ hindex hval =>
    obtain ⟨key, hkey⟩ := isToken_makeKey index
    obtain ⟨val, rfl⟩ := hval
    refine ⟨.put key val, ?_, congrArg (Command.put · val.str 0) hkey, fun h => by cases h⟩
    rw [← hkey]
    simp [Operation.line, Request.encode, Request.text, Request.tokens, Token.str, ascii, newline]

theorem lines_newline {text : List UInt8} (h : newline ∉ text) :
    lines (· == newline) (text ++ [newline]) = [text ++ [newline]] :=
  lines_append (fun x hx => by simpa using ne_of_mem_of_not_mem hx h) (by decide) []

theorem fgets_line {size : ℕ} {text : List UInt8} (hlen : text.length + 1 < size)
    (h : newline ∉ text) : fgets size (text ++ [newline]) = some (text ++ [newline], []) := by
  have hfits : (text ++ [newline]).length ≤ size - 1 := by
    rw [List.length_append, List.length_singleton]
    omega
  rw [fgets, readLine_of_lines (by omega) (lines_newline h), List.take_of_length_le hfits,
    List.drop_eq_nil_of_le hfits]
  rfl

theorem response_ok (key val : CString) : (Operation.put key val).response respOk = (0, []) := by
  have hread : expectResponse (.lit "OK") respOk = (0, []) := by
    decide
  exact hread

theorem newline_not_mem_value {maximum : ℕ} (token : Token maximum) :
    newline ∉ ascii "VALUE " ++ token.bytes := by
  rw [List.mem_append, not_or]
  exact ⟨by decide, fun h => by cases token.isWord.2 newline h⟩

theorem response_value (key : CString) {val : CString} (hval : IsToken maxValLen val) :
    (Operation.get key).response (valueReply val.bytes) = (0, []) := by
  obtain ⟨token, rfl⟩ := hval
  have hshort := token.short
  have hlen : (ascii "VALUE " ++ token.bytes).length + 1 < lineSize := by
    have hword : (ascii "VALUE ").length = 6 := by
      decide
    rw [List.length_append, hword]
    simp only [maxValLen] at hshort
    simp only [lineSize]
    omega
  have hnul : 0 ∉ ascii "VALUE " ++ token.bytes ++ [newline] := by
    rw [List.mem_append, List.mem_append, not_or, not_or]
    exact ⟨⟨by decide, token.noNul⟩, by decide⟩
  have hstart : strncmp (.ofBuffer (ascii "VALUE " ++ token.bytes ++ [newline]))
      (.lit "VALUE ") 6 = 0 := by
    rw [strncmp_eq_zero_iff, CString.bytes_ofBuffer fun x hx => ne_of_mem_of_not_mem hx hnul,
      List.append_assoc]
    rfl
  change readGetResponse (ascii "VALUE " ++ token.bytes ++ [newline]) = (0, [])
  rw [readGetResponse, fgets_line hlen (newline_not_mem_value token)]
  simp only [hstart, true_or, if_true]

section Log

variable {C : Type*} {log : List (Exchange C numBuckets)} {table : HashTable numBuckets}

/-- One of the passes has put the value under the key, without a time to live. -/
def PutBy (log : List (Exchange C numBuckets)) (key val : CString) : Prop :=
  ∃ d ∈ log, d.command = .put key val 0

theorem PutBy.concat {key val : CString} (h : PutBy log key val) (e : Exchange C numBuckets) :
    PutBy (log ++ [e]) key val := by
  obtain ⟨d, hd, hput⟩ := h
  exact ⟨d, List.mem_append_left _ hd, hput⟩

/-- Under the key is a token that one of the passes has put there, without a deadline. -/
def Live (log : List (Exchange C numBuckets)) (table : HashTable numBuckets) (key : CString) :
    Prop :=
  ∃ val, IsToken maxValLen val ∧ PutBy log key val ∧
    table.contents key = some ⟨CharArray.strncpy maxValLen val, ⊤⟩

theorem Live.sweep {key : CString} (h : Live log table key) (now : ℕ) :
    Live log (sweeperPass now table) key := by
  obtain ⟨val, htoken, hput, hcontents⟩ := h
  exact ⟨val, htoken, hput, contents_sweeperPass_of_top hcontents rfl now⟩

/-- A live key is answered with a value put under it. -/
theorem Live.reply {key : CString} (h : Live log table key) (now : ℕ) :
    ∃ val, IsToken maxValLen val ∧ PutBy log key val ∧
      (respond (.get key) now table).1 = valueReply val.bytes := by
  obtain ⟨val, ⟨token, rfl⟩, hput, hcontents⟩ := h
  have hlookup : table.contents.lookup key now = some (CharArray.strncpy maxValLen token.str) := by
    rw [ExpiringMap.lookup, hcontents]
    exact if_pos (WithTop.coe_lt_top now)
  have hout := kvGet_outcome key now table
  rw [hlookup] at hout
  refine ⟨token.str, ⟨token, rfl⟩, hput, ?_⟩
  rw [respond_get hout, CharArray.str_strncpy token.short]

/-- A pass as it should be, after the passes `before`, for a client that has printed `op`. -/
structure Agrees (before : List (Exchange C numBuckets)) (op : Operation)
    (e : Exchange C numBuckets) : Prop where
  line : e.line = op.line
  /-- It is parsed into the key and the value that were printed, and no time to live. -/
  command : e.command = op.command
  /-- One line is written, -/
  oneLine : IsReplyLine e.reply
  /-- which the client accepts, and then has nothing left to read. -/
  accepted : op.response e.reply = (0, [])
  /-- A `GET` is answered with a value put earlier under its key. -/
  value : ∀ key, op = .get key → ∃ val, e.reply = valueReply val.bytes ∧ PutBy before key val

theorem isReplyLine_value {val : CString} (hval : IsToken maxValLen val) :
    IsReplyLine (valueReply val.bytes) := by
  obtain ⟨token, rfl⟩ := hval
  exact ⟨ascii "VALUE " ++ token.bytes, newline_not_mem_value token, rfl⟩

theorem agrees_of_live {op : Operation} (hop : FromPool op)
    (hlive : ∀ key, op = .get key → Live log table key) {e : Exchange C numBuckets}
    (hline : e.line = op.line) (hcommand : e.command = op.command) {now : ℕ}
    (hreply : e.reply = (respond op.command now table).1) : Agrees log op e := by
  cases hop with
  | @get index hindex =>
    obtain ⟨val, htoken, hput, hvalue⟩ := (hlive _ rfl).reply now
    replace hreply : e.reply = valueReply val.bytes := hreply.trans hvalue
    refine ⟨hline, hcommand, ?_, ?_, fun key hkey => ?_⟩
    · rw [hreply]
      exact isReplyLine_value htoken
    · rw [hreply]
      exact response_value _ htoken
    · cases hkey
      exact ⟨val, hreply, hput⟩
  | put hindex hval =>
    replace hreply : e.reply = respOk := hreply
    refine ⟨hline, hcommand, ?_, ?_, fun key hkey => by cases hkey⟩
    · rw [hreply]
      exact ⟨ascii "OK", by decide, by decide⟩
    · rw [hreply]
      exact response_ok _ _

/-- Every key that has been put is live. -/
def Backed (log : List (Exchange C numBuckets)) (table : HashTable numBuckets) : Prop :=
  ∀ key val, PutBy log key val → Live log table key

theorem Backed.sweep (h : Backed log table) (now : ℕ) : Backed log (sweeperPass now table) :=
  fun key val hput => (h key val hput).sweep now

theorem Backed.concat {e : Exchange C numBuckets} (h : Backed log table)
    (he : ∀ key val, e.command ≠ .put key val 0) : Backed (log ++ [e]) table := by
  rintro key val ⟨d, hd, hput⟩
  rcases List.mem_append.mp hd with hd | hd
  · obtain ⟨old, htoken, hold, hcontents⟩ := h key val ⟨d, hd, hput⟩
    exact ⟨old, htoken, hold.concat e, hcontents⟩
  · obtain rfl := List.mem_singleton.mp hd
    exact absurd hput (he key val)

/-- A pass for an operation keeps every key live that was. -/
theorem Backed.serve {op : Operation} (h : Backed log table) (hop : FromPool op)
    {e : Exchange C numBuckets} (hcommand : e.command = op.command) (now : ℕ) :
    Backed (log ++ [e]) (respond op.command now table).2 := by
  cases hop with
  | @get index hindex =>
    have hnoPut : ∀ key val, e.command ≠ .put key val 0 := by
      intro key val hput
      rw [hcommand] at hput
      cases hput
    have hcontents : (respond (.get (makeKey index)) now table).2.contents = table.contents := by
      rw [respond_table]
      exact contents_kvGet _ _ _
    intro key val hput
    obtain ⟨old, htoken, hold, hstored⟩ := h.concat hnoPut key val hput
    exact ⟨old, htoken, hold, (congrFun hcontents key).trans hstored⟩
  | @put index new hindex hnew =>
    obtain ⟨keyToken, hkey⟩ := isToken_makeKey index
    have hfits : (makeKey index).length ≤ maxKeyLen := hkey ▸ keyToken.short
    have hcontents : (respond (.put (makeKey index) new 0) now table).2.contents =
        Function.update table.contents (makeKey index)
          (some ⟨CharArray.strncpy maxValLen new, ⊤⟩) := contents_kvPut hfits new 0 now table
    intro key val hput
    by_cases hsame : key = makeKey index
    · subst hsame
      refine ⟨new, hnew, ⟨e, by simp, hcommand⟩, ?_⟩
      exact (congrFun hcontents _).trans (Function.update_self _ _ _)
    · obtain ⟨d, hd, hput⟩ := hput
      rcases List.mem_append.mp hd with hd | hd
      · obtain ⟨old, htoken, hold, hstored⟩ := h key val ⟨d, hd, hput⟩
        refine ⟨old, htoken, hold.concat e, ?_⟩
        exact (congrFun hcontents key).trans ((Function.update_of_ne hsame _ _).trans hstored)
      · obtain rfl := List.mem_singleton.mp hd
        rw [hcommand] at hput
        cases hput
        exact absurd rfl hsame

end Log

theorem handleClient_request {C : Type*} [DecidableEq C] {server : HandleClient.State C numBuckets}
    {client : C} {r : Request} (h : server.connections client = ⟨r.encode, true⟩) (now : ℕ) :
    handleClient client now server =
      ⟨(respond r.command now server.table).2,
        Function.update server.connections client ⟨[], !isQuit r.encode⟩,
        server.log ++ [⟨client, r.encode, server.table, now,
          (respond r.command now server.table).1⟩]⟩ := by
  have hline : lines (· == newline) (server.connections client).unread = [r.encode] := by
    rw [h]
    exact lines_newline r.newline_not_mem_text
  have hserving : (server.connections client).serving = true := by
    rw [h]
  rw [handleClient_line hserving hline r.length_encode, r.parseLine_encode]
  rfl

end CpreLabs.BenchClient
