import CpreLabs.ClientSessions
import CpreLabs.ConcurrentSessions
import CpreLabs.HashTableSerializability

/-!
# The serial server in step with the workers

The serial server makes the pass of a line where the call of its command takes its place under
the lock. Until then a worker has a line in hand that the serial server has not read, and from
then on the worker will print what the serial server has answered.
-/
namespace CpreLabs.Concurrent
open HandleClient Rwlock HashTable

variable {W C : Type*} [DecidableEq C] {numBuckets : ℕ+}

section Pass

variable {q : HandleClient.State C numBuckets} {conn : C}

/-- What the serial server has done for a connection. -/
def view (q : HandleClient.State C numBuckets) (conn : C) :
    Connection × List (Exchange C numBuckets) :=
  (q.connections conn, q.exchanges conn)

theorem view_eq {connections : C → Connection} {log : List (Exchange C numBuckets)}
    (table : HashTable numBuckets) (c : C) :
    view ⟨table, connections, log⟩ c =
      (connections c, log.filter (fun e => e.client = c)) := rfl

theorem pass_line {line unread rest : List UInt8} (now : ℕ)
    (hconn : q.connections conn = ⟨rest, true⟩)
    (hread : CpreLabs.fgets maxLineLen rest = some (line, unread)) :
    (handleClient conn now q).table = (respond (parseLine (.ofBuffer line)) now q.table).2 ∧
      view (handleClient conn now q) conn = (⟨unread, !isQuit line⟩, q.exchanges conn ++
        [⟨conn, line, q.table, now, (respond (parseLine (.ofBuffer line)) now q.table).1⟩]) ∧
      ∀ c, c ≠ conn → view (handleClient conn now q) c = view q c := by
  have hpass : handleClient conn now q =
      ⟨(respond (parseLine (.ofBuffer line)) now q.table).2,
        Function.update q.connections conn ⟨unread, !isQuit line⟩, q.log ++
        [⟨conn, line, q.table, now, (respond (parseLine (.ofBuffer line)) now q.table).1⟩]⟩ := by
    simp [handleClient, hconn, hread, isQuit]
  rw [hpass]
  refine ⟨rfl, ?_, fun c hc => ?_⟩
  · simp [view_eq, State.exchanges]
  · simp [view, State.exchanges, Function.update_of_ne hc, Ne.symm hc]

theorem pass_eof {rest : List UInt8} (now : ℕ) (hconn : q.connections conn = ⟨rest, true⟩)
    (hread : CpreLabs.fgets maxLineLen rest = none) :
    (handleClient conn now q).table = q.table ∧
      (handleClient conn now q).exchanges conn = q.exchanges conn ∧
      ∀ c, c ≠ conn → view (handleClient conn now q) c = view q c := by
  have hpass : handleClient conn now q =
      { q with connections := Function.update q.connections conn ⟨rest, false⟩ } := by
    simp [handleClient, hconn, hread]
  rw [hpass]
  exact ⟨rfl, rfl, fun c hc => by simp [view, State.exchanges, Function.update_of_ne hc]⟩

end Pass

section Results

variable {Op' A N O : Type*} {spec : Op' → ℕ → A → Effect A N O}

theorem serialResults_tickets (es : List (Entry Op')) (a : A) :
    (serialResults spec es a).map Prod.fst = es.map Entry.ticket := by
  induction es generalizing a with
  | nil => rfl
  | cons e es ih => simp [serialResults, ih]

theorem ticket_of_result {es : List (Entry Op')} {a : A} {n : ℕ} {o : O}
    (h : (n, o) ∈ serialResults spec es a) : n ∈ es.map Entry.ticket := by
  rw [← @serialResults_tickets _ _ _ _ spec es a]
  exact List.mem_map_of_mem h

/-- Each ticket has one result. -/
theorem result_unique {es : List (Entry Op')} {a : A} (hnodup : (es.map Entry.ticket).Nodup)
    {n : ℕ} {o o' : O} (h : (n, o) ∈ serialResults spec es a)
    (h' : (n, o') ∈ serialResults spec es a) : o = o' := by
  rw [← @serialResults_tickets _ _ _ _ spec es a] at hnodup
  exact congrArg Prod.snd (List.inj_on_of_nodup_map hnodup h h' rfl)

end Results

abbrev Lines := List (List UInt8 × List UInt8)

abbrev View (C : Type*) (numBuckets : ℕ+) := Connection × List (Exchange C numBuckets)

/-- All lines read have been answered, and so has the serial server done. -/
def Between (v : View C numBuckets) (unread : List UInt8) (answered : Lines) : Prop :=
  v.1 = ⟨unread, true⟩ ∧ List.Forall₂ Answers answered v.2

/-- The serial server has yet to read the line. -/
def Pending (line : List UInt8) (v : View C numBuckets) (unread : List UInt8)
    (answered : Lines) : Prop :=
  (∃ rest, v.1 = ⟨rest, true⟩ ∧ CpreLabs.fgets maxLineLen rest = some (line, unread)) ∧
    List.Forall₂ Answers answered v.2

/-- The serial server has made the pass of the line. -/
def Passed (line : List UInt8) (P : Exchange C numBuckets → Prop) (v : View C numBuckets)
    (unread : List UInt8) (answered : Lines) : Prop :=
  ∃ es e, v.2 = es ++ [e] ∧ List.Forall₂ Answers answered es ∧ e.line = line ∧ P e ∧
    v.1 = ⟨unread, !isQuit line⟩

abbrev TableThread (numBuckets : ℕ+) := Rwlock.Thread (Option Op) (Frame numBuckets ⊕ Bool)

/-- A worker between its call and the return; its pass is made when the call takes its place. -/
def InCall (request : Option Op) (line : List UInt8) (P : ℕ → Exchange C numBuckets → Prop)
    (tickets : List ℕ) (v : View C numBuckets) (unread : List UInt8) (answered : Lines) :
    TableThread numBuckets → Prop
  | .idle => False
  | .waiting r => r = request ∧ Pending line v unread answered
  | .inside n r _ => r = request ∧
      (n ∉ tickets → Pending line v unread answered) ∧
      (n ∈ tickets → Passed line (P n) v unread answered)

/-- What the serial server has answered is what a call will make the worker print. -/
def Foreseen (line : List UInt8) (results : List (ℕ × Option Outcome)) (n : ℕ)
    (e : Exchange C numBuckets) : Prop :=
  ∃ o, (n, some o) ∈ results ∧ e.reply = callReply (parseLine (.ofBuffer line)) o

/-- A worker in step with the serial server. -/
def InStep (tickets : List ℕ) (results : List (ℕ × Option Outcome))
    (view : C → View C numBuckets) (unread : C → List UInt8) (answered : C → Lines)
    (th : TableThread numBuckets) : WorkerPoint C → Prop
  | .free => th = .idle
  | .fdopen conn | .fgets conn => th = .idle ∧ Between (view conn) (unread conn) (answered conn)
  | .branch conn line => th = .idle ∧ Pending line (view conn) (unread conn) (answered conn)
  | .call conn line => ∃ op, (parseLine (.ofBuffer line)).call = some op ∧
      InCall (some op) line (Foreseen line results) tickets (view conn) (unread conn)
        (answered conn) th
  | .stats conn line _ => parseLine (.ofBuffer line) = .stats ∧
      InCall none line (fun _ _ => True) tickets (view conn) (unread conn) (answered conn) th
  | .dprintf conn line reply => th = .idle ∧
      Passed line (Answers (line, reply)) (view conn) (unread conn) (answered conn)

section InStep

variable {tickets tickets' : List ℕ} {results results' : List (ℕ × Option Outcome)}
  {view view' : C → View C numBuckets} {unread unread' : C → List UInt8}
  {answered answered' : C → Lines} {th : TableThread numBuckets} {l : WorkerPoint C}

omit [DecidableEq C] in
theorem Passed.mono {line : List UInt8} {P P' : Exchange C numBuckets → Prop}
    {v : View C numBuckets} {u : List UInt8} {a : Lines} (h : Passed line P v u a)
    (hP : ∀ e, P e → P' e) : Passed line P' v u a := by
  obtain ⟨es, e, hes, ha, hline, he, hv⟩ := h
  exact ⟨es, e, hes, ha, hline, hP e he, hv⟩

omit [DecidableEq C] in
theorem InCall.mono {request : Option Op} {line : List UInt8}
    {P P' : ℕ → Exchange C numBuckets → Prop} {v : View C numBuckets} {u : List UInt8} {a : Lines}
    (h : InCall request line P tickets v u a th) (hP : ∀ n e, P n e → P' n e)
    (hown : ∀ n r f, th = .inside n r f → (n ∈ tickets' ↔ n ∈ tickets)) :
    InCall request line P' tickets' v u a th := by
  cases th with
  | idle => exact h
  | waiting r => exact h
  | inside n r f =>
    obtain ⟨hr, hpending, hpassed⟩ := h
    have hn := hown n r f rfl
    exact ⟨hr, fun hno => hpending (fun hin => hno (hn.mpr hin)),
      fun hin => (hpassed (hn.mp hin)).mono (hP n)⟩

omit [DecidableEq C] in
/-- The steps of others, on other connections and with other tickets, change nothing. -/
theorem InStep.others (h : InStep tickets results view unread answered th l)
    (hconn : ∀ c, l.conn = some c →
      view' c = view c ∧ unread' c = unread c ∧ answered' c = answered c)
    (hown : ∀ n r f, th = .inside n r f → (n ∈ tickets' ↔ n ∈ tickets))
    (hresults : ∀ x ∈ results, x ∈ results') :
    InStep tickets' results' view' unread' answered' th l := by
  cases l with
  | free => exact h
  | fdopen conn | fgets conn | branch conn line | dprintf conn line reply =>
    obtain ⟨hv, hu, ha⟩ := hconn conn rfl
    simp only [InStep, hv, hu, ha]
    exact h
  | call conn line =>
    obtain ⟨hv, hu, ha⟩ := hconn conn rfl
    obtain ⟨op, hop, hcall⟩ := h
    simp only [InStep, hv, hu, ha]
    refine ⟨op, hop, hcall.mono (fun n e he => ?_) hown⟩
    obtain ⟨o, ho, hreply⟩ := he
    exact ⟨o, hresults _ ho, hreply⟩
  | stats conn line l =>
    obtain ⟨hv, hu, ha⟩ := hconn conn rfl
    simp only [InStep, hv, hu, ha]
    exact ⟨h.1, h.2.mono (fun _ _ he => he) hown⟩

end InStep

end CpreLabs.Concurrent
