import CpreLabs.BenchRequests
import Mathlib.Algebra.Order.BigOperators.Group.Finset

/-!
# The benchmark client and the server agree

A client and its connection make the steps of an operation together: the line is printed, the
server makes a pass for it, the response is read. So the two ends stay in step, and since
`preload_keys` has put every key without a time to live, a key that a worker asks for is always
there.
-/
namespace CpreLabs.BenchClient

open HandleClient HashTable

variable {numBuckets : ℕ+} {b : Benchmark}

def Event.client : Event b → Option (Client b)
  | send client | receive client | pass client _ => some client
  | sweep _ => none

/-- The number of steps made by a client, or for it. -/
def steps (client : Client b) (events : List (Event b)) : ℕ :=
  events.countP (fun event => event.client = some client)

/-- Where a client and its connection stand after `k` steps, three of which make one operation. -/
inductive InStep (client : Client b) :
    Party → Connection → List (Exchange (Client b) numBuckets) → ℕ → Prop
  | looping {i es} : i ≤ b.numOps client → es.length = i →
      InStep client ⟨.looping i, i, 0, []⟩ ⟨[], true⟩ es (3 * i)
  | asked {i es} : i < b.numOps client → es.length = i →
      InStep client ⟨.awaiting i, i, 0, []⟩ ⟨(b.operation client i).line, true⟩ es (3 * i + 1)
  | answered {i es e} : i < b.numOps client → es.length = i → IsReplyLine e.reply →
      (b.operation client i).response e.reply = (0, []) →
      InStep client ⟨.awaiting i, i, 0, e.reply⟩ ⟨[], true⟩ (es ++ [e]) (3 * i + 2)
  | quitting {es} : es.length = b.numOps client →
      InStep client ⟨.awaitingBye, b.numOps client, 0, []⟩ ⟨quitLine, true⟩ es
        (3 * b.numOps client + 1)
  | dismissed {es} : es.length = b.numOps client + 1 →
      InStep client ⟨.awaitingBye, b.numOps client, 0, respBye⟩ ⟨[], false⟩ es
        (3 * b.numOps client + 2)
  | returned {es} : es.length = b.numOps client + 1 →
      InStep client ⟨.returned, b.numOps client, 0, []⟩ ⟨[], false⟩ es (3 * b.numOps client + 3)

section Steps

variable {s s' : State b numBuckets} {client : Client b} {i completed : ℕ} {reply : List UInt8}

theorem InStep.steps_le {p : Party} {connection : Connection}
    {es : List (Exchange (Client b) numBuckets)} {k : ℕ} (h : InStep client p connection es k) :
    k ≤ 3 * (b.numOps client + 1) := by
  cases h with
  | _ => omega

theorem InStep.of_returned {p : Party} {connection : Connection}
    {es : List (Exchange (Client b) numBuckets)} {k : ℕ} (h : InStep client p connection es k)
    (hp : p.pc = .returned) : k = 3 * b.numOps client + 3 ∧ es.length = b.numOps client + 1 ∧
      p.completedOps = b.numOps client ∧ p.failedOps = 0 := by
  cases h with
  | returned hlength => exact ⟨rfl, hlength, rfl, rfl⟩
  | _ => cases hp

theorem InStep.not_failed {p : Party} {connection : Connection}
    {es : List (Exchange (Client b) numBuckets)} {k : ℕ} (h : InStep client p connection es k) :
    p.pc ≠ .failed := by
  intro hp
  cases h with
  | _ => cases hp

theorem readable_of_isReplyLine {size : ℕ} {closed : Bool} (h : IsReplyLine reply) :
    readable size reply closed = true := by
  obtain ⟨text, -, rfl⟩ := h
  simp [readable]

theorem step_send_operation (hp : s.party client = ⟨.looping i, completed, 0, []⟩)
    (hcreated : s.created client = true) (hi : i < b.numOps client) :
    step b (.send client) s =
      some (s.print client (b.operation client i).line (.awaiting i)) := by
  simp only [step, hp, hcreated, if_true, if_pos hi]

theorem step_send_quit (hp : s.party client = ⟨.looping i, completed, 0, []⟩)
    (hcreated : s.created client = true) (hi : ¬ i < b.numOps client) :
    step b (.send client) s = some (s.print client quitLine .awaitingBye) := by
  simp only [step, hp, hcreated, if_true, if_neg hi]

theorem step_receive_operation (hp : s.party client = ⟨.awaiting i, completed, 0, reply⟩)
    (hline : IsReplyLine reply) (haccepted : (b.operation client i).response reply = (0, [])) :
    step b (.receive client) s =
      some (s.setParty client ⟨.looping (i + 1), completed + 1, 0, []⟩) := by
  simp only [step, hp, readable_of_isReplyLine hline, if_true, haccepted, Party.proceed]

theorem step_receive_bye (hp : s.party client = ⟨.awaitingBye, completed, 0, respBye⟩) :
    step b (.receive client) s = some (s.setParty client ⟨.returned, completed, 0, []⟩) := by
  have hread : (expectResponse (.lit "BYE") respBye).2 = [] := by
    decide
  have hline : IsReplyLine respBye := ⟨ascii "BYE", by decide, by decide⟩
  simp only [step, hp, readable_of_isReplyLine hline, if_true, hread]

theorem step_pass {r : Request} {pc : Pc}
    (hconnection : s.server.connections client = ⟨r.encode, true⟩)
    (hp : s.party client = ⟨pc, completed, 0, []⟩) (now : ℕ) :
    step b (.pass client now) s =
      some { s.setParty client
          ⟨pc, completed, 0, (respond r.command now s.server.table).1⟩ with
        server := ⟨(respond r.command now s.server.table).2,
          Function.update s.server.connections client ⟨[], !isQuit r.encode⟩,
          s.server.log ++ [⟨client, r.encode, s.server.table, now,
            (respond r.command now s.server.table).1⟩]⟩ } := by
  have hreadable : readable maxLineLen r.encode (s.closed client) = true :=
    readable_of_isReplyLine ⟨r.text, r.newline_not_mem_text, rfl⟩
  simp only [step, handleClient_request hconnection, hconnection, hp, hreadable, Bool.and_self,
    if_true, List.drop_left, List.flatMap_singleton, List.nil_append]

theorem readable_nil {size : ℕ} (h : 1 < size) : readable size [] false = false := by
  have hsize : size - 1 ≠ 0 := by
    omega
  simp [readable, hsize]

theorem step_pass_none {serving : Bool} (hconnection : s.server.connections client = ⟨[], serving⟩)
    (hclosed : serving = true → s.closed client = false) (now : ℕ) :
    step b (.pass client now) s = none := by
  cases serving with
  | false => simp [step, hconnection]
  | true =>
    have hwaits : readable maxLineLen [] false = false := readable_nil (by decide)
    simp [step, hconnection, hclosed rfl, hwaits]

theorem step_receive_none (hincoming : (s.party client).incoming = [])
    (hserving : (s.server.connections client).serving = true) :
    step b (.receive client) s = none := by
  have hwaits : readable lineSize [] false = false := readable_nil (by decide)
  simp [step, hincoming, hserving, hwaits]

end Steps

/-- A pass as it should be for the client it is made for, which has had so many before. -/
inductive Served (before : List (Exchange (Client b) numBuckets))
    (e : Exchange (Client b) numBuckets) : Prop
  | operation {i} : (before.filter (fun d => d.client = e.client)).length = i →
      i < b.numOps e.client → Agrees before (b.operation e.client i) e → Served before e
  | quit : (before.filter (fun d => d.client = e.client)).length = b.numOps e.client →
      e.line = quitLine → e.reply = respBye → Served before e

structure Invariant (events : List (Event b)) (s : State b numBuckets) : Prop where
  inStep : ∀ client, InStep client (s.party client) (s.server.connections client)
    (s.server.exchanges client) (steps client events)
  /-- No worker makes a step before `preload_keys` has returned. -/
  waits : ∀ t, 0 < steps (some t) events → (s.party none).pc = .returned
  served : ∀ before e after, s.server.log = before ++ e :: after → Served before e
  backed : Backed s.server.log s.server.table
  preloaded : ∀ i < keyPoolSize, i < (s.server.exchanges none).length →
    ∃ val, PutBy s.server.log (makeKey i) val

section Preservation

variable {events : List (Event b)} {event : Event b} {s s' : State b numBuckets}
  {client : Client b}

theorem steps_concat (client : Client b) (events : List (Event b)) (event : Event b) :
    steps client (events ++ [event]) =
      steps client events + if event.client = some client then 1 else 0 := by
  simp [steps, List.countP_append, List.countP_singleton]

theorem invariant_start (table : HashTable numBuckets) : Invariant [] (start b table) := by
  constructor
  · exact fun client => .looping (Nat.zero_le _) rfl
  · exact fun t hpos => absurd hpos (lt_irrefl 0)
  · exact fun before e after hlog => by simp [start, HandleClient.start] at hlog
  · rintro key val ⟨d, hd, -⟩
    cases hd
  · exact fun i _ hi => absurd hi (Nat.not_lt_zero i)

theorem Invariant.created (h : Invariant events s) (hpos : 0 < steps client events) :
    s.created client = true := by
  cases client with
  | none => rfl
  | some t => exact decide_eq_true (h.waits t hpos)

/-- When a client and its connection have gone one step further together, all are in step. -/
theorem Invariant.advance (h : Invariant events s) (s' : State b numBuckets)
    (hevent : event.client = some client)
    (hcreated : s.created client = true)
    (hframe : ∀ other, other ≠ client → s'.party other = s.party other ∧
      s'.server.connections other = s.server.connections other ∧
      s'.server.exchanges other = s.server.exchanges other)
    (hown : InStep client (s'.party client) (s'.server.connections client)
      (s'.server.exchanges client) (steps client events + 1)) :
    (∀ other, InStep other (s'.party other) (s'.server.connections other)
      (s'.server.exchanges other) (steps other (events ++ [event]))) ∧
    ∀ t, 0 < steps (some t) (events ++ [event]) → (s'.party none).pc = .returned := by
  constructor
  · intro other
    rw [steps_concat, hevent]
    by_cases hother : other = client
    · subst hother
      rw [if_pos rfl]
      exact hown
    · obtain ⟨hparty, hconnection, hes⟩ := hframe other hother
      rw [if_neg fun heq => hother (Option.some.inj heq).symm, hparty, hconnection, hes]
      exact h.inStep other
  · intro t hpos
    rw [steps_concat, hevent] at hpos
    have hreturned : (s.party none).pc = .returned := by
      by_cases ht : client = some t
      · subst ht
        exact of_decide_eq_true hcreated
      · rw [if_neg fun heq => ht (Option.some.inj heq)] at hpos
        exact h.waits t hpos
    by_cases hnone : client = none
    · subst hnone
      have hle := hown.steps_le
      obtain ⟨hlast, -⟩ := (h.inStep none).of_returned hreturned
      omega
    · rw [(hframe none (Ne.symm hnone)).1]
      exact hreturned

theorem Invariant.quiet (h : Invariant events s) (hevent : event.client = some client)
    (hcreated : s.created client = true) {p : Party} {connections : Client b → Connection}
    (hconnections : ∀ other, other ≠ client → connections other = s.server.connections other)
    (hown : InStep client p (connections client) (s.server.exchanges client)
      (steps client events + 1)) :
    Invariant (events ++ [event])
      { s.setParty client p with server := { s.server with connections := connections } } := by
  have hparty : (s.setParty client p).party client = p := Function.update_self _ _ _
  obtain ⟨hin, hwaits⟩ := h.advance
    { s.setParty client p with server := { s.server with connections := connections } }
    hevent hcreated
    (fun other hother => ⟨Function.update_of_ne hother _ _, hconnections other hother, rfl⟩)
    (hparty.symm ▸ hown)
  exact ⟨hin, hwaits, h.served, h.backed, h.preloaded⟩

theorem Invariant.send (h : Invariant events s) (hs : step b (.send client) s = some s') :
    Invariant (events ++ [.send client]) s' := by
  have hcreated : s.created client = true := by
    by_contra hnot
    simp only [step, hnot] at hs
    split at hs <;> cases hs
  have hin := h.inStep client
  generalize hp : s.party client = p at hin
  generalize hconnection : s.server.connections client = connection at hin
  generalize hes : s.server.exchanges client = es at hin
  generalize hk : steps client events = k at hin
  cases hin with
  | @looping i es hi hlength =>
    by_cases hlt : i < b.numOps client
    · rw [step_send_operation hp hcreated hlt] at hs
      cases hs
      refine h.quiet rfl hcreated (fun other hother => Function.update_of_ne hother _ _) ?_
      rw [Function.update_self, hconnection, hp, hes, hk]
      exact .asked hlt hlength
    · rw [step_send_quit hp hcreated hlt] at hs
      cases hs
      obtain rfl : i = b.numOps client := by omega
      refine h.quiet rfl hcreated (fun other hother => Function.update_of_ne hother _ _) ?_
      rw [Function.update_self, hconnection, hp, hes, hk]
      exact .quitting hlength
  | _ => simp [step, hp] at hs

theorem Invariant.receive (h : Invariant events s) (hs : step b (.receive client) s = some s') :
    Invariant (events ++ [.receive client]) s' := by
  have hin := h.inStep client
  have hcreated : 0 < steps client events → s.created client = true := h.created
  generalize hp : s.party client = p at hin
  generalize hconnection : s.server.connections client = connection at hin
  generalize hes : s.server.exchanges client = es at hin
  generalize hk : steps client events = k at hin hcreated
  cases hin with
  | @answered i es e hi hlength hline haccepted =>
    rw [step_receive_operation hp hline haccepted] at hs
    cases hs
    refine h.quiet rfl (hcreated (by omega)) (fun other hother => rfl) ?_
    rw [hconnection, hes, hk]
    exact .looping hi (by simpa using hlength)
  | dismissed hlength =>
    rw [step_receive_bye hp] at hs
    cases hs
    refine h.quiet rfl (hcreated (by omega)) (fun other hother => rfl) ?_
    rw [hconnection, hes, hk]
    exact .returned hlength
  | returned hlength => simp [step, hp] at hs
  | _ =>
    rw [step_receive_none (by rw [hp]) (by rw [hconnection])] at hs
    cases hs

section Exchange

variable {e : Exchange (Client b) numBuckets}

theorem exchanges_concat_self (he : e.client = client) :
    (s.server.log ++ [e]).filter (fun d => d.client = client) =
      s.server.exchanges client ++ [e] := by
  simp [State.exchanges, he]

theorem exchanges_concat_other (he : e.client = client) {other : Client b} (hother : other ≠ client) :
    (s.server.log ++ [e]).filter (fun d => d.client = other) = s.server.exchanges other := by
  simp [State.exchanges, he, Ne.symm hother]

theorem Invariant.preloaded_concat (h : Invariant events s) (he : e.client = client)
    (hpreload : client = none → (s.server.exchanges none).length < keyPoolSize →
      ∃ val, e.command = .put (makeKey (s.server.exchanges none).length) val 0)
    {i : ℕ} (hi : i < keyPoolSize)
    (hlength : i < ((s.server.log ++ [e]).filter (fun d => d.client = none)).length) :
    ∃ val, PutBy (s.server.log ++ [e]) (makeKey i) val := by
  have hold : i < (s.server.exchanges none).length →
      ∃ val, PutBy (s.server.log ++ [e]) (makeKey i) val := by
    intro hlt
    obtain ⟨val, hput⟩ := h.preloaded i hi hlt
    exact ⟨val, hput.concat e⟩
  by_cases hnone : client = none
  · subst hnone
    rw [exchanges_concat_self he, List.length_append, List.length_singleton] at hlength
    rcases Nat.lt_or_ge i (s.server.exchanges none).length with hlt | hge
    · exact hold hlt
    · obtain rfl : i = (s.server.exchanges none).length := by omega
      obtain ⟨val, hval⟩ := hpreload rfl hi
      exact ⟨val, e, by simp, hval⟩
  · rw [exchanges_concat_other he (Ne.symm hnone)] at hlength
    exact hold hlength

theorem Invariant.serve (h : Invariant events s) (hevent : event.client = some client)
    (hcreated : s.created client = true) (he : e.client = client) {p : Party}
    {connection : Connection} {table : HashTable numBuckets} (hserved : Served s.server.log e)
    (hbacked : Backed (s.server.log ++ [e]) table)
    (hpreload : client = none → (s.server.exchanges none).length < keyPoolSize →
      ∃ val, e.command = .put (makeKey (s.server.exchanges none).length) val 0)
    (hown : InStep client p connection (s.server.exchanges client ++ [e])
      (steps client events + 1)) :
    Invariant (events ++ [event])
      { s.setParty client p with
        server := ⟨table, Function.update s.server.connections client connection,
          s.server.log ++ [e]⟩ } := by
  have hparty : (s.setParty client p).party client = p := Function.update_self _ _ _
  have hconnection : Function.update s.server.connections client connection client = connection :=
    Function.update_self _ _ _
  rw [← exchanges_concat_self he, ← hparty, ← hconnection] at hown
  obtain ⟨hin, hwaits⟩ := h.advance
    { s.setParty client p with
      server := ⟨table, Function.update s.server.connections client connection,
        s.server.log ++ [e]⟩ }
    hevent hcreated
    (fun other hother => ⟨Function.update_of_ne hother _ _, Function.update_of_ne hother _ _,
      exchanges_concat_other he hother⟩) hown
  refine ⟨hin, hwaits, fun before d after hlog => ?_, hbacked, fun i hi hlength => ?_⟩
  · rcases append_cons_eq_concat hlog.symm with ⟨-, rfl, rfl⟩ | ⟨later, -, hearlier⟩
    · exact hserved
    · exact h.served before d later hearlier.symm
  · exact h.preloaded_concat he hpreload hi hlength

end Exchange

theorem Invariant.live (h : Invariant events s) (hpos : 0 < steps client events) {i : ℕ}
    {key : CString} (hget : b.operation client i = .get key) :
    Live s.server.log s.server.table key := by
  cases client with
  | none => cases hget
  | some t =>
    have hindex : (b.rand t i).1 % keyPoolSize < keyPoolSize := Nat.mod_lt _ (by decide)
    have hkey : key = makeKey ((b.rand t i).1 % keyPoolSize) := by
      rw [Benchmark.operation] at hget
      split at hget
      · cases hget
        rfl
      · cases hget
    obtain ⟨-, hlength, -⟩ := (h.inStep none).of_returned (h.waits t hpos)
    obtain ⟨val, hput⟩ := h.preloaded _ hindex (by rw [hlength, Benchmark.numOps]; omega)
    rw [hkey]
    exact h.backed _ val hput

theorem Invariant.pass {now : ℕ} (h : Invariant events s)
    (hs : step b (.pass client now) s = some s') :
    Invariant (events ++ [.pass client now]) s' := by
  have hin := h.inStep client
  have hcreated : 0 < steps client events → s.created client = true := h.created
  have hlive : 0 < steps client events → ∀ i key, b.operation client i = .get key →
      Live s.server.log s.server.table key := fun hpos i key => h.live hpos
  generalize hp : s.party client = p at hin
  generalize hconnection : s.server.connections client = connection at hin
  generalize hes : s.server.exchanges client = es at hin
  generalize hk : steps client events = k at hin hcreated hlive
  cases hin with
  | @asked i es hi hlength =>
    have hop := fromPool_operation client hi
    obtain ⟨r, hline, hcommand, hquit⟩ := hop.line_eq
    rw [hline] at hconnection
    have hopen : isQuit r.encode = false := by
      rw [← Bool.not_eq_true, r.isQuit_encode]
      exact hquit
    rw [step_pass hconnection hp now, hcommand, hopen] at hs
    cases hs
    have hparsed : parseLine (.ofBuffer r.encode) = (b.operation client i).command := by
      rw [r.parseLine_encode, hcommand]
    have hagrees : Agrees s.server.log (b.operation client i) ⟨client, r.encode, s.server.table, now,
        (respond (b.operation client i).command now s.server.table).1⟩ :=
      agrees_of_live hop (hlive (by omega) i) hline.symm hparsed rfl
    refine h.serve rfl (hcreated (by omega)) rfl
      (.operation ((congrArg _ hes).trans hlength) hi hagrees)
      (h.backed.serve hop hagrees.command now) ?_ ?_
    · rintro rfl -
      rw [hes, hlength]
      exact ⟨_, hparsed⟩
    · rw [hes, hk]
      exact .answered hi hlength hagrees.oneLine hagrees.accepted
  | quitting hlength =>
    rw [step_pass (r := .quit) hconnection hp now] at hs
    cases hs
    refine h.serve rfl (hcreated (by omega)) rfl (.quit ((congrArg _ hes).trans hlength) rfl rfl)
      (h.backed.concat fun key val hput => ?_) ?_ ?_
    · cases hput
    · rintro rfl hlt
      rw [hes, hlength] at hlt
      exact absurd hlt (lt_irrefl _)
    · rw [hes, hk]
      exact .dismissed (by rw [List.length_append, hlength]; rfl)
  | looping =>
    rw [step_pass_none hconnection (fun _ => by simp [State.closed, hp])] at hs
    cases hs
  | answered =>
    rw [step_pass_none hconnection (fun _ => by simp [State.closed, hp])] at hs
    cases hs
  | _ =>
    rw [step_pass_none hconnection (fun hserving => by cases hserving)] at hs
    cases hs

theorem Invariant.sweep {now : ℕ} (h : Invariant events s)
    (hs : step b (.sweep now) s = some s') : Invariant (events ++ [.sweep now]) s' := by
  cases hs
  have hsteps : ∀ client, steps client (events ++ [.sweep now]) = steps client events := by
    intro client
    rw [steps_concat]
    rfl
  refine ⟨fun client => ?_, fun t hpos => ?_, h.served, h.backed.sweep now, h.preloaded⟩
  · rw [hsteps]
    exact h.inStep client
  · rw [hsteps] at hpos
    exact h.waits t hpos

theorem invariant_of_run {table : HashTable numBuckets} (h : Run b table events s) :
    Invariant events s := by
  induction h with
  | start => exact invariant_start table
  | @step events event s s' _ hs ih =>
    cases event with
    | send client => exact ih.send hs
    | receive client => exact ih.receive hs
    | pass client now => exact ih.pass hs
    | sweep now => exact ih.sweep hs

/-- A client that has been created makes its next step as soon as it is its turn. -/
theorem Invariant.enabled (h : Invariant events s) (hcreated : s.created client = true)
    (hp : (s.party client).pc ≠ .returned) :
    ∃ event s', event.client = some client ∧ step b event s = some s' := by
  have hin := h.inStep client
  generalize hparty : s.party client = p at hin hp
  generalize hconnection : s.server.connections client = connection at hin
  generalize s.server.exchanges client = es at hin
  generalize steps client events = k at hin
  cases hin with
  | @looping i es hi hlength =>
    by_cases hlt : i < b.numOps client
    · exact ⟨.send client, _, rfl, step_send_operation hparty hcreated hlt⟩
    · exact ⟨.send client, _, rfl, step_send_quit hparty hcreated hlt⟩
  | asked hi hlength =>
    obtain ⟨r, hline, -, -⟩ := (fromPool_operation client hi).line_eq
    rw [hline] at hconnection
    exact ⟨.pass client 0, _, rfl, step_pass hconnection hparty 0⟩
  | answered hi hlength hline haccepted =>
    exact ⟨.receive client, _, rfl, step_receive_operation hparty hline haccepted⟩
  | quitting hlength =>
    exact ⟨.pass client 0, _, rfl, step_pass (r := .quit) hconnection hparty 0⟩
  | dismissed hlength => exact ⟨.receive client, _, rfl, step_receive_bye hparty⟩
  | returned hlength => exact absurd rfl hp

end Preservation

/-- Every run can be continued to the end of all clients. -/
theorem Run.completed {table : HashTable numBuckets} {events : List (Event b)}
    {s : State b numBuckets} (h : Run b table events s) :
    ∃ later s', Run b table (events ++ later) s' ∧ ∀ client, (s'.party client).pc = .returned := by
  -- by induction on the steps that the clients have left
  induction hleft : ∑ client, (3 * (b.numOps client + 1) - steps client events)
    using Nat.strong_induction_on generalizing events s with
  | _ left ih =>
    by_cases hall : ∀ client, (s.party client).pc = .returned
    · exact ⟨[], s, by rwa [List.append_nil], hall⟩
    · obtain ⟨client, hcreated, hp⟩ :
          ∃ client, s.created client = true ∧ (s.party client).pc ≠ .returned := by
        by_cases hnone : (s.party none).pc = .returned
        · obtain ⟨client, hp⟩ := not_forall.mp hall
          cases client with
          | none => exact absurd hnone hp
          | some t => exact ⟨some t, decide_eq_true hnone, hp⟩
        · exact ⟨none, rfl, hnone⟩
      obtain ⟨event, s', hevent, hs⟩ := (invariant_of_run h).enabled hcreated hp
      have hrun := h.step hs
      have hless : ∑ client, (3 * (b.numOps client + 1) - steps client (events ++ [event])) <
          left := by
        rw [← hleft]
        refine Finset.sum_lt_sum (fun other _ => ?_) ⟨client, Finset.mem_univ _, ?_⟩
        · rw [steps_concat]
          omega
        · have hle := ((invariant_of_run hrun).inStep client).steps_le
          rw [steps_concat, hevent, if_pos rfl] at hle ⊢
          omega
      obtain ⟨later, s'', hcomplete, hreturned⟩ := ih _ hless hrun rfl
      exact ⟨event :: later, s'', by simpa using hcomplete, hreturned⟩

/-- The two ends of the benchmark agree, after the events of a run. -/
structure Agreement (events : List (Event b)) (s : State b numBuckets) : Prop where
  /-- A worker's buffers hold all that is formatted. -/
  formatted : (∀ index < keyPoolSize, (makeKey index).bytes = ascii "key" ++ padded 4 index) ∧
    ∀ t : Fin b.numClients, ∀ i < b.opsPerClient, (makeValue t i).bytes =
      ascii "value_t" ++ ascii (Nat.repr t) ++ ascii "_o" ++ ascii (Nat.repr i)
  /-- Each pass reads the line that its client has printed for the operation it is at, takes it for
  the command it was meant as, and writes a line that the client accepts; a `GET` is answered with
  a value put earlier under its key. The last line is `QUIT`. -/
  served : ∀ before e after, s.server.log = before ++ e :: after → Served before e
  /-- What a client has printed and read, and what has been read and written for it, are in step. -/
  inStep : ∀ client, InStep client (s.party client) (s.server.connections client)
    (s.server.exchanges client) (steps client events)
  preloaded : (s.party none).pc ≠ .failed
  results : ∀ t, (s.party (some t)).pc = .returned →
    (s.party (some t)).completedOps = b.opsPerClient ∧ (s.party (some t)).failedOps = 0
  /-- No client ever waits for nothing, -/
  goesOn : ∀ client, s.created client = true → (s.party client).pc ≠ .returned →
    ∃ event s', event.client = some client ∧ step b event s = some s'
  /-- and so many steps of its own bring it to its end. -/
  bounded : ∀ client, steps client events ≤ 3 * (b.numOps client + 1)

/-- From every table, and in every order of the clients' requests and the sweeps. -/
theorem client_server_agree (b : Benchmark) (table : HashTable numBuckets)
    (events : List (Event b)) (s : State b numBuckets) (h : Run b table events s) :
    Agreement events s := by
  have hinv := invariant_of_run h
  have hformatted : ∀ index < keyPoolSize, (makeKey index).bytes = ascii "key" ++ padded 4 index :=
    fun index hindex => bytes_makeKey hindex
  refine ⟨⟨hformatted, fun t i hi => bytes_makeValue t hi⟩, hinv.served, hinv.inStep,
    (hinv.inStep none).not_failed, fun t hreturned => ?_, fun client => hinv.enabled,
    fun client => (hinv.inStep client).steps_le⟩
  obtain ⟨-, -, hcompleted, hfailed⟩ := (hinv.inStep (some t)).of_returned hreturned
  exact ⟨hcompleted, hfailed⟩

/-- Two workers with fifty operations each, eighty percent of them `GET`s. -/
def twoWorkers : Benchmark :=
  ⟨2, 50, 80, fun t i => (7919 * i + t, 31 * i), by decide, by decide, by decide⟩

theorem twoWorkers_agree : ∃ events s, Run twoWorkers (kvInit 16) events s ∧
    Agreement events s ∧ ∀ t, (s.party (some t)).completedOps = 50 ∧
      (s.party (some t)).failedOps = 0 := by
  have hstart : Run twoWorkers (kvInit 16) [] (start twoWorkers (kvInit 16)) := .start
  obtain ⟨events, s, hrun, hreturned⟩ := hstart.completed
  have hagree := client_server_agree twoWorkers (kvInit 16) _ s hrun
  exact ⟨_, s, hrun, hagree, fun t => hagree.results t (hreturned (some t))⟩

end CpreLabs.BenchClient
