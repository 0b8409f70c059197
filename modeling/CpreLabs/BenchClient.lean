import CpreLabs.HandleClient

/-!
# `bench_client.c` and the server it measures

`preload_keys` and the workers are clients of `handle_client`, each with a connection of its own.
What a client prints waits in its connection until a pass of the server reads it, and what the
pass writes waits until the client reads it. The connections, and the start gate, are taken to
work; everything else may happen in any order.
-/
namespace CpreLabs.BenchClient

open HandleClient

def keyPoolSize : ℕ := 1000
def keyBufSize : ℕ := 32
def valBufSize : ℕ := 64

/-- The size of `line` in the functions that read a response. -/
def lineSize : ℕ := 512

/-- The arguments that `main` admits, and what `rand_r` returns to each worker in each pass of its
loop. -/
structure Benchmark where
  numClients : ℕ
  opsPerClient : ℕ
  readPct : ℕ
  rand : Fin numClients → ℕ → ℕ × ℕ
  numClients_range : 1 ≤ numClients ∧ numClients ≤ 2147483647
  opsPerClient_range : 1 ≤ opsPerClient ∧ opsPerClient ≤ 2147483647
  readPct_le : readPct ≤ 100

/-- `snprintf` into a buffer, of the text that the format stands for. -/
def snprintf (bufSize : ℕ) (text : List UInt8) : CString := .ofBuffer (text.take (bufSize - 1))

/-- `%0<width>d` -/
def padded (width n : ℕ) : List UInt8 :=
  List.replicate (width - (ascii (Nat.repr n)).length) 48 ++ ascii (Nat.repr n)

def makeKey (index : ℕ) : CString := snprintf keyBufSize (ascii "key" ++ padded 4 index)

def makeValue (threadIndex opIndex : ℕ) : CString :=
  snprintf valBufSize
    (ascii "value_t" ++ ascii (Nat.repr threadIndex) ++ ascii "_o" ++ ascii (Nat.repr opIndex))

def seedValue (i : ℕ) : CString := snprintf valBufSize (ascii "seed_" ++ ascii (Nat.repr i))

/-- What the function returns, and what it leaves to be read. -/
def expectResponse (expected : CString) (stream : List UInt8) : ℤ × List UInt8 :=
  match fgets lineSize stream with
  | none => (-1, stream)
  | some (line, stream) =>
      (if strncmp (.ofBuffer line) expected expected.length ≠ 0 then -1 else 0, stream)

def readGetResponse (stream : List UInt8) : ℤ × List UInt8 :=
  match fgets lineSize stream with
  | none => (-1, stream)
  | some (line, stream) =>
      (if strncmp (.ofBuffer line) (.lit "VALUE ") 6 = 0 ∨
          strcmp (.ofBuffer line) (.lit "NOT_FOUND\n") = 0 then 0 else -1, stream)

inductive Operation where
  | get (key : CString)
  | put (key val : CString)

/-- `"GET %s\n"` and `"PUT %s %s\n"` -/
def Operation.line : Operation → List UInt8
  | get key => ascii "GET " ++ key.bytes ++ ascii "\n"
  | put key val => ascii "PUT " ++ key.bytes ++ ascii " " ++ val.bytes ++ ascii "\n"

def quitLine : List UInt8 := ascii "QUIT\n"

def Operation.response : Operation → List UInt8 → ℤ × List UInt8
  | get _ => readGetResponse
  | put _ _ => expectResponse (.lit "OK")

/-- `preload_keys`, or a worker. -/
abbrev Client (b : Benchmark) := Option (Fin b.numClients)

variable {numBuckets : ℕ+}

namespace Benchmark

variable (b : Benchmark)

def numOps : Client b → ℕ
  | none => keyPoolSize
  | some _ => b.opsPerClient

def operation : Client b → ℕ → Operation
  | none, i => .put (makeKey i) (seedValue i)
  | some t, i =>
      let keyIndex := (b.rand t i).1 % keyPoolSize
      if (b.rand t i).2 % 100 < b.readPct then .get (makeKey keyIndex)
      else .put (makeKey keyIndex) (makeValue t i)

end Benchmark

inductive Pc where
  /-- At the test of the loop, or before it. -/
  | looping (i : ℕ)
  | awaiting (i : ℕ)
  | awaitingBye
  | returned
  | failed
  deriving DecidableEq

/-- A client with the counters of its `worker_args_t`, which count for `preload_keys` as well, and
with what the server has written to it. -/
structure Party where
  pc : Pc
  completedOps : ℕ
  failedOps : ℕ
  incoming : List UInt8

/-- What becomes of a client when the response to an operation has been read. -/
def Party.proceed {b : Benchmark} (client : Client b) (i : ℕ) (response : ℤ × List UInt8)
    (p : Party) : Party :=
  if response.1 = 0 then ⟨.looping (i + 1), p.completedOps + 1, p.failedOps, response.2⟩
  else match client with
    | none => ⟨.failed, p.completedOps, p.failedOps + 1, response.2⟩
    | some _ => ⟨.looping (i + 1), p.completedOps, p.failedOps + 1, response.2⟩

structure State (b : Benchmark) (numBuckets : ℕ+) where
  server : HandleClient.State (Client b) numBuckets
  party : Client b → Party

inductive Event (b : Benchmark) where
  | send (client : Client b)
  | receive (client : Client b)
  | pass (client : Client b) (now : ℕ)
  | sweep (now : ℕ)

/-- Every client is connected and none has printed anything. -/
def start (b : Benchmark) (table : HashTable numBuckets) : State b numBuckets :=
  ⟨HandleClient.start table fun _ => [], fun _ => ⟨.looping 0, 0, 0, []⟩⟩

/-- `fgets` does not wait: it has a line, its buffer is full, or the other end is closed. -/
def readable (size : ℕ) (unread : List UInt8) (closed : Bool) : Bool :=
  newline ∈ unread || size - 1 ≤ unread.length || closed

namespace State

variable {b : Benchmark} (s : State b numBuckets)

/-- `main` creates the workers when `preload_keys` has returned 0. -/
def created : Client b → Bool
  | none => true
  | some _ => (s.party none).pc = .returned

def closed (client : Client b) : Bool :=
  (s.party client).pc = .returned || (s.party client).pc = .failed

def setParty (client : Client b) (p : Party) : State b numBuckets :=
  { s with party := Function.update s.party client p }

def print (client : Client b) (line : List UInt8) (pc : Pc) : State b numBuckets :=
  let connection := s.server.connections client
  let connections := Function.update s.server.connections client
    ⟨connection.unread ++ line, connection.serving⟩
  { s.setParty client { s.party client with pc := pc } with
    server := { s.server with connections := connections } }

end State

def step (b : Benchmark) : Event b → State b numBuckets → Option (State b numBuckets)
  | .send client, s =>
      match (s.party client).pc with
      | .looping i =>
          if s.created client then
            if i < b.numOps client then
              some (s.print client (b.operation client i).line (.awaiting i))
            else some (s.print client quitLine .awaitingBye)
          else none
      | _ => none
  | .receive client, s =>
      let p := s.party client
      if readable lineSize p.incoming (!(s.server.connections client).serving) then
        match p.pc with
        | .awaiting i =>
            let response := (b.operation client i).response p.incoming
            some (s.setParty client (p.proceed client i response))
        | .awaitingBye =>
            let response := expectResponse (.lit "BYE") p.incoming
            some (s.setParty client { p with pc := .returned, incoming := response.2 })
        | _ => none
      else none
  | .pass client now, s =>
      let connection := s.server.connections client
      if connection.serving && readable maxLineLen connection.unread (s.closed client) then
        let server := handleClient client now s.server
        let written := (server.log.drop s.server.log.length).flatMap Exchange.reply
        let p := { s.party client with incoming := (s.party client).incoming ++ written }
        some { s.setParty client p with server := server }
      else none
  | .sweep now, s => some { s with server := next s.server (.sweep now) }

/-- The events of a benchmark that starts with a table, and the state they lead to. -/
inductive Run (b : Benchmark) (table : HashTable numBuckets) :
    List (Event b) → State b numBuckets → Prop
  | start : Run b table [] (start b table)
  | step {events event s s'} : Run b table events s → step b event s = some s' →
      Run b table (events ++ [event]) s'

end CpreLabs.BenchClient
