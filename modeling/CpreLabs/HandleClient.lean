import CpreLabs.FormattedScanning
import CpreLabs.LineFraming
import CpreLabs.HashTableOperations

/-!
# The line protocol of `handle_client`

A connection is the bytes its client sends, whenever they arrive. One pass of the loop reads
a line, carries out its command on the shared table and writes one reply. Passes of different
connections and sweeper passes may follow each other in any order: the calls on the table are
serializable, so each of them can be one step.
-/
namespace CpreLabs

def maxLineLen : ℕ := maxKeyLen + maxValLen + 64

def newline : UInt8 := 10

/-- A buffer of `size` bytes, the last of which is for the terminating NUL. -/
def fgets (size : ℕ) (unread : List UInt8) : Option (List UInt8 × List UInt8) :=
  LineFraming.readLine (· == newline) (size - 1) unread

namespace HandleClient

open Scanf HashTable

variable {C : Type*} {numBuckets : ℕ+}

/-- `"GET %256s"` -/
def getFormat : List Directive := literal "GET" ++ [.space, .str maxKeyLen]

/-- `"PUT %256s %256s %d"` -/
def putFormat : List Directive :=
  literal "PUT" ++ [.space, .str maxKeyLen, .space, .str maxValLen, .space, .int]

/-- `"DEL %256s"` -/
def delFormat : List Directive := literal "DEL" ++ [.space, .str maxKeyLen]

/-- The branches of the loop body, with the arguments their `sscanf` stored. -/
inductive Command where
  | get (key : CString)
  | put (key val : CString) (ttl : ℤ)
  | malformedPut
  | del (key : CString)
  | stats
  | quit
  | malformed
  deriving DecidableEq

/-- The tests of the loop body, in their order. `ttl` stays 0 without a third argument. -/
def parseLine (line : CString) : Command :=
  match sscanf line getFormat with
  | [.str key] => .get (.ofBuffer key)
  | _ =>
    if strncmp line (.lit "PUT") 3 = 0 then
      match sscanf line putFormat with
      | [.str key, .str val] => .put (.ofBuffer key) (.ofBuffer val) 0
      | [.str key, .str val, .int ttl] => .put (.ofBuffer key) (.ofBuffer val) ttl
      | _ => .malformedPut
    else
      match sscanf line delFormat with
      | [.str key] => .del (.ofBuffer key)
      | _ =>
        if strncmp line (.lit "STATS") 5 = 0 then .stats
        else if strncmp line (.lit "QUIT") 4 = 0 then .quit
        else .malformed

/-- The call a command makes on the table. -/
def Command.call : Command → Option Op
  | .get key => some (.get key)
  | .put key val ttl => some (.put key val ttl)
  | .del key => some (.del key)
  | _ => none

def respOk : List UInt8 := ascii "OK\n"
def respBye : List UInt8 := ascii "BYE\n"
def respNotFound : List UInt8 := ascii "NOT_FOUND\n"

/-- `"VALUE %s\n"` -/
def valueReply (outVal : List UInt8) : List UInt8 := ascii "VALUE " ++ outVal ++ ascii "\n"

/-- `"STATS keys=%ld hits=%ld misses=%ld puts=%ld dels=%ld\n"` -/
def statsReply (table : HashTable numBuckets) : List UInt8 :=
  ascii "STATS keys=" ++ decimal table.keys ++ ascii " hits=" ++ decimal table.hits ++
    ascii " misses=" ++ decimal table.misses ++ ascii " puts=" ++ decimal table.puts ++
    ascii " dels=" ++ decimal table.dels ++ ascii "\n"

/-- What a branch prints after its call. -/
def callReply : Command → Outcome → List UInt8
  | .get _, ⟨0, some outVal⟩ => valueReply outVal.str.bytes
  | .get _, _ => respNotFound
  | .del _, res => if res.ret = 0 then respOk else respNotFound
  | _, _ => respOk

/-- What a branch prints that does not use the table. -/
def plainReply : Command → Option (List UInt8)
  | .malformedPut => some (ascii "ERROR Malformed PUT command\n")
  | .quit => some respBye
  | .malformed => some (ascii "ERROR Malformed command\n")
  | _ => none

def respond (command : Command) (now : ℕ) (table : HashTable numBuckets) :
    List UInt8 × HashTable numBuckets :=
  match command with
  | .get key =>
      match kvGet key now table with
      | (⟨0, some outVal⟩, table) => (valueReply outVal.str.bytes, table)
      | (_, table) => (respNotFound, table)
  | .put key val ttl => (respOk, (kvPut key val ttl now table).2)
  | .malformedPut => (ascii "ERROR Malformed PUT command\n", table)
  | .del key =>
      let (res, table) := kvDel key table
      if res.ret = 0 then (respOk, table) else (respNotFound, table)
  | .stats => (statsReply table, table)
  | .quit => (respBye, table)
  | .malformed => (ascii "ERROR Malformed command\n", table)

structure Connection where
  unread : List UInt8
  serving : Bool

/-- One pass of a loop: the line read, the table and the clock it found, the bytes written. -/
structure Exchange (C : Type*) (numBuckets : ℕ+) where
  client : C
  line : List UInt8
  table : HashTable numBuckets
  now : ℕ
  reply : List UInt8

def Exchange.command (e : Exchange C numBuckets) : Command := parseLine (.ofBuffer e.line)

/-- The server, with the passes made so far in their order. -/
structure State (C : Type*) (numBuckets : ℕ+) where
  table : HashTable numBuckets
  connections : C → Connection
  log : List (Exchange C numBuckets)

/-- One pass of the loop of `handle_client`. -/
def handleClient [DecidableEq C] (client : C) (now : ℕ) (s : State C numBuckets) :
    State C numBuckets :=
  let connection := s.connections client
  if connection.serving then
    match fgets maxLineLen connection.unread with
    | none =>
        { s with connections := Function.update s.connections client ⟨connection.unread, false⟩ }
    | some (line, unread) =>
        let command := parseLine (.ofBuffer line)
        let (reply, table) := respond command now s.table
        { table := table
          connections := Function.update s.connections client ⟨unread, command ≠ .quit⟩
          log := s.log ++ [⟨client, line, s.table, now, reply⟩] }
  else s

inductive Event (C : Type*) where
  | pass (client : C) (now : ℕ)
  | sweep (now : ℕ)

def next [DecidableEq C] (s : State C numBuckets) : Event C → State C numBuckets
  | .pass client now => handleClient client now s
  | .sweep now => { s with table := sweeperPass now s.table }

def serve [DecidableEq C] (events : List (Event C)) (s : State C numBuckets) :
    State C numBuckets := events.foldl next s

/-- Every client is connected and none has been served. -/
def start (table : HashTable numBuckets) (streams : C → List UInt8) : State C numBuckets :=
  ⟨table, fun client => ⟨streams client, true⟩, []⟩

def State.exchanges [DecidableEq C] (s : State C numBuckets) (client : C) :
    List (Exchange C numBuckets) := s.log.filter (fun e => e.client = client)

def State.written [DecidableEq C] (s : State C numBuckets) (client : C) : List UInt8 :=
  (s.exchanges client).flatMap Exchange.reply

end HandleClient

end CpreLabs
