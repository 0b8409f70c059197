import CpreLabs.HandleClient
import CpreLabs.RwlockActions
import CpreLabs.RwlockPauses
import CpreLabs.StatsSnapshot

/-!
# Workers that serve their clients at the same time

`handle_client` as the workers execute it, statement by statement and next to each other: a
line is read, its command uses the table under the lock like any other thread, the reply is
printed. A worker takes connections from the queue, which hands out each of them once.
-/
namespace CpreLabs.Concurrent
open HandleClient Rwlock

/-- Where a worker stands; it is `free` in `queue_dequeue`. -/
inductive WorkerPoint (C : Type*) where
  | free
  | fdopen (conn : C)
  | fgets (conn : C)
  | branch (conn : C) (line : List UInt8)
  | call (conn : C) (line : List UInt8)
  | stats (conn : C) (line : List UInt8) (l : Stats.LoadPoint)
  | dprintf (conn : C) (line : List UInt8) (reply : List UInt8)

def WorkerPoint.conn {C : Type*} : WorkerPoint C → Option C
  | .free => none
  | .fdopen conn | .fgets conn | .branch conn _ | .call conn _ | .stats conn _ _
  | .dprintf conn _ _ => some conn

abbrev Table (W : Type*) (numBuckets : ℕ+) :=
  Config (Option W) (Option Op) (Frame numBuckets ⊕ Bool) (Store numBuckets) Counters
    (Option Outcome)

abbrev tableCode (numBuckets : ℕ+) :
    Code (Option Op) (Frame numBuckets ⊕ Bool) (Store numBuckets) Counters (Option Outcome) :=
  (hashTableCode numBuckets).withPause

structure Sessions (W C : Type*) (numBuckets : ℕ+) where
  table : Table W numBuckets
  worker : W → WorkerPoint C
  unread : C → List UInt8
  accepted : C → Bool
  /-- History: the lines of each connection with the replies printed. -/
  answered : C → List (List UInt8 × List UInt8)
  /-- History: the passes and the sweeps in the order in which they take effect. -/
  history : List (HandleClient.Event C)

/-- `"STATS keys=%ld hits=%ld misses=%ld puts=%ld dels=%ld\n"` -/
def statsLine (k h m p d : ℤ) : List UInt8 :=
  ascii "STATS keys=" ++ decimal k ++ ascii " hits=" ++ decimal h ++ ascii " misses=" ++
    decimal m ++ ascii " puts=" ++ decimal p ++ ascii " dels=" ++ decimal d ++ ascii "\n"

variable {W C : Type*} [DecidableEq W] [DecidableEq C] {numBuckets : ℕ+}

def newEntries (table table' : Table W numBuckets) : List (Entry (Option Op)) :=
  table'.committed.drop table.committed.length

def afterReply (conn : C) (line : List UInt8) : WorkerPoint C :=
  if parseLine (.ofBuffer line) = .quit then .free else .fgets conn

/-- One step of a worker, of the sweeper, or of the clock. -/
inductive SessionStep : Sessions W C numBuckets → Sessions W C numBuckets → Prop
  | tick {s now} (hle : s.table.clock ≤ now) :
      SessionStep s { s with table := { s.table with clock := now } }
  | accept {s w conn} (hw : s.worker w = .free) (hnew : s.accepted conn = false) :
      SessionStep s { s with
        worker := Function.update s.worker w (.fdopen conn)
        accepted := Function.update s.accepted conn true }
  | fdopen {s w conn} (hw : s.worker w = .fdopen conn) :
      SessionStep s { s with worker := Function.update s.worker w (.fgets conn) }
  | noStream {s w conn} (hw : s.worker w = .fdopen conn) :
      SessionStep s { s with worker := Function.update s.worker w .free }
  | line {s w conn line unread} (hw : s.worker w = .fgets conn)
      (hread : CpreLabs.fgets maxLineLen (s.unread conn) = some (line, unread)) :
      SessionStep s { s with
        worker := Function.update s.worker w (.branch conn line)
        unread := Function.update s.unread conn unread }
  | eof {s w conn} (hw : s.worker w = .fgets conn)
      (hread : CpreLabs.fgets maxLineLen (s.unread conn) = none) :
      SessionStep s { s with
        worker := Function.update s.worker w .free
        history := s.history ++ [.pass conn s.table.clock] }
  | plain {s w conn line reply} (hw : s.worker w = .branch conn line)
      (hreply : plainReply (parseLine (.ofBuffer line)) = some reply) :
      SessionStep s { s with
        worker := Function.update s.worker w (.dprintf conn line reply)
        history := s.history ++ [.pass conn s.table.clock] }
  | call {s w conn line op table} (hw : s.worker w = .branch conn line)
      (hop : (parseLine (.ofBuffer line)).call = some op)
      (hmove : Moves (tableCode numBuckets) (some w) (.call (some op)) s.table table) :
      SessionStep s { s with
        table := table
        worker := Function.update s.worker w (.call conn line) }
  | stats {s w conn line table} (hw : s.worker w = .branch conn line)
      (hstats : parseLine (.ofBuffer line) = .stats)
      (hmove : Moves (tableCode numBuckets) (some w) (.call none) s.table table) :
      SessionStep s { s with
        table := table
        worker := Function.update s.worker w (.stats conn line .loadKeys) }
  | lock {s w table} (hmove : Moves (tableCode numBuckets) (some w) .lock s.table table) :
      SessionStep s { s with table := table }
  | run {s w conn table} (hw : (s.worker w).conn = some conn)
      (hmove : Moves (tableCode numBuckets) (some w) .run s.table table) :
      SessionStep s { s with
        table := table
        history := s.history ++ (newEntries s.table table).map (fun e => .pass conn e.now) }
  | load {s w conn line l l' n f} (hw : s.worker w = .stats conn line l)
      (hin : s.table.thread (some w) = .inside n none f)
      (hload : l.advance s.table.counters = some l') :
      SessionStep s { s with worker := Function.update s.worker w (.stats conn line l') }
  | unlock {s w conn line o table} (hw : s.worker w = .call conn line)
      (hmove : Moves (tableCode numBuckets) (some w) (.unlock (some o)) s.table table) :
      SessionStep s { s with
        table := table
        worker := Function.update s.worker w
          (.dprintf conn line (callReply (parseLine (.ofBuffer line)) o)) }
  | unlockStats {s w conn line k h m p d table}
      (hw : s.worker w = .stats conn line (.unlock k h m p d))
      (hmove : Moves (tableCode numBuckets) (some w) (.unlock none) s.table table) :
      SessionStep s { s with
        table := table
        worker := Function.update s.worker w (.dprintf conn line (statsLine k h m p d)) }
  | dprintf {s w conn line reply} (hw : s.worker w = .dprintf conn line reply) :
      SessionStep s { s with
        worker := Function.update s.worker w (afterReply conn line)
        answered := Function.update s.answered conn (s.answered conn ++ [(line, reply)]) }
  | sweeper {s a table} (hop : ∀ op, a = .call op → op = some .sweep)
      (hmove : Moves (tableCode numBuckets) none a s.table table) :
      SessionStep s { s with
        table := table
        history := s.history ++ (newEntries s.table table).map (fun e => .sweep e.now) }

/-- Nothing is accepted yet, and the table is that of `kv_init`. -/
def sessionsStart (heap : Addr → Option KvNode) (clock : ℕ) (streams : C → List UInt8) :
    Sessions W C numBuckets where
  table := initial 0 (emptyStore heap) clock
  worker _ := .free
  unread := streams
  accepted _ := false
  answered _ := []
  history := []

def SessionsReachable (s s' : Sessions W C numBuckets) : Prop :=
  Relation.ReflTransGen SessionStep s s'

/-- The server that carries out the passes of the history one at a time. -/
def Sessions.serial (s : Sessions W C numBuckets) (streams : C → List UInt8) :
    HandleClient.State C numBuckets :=
  serve s.history (start (HashTable.kvInit numBuckets) streams)

/-- A line is answered as in a pass; the numbers of `STATS` may differ. -/
def Answers (x : List UInt8 × List UInt8) (e : Exchange C numBuckets) : Prop :=
  x.1 = e.line ∧ if e.command = .stats then ∃ k h m p d, x.2 = statsLine k h m p d
    else x.2 = e.reply

end CpreLabs.Concurrent
