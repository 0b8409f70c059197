import CpreLabs.ConcurrentSessionsSteps

/-!
# The concurrent server is linearizable

However the workers and the sweeper are scheduled, every client gets the replies of a server
that makes the passes of `handle_client` one after the other, except for the numbers of
`STATS`; and once no call is under way the table is the one that server has.
-/
namespace CpreLabs.Concurrent
open HandleClient Rwlock HashTable

variable {W C : Type*} [DecidableEq W] [DecidableEq C] {numBuckets : ℕ+}

section Clock

variable {heap : Addr → Option KvNode} {clock : ℕ} {streams : C → List UInt8}
  {s s' : Sessions W C numBuckets}

/-- The clock that a pass or a sweep reads. -/
def eventNow : HandleClient.Event C → ℕ
  | .pass _ now | .sweep now => now

/-- The clock does not run backwards in the history. -/
def Clocked (history : List (HandleClient.Event C)) (clock : ℕ) : Prop :=
  (history.map eventNow).Pairwise (· ≤ ·) ∧ ∀ e ∈ history, eventNow e ≤ clock

omit [DecidableEq C] in
theorem Clocked.concat {history : List (HandleClient.Event C)} {clock : ℕ}
    (h : Clocked history clock) {e : HandleClient.Event C} (he : eventNow e = clock) :
    Clocked (history ++ [e]) clock := by
  refine ⟨?_, fun x hx => ?_⟩
  · rw [List.map_append]
    refine List.pairwise_append.mpr ⟨h.1, List.pairwise_singleton .., fun a ha b hb => ?_⟩
    obtain ⟨x, hx, rfl⟩ := List.mem_map.mp ha
    rw [List.mem_singleton.mp hb]
    exact (h.2 x hx).trans he.ge
  · rcases List.mem_append.mp hx with hx | hx
    · exact h.2 x hx
    · rw [List.mem_singleton.mp hx, he]

omit [DecidableEq C] in
theorem Clocked.moves {history : List (HandleClient.Event C)} {table table' : Table W numBuckets}
    {t : Option W} {a : Action (Option Op) (Option Outcome)} (h : Clocked history table.clock)
    (hmove : Moves (tableCode numBuckets) t a table table')
    {event : ℕ → HandleClient.Event C} (hevent : ∀ now, eventNow (event now) = now) :
    Clocked (history ++ (newEntries table table').map (fun e => event e.now)) table'.clock := by
  have hclock := hmove.clock_eq
  have hquiet : table'.committed = table.committed →
      Clocked (history ++ (newEntries table table').map (fun e => event e.now)) table'.clock := by
    intro hsame
    rwa [newEntries_of_eq hsame, List.map_nil, List.append_nil, hclock]
  by_cases ha : a = .run
  · subst ha
    obtain ⟨n, r, f, f', -, -, ⟨-, hnew⟩ | ⟨-, hsame⟩⟩ := hmove.run_cases
    · rw [newEntries_of_append hnew, hclock]
      exact h.concat (hevent _)
    · exact hquiet hsame
  · exact hquiet (hmove.committed_of_ne_run ha)

theorem clocked_of_reachable (h : SessionsReachable (sessionsStart heap clock streams) s) :
    Clocked s.history s.table.clock := by
  induction h with
  | refl => exact ⟨.nil, by simp [sessionsStart]⟩
  | tail _ hstep ih =>
    cases hstep with
    | tick hle => exact ⟨ih.1, fun e he => (ih.2 e he).trans hle⟩
    | eof hw hread | plain hw hreply => exact ih.concat rfl
    | run hw hmove => exact ih.moves hmove (fun _ => rfl)
    | sweeper hop hmove => exact ih.moves hmove (fun _ => rfl)
    | call hw hop hmove | stats hw hstats hmove | lock hmove | unlock hw hmove
    | unlockStats hw hmove =>
      dsimp only
      rw [hmove.clock_eq]
      exact ih
    | _ => exact ih

theorem history_prefix (h : SessionsReachable s s') : s.history <+: s'.history := by
  induction h with
  | refl => exact List.prefix_rfl
  | tail _ hstep ih =>
    cases hstep with
    | eof hw hread | plain hw hreply | run hw hmove | sweeper hop hmove =>
      exact ih.trans (List.prefix_append ..)
    | _ => exact ih

end Clock

/-- What has come of a run is what the serial server makes of the history. -/
structure Linearized (streams : C → List UInt8) (s : Sessions W C numBuckets) : Prop where
  /-- The lines of a connection have been answered as the serial server has answered them, but
  for at most one reply that is on its way. -/
  answers : ∀ conn, ∃ es late, (s.serial streams).exchanges conn = es ++ late ∧
    List.Forall₂ Answers (s.answered conn) es ∧ late.length ≤ 1 ∧
    ((∀ w, (s.worker w).conn ≠ some conn) → late = [])
  /-- With no call under way the table and its counters are those of the serial server. -/
  table : s.table.Quiescent → Represents s.table.memory (s.serial streams).table.buckets ∧
    s.table.counters = (s.serial streams).table.counter
  clocked : (s.history.map eventNow).Pairwise (· ≤ ·)

section Main

variable {heap : Addr → Option KvNode} {clock : ℕ} {streams : C → List UInt8}
  {s s' : Sessions W C numBuckets}

omit [DecidableEq C] in
/-- Between two replies a worker is ahead of the serial server, or behind by one reply. -/
theorem InStep.answers {tickets : List ℕ} {results : List (ℕ × Option Outcome)}
    {view : C → View C numBuckets} {unread : C → List UInt8} {answered : C → Lines}
    {th : TableThread numBuckets} {l : WorkerPoint C}
    (h : InStep tickets results view unread answered th l) {conn : C} (hl : l.conn = some conn) :
    ∃ es late, (view conn).2 = es ++ late ∧ List.Forall₂ Answers (answered conn) es ∧
      late.length ≤ 1 := by
  have hexact : List.Forall₂ Answers (answered conn) (view conn).2 → ∃ es late,
      (view conn).2 = es ++ late ∧ List.Forall₂ Answers (answered conn) es ∧ late.length ≤ 1 :=
    fun ha => ⟨_, [], (List.append_nil _).symm, ha, Nat.zero_le 1⟩
  have hpassed : ∀ {line P}, Passed line P (view conn) (unread conn) (answered conn) → ∃ es late,
      (view conn).2 = es ++ late ∧ List.Forall₂ Answers (answered conn) es ∧ late.length ≤ 1 := by
    rintro line P ⟨es, e, hes, ha, -⟩
    exact ⟨es, [e], hes, ha, le_rfl⟩
  have hcall : ∀ {r line P}, InCall r line P tickets (view conn) (unread conn) (answered conn) th →
      ∃ es late, (view conn).2 = es ++ late ∧ List.Forall₂ Answers (answered conn) es ∧
        late.length ≤ 1 := by
    intro r line P hin
    cases th with
    | idle => exact hin.elim
    | waiting r' => exact hexact hin.2.2
    | inside n r' f =>
      by_cases hn : n ∈ tickets
      · exact hpassed (hin.2.2 hn)
      · exact hexact (hin.2.1 hn).2
  cases l with
  | free => cases hl
  | fdopen c | fgets c | branch c line =>
    cases hl
    exact hexact h.2.2
  | call c line =>
    cases hl
    obtain ⟨op, -, hin⟩ := h
    exact hcall hin
  | stats c line p =>
    cases hl
    exact hcall h.2
  | dprintf c line reply =>
    cases hl
    exact hpassed h.2

theorem Inv.answers (h : Inv heap clock streams s) (conn : C) :
    ∃ es late, (s.serial streams).exchanges conn = es ++ late ∧
      List.Forall₂ Answers (s.answered conn) es ∧ late.length ≤ 1 ∧
      ((∀ w, (s.worker w).conn ≠ some conn) → late = []) := by
  by_cases hserved : ∃ w, (s.worker w).conn = some conn
  · obtain ⟨w, hw⟩ := hserved
    obtain ⟨es, late, hes, ha, hlate⟩ := (h.inStep w).answers hw
    exact ⟨es, late, hes, ha, hlate, fun hno => absurd hw (hno w)⟩
  · push Not at hserved
    exact ⟨_, [], (List.append_nil _).symm, h.left conn hserved, Nat.zero_le 1, fun _ => rfl⟩

theorem linearized_of_reachable (h : SessionsReachable (sessionsStart heap clock streams) s) :
    Linearized streams s := by
  have hinv := inv_of_reachable h
  refine ⟨hinv.answers, fun hq => ?_, (clocked_of_reachable h).1⟩
  obtain ⟨hserial, -⟩ := serializedBy_of_reachable tableCode_correct (represents_emptyStore heap)
    hinv.reach
  refine ⟨?_, ?_⟩
  · rw [hinv.table.1]
    exact hserial.memory hq
  · rw [hinv.table.2, hserial.counters hq, zero_add]

/-- The concurrent server answers every client as a server does that carries out one pass of
`handle_client` or of the sweeper after the other, in an order that is fixed as the run goes on
and in which the clock does not run backwards. -/
theorem sessions_linearizable (h : SessionsReachable (sessionsStart heap clock streams) s) :
    Linearized streams s ∧ ∀ s', SessionsReachable s s' → s.history <+: s'.history :=
  ⟨linearized_of_reachable h, fun _ hlater => history_prefix hlater⟩

end Main

section Turns

variable [Fintype W]

/-- `Code.step` of the table with the address for `malloc` given. -/
def advanceTable (fresh now : ℕ) (f : Frame numBuckets ⊕ Bool) (st : Store numBuckets) :
    Option ((Frame numBuckets ⊕ Bool) × Store numBuckets × Counters) :=
  match f with
  | .inl f => (advanceFrame fresh now f st).map fun (f', st', d) => (.inl f', st', d)
  | .inr false => some (.inr true, st, 0)
  | .inr true => none

theorem tableCode_advanceTable (fresh now : ℕ) (f : Frame numBuckets ⊕ Bool) (st : Store numBuckets)
    (f' : Frame numBuckets ⊕ Bool) (st' : Store numBuckets) (d : Counters)
    (h : advanceTable fresh now f st = some (f', st', d)) :
    (tableCode numBuckets).step now f st f' st' d := by
  cases f with
  | inl f =>
    obtain ⟨r, hadvance, heq⟩ := Option.map_eq_some_iff.mp h
    cases heq
    exact hashTableCode_advanceFrame fresh now f st _ _ _ hadvance
  | inr b =>
    cases b with
    | false =>
      cases h
      exact ⟨rfl, rfl⟩
    | true => cases h

def nextTable (table : Table W numBuckets) (e : Rwlock.Event (Option W) (Option Op) ℕ) :
    Option (Table W numBuckets) :=
  Rwlock.next (tableCode numBuckets) advanceTable table e

/-- The next statement of a worker that serves a client without `STATS`; `malloc` returns 0. -/
def Sessions.turn (w : W) (s : Sessions W C numBuckets) : Option (Sessions W C numBuckets) :=
  match s.worker w with
  | .fdopen conn => some { s with worker := Function.update s.worker w (.fgets conn) }
  | .fgets conn => match CpreLabs.fgets maxLineLen (s.unread conn) with
    | some (line, unread) => some { s with
        worker := Function.update s.worker w (.branch conn line)
        unread := Function.update s.unread conn unread }
    | none => some { s with
        worker := Function.update s.worker w .free
        history := s.history ++ [.pass conn s.table.clock] }
  | .branch conn line => match (parseLine (.ofBuffer line)).call with
    | some op => (nextTable s.table (.call (some w) (some op))).map fun table => { s with
        table := table
        worker := Function.update s.worker w (.call conn line) }
    | none => (plainReply (parseLine (.ofBuffer line))).map fun reply => { s with
        worker := Function.update s.worker w (.dprintf conn line reply)
        history := s.history ++ [.pass conn s.table.clock] }
  | .call conn line => match s.table.thread (some w) with
    | .inside _ _ f => match (tableCode numBuckets).result f with
      | some (some o) => (nextTable s.table (.unlock (some w))).map fun table => { s with
          table := table
          worker := Function.update s.worker w
            (.dprintf conn line (callReply (parseLine (.ofBuffer line)) o)) }
      | _ => (nextTable s.table (.run (some w) 0)).map fun table => { s with
          table := table
          history := s.history ++ (newEntries s.table table).map (fun e => .pass conn e.now) }
    | _ => (nextTable s.table (.lock (some w))).map fun table => { s with table := table }
  | .dprintf conn line reply => some { s with
      worker := Function.update s.worker w (afterReply conn line)
      answered := Function.update s.answered conn (s.answered conn ++ [(line, reply)]) }
  | _ => none

theorem step_of_turn {w : W} {s s' : Sessions W C numBuckets} (h : s.turn w = some s') :
    SessionStep s s' := by
  unfold Sessions.turn at h
  cases hw : s.worker w with
  | free | stats conn line l =>
    rw [hw] at h
    cases h
  | fdopen conn =>
    rw [hw] at h
    cases h
    exact .fdopen hw
  | dprintf conn line reply =>
    rw [hw] at h
    cases h
    exact .dprintf hw
  | fgets conn =>
    simp only [hw] at h
    cases hread : CpreLabs.fgets maxLineLen (s.unread conn) with
    | none =>
      rw [hread] at h
      cases h
      exact .eof hw hread
    | some p =>
      rw [hread] at h
      cases h
      exact .line hw hread
  | branch conn line =>
    simp only [hw] at h
    cases hop : (parseLine (.ofBuffer line)).call with
    | none =>
      rw [hop] at h
      obtain ⟨reply, hreply, rfl⟩ := Option.map_eq_some_iff.mp h
      exact .plain hw hreply
    | some op =>
      rw [hop] at h
      obtain ⟨table, hnext, rfl⟩ := Option.map_eq_some_iff.mp h
      exact .call hw hop (moves_of_next tableCode_advanceTable hnext)
  | call conn line =>
    simp only [hw] at h
    cases hthread : s.table.thread (some w) with
    | idle | waiting r =>
      rw [hthread] at h
      obtain ⟨table, hnext, rfl⟩ := Option.map_eq_some_iff.mp h
      exact .lock (moves_of_next tableCode_advanceTable hnext)
    | inside n r f =>
      simp only [hthread] at h
      split at h
      · rename_i o ho
        obtain ⟨table, hnext, rfl⟩ := Option.map_eq_some_iff.mp h
        obtain ⟨o', hmove⟩ := moves_of_next tableCode_advanceTable hnext
        obtain rfl : o' = some o := by
          cases hmove with
          | unlock ht ho' =>
            rw [hthread] at ht
            cases ht
            rw [ho] at ho'
            exact (Option.some.inj ho').symm
        exact .unlock hw hmove
      · obtain ⟨table, hnext, rfl⟩ := Option.map_eq_some_iff.mp h
        exact .run (by rw [hw]; rfl) (moves_of_next tableCode_advanceTable hnext)

/-- The workers take turns as the list says. -/
def runTurns (ws : List W) (s : Sessions W C numBuckets) : Option (Sessions W C numBuckets) :=
  ws.foldlM (fun s w => Sessions.turn w s) s

theorem reachable_of_turns (ws : List W) {s s' : Sessions W C numBuckets} (h : runTurns ws s = some s') :
    SessionsReachable s s' := by
  induction ws generalizing s with
  | nil =>
    cases h
    exact .refl
  | cons w ws ih =>
    obtain ⟨s₁, hturn, hrest⟩ := Option.bind_eq_some_iff.mp h
    exact .head (step_of_turn hturn) (ih hrest)

end Turns

/-- One client puts a key that the other asks for. -/
def putAndGet : Bool → List UInt8
  | true => ascii "PUT a x\n"
  | false => ascii "GET a\n"

def noneAccepted (numBuckets : ℕ+) : Sessions Bool Bool numBuckets := sessionsStart (fun _ => none) 0 putAndGet

/-- Each worker has taken a connection. -/
def bothAccepted (numBuckets : ℕ+) : Sessions Bool Bool numBuckets :=
  { noneAccepted numBuckets with
    worker := Function.update (Function.update (fun _ => .free) true (.fdopen true)) false
      (.fdopen false)
    accepted := Function.update (Function.update (fun _ => false) true true) false true }

/-- The `GET` is read first, but gets the lock after the `PUT`. -/
def putTurns : List Bool :=
  [false, false, false] ++ List.replicate 14 true ++ List.replicate 9 false

def putFirst (numBuckets : ℕ+) : Sessions Bool Bool numBuckets :=
  (runTurns putTurns (bothAccepted numBuckets)).getD (bothAccepted numBuckets)

theorem putFirst_linearized :
    (putFirst 1).answered true = [(ascii "PUT a x\n", respOk)] ∧
      (putFirst 1).answered false = [(ascii "GET a\n", ascii "VALUE x\n")] ∧
      (putFirst 1).history = [.pass true 0, .pass false 0] ∧
      Linearized putAndGet (putFirst 1) := by
  have hfirst : SessionStep (noneAccepted 1) { noneAccepted 1 with
      worker := Function.update (noneAccepted 1).worker true (.fdopen true)
      accepted := Function.update (noneAccepted 1).accepted true true } := .accept rfl rfl
  have hboth : SessionsReachable (noneAccepted 1) (bothAccepted 1) :=
    (Relation.ReflTransGen.single hfirst).tail (.accept rfl rfl)
  have hrun : SessionsReachable (bothAccepted 1) (putFirst 1) :=
    reachable_of_turns putTurns rfl
  exact ⟨by decide +kernel, by decide +kernel, rfl,
    (sessions_linearizable (hboth.trans hrun)).1⟩

end CpreLabs.Concurrent
