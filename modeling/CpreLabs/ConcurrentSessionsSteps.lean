import CpreLabs.ConcurrentSessionsInvariant

/-!
# Every step of a worker keeps it in step with the serial server

One lemma for the step of one thread, which leaves the connections of all others alone, and
from it one for each statement of `handle_client` and for the sweeper.
-/
namespace CpreLabs.Concurrent
open HandleClient Rwlock HashTable

variable {W C : Type*} [DecidableEq W] [DecidableEq C] {numBuckets : ℕ+}

/-- The effect of the calls, and of the rdlock of `STATS`, which has none. -/
abbrev tableEffect (numBuckets : ℕ+) :
    Option Op → ℕ → Buckets numBuckets → Effect (Buckets numBuckets) Counters (Option Outcome) :=
  pauseSpec effect

def results (table : Table W numBuckets) : List (ℕ × Option Outcome) :=
  serialResults (tableEffect numBuckets) table.committed (kvInit numBuckets).buckets

/-- A table after the calls that have taken their place. -/
def SameTable (table : HashTable numBuckets) (committed : List (Entry (Option Op))) : Prop :=
  table.buckets = serialState (tableEffect numBuckets) committed (kvInit numBuckets).buckets ∧
    table.counter = serialAdded (tableEffect numBuckets) committed (kvInit numBuckets).buckets

section SameTable

variable {table : HashTable numBuckets} {committed : List (Entry (Option Op))}

theorem SameTable.call (h : SameTable table committed) (n : ℕ) (op : Op) (now : ℕ) :
    SameTable (exec ⟨op, now⟩ table).2 (committed ++ [⟨n, some op, now⟩]) := by
  obtain ⟨-, hbuckets, hcounter⟩ := exec_eq_effect op now table
  refine ⟨?_, ?_⟩
  · rw [serialState_concat, hbuckets, h.1]
    rfl
  · rw [serialAdded_concat, hcounter, h.2, h.1]
    rfl

theorem SameTable.stats (h : SameTable table committed) (n now : ℕ) :
    SameTable table (committed ++ [⟨n, none, now⟩]) := by
  refine ⟨?_, ?_⟩
  · rw [serialState_concat, h.1]
    rfl
  · rw [serialAdded_concat, h.2]
    exact (add_zero _).symm

end SameTable

theorem tableCode_correct : Correct (tableCode numBuckets) (tableEffect numBuckets) Represents
    (PauseEarly Early) (PauseLate Late) :=
  hashTableCode_correct.withPause

section Table

variable {heap : Addr → Option KvNode} {clock : ℕ} {table table' : Table W numBuckets}

def TableReachable (heap : Addr → Option KvNode) (clock : ℕ) (table : Table W numBuckets) : Prop :=
  Reachable (tableCode numBuckets) (initial 0 (emptyStore heap) clock) table

theorem TableReachable.books (h : TableReachable heap clock table) :
    Books (tableCode numBuckets) table :=
  (books_sim_of_reachable tableCode_correct (represents_emptyStore heap) h).1

/-- A call whose result is fixed has taken its place, with that result. -/
theorem TableReachable.result_of_unlock (h : TableReachable heap clock table) {t : Option W} {n : ℕ}
    {r : Option Op} {f : Frame numBuckets ⊕ Bool} {o : Option Outcome}
    (ht : table.thread t = .inside n r f) (ho : (tableCode numBuckets).result f = some o) :
    (n, o) ∈ results table := by
  obtain ⟨-, owed, hs⟩ := books_sim_of_reachable tableCode_correct (represents_emptyStore heap)
    (h.tail (.unlock ht ho))
  exact hs.returned n o (Function.update_self ..)

/-- A call takes its place once. -/
theorem TableReachable.not_committed (h : TableReachable heap clock table) {t : Option W} {n : ℕ}
    {r : Option Op} {f : Frame numBuckets ⊕ Bool} (ht : table.thread t = .inside n r f)
    (hf : (tableCode numBuckets).commits f = true) : n ∉ table.tickets := by
  obtain ⟨-, owed, hs⟩ := books_sim_of_reachable tableCode_correct (represents_emptyStore heap) h
  intro hn
  obtain ⟨o, -, hlate⟩ := hs.late t n r f ht hn
  rw [tableCode_correct.late_commits _ _ _ _ _ _ hlate] at hf
  cases hf

theorem serialResults_append {Op' A N O : Type*} (spec : Op' → ℕ → A → Effect A N O)
    (es es' : List (Entry Op')) (a : A) : serialResults spec (es ++ es') a =
      serialResults spec es a ++ serialResults spec es' (serialState spec es a) := by
  induction es generalizing a with
  | nil => rfl
  | cons e es ih => simp [serialResults, serialState, ih]

/-- What a step of thread `t` adds to the calls that have taken their place. -/
structure Extends (t : Option W) (table table' : Table W numBuckets) : Prop where
  reach : ∀ heap clock, TableReachable heap clock table → TableReachable heap clock table'
  others : ∀ u, u ≠ t → table'.thread u = table.thread u
  committed : ∃ new, table'.committed = table.committed ++ new ∧
    ∀ e ∈ new, ∃ r f, table.thread t = .inside e.ticket r f

theorem Extends.refl (t : Option W) (table : Table W numBuckets) : Extends t table table :=
  ⟨fun _ _ h => h, fun _ _ => rfl, [], by simp, by simp⟩

omit [DecidableEq W] in
theorem newEntries_of_append {new : List (Entry (Option Op))}
    (h : table'.committed = table.committed ++ new) : newEntries table table' = new := by
  rw [newEntries, h, List.drop_left]

omit [DecidableEq W] in
theorem newEntries_of_eq (h : table'.committed = table.committed) : newEntries table table' = [] :=
  newEntries_of_append (by rw [h, List.append_nil])

theorem extends_of_moves {t : Option W} {a : Action (Option Op) (Option Outcome)}
    (h : Moves (tableCode numBuckets) t a table table') : Extends t table table' := by
  refine ⟨fun _ _ hr => hr.tail h.step, fun u hu => h.thread_of_ne hu, ?_⟩
  by_cases ha : a = .run
  · subst ha
    obtain ⟨n, r, f, f', ht, -, ⟨-, hnew⟩ | ⟨-, hsame⟩⟩ := h.run_cases
    · exact ⟨_, hnew, by simp [ht]⟩
    · exact ⟨[], by simpa using hsame, by simp⟩
  · exact ⟨[], by simpa using h.committed_of_ne_run ha, by simp⟩

section Extends

variable {t : Option W} (h : Extends t table table')
include h

theorem Extends.results : ∀ x ∈ results table, x ∈ results table' := by
  obtain ⟨new, hnew, -⟩ := h.committed
  intro x hx
  rw [Concurrent.results, hnew, serialResults_append]
  exact List.mem_append_left _ hx

/-- The ticket of another thread has been used by no one else. -/
theorem Extends.ticket_iff (hreach : TableReachable heap clock table) {u : Option W} (hu : u ≠ t)
    {n : ℕ} {r : Option Op} {f : Frame numBuckets ⊕ Bool} (hin : table.thread u = .inside n r f) :
    n ∈ table'.tickets ↔ n ∈ table.tickets := by
  obtain ⟨new, hnew, hown⟩ := h.committed
  rw [Config.tickets, Config.tickets, hnew, List.map_append, List.mem_append]
  refine ⟨fun hn => hn.resolve_right (fun hmem => ?_), Or.inl⟩
  obtain ⟨e, he, rfl⟩ := List.mem_map.mp hmem
  obtain ⟨r', f', ht⟩ := hown e he
  exact hu (hreach.books.unique u t _ _ (call_of_inside hin) (call_of_inside ht) rfl)

end Extends

end Table

section Invariant

variable {heap : Addr → Option KvNode} {clock : ℕ} {streams : C → List UInt8}
  {s s' : Sessions W C numBuckets} {w : W}

/-- The operation that a thread has asked for and not returned from. -/
def request : TableThread numBuckets → Option (Option Op)
  | .idle => none
  | .waiting r | .inside _ r _ => some r

/-- Worker `w` is in step with the serial server. -/
def Sessions.InStep (s : Sessions W C numBuckets) (streams : C → List UInt8) (w : W) : Prop :=
  Concurrent.InStep s.table.tickets (results s.table) (view (s.serial streams)) s.unread
    s.answered (s.table.thread (some w)) (s.worker w)

/-- Nobody is between a line of this connection and its reply. -/
def Sessions.Settled (s : Sessions W C numBuckets) (streams : C → List UInt8) (conn : C) : Prop :=
  List.Forall₂ Answers (s.answered conn) (view (s.serial streams) conn).2

structure Inv (heap : Addr → Option KvNode) (clock : ℕ) (streams : C → List UInt8)
    (s : Sessions W C numBuckets) : Prop where
  reach : TableReachable heap clock s.table
  table : SameTable (s.serial streams).table s.table.committed
  inStep : ∀ w, s.InStep streams w
  left : ∀ conn, (∀ w, (s.worker w).conn ≠ some conn) → s.Settled streams conn
  fresh : ∀ conn, s.accepted conn = false →
    Between (view (s.serial streams) conn) (s.unread conn) (s.answered conn)
  accepted : ∀ w conn, (s.worker w).conn = some conn → s.accepted conn = true
  distinct : ∀ w u conn, (s.worker w).conn = some conn → (s.worker u).conn = some conn → u = w
  sweeper : ∀ r, request (s.table.thread none) = some r → r = some .sweep

theorem inv_start : Inv heap clock streams
    (sessionsStart heap clock streams : Sessions W C numBuckets) where
  reach := .refl
  table := ⟨rfl, counters_ext rfl rfl rfl rfl rfl⟩
  inStep _ := rfl
  left _ _ := .nil
  fresh _ _ := ⟨rfl, .nil⟩
  accepted _ _ h := by cases h
  distinct _ _ _ h := by cases h
  sweeper _ h := by cases h

/-- A step of thread `t` keeps the workers in step whose connections it leaves alone. -/
theorem Inv.others (h : Inv heap clock streams s) {t : Option W}
    (htable : Extends t s.table s'.table) {u : W} (hu : some u ≠ t)
    (hworker : s'.worker u = s.worker u)
    (hconn : ∀ c, (s.worker u).conn = some c → view (s'.serial streams) c =
      view (s.serial streams) c ∧ s'.unread c = s.unread c ∧ s'.answered c = s.answered c) :
    s'.InStep streams u := by
  rw [Sessions.InStep, hworker, htable.others _ hu]
  exact InStep.others (h.inStep u) hconn
    (fun n r f hin => htable.ticket_iff h.reach hu hin) htable.results

/-- A step of worker `w` on its connection, if it has one. -/
theorem Inv.step (h : Inv heap clock streams s) {l : WorkerPoint C}
    {q : HandleClient.State C numBuckets} (hserial : s'.serial streams = q)
    (hworker : s'.worker = Function.update s.worker w l) (haccepted : s'.accepted = s.accepted)
    (hl : ∀ c, l.conn = some c → (s.worker w).conn = some c)
    (htable : Extends (some w) s.table s'.table) (hsame : SameTable q.table s'.table.committed)
    (hconn : ∀ c, (s.worker w).conn ≠ some c → view q c = view (s.serial streams) c ∧
      s'.unread c = s.unread c ∧ s'.answered c = s.answered c)
    (hself : Concurrent.InStep s'.table.tickets (results s'.table) (view q) s'.unread s'.answered
      (s'.table.thread (some w)) l)
    (hleft : l.conn = none → ∀ c, (s.worker w).conn = some c →
      List.Forall₂ Answers (s'.answered c) (view q c).2) :
    Inv heap clock streams s' := by
  subst hserial
  have hof : ∀ u c, (s'.worker u).conn = some c → (s.worker u).conn = some c := by
    intro u c hu
    rw [hworker] at hu
    by_cases huw : u = w
    · subst huw
      rw [Function.update_self] at hu
      exact hl c hu
    · rwa [Function.update_of_ne huw] at hu
  refine ⟨htable.reach _ _ h.reach, hsame, fun u => ?_, fun c hc => ?_, fun c hc => ?_,
    fun u c hu => ?_, fun u v c hu hv => h.distinct u v c (hof u c hu) (hof v c hv), fun r hr => ?_⟩
  · by_cases huw : u = w
    · subst huw
      rw [Sessions.InStep, hworker, Function.update_self]
      exact hself
    · refine h.others htable (by simpa using huw) (by rw [hworker, Function.update_of_ne huw])
        (fun c hc => hconn c (fun hwc => huw (h.distinct w u c hwc hc)))
  · by_cases hwc : (s.worker w).conn = some c
    · refine hleft ?_ c hwc
      have hl' := hc w
      rw [hworker, Function.update_self] at hl'
      cases hlc : l.conn with
      | none => rfl
      | some c' =>
        have hwc' := hl c' hlc
        rw [hwc] at hwc'
        cases hwc'
        exact absurd hlc hl'
    · obtain ⟨hv, -, ha⟩ := hconn c hwc
      rw [Sessions.Settled, hv, ha]
      refine h.left c (fun u hu => hc u ?_)
      have huw : u ≠ w := by
        rintro rfl
        exact hwc hu
      rwa [hworker, Function.update_of_ne huw]
  · rw [haccepted] at hc
    have hwc : (s.worker w).conn ≠ some c := by
      intro hwc
      rw [h.accepted w c hwc] at hc
      cases hc
    obtain ⟨hv, hu, ha⟩ := hconn c hwc
    rw [hv, hu, ha]
    exact h.fresh c hc
  · rw [haccepted]
    exact h.accepted u c (hof u c hu)
  · rw [htable.others none (by simp)] at hr
    exact h.sweeper r hr

theorem Inv.of_worker (h : Inv heap clock streams s) {l : WorkerPoint C} (hw : s.worker w = l) :
    Concurrent.InStep s.table.tickets (results s.table) (view (s.serial streams)) s.unread
      s.answered (s.table.thread (some w)) l := by
  have hstep := h.inStep w
  rwa [Sessions.InStep, hw] at hstep

omit [DecidableEq W] [DecidableEq C] in
theorem ne_of_conn {l : WorkerPoint C} {conn c : C} (hw : s.worker w = l) (hl : l.conn = some conn)
    (hc : (s.worker w).conn ≠ some c) : c ≠ conn := by
  rintro rfl
  rw [hw] at hc
  exact hc hl

theorem Inv.accept (h : Inv heap clock streams s) {conn : C} (hw : s.worker w = .free)
    (hnew : s.accepted conn = false) : Inv heap clock streams { s with
      worker := Function.update s.worker w (.fdopen conn)
      accepted := Function.update s.accepted conn true } := by
  have hidle := h.of_worker hw
  have hno : ∀ u, (s.worker u).conn ≠ some conn := by
    intro u hu
    rw [h.accepted u conn hu] at hnew
    cases hnew
  have hof : ∀ u c, (Function.update s.worker w (.fdopen conn) u).conn = some c →
      (u = w ∧ c = conn) ∨ (u ≠ w ∧ (s.worker u).conn = some c) := by
    intro u c hu
    by_cases huw : u = w
    · subst huw
      rw [Function.update_self] at hu
      cases hu
      exact Or.inl ⟨rfl, rfl⟩
    · rw [Function.update_of_ne huw] at hu
      exact Or.inr ⟨huw, hu⟩
  refine ⟨h.reach, h.table, fun u => ?_, fun c hc => h.left c (fun u hu => ?_), fun c hc => ?_,
    fun u c hu => ?_, fun u v c hu hv => ?_, h.sweeper⟩
  · by_cases huw : u = w
    · subst huw
      simp only [Sessions.InStep, Function.update_self]
      exact ⟨hidle, h.fresh conn hnew⟩
    · simp only [Sessions.InStep, Function.update_of_ne huw]
      exact h.inStep u
  · refine hc u ?_
    have huw : u ≠ w := by
      rintro rfl
      rw [hw] at hu
      cases hu
    dsimp only
    rwa [Function.update_of_ne huw]
  · have hne : c ≠ conn := by
      rintro rfl
      simp at hc
    simp only [Function.update_of_ne hne] at hc
    exact h.fresh c hc
  · dsimp only
    rcases hof u c hu with ⟨-, rfl⟩ | ⟨-, hu'⟩
    · simp
    · by_cases hne : c = conn
      · simp [hne]
      · rw [Function.update_of_ne hne]
        exact h.accepted u c hu'
  · rcases hof u c hu with ⟨rfl, rfl⟩ | ⟨-, hu'⟩ <;> rcases hof v _ hv with ⟨rfl, hvc⟩ | ⟨-, hv'⟩
    · rfl
    · exact absurd hv' (hno v)
    · rw [hvc] at hu'
      exact absurd hu' (hno u)
    · exact h.distinct u v c hu' hv'

theorem Inv.fdopen (h : Inv heap clock streams s) {conn : C} (hw : s.worker w = .fdopen conn) :
    Inv heap clock streams { s with worker := Function.update s.worker w (.fgets conn) } := by
  have hself := h.of_worker hw
  exact h.step rfl rfl rfl (fun c hc => by rw [hw]; exact hc) (.refl ..) h.table
    (fun _ _ => ⟨rfl, rfl, rfl⟩) (l := .fgets conn) hself (fun hno => by cases hno)

theorem Inv.noStream (h : Inv heap clock streams s) {conn : C} (hw : s.worker w = .fdopen conn) :
    Inv heap clock streams { s with worker := Function.update s.worker w .free } := by
  obtain ⟨hidle, hbetween⟩ := h.of_worker hw
  refine h.step rfl rfl rfl (fun c hc => by cases hc) (.refl ..) h.table
    (fun _ _ => ⟨rfl, rfl, rfl⟩) hidle (fun _ c hc => ?_)
  rw [hw] at hc
  cases hc
  exact hbetween.2

theorem Inv.line (h : Inv heap clock streams s) {conn : C} {line unread : List UInt8}
    (hw : s.worker w = .fgets conn)
    (hread : CpreLabs.fgets maxLineLen (s.unread conn) = some (line, unread)) :
    Inv heap clock streams { s with
      worker := Function.update s.worker w (.branch conn line)
      unread := Function.update s.unread conn unread } := by
  obtain ⟨hidle, hconn, hanswered⟩ := h.of_worker hw
  refine h.step rfl rfl rfl (fun c hc => by rw [hw]; exact hc) (.refl ..) h.table
    (fun c hc => ⟨rfl, Function.update_of_ne (ne_of_conn hw rfl hc) .., rfl⟩) ?_
    (fun hno => by cases hno)
  refine ⟨hidle, ⟨s.unread conn, hconn, ?_⟩, hanswered⟩
  simpa using hread

theorem Inv.eof (h : Inv heap clock streams s) {conn : C} (hw : s.worker w = .fgets conn)
    (hread : CpreLabs.fgets maxLineLen (s.unread conn) = none) :
    Inv heap clock streams { s with
      worker := Function.update s.worker w .free
      history := s.history ++ [.pass conn s.table.clock] } := by
  obtain ⟨hidle, hconn, hanswered⟩ := h.of_worker hw
  obtain ⟨htable, hexchanges, hviews⟩ := pass_eof s.table.clock hconn hread
  refine h.step (serve_concat ..) rfl rfl (fun c hc => by cases hc) (.refl ..) ?_
    (fun c hc => ⟨hviews c (ne_of_conn hw rfl hc), rfl, rfl⟩) hidle (fun _ c hc => ?_)
  · change SameTable (handleClient conn s.table.clock (s.serial streams)).table _
    rw [htable]
    exact h.table
  · rw [hw] at hc
    cases hc
    change List.Forall₂ Answers _ ((handleClient conn s.table.clock (s.serial streams)).exchanges conn)
    rw [hexchanges]
    exact hanswered

/-- The serial server makes the pass of the line a worker has in hand. -/
theorem passed_of_pending {q : HandleClient.State C numBuckets} {conn : C}
    {line unread : List UInt8} {answered : Lines} (now : ℕ)
    (hpending : Pending line (view q conn) unread answered) {P : Exchange C numBuckets → Prop}
    (hP : P ⟨conn, line, q.table, now, (respond (parseLine (.ofBuffer line)) now q.table).1⟩) :
    (HandleClient.next q (.pass conn now)).table =
        (respond (parseLine (.ofBuffer line)) now q.table).2 ∧
      Passed line P (view (HandleClient.next q (.pass conn now)) conn) unread answered ∧
      ∀ c, c ≠ conn → view (HandleClient.next q (.pass conn now)) c = view q c := by
  obtain ⟨⟨rest, hconn, hread⟩, hanswered⟩ := hpending
  obtain ⟨htable, hview, hviews⟩ := pass_line now hconn hread
  refine ⟨htable, ?_, hviews⟩
  rw [HandleClient.next, hview]
  exact ⟨_, _, rfl, hanswered, rfl, hP, rfl⟩

theorem Inv.plain (h : Inv heap clock streams s) {conn : C} {line reply : List UInt8}
    (hw : s.worker w = .branch conn line)
    (hreply : plainReply (parseLine (.ofBuffer line)) = some reply) :
    Inv heap clock streams { s with
      worker := Function.update s.worker w (.dprintf conn line reply)
      history := s.history ++ [.pass conn s.table.clock] } := by
  obtain ⟨hidle, hpending⟩ := h.of_worker hw
  have hnot : parseLine (.ofBuffer line) ≠ .stats := by
    intro hstats
    rw [hstats] at hreply
    cases hreply
  obtain ⟨htable, hpassed, hviews⟩ := passed_of_pending s.table.clock hpending
    (P := Answers (line, reply)) ⟨rfl, by
      rw [Exchange.command, if_neg hnot, respond_plain hreply]⟩
  refine h.step (serve_concat ..) rfl rfl (fun c hc => by rw [hw]; exact hc) (.refl ..) ?_
    (fun c hc => ⟨hviews c (ne_of_conn hw rfl hc), rfl, rfl⟩) ⟨hidle, hpassed⟩
    (fun hno => by cases hno)
  rw [respond_plain hreply] at htable
  change SameTable (HandleClient.next (s.serial streams) _).table _
  rw [htable]
  exact h.table

theorem Inv.call (h : Inv heap clock streams s) {conn : C} {line : List UInt8} {op : Op}
    {table : Table W numBuckets} (hw : s.worker w = .branch conn line)
    (hop : (parseLine (.ofBuffer line)).call = some op)
    (hmove : Moves (tableCode numBuckets) (some w) (.call (some op)) s.table table) :
    Inv heap clock streams { s with
      table := table
      worker := Function.update s.worker w (.call conn line) } := by
  obtain ⟨-, hpending⟩ := h.of_worker hw
  have htable := extends_of_moves hmove
  cases hmove with
  | call _ ht =>
    refine h.step rfl rfl rfl (fun c hc => by rw [hw]; exact hc) htable h.table
      (fun _ _ => ⟨rfl, rfl, rfl⟩) ?_ (fun hno => by cases hno)
    simp only [Function.update_self]
    exact ⟨op, hop, rfl, hpending⟩

theorem Inv.stats (h : Inv heap clock streams s) {conn : C} {line : List UInt8}
    {table : Table W numBuckets} (hw : s.worker w = .branch conn line)
    (hstats : parseLine (.ofBuffer line) = .stats)
    (hmove : Moves (tableCode numBuckets) (some w) (.call none) s.table table) :
    Inv heap clock streams { s with
      table := table
      worker := Function.update s.worker w (.stats conn line .loadKeys) } := by
  obtain ⟨-, hpending⟩ := h.of_worker hw
  have htable := extends_of_moves hmove
  cases hmove with
  | call _ ht =>
    refine h.step rfl rfl rfl (fun c hc => by rw [hw]; exact hc) htable h.table
      (fun _ _ => ⟨rfl, rfl, rfl⟩) ?_ (fun hno => by cases hno)
    simp only [Function.update_self]
    exact ⟨hstats, rfl, hpending⟩

omit [DecidableEq C] in
/-- A worker in a call is at one of two program points. -/
theorem InStep.map_call {tickets : List ℕ} {results : List (ℕ × Option Outcome)}
    {view : C → View C numBuckets} {unread : C → List UInt8} {answered : C → Lines}
    {th th' : TableThread numBuckets} {l : WorkerPoint C}
    (h : Concurrent.InStep tickets results view unread answered th l) (hth : th ≠ .idle)
    (hcall : ∀ conn r line P, InCall r line P tickets (view conn) (unread conn) (answered conn) th →
      InCall r line P tickets (view conn) (unread conn) (answered conn) th') :
    Concurrent.InStep tickets results view unread answered th' l := by
  cases l with
  | free => exact absurd h hth
  | fdopen conn | fgets conn | branch conn line | dprintf conn line reply => exact absurd h.1 hth
  | call conn line =>
    obtain ⟨op, hop, hin⟩ := h
    exact ⟨op, hop, hcall _ _ _ _ hin⟩
  | stats conn line p => exact ⟨h.1, hcall _ _ _ _ h.2⟩

theorem Inv.lock (h : Inv heap clock streams s) {table : Table W numBuckets}
    (hmove : Moves (tableCode numBuckets) (some w) .lock s.table table) :
    Inv heap clock streams { s with table := table } := by
  have htable := extends_of_moves hmove
  cases hmove with
  | @lock _ r ht hfree =>
    have hself := h.inStep w
    rw [Sessions.InStep, ht] at hself
    refine h.step rfl (Function.update_eq_self ..).symm rfl (fun _ hc => hc) htable h.table
      (fun _ _ => ⟨rfl, rfl, rfl⟩) ?_ (fun hno c hc => by rw [hno] at hc; cases hc)
    simp only [Function.update_self]
    refine hself.map_call (by simp) (fun conn r' line P hin => ?_)
    refine ⟨hin.1, fun _ => hin.2, fun hn => ?_⟩
    exact absurd (h.reach.books.committed_lt hn) (lt_irrefl _)

theorem Inv.load (h : Inv heap clock streams s) {conn : C} {line : List UInt8}
    {l : Stats.LoadPoint} (hw : s.worker w = .stats conn line l) (l' : Stats.LoadPoint) :
    Inv heap clock streams { s with
      worker := Function.update s.worker w (.stats conn line l') } := by
  have hself := h.of_worker hw
  exact h.step rfl rfl rfl (fun c hc => by rw [hw]; exact hc) (.refl ..) h.table
    (fun _ _ => ⟨rfl, rfl, rfl⟩) (l := .stats conn line l') hself (fun hno => by cases hno)

theorem Inv.unlock (h : Inv heap clock streams s) {conn : C} {line : List UInt8} {o : Outcome}
    {table : Table W numBuckets} (hw : s.worker w = .call conn line)
    (hmove : Moves (tableCode numBuckets) (some w) (.unlock (some o)) s.table table) :
    Inv heap clock streams { s with
      table := table
      worker := Function.update s.worker w
        (.dprintf conn line (callReply (parseLine (.ofBuffer line)) o)) } := by
  obtain ⟨op, hop, hcall⟩ := h.of_worker hw
  have htable := extends_of_moves hmove
  cases hmove with
  | @unlock _ n r f _ ht ho =>
    have hresult := h.reach.result_of_unlock ht ho
    rw [ht] at hcall
    refine h.step rfl rfl rfl (fun c hc => by rw [hw]; exact hc) htable h.table
      (fun _ _ => ⟨rfl, rfl, rfl⟩) ?_ (fun hno => by cases hno)
    simp only [Function.update_self]
    refine ⟨rfl, ?_⟩
    obtain ⟨es, e, hes, ha, hline, ⟨o', ho', hreply⟩, hv⟩ :=
      hcall.2.2 (ticket_of_result hresult)
    have heq : some o' = some o := result_unique h.reach.books.nodup ho' hresult
    cases heq
    refine ⟨es, e, hes, ha, hline, ⟨hline.symm, ?_⟩, hv⟩
    have hnot : parseLine (.ofBuffer line) ≠ .stats := by
      intro hstats
      rw [hstats] at hop
      cases hop
    rw [Exchange.command, hline, if_neg hnot, hreply]

theorem Inv.unlockStats (h : Inv heap clock streams s) {conn : C} {line : List UInt8}
    {k hits m p d : ℤ} {table : Table W numBuckets}
    (hw : s.worker w = .stats conn line (.unlock k hits m p d))
    (hmove : Moves (tableCode numBuckets) (some w) (.unlock none) s.table table) :
    Inv heap clock streams { s with
      table := table
      worker := Function.update s.worker w
        (.dprintf conn line (statsLine k hits m p d)) } := by
  obtain ⟨hstats, hcall⟩ := h.of_worker hw
  have htable := extends_of_moves hmove
  cases hmove with
  | @unlock _ n r f _ ht ho =>
    have hresult := h.reach.result_of_unlock ht ho
    rw [ht] at hcall
    refine h.step rfl rfl rfl (fun c hc => by rw [hw]; exact hc) htable h.table
      (fun _ _ => ⟨rfl, rfl, rfl⟩) ?_ (fun hno => by cases hno)
    simp only [Function.update_self]
    refine ⟨rfl, ?_⟩
    obtain ⟨es, e, hes, ha, hline, -, hv⟩ := hcall.2.2 (ticket_of_result hresult)
    refine ⟨es, e, hes, ha, hline, ⟨hline.symm, ?_⟩, hv⟩
    rw [Exchange.command, hline, if_pos hstats]
    exact ⟨k, hits, m, p, d, rfl⟩

theorem Inv.dprintf (h : Inv heap clock streams s) {conn : C} {line reply : List UInt8}
    (hw : s.worker w = .dprintf conn line reply) :
    Inv heap clock streams { s with
      worker := Function.update s.worker w (afterReply conn line)
      answered := Function.update s.answered conn (s.answered conn ++ [(line, reply)]) } := by
  obtain ⟨hidle, es, e, hes, ha, -, he, hv⟩ := h.of_worker hw
  have hall : List.Forall₂ Answers (s.answered conn ++ [(line, reply)])
      (view (s.serial streams) conn).2 := by
    rw [hes]
    exact List.rel_append ha (.cons he .nil)
  refine h.step (q := s.serial streams) rfl rfl rfl (fun c hc => ?_) (.refl ..) h.table
    (fun c hc => ⟨rfl, rfl, Function.update_of_ne (ne_of_conn hw rfl hc) ..⟩) ?_ (fun hno c hc => ?_)
  · rw [hw]
    unfold afterReply at hc
    split at hc
    · cases hc
    · exact hc
  · unfold afterReply
    split
    · exact hidle
    · rename_i hquit
      refine ⟨hidle, ?_, by simpa using hall⟩
      rw [hv]
      simp [isQuit, hquit]
  · rw [hw] at hc
    cases hc
    simpa using hall

/-- Where the call of a worker takes its place, the serial server makes the pass. -/
theorem Inv.commit (h : Inv heap clock streams s) {conn : C} {n : ℕ} {r : Option Op}
    {f f' : Frame numBuckets ⊕ Bool} {table : Table W numBuckets}
    (hw : (s.worker w).conn = some conn) (ht : s.table.thread (some w) = .inside n r f)
    (ht' : table.thread (some w) = .inside n r f')
    (hf : (tableCode numBuckets).commits f = true)
    (htable : Extends (some w) s.table table)
    (hnew : table.committed = s.table.committed ++ [⟨n, r, s.table.clock⟩]) :
    Inv heap clock streams { s with
      table := table
      history := s.history ++ [.pass conn s.table.clock] } := by
  have hout : n ∉ s.table.tickets := h.reach.not_committed ht hf
  have hin : n ∈ table.tickets := by
    rw [Config.tickets, hnew]
    simp
  have hself := h.inStep w
  have hne : ∀ c, (s.worker w).conn ≠ some c → c ≠ conn := by
    rintro c hc rfl
    exact hc hw
  rw [Sessions.InStep, ht] at hself
  cases hl : s.worker w with
  | free =>
    rw [hl] at hself
    cases hself
  | fdopen conn' | fgets conn' | branch conn' line | dprintf conn' line reply =>
    rw [hl] at hself
    cases hself.1
  | call conn' line =>
    rw [hl] at hw hself
    cases hw
    obtain ⟨op, hop, rfl, hpending, -⟩ := hself
    obtain ⟨hresult, hbuckets, -⟩ := exec_eq_effect op s.table.clock (s.serial streams).table
    have hmem : (n, some (effect op s.table.clock (s.serial streams).table.buckets).result) ∈
        results table := by
      rw [results, hnew, serialResults_concat, h.table.1]
      exact List.mem_append_right _ (List.mem_singleton_self _)
    obtain ⟨hpass, hpassed, hviews⟩ := passed_of_pending s.table.clock (hpending hout)
      (P := Foreseen line (results table) n) ⟨_, hmem, by rw [respond_call hop, hresult]⟩
    refine h.step (serve_concat ..) (Function.update_eq_self ..).symm rfl (fun _ hc => hc) htable ?_
      (fun c hc => ⟨hviews c (hne c hc), rfl, rfl⟩) ?_ (fun hno => by rw [hl] at hno; cases hno)
    · change SameTable (HandleClient.next (s.serial streams) _).table table.committed
      rw [hpass, hnew, respond_call hop]
      exact h.table.call n op _
    · rw [hl]
      simp only [ht']
      exact ⟨op, hop, rfl, fun hno => absurd hin hno, fun _ => hpassed⟩
  | stats conn' line p =>
    rw [hl] at hw hself
    cases hw
    obtain ⟨hstats, rfl, hpending, -⟩ := hself
    obtain ⟨hpass, hpassed, hviews⟩ := passed_of_pending s.table.clock (hpending hout)
      (P := fun _ => True) trivial
    refine h.step (serve_concat ..) (Function.update_eq_self ..).symm rfl (fun _ hc => hc) htable ?_
      (fun c hc => ⟨hviews c (hne c hc), rfl, rfl⟩) ?_ (fun hno => by rw [hl] at hno; cases hno)
    · change SameTable (HandleClient.next (s.serial streams) _).table table.committed
      rw [hpass, hnew, hstats]
      exact h.table.stats n _
    · rw [hl]
      simp only [ht']
      exact ⟨hstats, rfl, fun hno => absurd hin hno, fun _ => hpassed⟩

theorem Inv.run (h : Inv heap clock streams s) {conn : C} {table : Table W numBuckets}
    (hw : (s.worker w).conn = some conn)
    (hmove : Moves (tableCode numBuckets) (some w) .run s.table table) :
    Inv heap clock streams { s with
      table := table
      history := s.history ++ (newEntries s.table table).map (fun e => .pass conn e.now) } := by
  have htable := extends_of_moves hmove
  obtain ⟨n, r, f, f', ht, ht', ⟨hf, hnew⟩ | ⟨-, hsame⟩⟩ := hmove.run_cases
  · rw [newEntries_of_append hnew]
    exact h.commit hw ht ht' hf htable hnew
  · rw [newEntries_of_eq hsame]
    have hself := h.inStep w
    rw [Sessions.InStep, ht] at hself
    refine h.step (q := s.serial streams) ?_ (Function.update_eq_self ..).symm rfl
      (fun _ hc => hc) htable ?_ (fun _ _ => ⟨rfl, rfl, rfl⟩) ?_
      (fun hno c hc => by rw [hno] at hc; cases hc)
    · simp [Sessions.serial]
    · rw [hsame]
      exact h.table
    · simp only [Config.tickets, results, hsame, ht']
      exact hself.map_call (by simp) (fun _ _ _ _ hin => hin)

theorem Inv.request_sweeper (h : Inv heap clock streams s) {table : Table W numBuckets}
    {a : Action (Option Op) (Option Outcome)} (hop : ∀ op, a = .call op → op = some .sweep)
    (hmove : Moves (tableCode numBuckets) none a s.table table) {r : Option Op}
    (hr : request (table.thread none) = some r) : r = some .sweep := by
  cases hmove with
  | call op ht =>
    simp only [Function.update_self, request, Option.some.injEq] at hr
    exact hr ▸ hop op rfl
  | lock ht hfree =>
    simp only [Function.update_self, request] at hr
    exact h.sweeper r (by rw [ht]; exact hr)
  | run ht hstep =>
    simp only [Function.update_self, request] at hr
    exact h.sweeper r (by rw [ht]; exact hr)
  | unlock ht ho =>
    simp only [Function.update_self, request] at hr
    cases hr

/-- A step of the sweeper leaves the connections alone. -/
theorem Inv.sweeper_step (h : Inv heap clock streams s) {table : Table W numBuckets}
    {history : List (HandleClient.Event C)} {q : HandleClient.State C numBuckets}
    (hserial : serve history (start (kvInit numBuckets) streams) = q)
    (htable : Extends none s.table table) (hsame : SameTable q.table table.committed)
    (hviews : view q = view (s.serial streams))
    (hrequest : ∀ r, request (table.thread none) = some r → r = some .sweep) :
    Inv heap clock streams { s with table := table, history := history } := by
  subst hserial
  refine ⟨htable.reach _ _ h.reach, hsame, fun u => ?_, fun c hc => ?_, fun c hc => ?_,
    h.accepted, h.distinct, hrequest⟩
  · exact h.others htable (by simp) rfl (fun c _ => ⟨congrFun hviews c, rfl, rfl⟩)
  · have hleft := h.left c hc
    rwa [Sessions.Settled, ← hviews] at hleft
  · have hfresh := h.fresh c hc
    rwa [← hviews] at hfresh

theorem Inv.sweep (h : Inv heap clock streams s) {table : Table W numBuckets}
    {a : Action (Option Op) (Option Outcome)} (hop : ∀ op, a = .call op → op = some .sweep)
    (hmove : Moves (tableCode numBuckets) none a s.table table) :
    Inv heap clock streams { s with
      table := table
      history := s.history ++ (newEntries s.table table).map (fun e => .sweep e.now) } := by
  have htable := extends_of_moves hmove
  have hrequest := fun r => h.request_sweeper hop hmove (r := r)
  have hquiet : table.committed = s.table.committed → Inv heap clock streams { s with
      table := table
      history := s.history ++ (newEntries s.table table).map (fun e => .sweep e.now) } := by
    intro hsame
    rw [newEntries_of_eq hsame, List.map_nil, List.append_nil]
    refine h.sweeper_step (q := s.serial streams) rfl htable ?_ rfl hrequest
    rw [hsame]
    exact h.table
  by_cases ha : a = .run
  · subst ha
    obtain ⟨n, r, f, f', ht, ht', ⟨-, hnew⟩ | ⟨-, hsame⟩⟩ := hmove.run_cases
    · obtain rfl : r = some .sweep := h.sweeper r (by rw [ht]; rfl)
      rw [newEntries_of_append hnew]
      refine h.sweeper_step (serve_concat ..) htable ?_ rfl hrequest
      rw [hnew]
      exact h.table.call n .sweep _
    · exact hquiet hsame
  · exact hquiet (hmove.committed_of_ne_run ha)

theorem inv_of_reachable
    (h : SessionsReachable (sessionsStart heap clock streams) s) : Inv heap clock streams s := by
  induction h with
  | refl => exact inv_start
  | tail _ hstep ih =>
    cases hstep with
    | tick hle =>
      exact ⟨ih.reach.tail (.tick hle), ih.table, ih.inStep, ih.left, ih.fresh, ih.accepted,
        ih.distinct, ih.sweeper⟩
    | accept hw hnew => exact ih.accept hw hnew
    | fdopen hw => exact ih.fdopen hw
    | noStream hw => exact ih.noStream hw
    | line hw hread => exact ih.line hw hread
    | eof hw hread => exact ih.eof hw hread
    | plain hw hreply => exact ih.plain hw hreply
    | call hw hop hmove => exact ih.call hw hop hmove
    | stats hw hstats hmove => exact ih.stats hw hstats hmove
    | lock hmove => exact ih.lock hmove
    | run hw hmove => exact ih.run hw hmove
    | load hw hin hload => exact ih.load hw _
    | unlock hw hmove => exact ih.unlock hw hmove
    | unlockStats hw hmove => exact ih.unlockStats hw hmove
    | dprintf hw => exact ih.dprintf hw
    | sweeper hop hmove => exact ih.sweep hop hmove

end Invariant

end CpreLabs.Concurrent
