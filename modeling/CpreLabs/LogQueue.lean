import CpreLabs.PthreadCounting

/-!
# The log queue of `ex2_lost_wakeup.c`

`producer` and `consumer` with one program point per statement, for any number of entries. The
lines they print are part of the shared state, and so is what the consumer has processed: an
entry is processed by printing its `log_id`.
-/
namespace CpreLabs.LogQueue
open Pthread

inductive Line where
  | generated (i : ℤ)
  | noEntry
  | processing (id : ℤ)

/-- `LogQueue` without its mutex and condition variable, and the output. -/
structure Shared where
  logReady : ℤ
  logId : ℤ
  output : List Line
  /-- History: the entries that were replaced in the slot while `log_ready` was set. -/
  overwritten : List ℤ

inductive Party where
  | producer
  | consumer
  deriving DecidableEq

instance : Fintype Party where
  elems := {.producer, .consumer}
  complete t := by cases t <;> decide

inductive Cond where
  | hasLog
  deriving DecidableEq

/-- The points of `producer` and `consumer`; `i` is the loop variable. -/
inductive Pc where
  | prLoop (i : ℕ)
  | prId (i : ℕ)
  | prReady (i : ℕ)
  | prPrint (i : ℕ)
  | prSignal (i : ℕ)
  | prUnlock (i : ℕ)
  | cnLoop (i : ℕ)
  | cnTest (i : ℕ)
  | cnPrintWait (i : ℕ)
  | cnWait (i : ℕ)
  | cnProcess (i : ℕ)
  | cnClear (i : ℕ)
  | cnUnlock (i : ℕ)

/-- `q->log_id = i;` -/
def storeId (i : ℕ) (q : Shared) : Shared :=
  { q with
    logId := i
    overwritten := if q.logReady = 0 then q.overwritten else q.overwritten ++ [q.logId] }

def print (line : Line) (q : Shared) : Shared := { q with output := q.output ++ [line] }

/-- The two threads, with loops of `entries` rounds on both sides. -/
def instr (entries : ℕ) : Party → Pc → Instr Party Cond Pc Shared
  | .producer, .prLoop i => if i ≤ entries then .lock (.prId i) else .halt
  | .producer, .prId i => .exec fun q => (.prReady i, storeId i q)
  | .producer, .prReady i => .exec fun q => (.prPrint i, { q with logReady := 1 })
  | .producer, .prPrint i => .exec fun q => (.prSignal i, print (.generated i) q)
  | .producer, .prSignal i => .signal .hasLog (.prUnlock i)
  | .producer, .prUnlock i => .unlock (.prLoop (i + 1))
  | .consumer, .cnLoop i => if i < entries then .lock (.cnTest i) else .halt
  | .consumer, .cnTest i => .exec fun q =>
      (if q.logReady = 0 then .cnPrintWait i else .cnProcess i, q)
  | .consumer, .cnPrintWait i => .exec fun q => (.cnWait i, print .noEntry q)
  | .consumer, .cnWait i => .wait .hasLog (.cnTest i)
  | .consumer, .cnProcess i => .exec fun q => (.cnClear i, print (.processing q.logId) q)
  | .consumer, .cnClear i => .exec fun q => (.cnUnlock i, { q with logReady := 0 })
  | .consumer, .cnUnlock i => .unlock (.cnLoop (i + 1))
  | _, _ => .choose fun _ => false

def program (entries : ℕ) : Program Party Cond Pc Shared Empty where
  instr := instr entries
  env e _ := e.elim

/-- After `lq_init`, with both threads before their loops. -/
def start : Config Party Cond Pc Shared where
  owner := none
  status
    | .producer => .running (.prLoop 1)
    | .consumer => .running (.cnLoop 0)
  shared := ⟨0, 0, [], []⟩

/-- The `log_id` values the consumer has printed, in order. -/
def processed (output : List Line) : List ℤ :=
  output.filterMap fun
    | .processing id => some id
    | _ => none

def generated (output : List Line) : List ℤ :=
  output.filterMap fun
    | .generated i => some i
    | _ => none

/-- `1, 2, ..., n` -/
def entryIds (n : ℕ) : List ℤ := (List.range n).map (fun i => (i + 1 : ℤ))

theorem entryIds_succ (n : ℕ) : entryIds (n + 1) = entryIds n ++ [(n + 1 : ℤ)] := by
  simp [entryIds, List.range_succ]

theorem isPrefix_entryIds {m n : ℕ} (h : m ≤ n) : entryIds m <+: entryIds n := by
  induction h with
  | refl => exact List.prefix_rfl
  | step _ ih =>
    rw [entryIds_succ]
    exact ih.trans (List.prefix_append _ _)

@[simp] theorem processed_print (line : Line) (q : Shared) :
    processed (print line q).output = processed q.output ++ processed [line] := by
  simp [print, processed]

@[simp] theorem generated_print (line : Line) (q : Shared) :
    generated (print line q).output = generated q.output ++ generated [line] := by
  simp [print, generated]

@[simp] theorem processed_processing (id : ℤ) : processed [.processing id] = [id] := rfl

@[simp] theorem processed_generated (i : ℤ) : processed [.generated i] = [] := rfl

@[simp] theorem processed_noEntry : processed [.noEntry] = [] := rfl

@[simp] theorem generated_processing (id : ℤ) : generated [.processing id] = [] := rfl

@[simp] theorem generated_generated (i : ℤ) : generated [.generated i] = [i] := rfl

@[simp] theorem generated_noEntry : generated [.noEntry] = [] := rfl

@[simp] theorem print_logReady (line : Line) (q : Shared) : (print line q).logReady = q.logReady :=
  rfl

@[simp] theorem print_logId (line : Line) (q : Shared) : (print line q).logId = q.logId := rfl

def inside : Pc → Bool
  | .prLoop _ | .cnLoop _ => false
  | _ => true

theorem bracketed (entries : ℕ) : (program entries).Bracketed inside := by
  intro t l
  cases t with
  | producer =>
    cases l with
    | prLoop i =>
      simp only [program, instr]
      split <;> simp [Instr.Bracketed, inside]
    | _ => simp [program, instr, Instr.Bracketed, inside]
  | consumer =>
    cases l with
    | cnLoop i =>
      simp only [program, instr]
      split <;> simp [Instr.Bracketed, inside]
    | cnTest i =>
      intro q
      dsimp only
      split <;> rfl
    | _ => simp [program, instr, Instr.Bracketed, inside]

theorem owned_start : Owned inside start := by
  intro t
  cases t <;> simp [start, Status.Agrees, inside]

/-- The entries generated when the producer stands at a point. -/
def producerAt (entries : ℕ) : Pc → List ℤ → Prop
  | .prLoop i, ids => 1 ≤ i ∧ i ≤ entries + 1 ∧ ids = entryIds (i - 1)
  | .prId i, ids | .prReady i, ids | .prPrint i, ids =>
      1 ≤ i ∧ i ≤ entries ∧ ids = entryIds (i - 1)
  | .prSignal i, ids | .prUnlock i, ids => 1 ≤ i ∧ i ≤ entries ∧ ids = entryIds i
  | _, _ => False

theorem producerAt_print {entries i : ℕ} {q : Shared}
    (h : producerAt entries (.prPrint i) (generated q.output)) :
    producerAt entries (.prSignal i) (generated (print (.generated i) q).output) := by
  obtain ⟨hpos, hle, hids⟩ := h
  refine ⟨hpos, hle, ?_⟩
  obtain ⟨k, rfl⟩ := Nat.exists_eq_add_of_le' hpos
  rw [generated_print, hids, Nat.add_sub_cancel, entryIds_succ]
  simp

theorem keeps_producerAt (entries : ℕ) : (program entries).KeepsThread .producer
    (fun st q => producerAt entries st.point (generated q.output)) where
  woken c l q h := h
  resumed c l q h := h
  env st e := e.elim
  others st u l f q hu hi h := by
    cases u with
    | producer => exact absurd rfl hu
    | consumer =>
      cases l with
      | cnLoop i =>
        simp only [program, instr] at hi
        split at hi <;> cases hi
      | cnTest i | cnClear i =>
        cases hi
        exact h
      | cnPrintWait i | cnProcess i =>
        cases hi
        dsimp only
        rw [generated_print]
        simpa using h
      | _ => cases hi
  instr l s st q h hres := by
    cases l with
    | prLoop i =>
      obtain ⟨hpos, hle, hids⟩ := h
      simp only [program, instr] at hres
      split at hres
      · obtain ⟨rfl, rfl⟩ := hres
        exact ⟨hpos, by assumption, hids⟩
      · exact hres.elim
    | prPrint i =>
      obtain ⟨rfl, rfl⟩ := hres
      exact producerAt_print h
    | prUnlock i =>
      obtain ⟨rfl, rfl⟩ := hres
      obtain ⟨hpos, hle, hids⟩ := h
      exact ⟨Nat.le_add_left 1 i, Nat.add_le_add_right hle 1, hids⟩
    | prId i | prReady i | prSignal i =>
      obtain ⟨rfl, rfl⟩ := hres
      exact h
    | _ => exact h.elim

theorem producerAt_of_reachable {entries : ℕ} {s : Config Party Cond Pc Shared}
    (h : Reachable (program entries) start s) :
    producerAt entries (s.status .producer).point (generated s.shared.output) :=
  (keeps_producerAt entries).reachable h ⟨le_rfl, Nat.le_add_left 1 entries, rfl⟩

theorem isPrefix_generated {entries : ℕ} {s : Config Party Cond Pc Shared}
    (h : Reachable (program entries) start s) :
    generated s.shared.output <+: entryIds entries := by
  have hat := producerAt_of_reachable h
  cases hl : (s.status .producer).point with
  | prLoop i | prId i | prReady i | prPrint i =>
    rw [hl] at hat
    obtain ⟨-, hle, hids⟩ := hat
    rw [hids]
    exact isPrefix_entryIds (by omega)
  | prSignal i | prUnlock i =>
    rw [hl] at hat
    obtain ⟨-, hle, hids⟩ := hat
    rw [hids]
    exact isPrefix_entryIds hle
  | _ =>
    rw [hl] at hat
    exact hat.elim

/-- The entry that waits in the slot. -/
def slot (q : Shared) : List ℤ := if q.logReady = 0 then [] else [q.logId]

@[simp] theorem slot_print (line : Line) (q : Shared) : slot (print line q) = slot q := rfl

/-- While no entry has been overwritten, all but the one in the slot have been processed. -/
def Accounted (q : Shared) : Prop :=
  q.overwritten = [] → processed q.output ++ slot q = generated q.output

/-- All entries have been processed, while the next one is on its way in or the last one on
its way out. -/
def AllProcessed (q : Shared) : Prop :=
  q.overwritten = [] → processed q.output = generated q.output

def asserted : Pc → Shared → Prop
  | .prReady i, q => AllProcessed q ∧ q.logId = i
  | .prPrint i, q => AllProcessed q ∧ q.logId = i ∧ q.logReady = 1
  | .cnPrintWait _, q | .cnWait _, q => Accounted q ∧ q.logReady = 0
  | .cnProcess _, q => Accounted q ∧ q.logReady ≠ 0
  | .cnClear _, q => AllProcessed q
  | _, q => Accounted q

theorem asserted_storeId {i : ℕ} {q : Shared} (h : Accounted q) :
    asserted (.prReady i) (storeId i q) := by
  refine ⟨fun hnone => ?_, rfl⟩
  by_cases hready : q.logReady = 0
  · have hold : q.overwritten = [] := by simpa [storeId, hready] using hnone
    simpa [storeId, slot, hready] using h hold
  · simp [storeId, hready] at hnone

theorem asserted_printGenerated {i : ℕ} {q : Shared} (h : asserted (.prPrint i) q) :
    Accounted (print (.generated i) q) := by
  obtain ⟨hall, hid, hready⟩ := h
  intro hnone
  have hsame := hall hnone
  rw [processed_print, generated_print, hsame]
  simp [slot, hready, hid]

theorem asserted_printProcessing {i : ℕ} {q : Shared} (h : asserted (.cnProcess i) q) :
    AllProcessed (print (.processing q.logId) q) := by
  obtain ⟨hacc, hready⟩ := h
  intro hnone
  have hsum := hacc hnone
  rw [processed_print, generated_print, ← hsum]
  simp [slot, hready]

theorem outline (entries : ℕ) : Outline (program entries) inside Accounted asserted where
  envI e := e.elim
  envA e := e.elim
  instr t l := by
    cases t with
    | producer =>
      cases l with
      | prLoop i =>
        simp only [program, instr]
        split
        · exact fun q hq => hq
        · trivial
      | prId i => exact fun q hq => asserted_storeId hq
      | prReady i => exact fun q hq => ⟨hq.1, hq.2, rfl⟩
      | prPrint i => exact fun q hq => asserted_printGenerated hq
      | prSignal i => exact fun _ q hq => hq
      | prUnlock i => exact fun q hq => hq
      | _ => exact fun _ l' q hok => by cases hok
    | consumer =>
      cases l with
      | cnLoop i =>
        simp only [program, instr]
        split
        · exact fun q hq => hq
        · trivial
      | cnTest i =>
        intro q hq
        dsimp only
        split
        · exact ⟨hq, by assumption⟩
        · exact ⟨hq, by assumption⟩
      | cnPrintWait i =>
        rintro q ⟨hacc, hready⟩
        refine ⟨fun hnone => ?_, hready⟩
        simpa using hacc hnone
      | cnWait i => exact fun q hq => ⟨hq.1, fun w hw => hw⟩
      | cnProcess i => exact fun q hq => asserted_printProcessing hq
      | cnClear i =>
        intro q hall hnone
        simpa [slot] using hall hnone
      | cnUnlock i => exact fun q hq => hq
      | _ => exact fun _ l' q hok => by cases hok

theorem asserts_of_reachable {entries : ℕ} {s : Config Party Cond Pc Shared}
    (h : Reachable (program entries) start s) : Asserts inside Accounted asserted s := by
  refine (outline entries).reachable (bracketed entries) h ⟨owned_start, ?_, ?_⟩
  · exact fun _ _ => rfl
  · intro t
    cases t <;> exact fun hin => by cases hin

/-- Whoever holds the mutex, what has been processed comes first in what was generated. -/
theorem isPrefix_processed {entries : ℕ} {s : Config Party Cond Pc Shared}
    (h : Reachable (program entries) start s) (hnone : s.shared.overwritten = []) :
    processed s.shared.output <+: generated s.shared.output := by
  have hasserts := asserts_of_reachable h
  have hacc : Accounted s.shared → processed s.shared.output <+: generated s.shared.output := by
    intro hacc
    rw [← hacc hnone]
    exact List.prefix_append _ _
  have hall : AllProcessed s.shared → processed s.shared.output <+: generated s.shared.output := by
    intro hall
    rw [hall hnone]
  cases howner : s.owner with
  | none => exact hacc (hasserts.free howner)
  | some t =>
    have hag := hasserts.owned t
    cases hst : s.status t with
    | running l =>
      rw [hst] at hag
      have hheld := hasserts.held hst (hag.mpr howner)
      cases l with
      | prReady i | prPrint i => exact hall hheld.1
      | cnPrintWait i | cnWait i | cnProcess i => exact hacc hheld.1
      | cnClear i => exact hall hheld
      | _ => exact hacc hheld
    | asleep c l | woken c l =>
      rw [hst] at hag
      exact absurd howner hag.2

def available (q : Shared) : ℤ := if q.logReady = 0 then 0 else 1

/-- The points on the way to take the entry, or to signal it. -/
def serving : Pc → Bool
  | .cnTest _ | .cnProcess _ | .cnClear _ | .prPrint _ | .prSignal _ => true
  | _ => false

def knownInside (l : Pc) (q : Shared) : Prop := inside l = true → asserted l q

theorem accounting (entries : ℕ) :
    Accounting (program entries) .hasLog available serving knownInside where
  env e := e.elim
  instr t l := by
    cases t with
    | producer =>
      cases l with
      | prLoop i =>
        simp only [program, instr]
        split
        · exact le_rfl
        · trivial
      | prId i | prPrint i => exact fun q hq => Or.inr le_rfl
      | prReady i =>
        intro q hq
        right
        simp only [available, serving, weight_true, weight_false, if_neg one_ne_zero]
        split <;> omega
      | prSignal i => exact Or.inl rfl
      | prUnlock i => exact le_rfl
      | _ => exact fun n hn => by cases hn
    | consumer =>
      cases l with
      | cnLoop i =>
        simp only [program, instr]
        split
        · exact zero_le_one
        · trivial
      | cnTest i =>
        intro q hq
        by_cases hready : q.logReady = 0
        · left
          simp [available, hready]
        · right
          simp [hready, serving]
      | cnPrintWait i =>
        intro q hq
        left
        simp [available, (hq rfl).2]
      | cnWait i =>
        refine ⟨rfl, fun q hq => ?_⟩
        simp [available, (hq rfl).2]
      | cnProcess i => exact fun q hq => Or.inr le_rfl
      | cnClear i => exact fun q hq => Or.inl le_rfl
      | cnUnlock i => exact le_rfl
      | _ => exact fun n hn => by cases hn

theorem covered_of_reachable {entries : ℕ} {s : Config Party Cond Pc Shared}
    (h : Reachable (program entries) start s) : Covered .hasLog available serving s := by
  induction h with
  | refl =>
    refine ⟨fun t l ht => ?_, fun t l ht => ?_⟩
    · cases t <;> rcases ht with ht | ht <;> cases ht
    · cases t <;> cases ht
  | tail hreach hstep ih =>
    have hasserts := asserts_of_reachable hreach
    exact (accounting entries).step (fun t l ht hl => hasserts.held ht hl) hstep ih

/-- The producer has returned. -/
def Returned (entries : ℕ) (s : Config Party Cond Pc Shared) : Prop :=
  ∃ i, s.status .producer = .running (.prLoop i) ∧ ¬i ≤ entries

/-- The entries are processed in order, none skipped or repeated, and the consumer is not left
asleep with entries unprocessed. -/
def InOrder (entries : ℕ) (s : Config Party Cond Pc Shared) : Prop :=
  processed s.shared.output <+: entryIds entries ∧
    ¬(Returned entries s ∧ (s.status .consumer).isAsleepOn .hasLog = true ∧
      (processed s.shared.output).length < entries)

/-- Where the producer is about to store an entry, the slot is empty. -/
def storesIntoEmpty (s : Config Party Cond Pc Shared) : Bool :=
  match s.status .producer with
  | .running (.prId _) => s.shared.logReady = 0
  | _ => true

theorem inOrder_of_reachable {entries : ℕ} {s : Config Party Cond Pc Shared}
    (h : Reachable (program entries) start s) (hnone : s.shared.overwritten = []) :
    InOrder entries s := by
  have hinitial := isPrefix_processed h hnone
  refine ⟨hinitial.trans (isPrefix_generated h), ?_⟩
  rintro ⟨⟨i, hi, hend⟩, hasleep, hless⟩
  obtain ⟨l, hl⟩ := Status.isAsleepOn_iff.mp hasleep
  have hasserts := asserts_of_reachable h
  -- nobody is on the way to the slot, so it is empty
  have hcover := (covered_of_reachable h).cover .consumer l hl
  have hidle : count (Status.serves .hasLog serving) s.status = 0 := by
    refine count_eq_zero (fun t => ?_)
    cases t with
    | producer =>
      rw [hi]
      rfl
    | consumer =>
      rw [hl]
      rfl
  have hready : s.shared.logReady = 0 := by
    by_contra hfull
    rw [hidle] at hcover
    simp [available, hfull] at hcover
  have hat := producerAt_of_reachable h
  rw [hi] at hat
  obtain ⟨-, hle, hids⟩ := hat
  have hi' : i - 1 = entries := by omega
  have hfree : s.owner = none := by
    cases howner : s.owner with
    | none => rfl
    | some t =>
      have hag := hasserts.owned t
      cases t with
      | producer =>
        rw [hi] at hag
        cases hag.mpr howner
      | consumer =>
        rw [hl] at hag
        exact absurd howner hag.2
  have hsum := hasserts.free hfree hnone
  rw [slot, if_pos hready, List.append_nil, hids, hi'] at hsum
  rw [hsum] at hless
  simp [entryIds] at hless

/-- A step keeps the history of overwritten entries empty, unless it stores over one. -/
theorem overwritten_step {entries : ℕ} {a b : Config Party Cond Pc Shared}
    (hstep : Step (program entries) a b) (hstores : storesIntoEmpty a = true)
    (h : a.shared.overwritten = []) : b.shared.overwritten = [] := by
  rcases hstep.shared_cases with hv | ⟨e, -, -⟩ | ⟨t, l, f, hl, hi, -, hv⟩
  · rw [hv, h]
  · exact e.elim
  · rw [hv]
    cases t with
    | producer =>
      cases l with
      | prId i =>
        cases hi
        have hready : a.shared.logReady = 0 := by simpa [storesIntoEmpty, hl] using hstores
        simp [storeId, hready, h]
      | prLoop i =>
        simp only [program, instr] at hi
        split at hi <;> cases hi
      | prReady i | prPrint i =>
        cases hi
        exact h
      | _ => cases hi
    | consumer =>
      cases l with
      | cnLoop i =>
        simp only [program, instr] at hi
        split at hi <;> cases hi
      | cnTest i | cnPrintWait i | cnProcess i | cnClear i =>
        cases hi
        exact h
      | _ => cases hi

/-- In every run in which the producer stores only into the empty slot, each entry is processed
once and in order. -/
theorem inOrder_of_storesIntoEmpty {entries : ℕ} {run : List (Config Party Cond Pc Shared)}
    (hrun : (start :: run).IsChain (Step (program entries)))
    (hstores : ∀ a ∈ start :: run, storesIntoEmpty a = true) :
    ∀ a ∈ start :: run, InOrder entries a := by
  have hsafe : ∀ a ∈ start :: run,
      Reachable (program entries) start a ∧ a.shared.overwritten = [] := by
    apply isChain_invariant hrun
    · exact ⟨.refl, rfl⟩
    · exact fun a ha b hab hsafe =>
        ⟨hsafe.1.tail hab, overwritten_step hab (hstores a ha) hsafe.2⟩
  intro a ha
  obtain ⟨hreach, hnone⟩ := hsafe a ha
  exact inOrder_of_reachable hreach hnone

/-- The producer goes through the first rounds of its loop while nobody sleeps. -/
def produceRounds (rounds : ℕ) : List (Event Party Pc Empty) :=
  List.replicate (6 * rounds) (.run .producer)

theorem first_entry_processed :
    let run := scheduleStates (program 5) start
      (produceRounds 1 ++ List.replicate 5 (.run .consumer) ++ produceRounds 1)
    (∀ a ∈ start :: run, storesIntoEmpty a = true) ∧
      ∀ a ∈ start :: run, InOrder 5 a := by
  have hstores : ∀ a ∈ start :: scheduleStates (program 5) start
      (produceRounds 1 ++ List.replicate 5 (.run .consumer) ++ produceRounds 1),
      storesIntoEmpty a = true := by decide
  exact ⟨hstores, inOrder_of_storesIntoEmpty (isChain_scheduleStates _ _ _) hstores⟩

/-- The producer generates all entries, then the consumer processes what is in the slot and goes
to sleep. -/
def afterOverwriting (entries : ℕ) : Config Party Cond Pc Shared :=
  (runSchedule (program entries) start
    (produceRounds entries ++ List.replicate 9 (.run .consumer))).getD start

/-- Five entries are generated before the consumer takes the first: it processes the fifth only,
and sleeps for good. -/
theorem not_inOrder_of_overwriting :
    ∃ s, Reachable (program 5) start s ∧ Returned 5 s ∧
      (s.status .consumer).isAsleepOn .hasLog = true ∧ ¬InOrder 5 s := by
  have hrun : Reachable (program 5) start (afterOverwriting 5) :=
    reachable_of_schedule (produceRounds 5 ++ List.replicate 9 (.run .consumer)) rfl
  refine ⟨afterOverwriting 5, hrun, ⟨6, rfl, by decide⟩, rfl, fun horder => ?_⟩
  have hprocessed : processed (afterOverwriting 5).shared.output = [5] := rfl
  have hinitial := horder.1
  rw [hprocessed] at hinitial
  revert hinitial
  decide

end CpreLabs.LogQueue
