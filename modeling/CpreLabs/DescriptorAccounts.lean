import CpreLabs.ServerDescriptors

/-!
# Where the open descriptors are

With `main`, in the queue, with a worker, or lost by an `fdopen` that has failed; each in one place,
and each worker with a connection of its own. The threads keep this up as they pass the numbers on.
-/
namespace CpreLabs.Server
open Pthread WorkQueue RingBuffer Relation Handles

variable {capacity numWorkers : ℕ+} {fds : ℤ → ℤ} {listenFd : ℕ}

/-- What the number in a slot refers to. -/
def Descriptors.file (s : Descriptors numWorkers) : Slot numWorkers → Option OpenFile :=
  refers s.table s.slot

structure Tidy (capacity : ℕ+) (fds : ℤ → ℤ) (s : Descriptors numWorkers) : Prop where
  queue : Reachable (server capacity numWorkers) (serverStart numWorkers fds) s.queue
  balanced : Balanced s.table s.slot
  idle : ∀ i, (∀ conn, s.queue.status (some i) ≠ .running (.caller (.workerClient conn))) →
    s.client i = .dup
  listener : ∀ f, s.file .listener = some f → f = .listener
  main : ∀ f, s.file .main = some f → f = .connection s.queue.shared.enqueued.length
  queued : ∀ k f, s.file (.queued k) = some f → f = .connection k
  serving : ∀ i fd, s.slot (.conn i) = some fd →
    ∃ k, s.queue.shared.dequeued[k]? = some fd ∧ s.file (.conn i) = some (.connection k)
  copied : ∀ i f, s.file (.copy i) = some f → s.file (.conn i) = some f
  alone : ∀ i j f, s.file (.conn i) = some f → s.file (.conn j) = some f → i = j

variable {s : Descriptors numWorkers}

theorem slot_start : (descriptorsStart fds listenFd : Descriptors numWorkers).slot =
    Function.update (fun _ => none) .listener (some (listenFd : ℤ)) := by
  funext x
  cases x with
  | queued k => simp [Descriptors.slot, descriptorsStart, serverStart, WorkQueue.start]
  | lost k => simp [Descriptors.slot, descriptorsStart]
  | _ => rfl

theorem tidy_start :
    Tidy capacity fds (descriptorsStart fds listenFd : Descriptors numWorkers) := by
  have hempty : Balanced (fun _ : ℤ => (none : Option OpenFile))
      (fun _ : Slot numWorkers => none) :=
    ⟨fun fd => ⟨fun ⟨v, hv⟩ => (by cases hv), fun ⟨x, hx⟩ => (by cases hx)⟩,
      fun x y fd hx => (by cases hx)⟩
  have hfile : (descriptorsStart fds listenFd : Descriptors numWorkers).file =
      Function.update (fun _ => none) .listener (some .listener) := by
    rw [Descriptors.file, slot_start]
    exact hempty.refers_open rfl _
  refine ⟨.refl, ?_, fun _ _ => rfl, ?_, ?_, ?_, ?_, ?_, ?_⟩
  · rw [slot_start]
    exact hempty.open rfl rfl _
  · intro f hf
    rw [hfile, Function.update_self] at hf
    exact (Option.some.inj hf).symm
  · intro f hf
    rw [hfile] at hf
    cases hf
  · intro k f hf
    rw [hfile] at hf
    cases hf
  · intro i fd hfd
    rw [slot_start] at hfd
    cases hfd
  · intro i f hf
    rw [hfile] at hf
    cases hf
  · intro i j f hf
    rw [hfile] at hf
    cases hf

theorem Tidy.asserts (h : Tidy capacity fds s) :
    Asserts inside (Inv capacity (· ≠ -1)) (asserted capacity (· ≠ -1)) s.queue :=
  server_asserts h.queue

theorem Tidy.handover (h : Tidy capacity fds s) {q : State numWorkers}
    (hstep : Step (server capacity numWorkers) s.queue q) : Handover capacity s.queue q := by
  apply handover_step hstep (located_of_reachable h.queue)
  intro t fd k hst
  exact (h.asserts.held hst rfl).2.1

/-- A step after which every number is where it was. -/
theorem Tidy.stay (h : Tidy capacity fds s) {q : State numWorkers}
    {client : Fin numWorkers → ClientPoint} {lost : List ℤ}
    (hstep : ReflTransGen (Step (server capacity numWorkers)) s.queue q)
    (hslot : (Descriptors.mk q s.table client s.listenFd lost).slot = s.slot)
    (henqueued : q.shared.enqueued = s.queue.shared.enqueued)
    (hdequeued : q.shared.dequeued = s.queue.shared.dequeued)
    (hidle : ∀ i, (∀ conn, q.status (some i) ≠ .running (.caller (.workerClient conn))) →
      client i = .dup) :
    Tidy capacity fds ⟨q, s.table, client, s.listenFd, lost⟩ := by
  have hfile : (Descriptors.mk q s.table client s.listenFd lost).file = s.file := by
    rw [Descriptors.file, Descriptors.file, hslot]
  refine ⟨h.queue.trans hstep, ?_, hidle, ?_, ?_, ?_, ?_, ?_, ?_⟩
  · rw [hslot]
    exact h.balanced
  · rw [hfile]
    exact h.listener
  · rw [hfile, henqueued]
    exact h.main
  · rw [hfile]
    exact h.queued
  · rw [hslot, hfile, hdequeued]
    exact h.serving
  · rw [hfile]
    exact h.copied
  · rw [hfile]
    exact h.alone

theorem slot_of_carries {q : State numWorkers}
    (hcarries : ∀ t, carries (q.status t).point = carries (s.queue.status t).point)
    (henqueued : q.shared.enqueued = s.queue.shared.enqueued)
    (hdequeued : q.shared.dequeued = s.queue.shared.dequeued) :
    ({ s with queue := q } : Descriptors numWorkers).slot = s.slot := by
  funext x
  cases x with
  | main => exact hcarries none
  | conn i =>
    simp only [Descriptors.slot]
    rw [hcarries]
  | queued k =>
    simp only [Descriptors.slot]
    rw [henqueued, hdequeued]
  | _ => rfl

theorem slot_store (capacity : ℕ+) (fd : ℤ) (k : Caller)
    (hle : s.queue.shared.dequeued.length ≤ s.queue.shared.enqueued.length) :
    ({ s with queue := { s.queue.goto none (.enqSignal k) with
        shared := store capacity fd s.queue.shared } } : Descriptors numWorkers).slot =
      Function.update (Function.update s.slot .main none)
        (.queued s.queue.shared.enqueued.length) (some fd) := by
  funext x
  cases x with
  | main =>
    rw [Function.update_of_ne (by simp), Function.update_self, Descriptors.slot, Config.goto_self]
    rfl
  | queued n =>
    by_cases hn : n = s.queue.shared.enqueued.length
    · subst hn
      rw [Function.update_self, Descriptors.slot]
      simp [store, hle]
    · rw [Function.update_of_ne (by simpa using hn), Function.update_of_ne (by simp)]
      simp only [Descriptors.slot, store]
      by_cases hlt : n < s.queue.shared.enqueued.length
      · rw [List.getElem?_append_left hlt]
        rfl
      · rw [List.getElem?_eq_none (by simp; omega), List.getElem?_eq_none (by omega)]
        rfl
  | conn i =>
    rw [Function.update_of_ne (by simp), Function.update_of_ne (by simp)]
    simp only [Descriptors.slot]
    rw [Config.goto_of_ne (by simp)]
  | _ =>
    rw [Function.update_of_ne (by simp), Function.update_of_ne (by simp)]
    rfl

theorem slot_take (capacity : ℕ+) {i : Fin numWorkers} (k : ℤ → Caller) (hidle : s.client i = .dup) :
    ({ s with queue := { s.queue.goto (some i)
          (.deqSignal (s.queue.shared.queue.fds s.queue.shared.queue.head) k) with
        shared := take capacity s.queue.shared } } : Descriptors numWorkers).slot =
      Function.update (Function.update s.slot (.queued s.queue.shared.dequeued.length) none)
        (.conn i) (some (s.queue.shared.queue.fds s.queue.shared.queue.head)) := by
  funext x
  cases x with
  | main =>
    rw [Function.update_of_ne (by simp), Function.update_of_ne (by simp), Descriptors.slot,
      Config.goto_of_ne (by simp)]
    rfl
  | queued n =>
    rw [Function.update_of_ne (by simp)]
    by_cases hn : n = s.queue.shared.dequeued.length
    · subst hn
      rw [Function.update_self]
      simp [Descriptors.slot, take]
    · rw [Function.update_of_ne (by simpa using hn)]
      simp only [Descriptors.slot, take, List.length_append, List.length_singleton]
      by_cases hle : s.queue.shared.dequeued.length ≤ n
      · rw [if_pos hle, if_pos (by omega)]
      · rw [if_neg hle, if_neg (by omega)]
  | conn j =>
    by_cases hj : j = i
    · subst hj
      rw [Function.update_self]
      simp only [Descriptors.slot]
      rw [hidle, Config.goto_self]
      rfl
    · rw [Function.update_of_ne (by simpa using hj), Function.update_of_ne (by simp)]
      simp only [Descriptors.slot]
      rw [Config.goto_of_ne (by simpa using hj)]
  | _ =>
    rw [Function.update_of_ne (by simp), Function.update_of_ne (by simp)]
    rfl

theorem Tidy.store (h : Tidy capacity fds s) {q : State numWorkers} {fd : ℤ} {k : Caller}
    (hstep : Step (server capacity numWorkers) s.queue q)
    (hat : s.queue.status none = .running (.enqStore fd k))
    (hq : q = { s.queue.goto none (.enqSignal k) with
      shared := store capacity fd s.queue.shared })
    (hidle : ∀ i, (∀ conn, q.status (some i) ≠ .running (.caller (.workerClient conn))) →
      s.client i = .dup) : Tidy capacity fds { s with queue := q } := by
  have hfifo := (h.asserts.held hat rfl).1.fifo
  have hle : s.queue.shared.dequeued.length ≤ s.queue.shared.enqueued.length := by
    rw [hfifo.enqueued_eq, List.length_append]
    omega
  have hmain : s.slot .main = some fd := by
    rw [Descriptors.slot, hat]
    rfl
  have hnone : s.slot (.queued s.queue.shared.enqueued.length) = none := by
    simp [Descriptors.slot]
  have hslot := slot_store capacity fd k hle
  have hlength : q.shared.enqueued.length = s.queue.shared.enqueued.length + 1 := by
    rw [hq]
    exact List.length_append
  have hdequeued : q.shared.dequeued = s.queue.shared.dequeued := by
    rw [hq]
    rfl
  rw [← hq] at hslot
  have hfile : ({ s with queue := q } : Descriptors numWorkers).file =
      Function.update (Function.update s.file .main none)
        (.queued s.queue.shared.enqueued.length) (s.file .main) := by
    rw [Descriptors.file, hslot]
    exact refers_move _ _ hmain
  refine ⟨h.queue.tail hstep, ?_, hidle, ?_, ?_, ?_, ?_, ?_, ?_⟩
  · rw [hslot]
    exact h.balanced.move hmain hnone
  · rw [hfile]
    exact h.listener
  · rw [hfile]
    intro f hf
    cases hf
  · rw [hfile]
    intro n f hf
    by_cases hn : n = s.queue.shared.enqueued.length
    · rw [hn, Function.update_self] at hf
      rw [hn]
      exact h.main f hf
    · rw [Function.update_of_ne (by simpa using hn)] at hf
      exact h.queued n f hf
  · rw [hslot, hfile, hdequeued]
    exact h.serving
  · rw [hfile]
    exact h.copied
  · rw [hfile]
    exact h.alone

/-- A worker without a connection has no copy either. -/
theorem Tidy.client_of_away (h : Tidy capacity fds s) {i : Fin numWorkers} {l : Pc Caller}
    (hat : s.queue.status (some i) = .running l) (hl : ∀ conn, l ≠ .caller (.workerClient conn)) :
    s.client i = .dup := by
  apply h.idle
  intro conn hconn
  rw [hat] at hconn
  cases hconn
  exact hl conn rfl

theorem Tidy.file_queued (h : Tidy capacity fds s) {n : ℕ} {fd : ℤ}
    (hslot : s.slot (.queued n) = some fd) : s.file (.queued n) = some (.connection n) := by
  obtain ⟨f, hf⟩ := h.balanced.used hslot
  have hfile : s.file (.queued n) = some f := (refers_of_slot hslot).trans hf
  rw [hfile, h.queued n f hfile]

/-- The connections that workers have are among those taken so far. -/
theorem Tidy.not_yet_served (h : Tidy capacity fds s) (j : Fin numWorkers) :
    s.file (.conn j) ≠ some (.connection s.queue.shared.dequeued.length) := by
  intro hj
  cases hslot : s.slot (.conn j) with
  | none =>
    rw [Descriptors.file, refers_of_none hslot] at hj
    cases hj
  | some fd =>
    obtain ⟨n, hn, hfile⟩ := h.serving j fd hslot
    rw [hfile] at hj
    cases hj
    rw [List.getElem?_eq_none le_rfl] at hn
    cases hn

/-- What the numbers refer to after a worker has taken one. -/
theorem Tidy.file_take (h : Tidy capacity fds s) {i : Fin numWorkers} (k : ℤ → Caller)
    (hnext : s.slot (.queued s.queue.shared.dequeued.length) =
      some (s.queue.shared.queue.fds s.queue.shared.queue.head)) (hdup : s.client i = .dup) :
    ({ s with queue := { s.queue.goto (some i)
          (.deqSignal (s.queue.shared.queue.fds s.queue.shared.queue.head) k) with
        shared := take capacity s.queue.shared } } : Descriptors numWorkers).file =
      Function.update (Function.update s.file (.queued s.queue.shared.dequeued.length) none)
        (.conn i) (some (.connection s.queue.shared.dequeued.length)) := by
  rw [← h.file_queued hnext, Descriptors.file, slot_take capacity k hdup]
  exact refers_move _ _ hnext

theorem Tidy.take (h : Tidy capacity fds s) {q : State numWorkers} {i : Fin numWorkers}
    {k : ℤ → Caller} (hstep : Step (server capacity numWorkers) s.queue q)
    (hat : s.queue.status (some i) = .running (.deqTake k))
    (hq : q = { s.queue.goto (some i)
        (.deqSignal (s.queue.shared.queue.fds s.queue.shared.queue.head) k) with
      shared := take capacity s.queue.shared })
    (hidle : ∀ i, (∀ conn, q.status (some i) ≠ .running (.caller (.workerClient conn))) →
      s.client i = .dup) : Tidy capacity fds { s with queue := q } := by
  obtain ⟨hinv, hsome⟩ := h.asserts.held hat rfl
  have hdup := h.client_of_away hat (fun conn => by simp)
  have hnext : s.slot (.queued s.queue.shared.dequeued.length) =
      some (s.queue.shared.queue.fds s.queue.shared.queue.head) := by
    rw [Descriptors.slot, if_pos le_rfl, hinv.fifo.getElem?_head hsome]
  have hconn : s.slot (.conn i) = none := by
    rw [Descriptors.slot, hdup, hat]
    rfl
  have hcopy : s.file (.copy i) = none := by
    apply refers_of_none
    rw [Descriptors.slot, hdup]
    rfl
  have hslot := slot_take capacity k hdup
  have hfile := h.file_take k hnext hdup
  have henqueued : q.shared.enqueued = s.queue.shared.enqueued := by
    rw [hq]
    rfl
  have hdequeued : q.shared.dequeued = s.queue.shared.dequeued ++
      [s.queue.shared.queue.fds s.queue.shared.queue.head] := by
    rw [hq]
    rfl
  rw [← hq] at hslot hfile
  have hself : ({ s with queue := q } : Descriptors numWorkers).file (.conn i) =
      some (.connection s.queue.shared.dequeued.length) := by
    rw [hfile, Function.update_self]
  have hothers : ∀ j, j ≠ i → ({ s with queue := q } : Descriptors numWorkers).file (.conn j) =
      s.file (.conn j) := by
    intro j hj
    rw [hfile, Function.update_of_ne (by simpa using hj), Function.update_of_ne (by simp)]
  refine ⟨h.queue.tail hstep, ?_, hidle, ?_, ?_, ?_, ?_, ?_, ?_⟩
  · rw [hslot]
    exact h.balanced.move hnext hconn
  · rw [hfile]
    exact h.listener
  · rw [hfile, henqueued]
    exact h.main
  · intro n f hf
    rw [hfile, Function.update_of_ne (by simp)] at hf
    by_cases hn : n = s.queue.shared.dequeued.length
    · rw [hn, Function.update_self] at hf
      cases hf
    · rw [Function.update_of_ne (by simpa using hn)] at hf
      exact h.queued n f hf
  · intro j fd hfd
    dsimp only
    rw [hdequeued]
    by_cases hj : j = i
    · rw [hj, hslot, Function.update_self] at hfd
      cases hfd
      rw [hj]
      exact ⟨_, List.getElem?_concat_length, hself⟩
    · rw [hslot, Function.update_of_ne (by simpa using hj), Function.update_of_ne (by simp)] at hfd
      obtain ⟨n, hn, hfilej⟩ := h.serving j fd hfd
      have hlt := (List.getElem?_eq_some_iff.mp hn).1
      rw [hothers j hj]
      exact ⟨n, by rw [List.getElem?_append_left hlt, hn], hfilej⟩
  · intro j f hf
    rw [hfile, Function.update_of_ne (by simp), Function.update_of_ne (by simp)] at hf
    have hj : j ≠ i := by
      intro heq
      rw [heq, hcopy] at hf
      cases hf
    rw [hothers j hj]
    exact h.copied j f hf
  · intro j j' f hf hf'
    by_cases hj : j = i <;> by_cases hj' : j' = i
    · rw [hj, hj']
    · rw [hj, hself] at hf
      rw [hothers j' hj', ← hf] at hf'
      exact absurd hf' (h.not_yet_served j')
    · rw [hj', hself] at hf'
      rw [hothers j hj, ← hf'] at hf
      exact absurd hf (h.not_yet_served j)
    · rw [hothers j hj] at hf
      rw [hothers j' hj'] at hf'
      exact h.alone j j' f hf hf'

/-- A step of the threads that neither accepts a connection nor ends a client. -/
theorem Tidy.run (h : Tidy capacity fds s) {q : State numWorkers}
    (hstep : Step (server capacity numWorkers) s.queue q)
    (haccept : ∀ conn, q.status none = .running (.caller (.mainEnqueue conn)) →
      s.queue.status none = q.status none)
    (hstay : ∀ i conn, s.queue.status (some i) = .running (.caller (.workerClient conn)) →
      q.status (some i) = s.queue.status (some i)) :
    Tidy capacity fds { s with queue := q } := by
  have hidle : ∀ i, (∀ conn, q.status (some i) ≠ .running (.caller (.workerClient conn))) →
      s.client i = .dup := by
    intro i hi
    apply h.idle
    intro conn hconn
    exact hi conn ((hstay i conn hconn).trans hconn)
  cases h.handover hstep with
  | quiet hcarries henqueued hdequeued =>
    exact h.stay (.single hstep) (slot_of_carries hcarries henqueued hdequeued) henqueued hdequeued
      hidle
  | accept conn hat hq =>
    have hsame := haccept conn (by rw [hq, Config.goto_self])
    rw [hat, hq, Config.goto_self] at hsame
    cases hsame
  | store fd k hat hq => exact h.store hstep hat hq hidle
  | take i k hat hq => exact h.take hstep hat hq hidle
  | leave i conn hat hq =>
    have hsame := hstay i conn hat
    rw [hat, hq, Config.goto_self] at hsame
    cases hsame

/-- `main` gets to an `fd` to enqueue by an `accept` that returns it. -/
theorem Handover.of_accept {a b : State numWorkers} {conn : ℕ} (h : Handover capacity a b)
    (hat : a.status none = .running (.caller .mainAccept))
    (hconn : b.status none = .running (.caller (.mainEnqueue conn))) :
    b = a.goto none (.caller (.mainEnqueue conn)) := by
  have hmoved : b.status none ≠ a.status none := by
    rw [hat, hconn]
    simp
  cases h with
  | quiet hcarries henqueued hdequeued =>
    have hnone := hcarries none
    rw [hat, hconn] at hnone
    cases hnone
  | accept conn' hat' hq =>
    rw [hq, Config.goto_self] at hconn
    cases hconn
    exact hq
  | store fd k hat' hq =>
    rw [hat] at hat'
    cases hat'
  | take i k hat' hq =>
    refine absurd ?_ hmoved
    rw [hq]
    simp [Config.goto]
  | leave i conn' hat' hq =>
    refine absurd ?_ hmoved
    rw [hq]
    simp [Config.goto]

theorem slot_accept (conn : ℕ) (table : ℤ → Option OpenFile) :
    ({ s with
      queue := s.queue.goto none (.caller (.mainEnqueue conn))
      table := table } : Descriptors numWorkers).slot =
      Function.update s.slot .main (some (conn : ℤ)) := by
  funext x
  cases x with
  | main =>
    rw [Function.update_self, Descriptors.slot, Config.goto_self]
    rfl
  | conn i =>
    rw [Function.update_of_ne (by simp)]
    simp only [Descriptors.slot]
    rw [Config.goto_of_ne (by simp)]
  | _ =>
    rw [Function.update_of_ne (by simp)]
    rfl

theorem Tidy.accept (h : Tidy capacity fds s) {q : State numWorkers} {conn : ℕ}
    (hstep : Step (server capacity numWorkers) s.queue q)
    (hat : s.queue.status none = .running (.caller .mainAccept))
    (hconn : q.status none = .running (.caller (.mainEnqueue conn)))
    (hfree : s.table conn = none) :
    Tidy capacity fds { s with
      queue := q
      table := Function.update s.table (conn : ℤ)
        (some (.connection s.queue.shared.enqueued.length)) } := by
  obtain rfl := (h.handover hstep).of_accept hat hconn
  have hnone : s.slot .main = none := by
    rw [Descriptors.slot, hat]
    rfl
  have hslot := slot_accept (s := s) conn (Function.update s.table (conn : ℤ)
    (some (.connection s.queue.shared.enqueued.length)))
  have hfile : ({ s with
      queue := s.queue.goto none (.caller (.mainEnqueue conn))
      table := Function.update s.table (conn : ℤ)
        (some (.connection s.queue.shared.enqueued.length)) } : Descriptors numWorkers).file =
      Function.update s.file .main (some (.connection s.queue.shared.enqueued.length)) := by
    rw [Descriptors.file, hslot]
    exact h.balanced.refers_open hfree _
  refine ⟨h.queue.tail hstep, ?_, fun i hi => ?_, ?_, ?_, ?_, ?_, ?_, ?_⟩
  · rw [hslot]
    exact h.balanced.open hfree hnone _
  · apply h.idle
    intro c hc
    exact hi c ((Config.goto_of_ne (by simp)).trans hc)
  · rw [hfile]
    exact h.listener
  · rw [hfile, Function.update_self]
    intro f hf
    exact (Option.some.inj hf).symm
  · rw [hfile]
    exact h.queued
  · rw [hslot, hfile]
    exact h.serving
  · rw [hfile]
    exact h.copied
  · rw [hfile]
    exact h.alone

end CpreLabs.Server
