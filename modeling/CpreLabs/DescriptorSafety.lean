import CpreLabs.DescriptorAccounts

/-!
# No descriptor is used for another

`handle_client` and the `close` after it, with the worker's own numbers only. So whatever a worker
reads, writes or closes belongs to the connection it has taken, however often the numbers come back.
-/
namespace CpreLabs.Server
open Pthread WorkQueue Relation Handles

variable {capacity numWorkers : ℕ+} {fds : ℤ → ℤ} {listenFd : ℕ} {s : Descriptors numWorkers}
  {i : Fin numWorkers} {conn : ℤ} {p p' : ClientPoint}

theorem slot_conn (hat : s.queue.status (some i) = .running (.caller (.workerClient conn)))
    (hp : s.client i = p) (hopen : p ≠ .closed) : s.slot (.conn i) = some conn := by
  simp only [Descriptors.slot]
  rw [hat, hp]
  cases p with
  | closed => exact absurd rfl hopen
  | _ => rfl

/-- Between `dup` and `close` only the copy changes. -/
theorem slot_copy (p' : ClientPoint) (hp : s.client i = p) (hopen : p ≠ .closed) (hopen' : p' ≠ .closed)
    (table : ℤ → Option OpenFile) :
    (Descriptors.mk s.queue table (Function.update s.client i p') s.listenFd s.lost).slot =
      Function.update s.slot (.copy i) p'.copy := by
  funext x
  cases x with
  | conn j =>
    rw [Function.update_of_ne (by simp)]
    simp only [Descriptors.slot]
    by_cases hj : j = i
    · subst hj
      rw [Function.update_self, hp]
      cases p with
      | closed => exact absurd rfl hopen
      | _ =>
        cases p' with
        | closed => exact absurd rfl hopen'
        | _ => rfl
    · rw [Function.update_of_ne hj]
  | copy j =>
    by_cases hj : j = i
    · subst hj
      rw [Function.update_self]
      exact congrArg ClientPoint.copy (Function.update_self ..)
    · rw [Function.update_of_ne (by simpa using hj)]
      exact congrArg ClientPoint.copy (Function.update_of_ne hj _ _)
  | _ =>
    rw [Function.update_of_ne (by simp)]
    rfl

theorem slot_closed (hp : s.client i = .close) (table : ℤ → Option OpenFile) :
    (Descriptors.mk s.queue table (Function.update s.client i .closed) s.listenFd s.lost).slot =
      Function.update s.slot (.conn i) none := by
  funext x
  cases x with
  | conn j =>
    simp only [Descriptors.slot]
    by_cases hj : j = i
    · subst hj
      rw [Function.update_self, Function.update_self]
    · rw [Function.update_of_ne hj, Function.update_of_ne (by simpa using hj)]
      rfl
  | copy j =>
    rw [Function.update_of_ne (by simp)]
    by_cases hj : j = i
    · subst hj
      simp only [Descriptors.slot]
      rw [Function.update_self, hp]
      rfl
    · exact congrArg ClientPoint.copy (Function.update_of_ne hj _ _)
  | _ =>
    rw [Function.update_of_ne (by simp)]
    rfl

theorem slot_lost {copy : ℕ} (hp : s.client i = .fdopen (some copy)) :
    (Descriptors.mk s.queue s.table (Function.update s.client i .close) s.listenFd
        (s.lost ++ [(copy : ℤ)])).slot =
      Function.update (Function.update s.slot (.copy i) none) (.lost s.lost.length)
        (some (copy : ℤ)) := by
  have hslot := slot_copy .close hp (by simp) (by simp) s.table
  funext x
  cases x with
  | lost k =>
    by_cases hk : k = s.lost.length
    · subst hk
      rw [Function.update_self]
      exact List.getElem?_concat_length
    · rw [Function.update_of_ne (by simpa using hk), Function.update_of_ne (by simp)]
      simp only [Descriptors.slot]
      by_cases hlt : k < s.lost.length
      · rw [List.getElem?_append_left hlt]
      · rw [List.getElem?_eq_none (by simp; omega), List.getElem?_eq_none (by omega)]
  | listener =>
    rw [Function.update_of_ne (by simp)]
    exact congrFun hslot .listener
  | main =>
    rw [Function.update_of_ne (by simp)]
    exact congrFun hslot .main
  | queued k =>
    rw [Function.update_of_ne (by simp)]
    exact congrFun hslot (.queued k)
  | conn j =>
    rw [Function.update_of_ne (by simp)]
    exact congrFun hslot (.conn j)
  | copy j =>
    rw [Function.update_of_ne (by simp)]
    exact congrFun hslot (.copy j)

/-- What the workers refer to stays the same, but for one copy, which is of its connection. -/
theorem Tidy.copy_step (h : Tidy capacity fds s)
    (hat : s.queue.status (some i) = .running (.caller (.workerClient conn)))
    {table : ℤ → Option OpenFile} {lost : List ℤ} {v : Option OpenFile} {s' : Descriptors numWorkers}
    (hs' : s' = ⟨s.queue, table, Function.update s.client i p', s.listenFd, lost⟩)
    (hbalanced : Balanced s'.table s'.slot)
    (hslot : ∀ j, s'.slot (.conn j) = s.slot (.conn j))
    (hfile : ∀ x, x ≠ .copy i → (∀ k, x ≠ .lost k) → s'.file x = s.file x)
    (hcopy : s'.file (.copy i) = v) (hv : ∀ f, v = some f → s.file (.conn i) = some f) :
    Tidy capacity fds s' := by
  have hconn : ∀ j, s'.file (.conn j) = s.file (.conn j) := fun j => hfile _ (by simp) (by simp)
  refine ⟨?_, hbalanced, fun j hj => ?_, ?_, ?_, fun k => ?_, fun j fd hfd => ?_, fun j f hf => ?_,
    fun j j' f hf hf' => ?_⟩
  · rw [hs']
    exact h.queue
  · rw [hs'] at hj ⊢
    by_cases hji : j = i
    · rw [hji] at hj
      exact absurd hat (hj conn)
    · exact (Function.update_of_ne hji _ _).trans (h.idle j hj)
  · rw [hfile _ (by simp) (by simp)]
    exact h.listener
  · rw [hfile _ (by simp) (by simp), hs']
    exact h.main
  · rw [hfile _ (by simp) (by simp)]
    exact h.queued k
  · rw [hslot] at hfd
    rw [hconn, hs']
    exact h.serving j fd hfd
  · rw [hconn]
    by_cases hji : j = i
    · rw [hji, hcopy] at hf
      rw [hji]
      exact hv f hf
    · rw [hfile _ (by simpa using hji) (by simp)] at hf
      exact h.copied j f hf
  · rw [hconn] at hf hf'
    exact h.alone j j' f hf hf'

theorem Tidy.client_stay (h : Tidy capacity fds s)
    (hat : s.queue.status (some i) = .running (.caller (.workerClient conn)))
    (hp : s.client i = p) (hopen : p ≠ .closed) (hopen' : p' ≠ .closed) (hcopy : p'.copy = p.copy) :
    Tidy capacity fds ⟨s.queue, s.table, Function.update s.client i p', s.listenFd, s.lost⟩ := by
  apply h.stay .refl
  · rw [slot_copy _ hp hopen hopen', hcopy, ← hp]
    exact Function.update_eq_self _ _
  · rfl
  · rfl
  · intro j hj
    by_cases hji : j = i
    · rw [hji] at hj
      exact absurd hat (hj conn)
    · rw [Function.update_of_ne hji]
      exact h.idle j hj

theorem Tidy.dup (h : Tidy capacity fds s)
    (hat : s.queue.status (some i) = .running (.caller (.workerClient conn)))
    (hp : s.client i = .dup) {file : OpenFile} {copy : ℕ} (hopen : s.table conn = some file)
    (hfree : s.table copy = none) :
    Tidy capacity fds ⟨s.queue, Function.update s.table (copy : ℤ) (some file),
      Function.update s.client i (.fdopen (some copy)), s.listenFd, s.lost⟩ := by
  have hnone : s.slot (.copy i) = none := congrArg ClientPoint.copy hp
  have hslot := slot_copy (.fdopen (some copy)) hp (by simp) (by simp)
    (Function.update s.table (copy : ℤ) (some file))
  have hfile := h.balanced.refers_open (x := .copy i) hfree file
  apply h.copy_step (v := some file) hat rfl
  · rw [hslot]
    exact h.balanced.open hfree hnone file
  · intro j
    rw [hslot, Function.update_of_ne (by simp)]
  · intro x hx _
    rw [Descriptors.file, hslot]
    exact (congrFun hfile x).trans (Function.update_of_ne hx _ _)
  · rw [Descriptors.file, hslot]
    exact (congrFun hfile _).trans (Function.update_self ..)
  · intro f hf
    rw [← hf, ← hopen]
    exact refers_of_slot (slot_conn hat hp (by simp))

theorem Tidy.fdopenFails (h : Tidy capacity fds s)
    (hat : s.queue.status (some i) = .running (.caller (.workerClient conn))) {copy : ℕ}
    (hp : s.client i = .fdopen (some copy)) :
    Tidy capacity fds ⟨s.queue, s.table, Function.update s.client i .close, s.listenFd,
      s.lost ++ [(copy : ℤ)]⟩ := by
  have hcopy : s.slot (.copy i) = some (copy : ℤ) := congrArg ClientPoint.copy hp
  have hnone : s.slot (.lost s.lost.length) = none := List.getElem?_eq_none le_rfl
  have hslot := slot_lost hp
  have hfile := refers_move s.table (.lost s.lost.length) hcopy
  apply h.copy_step (v := none) hat rfl
  · rw [hslot]
    exact h.balanced.move hcopy hnone
  · intro j
    rw [hslot, Function.update_of_ne (by simp), Function.update_of_ne (by simp)]
  · intro x hx hlost
    rw [Descriptors.file, hslot]
    apply (congrFun hfile x).trans
    rw [Function.update_of_ne (hlost _), Function.update_of_ne hx]
    rfl
  · rw [Descriptors.file, hslot]
    apply (congrFun hfile _).trans
    rw [Function.update_of_ne (by simp), Function.update_self]
  · intro f hf
    cases hf

theorem Tidy.fclose (h : Tidy capacity fds s)
    (hat : s.queue.status (some i) = .running (.caller (.workerClient conn))) {copy : ℕ}
    (hp : s.client i = .fclose copy) :
    Tidy capacity fds ⟨s.queue, Function.update s.table (copy : ℤ) none,
      Function.update s.client i .close, s.listenFd, s.lost⟩ := by
  have hcopy : s.slot (.copy i) = some (copy : ℤ) := congrArg ClientPoint.copy hp
  have hslot := slot_copy .close hp (by simp) (by simp)
    (Function.update s.table (copy : ℤ) none)
  have hfile := h.balanced.refers_close hcopy
  apply h.copy_step (v := none) hat rfl
  · rw [hslot]
    exact h.balanced.close hcopy
  · intro j
    rw [hslot, Function.update_of_ne (by simp)]
  · intro x hx _
    rw [Descriptors.file, hslot]
    exact (congrFun hfile x).trans (Function.update_of_ne hx _ _)
  · rw [Descriptors.file, hslot]
    exact (congrFun hfile _).trans (Function.update_self ..)
  · intro f hf
    cases hf

theorem Tidy.close (h : Tidy capacity fds s)
    (hat : s.queue.status (some i) = .running (.caller (.workerClient conn)))
    (hp : s.client i = .close) :
    Tidy capacity fds ⟨s.queue, Function.update s.table conn none,
      Function.update s.client i .closed, s.listenFd, s.lost⟩ := by
  have hconn : s.slot (.conn i) = some conn := slot_conn hat hp (by simp)
  have hcopy : s.file (.copy i) = none := refers_of_none (congrArg ClientPoint.copy hp)
  have hslot := slot_closed hp (Function.update s.table conn none)
  have hfile : (Descriptors.mk s.queue (Function.update s.table conn none)
      (Function.update s.client i .closed) s.listenFd s.lost).file =
        Function.update s.file (.conn i) none := by
    rw [Descriptors.file, hslot]
    exact h.balanced.refers_close hconn
  have hothers : ∀ j f, Function.update s.file (.conn i) none (.conn j) = some f →
      s.file (.conn j) = some f := by
    intro j f hf
    by_cases hj : j = i
    · rw [hj, Function.update_self] at hf
      cases hf
    · rwa [Function.update_of_ne (by simpa using hj)] at hf
  refine ⟨h.queue, ?_, fun j hj => ?_, ?_, ?_, ?_, fun j fd hfd => ?_, fun j f hf => ?_,
    fun j j' f hf hf' => ?_⟩
  · rw [hslot]
    exact h.balanced.close hconn
  · by_cases hji : j = i
    · rw [hji] at hj
      exact absurd hat (hj conn)
    · exact (Function.update_of_ne hji _ _).trans (h.idle j hj)
  · rw [hfile]
    exact h.listener
  · rw [hfile]
    exact h.main
  · rw [hfile]
    exact h.queued
  · rw [hslot] at hfd
    have hj : j ≠ i := by
      intro heq
      rw [heq, Function.update_self] at hfd
      cases hfd
    rw [Function.update_of_ne (by simpa using hj)] at hfd
    rw [hfile, Function.update_of_ne (by simpa using hj)]
    exact h.serving j fd hfd
  · rw [hfile, Function.update_of_ne (by simp)] at hf
    have hj : j ≠ i := by
      intro heq
      rw [heq, hcopy] at hf
      cases hf
    rw [hfile, Function.update_of_ne (by simpa using hj)]
    exact h.copied j f hf
  · rw [hfile] at hf hf'
    exact h.alone j j' f (hothers j f hf) (hothers j' f hf')

theorem Tidy.client_step (h : Tidy capacity fds s)
    (hat : s.queue.status (some i) = .running (.caller (.workerClient conn)))
    {table : ℤ → Option OpenFile} {lost : List ℤ}
    (hstep : ClientStep conn (s.client i) s.table s.lost p table lost) :
    Tidy capacity fds ⟨s.queue, table, Function.update s.client i p, s.listenFd, lost⟩ := by
  generalize hp : s.client i = p₀ at hstep
  cases hstep with
  | dup hopen hfree => exact h.dup hat hp hopen hfree
  | dupFails | fdopen | fdopenNothing | lastLine =>
    exact h.client_stay hat hp (by simp) (by simp) rfl
  | fdopenFails => exact h.fdopenFails hat hp
  | fclose => exact h.fclose hat hp
  | close => exact h.close hat hp

theorem Tidy.leave (h : Tidy capacity fds s) {q : State numWorkers}
    (hstep : Step (server capacity numWorkers) s.queue q)
    (hat : s.queue.status (some i) = .running (.caller (.workerClient conn)))
    (hclosed : s.client i = .closed) (hleft : q.status (some i) = .running (.caller .workerLoop)) :
    Tidy capacity fds { s with
      queue := q
      client := Function.update s.client i .dup } := by
  obtain rfl : q = s.queue.goto (some i) (.caller .workerLoop) := by
    cases h.handover hstep with
    | quiet hcarries _ _ =>
      have hnone := hcarries (some i)
      rw [hat, hleft] at hnone
      cases hnone
    | accept conn' hat' hq =>
      rw [hq, Config.goto_of_ne (Option.some_ne_none i), hat] at hleft
      cases hleft
    | store fd k hat' hq =>
      have hsame : q.status (some i) = s.queue.status (some i) := by
        rw [hq]
        simp [Config.goto]
      rw [hat, hleft] at hsame
      cases hsame
    | take j k hat' hq =>
      have hsame : q.status (some i) = s.queue.status (some i) := by
        have hne : i ≠ j := by
          intro heq
          rw [← heq, hat] at hat'
          cases hat'
        rw [hq]
        simp [Config.goto, hne]
      rw [hat, hleft] at hsame
      cases hsame
    | leave j conn' hat' hq =>
      by_cases hij : i = j
      · rw [hij]
        exact hq
      · rw [hq, Config.goto_of_ne (by simpa using hij), hat] at hleft
        cases hleft
  apply h.stay (.single hstep)
  · funext x
    cases x with
    | main =>
      simp only [Descriptors.slot]
      rw [Config.goto_of_ne (Option.some_ne_none i).symm]
    | conn j =>
      simp only [Descriptors.slot]
      by_cases hj : j = i
      · rw [hj, Function.update_self, Config.goto_self, hclosed]
        rfl
      · rw [Function.update_of_ne hj, Config.goto_of_ne (by simpa using hj)]
    | copy j =>
      simp only [Descriptors.slot]
      by_cases hj : j = i
      · rw [hj, Function.update_self, hclosed]
        rfl
      · rw [Function.update_of_ne hj]
    | _ => rfl
  · rfl
  · rfl
  · intro j hj
    by_cases hji : j = i
    · rw [hji, Function.update_self]
    · rw [Function.update_of_ne hji]
      apply h.idle
      intro c hc
      exact hj c ((Config.goto_of_ne (by simpa using hji)).trans hc)

theorem Tidy.closeListener (h : Tidy capacity fds s) {fd : ℤ} (hfd : s.listenFd = some fd) :
    Tidy capacity fds { s with
      table := Function.update s.table fd none
      listenFd := none } := by
  have hslot : ({ s with
      table := Function.update s.table fd none
      listenFd := none } : Descriptors numWorkers).slot = Function.update s.slot .listener none := by
    funext x
    cases x with
    | listener => rw [Function.update_self]; rfl
    | _ =>
      rw [Function.update_of_ne (by simp)]
      rfl
  have hfile : ({ s with
      table := Function.update s.table fd none
      listenFd := none } : Descriptors numWorkers).file = Function.update s.file .listener none := by
    rw [Descriptors.file, hslot]
    exact h.balanced.refers_close hfd
  refine ⟨h.queue, ?_, h.idle, ?_, ?_, ?_, ?_, ?_, ?_⟩
  · rw [hslot]
    exact h.balanced.close hfd
  · rw [hfile, Function.update_self]
    intro f hf
    cases hf
  · rw [hfile]
    exact h.main
  · rw [hfile]
    exact h.queued
  · rw [hslot, hfile]
    exact h.serving
  · rw [hfile]
    exact h.copied
  · rw [hfile]
    exact h.alone

theorem tidy_of_reachable (h : DescriptorsReachable capacity fds listenFd s) :
    Tidy capacity fds s := by
  induction h with
  | refl => exact tidy_start
  | tail _ hstep ih =>
    cases hstep with
    | run hstep haccept hstay => exact ih.run hstep haccept hstay
    | accept hstep hat hconn hfree => exact ih.accept hstep hat hconn hfree
    | client hat hstep => exact ih.client_step hat hstep
    | leave hstep hat hclosed hleft => exact ih.leave hstep hat hclosed hleft
    | closeListener _ hfd => exact ih.closeListener hfd

/-- The descriptors that the statements of a worker use. -/
def ClientPoint.uses (conn : ℤ) : ClientPoint → List ℤ
  | .dup | .close | .fdopen none => [conn]
  | .fdopen (some copy) | .serve copy => [(copy : ℤ), conn]
  | .fclose copy => [(copy : ℤ)]
  | .closed => []

theorem Tidy.uses (h : Tidy capacity fds s)
    (hat : s.queue.status (some i) = .running (.caller (.workerClient conn)))
    (hopen : s.client i ≠ .closed) {k : ℕ} (hk : s.file (.conn i) = some (.connection k)) :
    ∀ fd ∈ (s.client i).uses conn, s.table fd = some (.connection k) := by
  have hconn : s.table conn = some (.connection k) := by
    rw [← hk]
    exact (refers_of_slot (slot_conn hat rfl hopen)).symm
  have hcopy : ∀ copy : ℤ, (s.client i).copy = some copy → s.table copy = some (.connection k) := by
    intro copy hcopy
    have hslot : s.slot (.copy i) = some copy := hcopy
    obtain ⟨f, hf⟩ := h.balanced.used hslot
    have hfile : s.file (.copy i) = some f := (refers_of_slot hslot).trans hf
    rw [hf, ← hk]
    exact (h.copied i f hfile).symm
  intro fd hfd
  cases hp : s.client i with
  | dup | close =>
    rw [hp] at hfd
    rw [List.mem_singleton.mp hfd, hconn]
  | fdopen copy =>
    rw [hp] at hfd hcopy
    cases copy with
    | none => rw [List.mem_singleton.mp hfd, hconn]
    | some copy =>
      rcases List.mem_cons.mp hfd with rfl | hfd
      · exact hcopy _ rfl
      · rw [List.mem_singleton.mp hfd, hconn]
  | serve copy =>
    rw [hp] at hfd hcopy
    rcases List.mem_cons.mp hfd with rfl | hfd
    · exact hcopy _ rfl
    · rw [List.mem_singleton.mp hfd, hconn]
  | fclose copy =>
    rw [hp] at hfd hcopy
    rw [List.mem_singleton.mp hfd]
    exact hcopy _ rfl
  | closed => exact absurd hp hopen

/-- When `main` has joined the workers, nobody holds a descriptor but the queue. -/
theorem Tidy.slot_joined (h : Tidy capacity fds s) (hjoined : Joined s.queue)
    (hlisten : s.listenFd = none) {x : Slot numWorkers} {fd : ℤ} (hx : s.slot x = some fd) :
    (∃ k, x = .queued k) ∨ ∃ k, x = .lost k := by
  have hworker : ∀ j, s.queue.status (some j) = .running (.caller .workerReturn) := fun j =>
    returned_of_mainJoin h.queue hjoined j j.isLt
  have hdup : ∀ j, s.client j = .dup := by
    intro j
    apply h.idle
    intro c hc
    rw [hworker] at hc
    cases hc
  cases x with
  | listener =>
    rw [Descriptors.slot, hlisten] at hx
    cases hx
  | main =>
    simp only [Descriptors.slot] at hx
    rw [hjoined] at hx
    cases hx
  | queued k => exact Or.inl ⟨k, rfl⟩
  | conn j =>
    simp only [Descriptors.slot] at hx
    rw [hdup, hworker] at hx
    cases hx
  | copy j =>
    simp only [Descriptors.slot] at hx
    rw [hdup] at hx
    cases hx
  | lost k => exact Or.inr ⟨k, rfl⟩

/-- In every run of the server: an open descriptor is in one place, what a worker uses is its own
connection, the queue holds its connections in order, and at the end of `main` what is open is what
was left in the queue and what a failed `fdopen` has lost. -/
theorem descriptors_safe (h : DescriptorsReachable capacity fds listenFd s) :
    (∀ fd, (∃ f, s.table fd = some f) ↔ ∃! x, s.slot x = some fd) ∧
    (∀ i conn, s.queue.status (some i) = .running (.caller (.workerClient conn)) →
      s.client i ≠ .closed → ∃ k, s.queue.shared.dequeued[k]? = some conn ∧
        (∀ fd ∈ (s.client i).uses conn, s.table fd = some (.connection k)) ∧
        ∀ j, j ≠ i → s.file (.conn j) ≠ some (.connection k)) ∧
    (∀ k fd, s.slot (.queued k) = some fd → s.table fd = some (.connection k)) ∧
    (∀ fd, s.listenFd = some fd → s.table fd = some .listener) ∧
    (Joined s.queue → s.listenFd = none → ∀ fd, (∃ f, s.table fd = some f) ↔
      fd ∈ s.queue.shared.enqueued.drop s.queue.shared.dequeued.length ∨ fd ∈ s.lost) := by
  have htidy := tidy_of_reachable h
  have hbalanced := htidy.balanced
  refine ⟨fun fd => ?_, fun i conn hat hopen => ?_, fun k fd hfd => ?_, fun fd hfd => ?_,
    fun hjoined hlisten fd => ?_⟩
  · rw [hbalanced.used_iff]
    constructor
    · intro ⟨x, hx⟩
      exact ⟨x, hx, fun y hy => hbalanced.unique y x fd hy hx⟩
    · intro hone
      exact hone.exists
  · obtain ⟨k, hk, hfile⟩ := htidy.serving i conn (slot_conn hat rfl hopen)
    refine ⟨k, hk, htidy.uses hat hopen hfile, fun j hj hfile' => hj ?_⟩
    exact htidy.alone j i _ hfile' hfile
  · obtain ⟨f, hf⟩ := hbalanced.used hfd
    rw [hf]
    exact congrArg some (htidy.queued k f ((refers_of_slot hfd).trans hf))
  · have hslot : s.slot .listener = some fd := hfd
    obtain ⟨f, hf⟩ := hbalanced.used hslot
    rw [hf]
    exact congrArg some (htidy.listener f ((refers_of_slot hslot).trans hf))
  · rw [hbalanced.used_iff]
    constructor
    · intro ⟨x, hx⟩
      rcases htidy.slot_joined hjoined hlisten hx with ⟨k, rfl⟩ | ⟨k, rfl⟩
      · simp only [Descriptors.slot] at hx
        split at hx
        · obtain ⟨hlt, hget⟩ := List.getElem?_eq_some_iff.mp hx
          refine Or.inl (List.mem_drop_iff_getElem.mpr ⟨k - s.queue.shared.dequeued.length, ?_, ?_⟩)
          · omega
          · rw [← hget]
            congr 1
            omega
        · cases hx
      · exact Or.inr (List.mem_of_getElem? hx)
    · intro hor
      rcases hor with hqueued | hlost
      · obtain ⟨k, hk, hget⟩ := List.mem_drop_iff_getElem.mp hqueued
        refine ⟨.queued (s.queue.shared.dequeued.length + k), ?_⟩
        simp only [Descriptors.slot]
        rw [if_pos (Nat.le_add_right _ _), List.getElem?_eq_getElem (by omega), hget]
      · obtain ⟨k, hk⟩ := List.mem_iff_getElem?.mp hlost
        exact ⟨.lost k, hk⟩

/-- `main` after its first `accept`. -/
def firstAccepted (fds : ℤ → ℤ) (listenFd conn : ℕ) : Descriptors numWorkers where
  queue := ((serverStart numWorkers fds).goto none (.caller .mainAccept)).goto none
    (.caller (.mainEnqueue conn))
  table := Function.update (Function.update (fun _ => none) (listenFd : ℤ) (some .listener))
    (conn : ℤ) (some (.connection 0))
  client _ := .dup
  listenFd := some listenFd
  lost := []

theorem firstAccepted_reachable (capacity : ℕ+) (fds : ℤ → ℤ) {listenFd conn : ℕ} (hne : conn ≠ listenFd) :
    DescriptorsReachable capacity fds listenFd
      (firstAccepted fds listenFd conn : Descriptors numWorkers) := by
  have htest : Step (server capacity numWorkers) (serverStart numWorkers fds)
      ((serverStart numWorkers fds).goto none (.caller .mainAccept)) :=
    .exec (p := server capacity numWorkers) (t := none) (l := .caller .mainTest) rfl rfl
  have haccept : Step (server capacity numWorkers)
      ((serverStart numWorkers fds).goto none (.caller .mainAccept))
      (((serverStart numWorkers fds).goto none (.caller .mainAccept)).goto none
        (.caller (.mainEnqueue conn))) :=
    .choose (t := none) (l := .caller .mainAccept) rfl rfl rfl
  have hrun : DescriptorStep capacity (descriptorsStart fds listenFd : Descriptors numWorkers)
      { descriptorsStart fds listenFd with
        queue := (serverStart numWorkers fds).goto none (.caller .mainAccept) } := by
    refine .run htest (fun c hc => ?_) (fun i c hc => ?_)
    · cases hc
    · cases hc
  have hne' : (conn : ℤ) ≠ listenFd := by
    simpa using hne
  have hfree : (descriptorsStart fds listenFd : Descriptors numWorkers).table conn = none := by
    simp [descriptorsStart, Function.update_of_ne hne']
  exact .tail (.single hrun) (.accept haccept rfl rfl hfree)

/-- The connection that `main` is about to enqueue. -/
def enqueuing (q : State numWorkers) : Option ℕ :=
  match q.status none with
  | .running (.caller (.mainEnqueue conn)) => some conn
  | _ => none

/-- The connection that a worker serves. -/
def servedBy (q : State numWorkers) (i : Fin numWorkers) : Option ℤ :=
  match q.status (some i) with
  | .running (.caller (.workerClient conn)) => some conn
  | _ => none

/-- A schedule as far as no step of it accepts a connection or ends a client. -/
def runThreads (capacity : ℕ+) : State numWorkers → List (Event (Thread numWorkers) (Pc Caller) Unit) →
    Option (State numWorkers)
  | q, [] => some q
  | q, e :: es => (next (server capacity numWorkers) q e).bind fun q' =>
      if enqueuing q' = none ∧ ∀ i, servedBy q i = none then runThreads capacity q' es else none

theorem DescriptorsReachable.runThreads (h : DescriptorsReachable capacity fds listenFd s)
    (es : List (Event (Thread numWorkers) (Pc Caller) Unit)) {q : State numWorkers}
    (hrun : runThreads capacity s.queue es = some q) :
    DescriptorsReachable capacity fds listenFd { s with queue := q } := by
  induction es generalizing s with
  | nil =>
    cases hrun
    exact h
  | cons e es ih =>
    obtain ⟨q', hq', hrest⟩ := Option.bind_eq_some_iff.mp hrun
    obtain ⟨⟨hmain, hworkers⟩, hrest⟩ := Option.ite_none_right_eq_some.mp hrest
    refine ih (s := { s with queue := q' }) (h.tail (.run (step_of_next hq') ?_ ?_)) hrest
    · intro conn hconn
      rw [enqueuing, hconn] at hmain
      cases hmain
    · intro i conn hconn
      have hnone := hworkers i
      rw [servedBy, hconn] at hnone
      cases hnone

/-- `main` stores the connection it has accepted, and a worker takes it. -/
def handOver (i : Fin numWorkers) : List (Event (Thread numWorkers) (Pc Caller) Unit) :=
  List.replicate 5 (.run none) ++ List.replicate 6 (.run (some i))

/-- The worker has duplicated the descriptor of the first connection and reads from the copy. -/
def firstServed (capacity : ℕ+) (fds : ℤ → ℤ) (listenFd conn copy : ℕ) (i : Fin numWorkers) :
    Descriptors numWorkers :=
  let accepted : Descriptors numWorkers := firstAccepted fds listenFd conn
  { accepted with
    queue := (runThreads capacity accepted.queue (handOver i)).getD accepted.queue
    table := Function.update accepted.table (copy : ℤ) (some (.connection 0))
    client := Function.update (Function.update accepted.client i (.fdopen (some copy))) i
      (.serve copy) }

theorem firstServed_reachable :
    DescriptorsReachable 2 (fun _ => 0) 3 (firstServed 2 (fun _ => 0) 3 4 5 0 : Descriptors 1) := by
  have haccepted : DescriptorsReachable 2 (fun _ => 0) 3
      (firstAccepted (fun _ => 0) 3 4 : Descriptors 1) :=
    firstAccepted_reachable 2 (fun _ => 0) (by decide)
  have htaken := haccepted.runThreads (handOver 0) rfl
  have hdup := htaken.tail (.client (i := 0) rfl
    (@ClientStep.dup 4 _ _ (.connection 0) 5 rfl rfl))
  exact hdup.tail (.client (i := 0) rfl .fdopen)

/-- Both numbers that the worker uses stand for the connection it has taken from the queue. -/
theorem descriptors_safe_served :
    let s : Descriptors 1 := firstServed 2 (fun _ => 0) 3 4 5 0
    s.client 0 = .serve 5 ∧ (∃! x, s.slot x = some 4) ∧ (∃! x, s.slot x = some 5) ∧
      ∃ k, s.queue.shared.dequeued[k]? = some 4 ∧
        ∀ fd ∈ [5, 4], s.table fd = some (.connection k) := by
  obtain ⟨hopen, hworkers, -⟩ := descriptors_safe firstServed_reachable
  obtain ⟨k, hk, huses, -⟩ := hworkers 0 4 rfl (fun hclosed => by cases hclosed)
  exact ⟨rfl, (hopen 4).mp ⟨_, rfl⟩, (hopen 5).mp ⟨_, rfl⟩, k, hk, huses⟩

end CpreLabs.Server
