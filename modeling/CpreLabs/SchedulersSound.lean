import CpreLabs.RotatingQueues
import CpreLabs.SchedulerContract

/-!
# The four schedulers meet the contract

`first_come_first_served` and `shortest_remaining_time` read only the table. `round_robin` has
every waiting process once in its queue or on the CPU; `round_robin_priority` has it in the
queue of its priority.
-/
namespace CpreLabs.Lab4
open Rotation

def ReadyAt (proc : Table) (t : ℤ) (i : Pid) : Prop :=
  (proc i).arrivaltime ≤ t ∧ (proc i).finished = false

section Scans

variable {key : Process → ℤ} {proc : Table} {t : ℤ} {seen : Pid → Prop}

/-- The result of a scan: a ready process with the least key of those seen. -/
def LeastReady (key : Process → ℤ) (proc : Table) (t : ℤ) (seen : Pid → Prop) :
    Option Pid → Prop
  | none => ∀ j, seen j → ¬ReadyAt proc t j
  | some i => ReadyAt proc t i ∧ ∀ j, seen j → ReadyAt proc t j → key (proc i) ≤ key (proc j)

theorem LeastReady.mono {seen' : Pid → Prop} {r : Option Pid} (h : LeastReady key proc t seen r)
    (hsub : ∀ j, seen' j → seen j) : LeastReady key proc t seen' r := by
  cases r with
  | none => exact fun j hj => h j (hsub j hj)
  | some i => exact ⟨h.1, fun j hj => h.2 j (hsub j hj)⟩

theorem LeastReady.scanMin {minIndex : Option Pid} (h : LeastReady key proc t seen minIndex)
    (i : Pid) :
    LeastReady key proc t (fun j => j = i ∨ seen j) (scanMin key proc t minIndex i) := by
  unfold Lab4.scanMin
  split
  case isTrue hready =>
    cases minIndex with
    | none =>
      refine ⟨hready, fun j hj hj' => ?_⟩
      rcases hj with rfl | hj
      · exact le_rfl
      · exact absurd hj' (h j hj)
    | some m =>
      obtain ⟨hm, hleast⟩ := h
      simp only
      split
      case isTrue hlt =>
        refine ⟨hready, fun j hj hj' => ?_⟩
        rcases hj with rfl | hj
        · exact le_rfl
        · exact hlt.le.trans (hleast j hj hj')
      case isFalse hle =>
        refine ⟨hm, fun j hj hj' => ?_⟩
        rcases hj with rfl | hj
        · exact not_lt.mp hle
        · exact hleast j hj hj'
  case isFalse hnot =>
    cases minIndex with
    | none =>
      rintro j (rfl | hj)
      · exact hnot
      · exact h j hj
    | some m =>
      refine ⟨h.1, fun j hj hj' => ?_⟩
      rcases hj with rfl | hj
      · exact absurd hj' hnot
      · exact h.2 j hj hj'

theorem LeastReady.foldl {minIndex : Option Pid} (h : LeastReady key proc t seen minIndex)
    (js : List Pid) :
    LeastReady key proc t (fun j => j ∈ js ∨ seen j) (js.foldl (Lab4.scanMin key proc t) minIndex) := by
  induction js generalizing seen minIndex with
  | nil => exact h.mono (fun j hj => hj.resolve_left List.not_mem_nil)
  | cons i js ih =>
    refine (ih (h.scanMin i)).mono (fun j hj => ?_)
    rw [List.mem_cons] at hj
    tauto

theorem leastReady_scan (key : Process → ℤ) (proc : Table) (t : ℤ) :
    LeastReady key proc t (fun _ => True)
      ((List.finRange numProcesses).foldl (scanMin key proc t) none) := by
  have hstart : LeastReady key proc t (fun _ => False) none := fun _ hj => hj.elim
  exact (hstart.foldl _).mono (fun j _ => Or.inl (List.mem_finRange j))

end Scans

/-- A scheduler that scans the table for the least key. -/
theorem sound_scan {func : SchedulerFunc} {key : Process → ℤ}
    (hfunc : ∀ g proc t,
      func g proc t = ((List.finRange numProcesses).foldl (scanMin key proc t) none, g)) :
    Sound func (fun g _ _ => g.Quiet) where
  start _ _ := ⟨rfl, fun _ => rfl⟩
  quiet _ _ _ hquiet := hquiet
  ready g proc t i _ hi := by
    have hleast := leastReady_scan key proc t
    rw [hfunc] at hi
    rw [show List.foldl _ _ _ = some i from hi] at hleast
    exact hleast.1
  idle g proc t i _ hnone harr := by
    have hleast := leastReady_scan key proc t
    rw [hfunc] at hnone
    rw [show List.foldl _ _ _ = none from hnone] at hleast
    cases hfin : (proc i).finished with
    | true => rfl
    | false => exact absurd ⟨harr, hfin⟩ (hleast i trivial)
  next g proc t proc' hquiet _ := by
    rw [hfunc]
    exact hquiet

theorem sound_firstComeFirstServed : Sound firstComeFirstServed (fun g _ _ => g.Quiet) :=
  sound_scan (fun _ _ _ => rfl)

theorem sound_shortestRemainingTime : Sound shortestRemainingTime (fun g _ _ => g.Quiet) :=
  sound_scan (fun _ _ _ => rfl)

/-- The processes with `P` are in the list, each once, but for the one on the CPU. -/
structure Shared (P : Pid → Prop) (l : List Pid) (current : Option Pid) : Prop where
  nodup : l.Nodup
  apart : ∀ i, current = some i → i ∉ l
  mem : ∀ i ∈ l, P i
  all : ∀ i, P i → i ∈ l ∨ current = some i

theorem Shared.length_le {P : Pid → Prop} {l : List Pid} {current : Option Pid}
    (h : Shared P l current) : l.length ≤ numProcesses := by
  have hle := h.nodup.length_le_card
  rw [Fintype.card_fin] at hle
  exact hle

/-- Before a tick the queue has the processes that came earlier, and the one on the CPU may have
finished. -/
structure Waiting (g : Globals) (proc : Table) (t : ℤ) (l : List Pid) : Prop where
  quiet : g.Quiet
  holds : g.rrQueue.Holds l
  shared : Shared (fun i => (proc i).arrivaltime < t ∧ (proc i).finished = false) l g.currentPid
  current : ∀ i, g.currentPid = some i → (proc i).arrivaltime < t
  later : ∀ i, t ≤ (proc i).arrivaltime → (proc i).finished = false

/-- In the tick every process that is ready is in the queue or on the CPU. -/
structure Assigned (g : Globals) (proc : Table) (t : ℤ) (l : List Pid) : Prop where
  quiet : g.Quiet
  holds : g.rrQueue.Holds l
  shared : Shared (ReadyAt proc t) l g.currentPid
  current : ∀ i, g.currentPid = some i → (proc i).arrivaltime ≤ t

section RoundRobin

variable {g : Globals} {proc : Table} {t : ℤ} {l : List Pid}

theorem arrivals_foldl (proc : Table) (t : ℤ) (js : List Pid) (hq : g.rrQueue.Holds l)
    (hroom : l.length + js.length ≤ maxQueueSize) :
    ∃ q, js.foldl (enqueueArrival proc t) g = { g with rrQueue := q } ∧
      q.Holds (l ++ js.filter (fun i => (proc i).arrivaltime = t)) ∧
      q.printed = g.rrQueue.printed := by
  induction js generalizing g l with
  | nil => exact ⟨g.rrQueue, rfl, by simpa using hq, rfl⟩
  | cons i js ih =>
    rw [List.length_cons] at hroom
    rw [List.foldl_cons]
    by_cases hi : (proc i).arrivaltime = t
    · obtain ⟨hpush, hprinted⟩ := hq.enqueue (by omega) i
      obtain ⟨q, hfold, hholds, hsame⟩ := ih
        (g := { g with rrQueue := g.rrQueue.enqueue i }) hpush
        (by rw [List.length_append, List.length_singleton]; omega)
      refine ⟨q, ?_, ?_, hsame.trans hprinted⟩
      · rw [enqueueArrival, if_pos hi, hfold]
      · rw [List.filter_cons_of_pos (by simpa using hi)]
        rw [List.append_assoc, List.singleton_append] at hholds
        exact hholds
    · obtain ⟨q, hfold, hholds, hsame⟩ := ih (g := g) hq (by omega)
      refine ⟨q, ?_, ?_, hsame⟩
      · rw [enqueueArrival, if_neg hi, hfold]
      · rw [List.filter_cons_of_neg (by simpa using hi)]
        exact hholds

/-- The processes that arrive now are new to the queue. -/
theorem Waiting.arrivals (h : Waiting g proc t l) :
    ∃ l', Assigned ((List.finRange numProcesses).foldl (enqueueArrival proc t) g) proc t l' := by
  have hlen := h.shared.length_le
  obtain ⟨q, hfold, hholds, hprinted⟩ := arrivals_foldl proc t (List.finRange numProcesses) h.holds
    (by rw [List.length_finRange]; exact (Nat.add_le_add_right hlen _).trans (by decide))
  have hnew : ∀ i, i ∈ (List.finRange numProcesses).filter (fun i => (proc i).arrivaltime = t) ↔
      (proc i).arrivaltime = t := by
    intro i
    simp
  rw [hfold]
  refine ⟨_, ⟨⟨hprinted.trans h.quiet.1, h.quiet.2⟩, hholds, ⟨?_, fun i hi hmem => ?_, fun i hi => ?_,
    fun i hi => ?_⟩, fun i hi => (h.current i hi).le⟩⟩
  · refine List.nodup_append.mpr ⟨h.shared.nodup, (List.nodup_finRange _).filter _, ?_⟩
    rintro i hi j hj rfl
    have hlt := (h.shared.mem i hi).1
    rw [(hnew i).mp hj] at hlt
    exact lt_irrefl t hlt
  · rcases List.mem_append.mp hmem with hmem | hmem
    · exact h.shared.apart i hi hmem
    · have hlt := h.current i hi
      rw [(hnew i).mp hmem] at hlt
      exact lt_irrefl t hlt
  · rcases List.mem_append.mp hi with hi | hi
    · exact ⟨(h.shared.mem i hi).1.le, (h.shared.mem i hi).2⟩
    · have harr := (hnew i).mp hi
      exact ⟨harr.le, h.later i harr.ge⟩
  · rcases lt_or_eq_of_le hi.1 with hlt | heq
    · rcases h.shared.all i ⟨hlt, hi.2⟩ with hmem | hcur
      · exact Or.inl (List.mem_append_left _ hmem)
      · exact Or.inr hcur
    · exact Or.inl (List.mem_append_right _ ((hnew i).mpr heq))

theorem expireQuantum_of_none (proc : Table) (h : g.currentPid = none) :
    expireQuantum proc g = g := by
  rw [expireQuantum, h]

theorem expireQuantum_of_some (proc : Table) {c : Pid} (h : g.currentPid = some c) :
    expireQuantum proc g =
      if (proc c).finished ∨ g.timeOnCpu + 1 ≥ quantum then
        { (if (proc c).finished then { g with timeOnCpu := g.timeOnCpu + 1 }
          else { g with timeOnCpu := g.timeOnCpu + 1, rrQueue := g.rrQueue.enqueue c }) with
          currentPid := none, timeOnCpu := 0 }
      else { g with timeOnCpu := g.timeOnCpu + 1 } := by
  rw [expireQuantum, h]

/-- After the quantum is checked the process on the CPU, if there is one, is not finished. -/
theorem Assigned.expire (h : Assigned g proc t l) :
    ∃ l', Assigned (expireQuantum proc g) proc t l' ∧
      ∀ i, (expireQuantum proc g).currentPid = some i → (proc i).finished = false := by
  cases hcur : g.currentPid with
  | none =>
    rw [expireQuantum_of_none proc hcur]
    exact ⟨l, h, fun i hi => by rw [hcur] at hi; cases hi⟩
  | some c =>
    rw [expireQuantum_of_some proc hcur]
    cases hfin : (proc c).finished with
    | true =>
      rw [if_pos (Or.inl rfl), if_pos rfl]
      refine ⟨l, ⟨h.quiet, h.holds, ⟨h.shared.nodup, fun i hi => (nomatch hi), h.shared.mem,
        fun i hi => ?_⟩, fun i hi => (nomatch hi)⟩, fun i hi => (nomatch hi)⟩
      rcases h.shared.all i hi with hmem | hci
      · exact Or.inl hmem
      · obtain rfl : c = i := Option.some.inj (hcur.symm.trans hci)
        rw [hi.2] at hfin
        cases hfin
    | false =>
      by_cases htime : g.timeOnCpu + 1 ≥ quantum
      · have hlen := h.shared.length_le
        obtain ⟨hpush, hprinted⟩ := h.holds.enqueue (hlen.trans_lt (by decide)) c
        rw [if_pos (Or.inr htime), if_neg Bool.false_ne_true]
        refine ⟨l ++ [c], ⟨⟨hprinted.trans h.quiet.1, h.quiet.2⟩, hpush,
          ⟨?_, fun i hi => (nomatch hi), fun i hi => ?_, fun i hi => ?_⟩,
          fun i hi => (nomatch hi)⟩, fun i hi => (nomatch hi)⟩
        · exact List.nodup_append.mpr ⟨h.shared.nodup, List.nodup_singleton c,
            fun i hi j hj heq => h.shared.apart c hcur
              (by rw [← List.mem_singleton.mp hj, ← heq]; exact hi)⟩
        · rcases List.mem_append.mp hi with hi | hi
          · exact h.shared.mem i hi
          · rw [List.mem_singleton.mp hi]
            exact ⟨h.current c hcur, hfin⟩
        · rcases h.shared.all i hi with hmem | hci
          · exact Or.inl (List.mem_append_left _ hmem)
          · obtain rfl : c = i := Option.some.inj (hcur.symm.trans hci)
            exact Or.inl (List.mem_append_right _ (List.mem_singleton_self c))
      · rw [if_neg (fun hor => hor.elim Bool.false_ne_true htime)]
        refine ⟨l, ⟨h.quiet, h.holds, h.shared, h.current⟩, fun i hi => ?_⟩
        obtain rfl : c = i := Option.some.inj (hcur.symm.trans hi)
        exact hfin

/-- What `round_robin` answers and leaves behind. -/
theorem Waiting.roundRobin (h : Waiting g proc t l) :
    ∃ l', Assigned (Lab4.roundRobin g proc t).2 proc t l' ∧
      (Lab4.roundRobin g proc t).1 = (Lab4.roundRobin g proc t).2.currentPid ∧
      (∀ i, (Lab4.roundRobin g proc t).1 = some i → ReadyAt proc t i) ∧
      ((Lab4.roundRobin g proc t).1 = none → l' = []) := by
  obtain ⟨l₁, harrivals⟩ := h.arrivals
  obtain ⟨l₂, hexpire, hunfinished⟩ := harrivals.expire
  obtain ⟨g₂, hg₂⟩ : ∃ g₂, expireQuantum proc
    ((List.finRange numProcesses).foldl (enqueueArrival proc t) g) = g₂ := ⟨_, rfl⟩
  rw [hg₂] at hexpire hunfinished
  simp only [Lab4.roundRobin, hg₂]
  cases hcur : g₂.currentPid with
  | some c =>
    exact ⟨l₂, hexpire, hcur.symm, fun i hi => by
      cases hi
      exact ⟨hexpire.current c hcur, hunfinished c hcur⟩, fun hnone => (nomatch hnone)⟩
  | none =>
    cases l₂ with
    | nil =>
      rw [if_pos (hexpire.holds.isEmpty_iff.mpr rfl)]
      exact ⟨[], hexpire, hcur.symm, fun i hi => (nomatch hi), fun _ => rfl⟩
    | cons c l₂ =>
      obtain ⟨hfirst, hrest, hprinted⟩ := hexpire.holds.dequeue
      have hnot : ¬g₂.rrQueue.isEmpty = true := fun hempty => by
        cases hexpire.holds.isEmpty_iff.mp hempty
      rw [if_neg hnot, hfirst]
      have hready := hexpire.shared.mem c List.mem_cons_self
      obtain ⟨hc, hnodup⟩ := List.nodup_cons.mp hexpire.shared.nodup
      refine ⟨l₂, ⟨⟨hprinted.trans hexpire.quiet.1, hexpire.quiet.2⟩, hrest,
        ⟨hnodup, fun i hi => ?_, fun i hi => hexpire.shared.mem i (List.mem_cons_of_mem c hi),
          fun i hi => ?_⟩, fun i hi => ?_⟩, rfl, fun i hi => ?_, fun hnone => (nomatch hnone)⟩
      · cases hi
        exact hc
      · rcases hexpire.shared.all i hi with hmem | hci
        · rcases List.mem_cons.mp hmem with rfl | hmem
          · exact Or.inr rfl
          · exact Or.inl hmem
        · rw [hcur] at hci
          cases hci
      · cases hi
        exact hready.1
      · cases hi
        exact hready

/-- The end of the tick, in which only the process on the CPU can have finished. -/
theorem Assigned.next (h : Assigned g proc t l) {proc' : Table}
    (hlater : ∀ i, t ≤ (proc i).arrivaltime → (proc i).finished = false)
    (hchanges : Changes proc proc' g.currentPid) : Waiting g proc' (t + 1) l := by
  have hothers : ∀ i, g.currentPid ≠ some i → (proc' i).finished = (proc i).finished :=
    hchanges.finished
  refine ⟨h.quiet, h.holds, ⟨h.shared.nodup, h.shared.apart, fun i hi => ?_, fun i hi => ?_⟩,
    fun i hi => ?_, fun i hi => ?_⟩
  · have hready := h.shared.mem i hi
    rw [hchanges.arrivaltime, hothers i (fun hci => h.shared.apart i hci hi)]
    exact ⟨Int.lt_add_one_of_le hready.1, hready.2⟩
  · by_cases hci : g.currentPid = some i
    · exact Or.inr hci
    · rw [hchanges.arrivaltime, hothers i hci] at hi
      exact h.shared.all i ⟨Int.le_of_lt_add_one hi.1, hi.2⟩
  · rw [hchanges.arrivaltime]
    exact Int.lt_add_one_of_le (h.current i hi)
  · rw [hchanges.arrivaltime] at hi
    rw [hothers i (fun hci => by have := h.current i hci; omega)]
    exact hlater i (by omega)

end RoundRobin

theorem sound_roundRobin : Sound roundRobin (fun g proc t => ∃ l, Waiting g proc t l) where
  start proc hproc := by
    refine ⟨[], ⟨⟨rfl, fun _ => rfl⟩, Queue.holds_initQueue _, ⟨List.nodup_nil,
      fun i hi => (nomatch hi), fun i hi => (nomatch hi), fun i hi => ?_⟩,
      fun i hi => (nomatch hi), fun i _ => (hproc i).2⟩⟩
    have hnonneg := (hproc i).1
    omega
  quiet g proc t h := by
    obtain ⟨l, hwaiting⟩ := h
    exact hwaiting.quiet
  ready g proc t i h hi := by
    obtain ⟨l, hwaiting⟩ := h
    obtain ⟨l', -, -, hready, -⟩ := hwaiting.roundRobin
    exact hready i hi
  idle g proc t i h hnone harr := by
    obtain ⟨l, hwaiting⟩ := h
    obtain ⟨l', hassigned, hcur, -, hempty⟩ := hwaiting.roundRobin
    cases hfin : (proc i).finished with
    | true => rfl
    | false =>
      rcases hassigned.shared.all i ⟨harr, hfin⟩ with hmem | hci
      · rw [hempty hnone] at hmem
        cases hmem
      · rw [← hcur, hnone] at hci
        cases hci
  next g proc t proc' h hchanges := by
    obtain ⟨l, hwaiting⟩ := h
    obtain ⟨l', hassigned, hcur, -, -⟩ := hwaiting.roundRobin
    rw [hcur] at hchanges
    exact ⟨l', hassigned.next hwaiting.later hchanges⟩

/-- A queue after it was served: finished processes may be dropped, the others stay. -/
structure Kept (proc : Table) (l l' : List Pid) : Prop where
  nodup : l.Nodup → l'.Nodup
  mem : ∀ i ∈ l', i ∈ l
  unfinished : ∀ i ∈ l, (proc i).finished = false → i ∈ l'

theorem Kept.refl (proc : Table) (l : List Pid) : Kept proc l l :=
  ⟨id, fun _ => id, fun _ hi _ => hi⟩

theorem Kept.trans {proc : Table} {l l' l'' : List Pid} (h : Kept proc l l')
    (h' : Kept proc l' l'') : Kept proc l l'' :=
  ⟨fun hnodup => h'.nodup (h.nodup hnodup), fun i hi => h.mem i (h'.mem i hi),
    fun i hi hunf => h'.unfinished i (h.unfinished i hi hunf) hunf⟩

theorem Kept.update {proc : Table} {l : Fin numPriorities → List Pid} {level : Fin numPriorities}
    {l' : List Pid} (h : Kept proc (l level) l') (level' : Fin numPriorities) :
    Kept proc (l level') (Function.update l level l' level') := by
  by_cases heq : level' = level
  · subst heq
    rw [Function.update_self]
    exact h
  · rw [Function.update_of_ne heq]
    exact .refl proc _

def Table.hasFinished (proc : Table) (i : Pid) : Bool := (proc i).finished

theorem kept_rotate (proc : Table) (l : List Pid) : Kept proc l (rotate proc.hasFinished l).2 := by
  rcases rotate_spec proc.hasFinished l with
    ⟨i, before, after, rfl, hbefore, -, hrotate⟩ | ⟨hall, hrotate⟩
  · rw [hrotate]
    have hperm : (after ++ [i]).Perm (i :: after) := List.perm_append_singleton i after
    refine ⟨fun hnodup => ?_, fun j hj => ?_, fun j hj hunf => ?_⟩
    · exact hperm.nodup_iff.mpr (List.nodup_append.mp hnodup).2.1
    · exact List.mem_append_right _ (hperm.mem_iff.mp hj)
    · rcases List.mem_append.mp hj with hj | hj
      · have hdone : (proc j).finished = true := hbefore j hj
        rw [hunf] at hdone
        cases hdone
      · exact hperm.mem_iff.mpr hj
  · rw [hrotate]
    refine ⟨fun _ => List.nodup_nil, fun j hj => (nomatch hj), fun j hj hunf => ?_⟩
    have hdone : (proc j).finished = true := hall j hj
    rw [hunf] at hdone
    cases hdone

/-- One level of `round_robin_priority` rotates its queue. -/
theorem serveLevel_rotate (proc : Table) {q : Queue Pid} {l : List Pid} (hq : q.Holds l)
    (rounds : ℕ) (hrounds : l.length ≤ rounds) :
    (serveLevel proc rounds q).1 = (rotate proc.hasFinished l).1 ∧
      (serveLevel proc rounds q).2.Holds (rotate proc.hasFinished l).2 ∧
      (serveLevel proc rounds q).2.printed = q.printed := by
  induction l generalizing q rounds with
  | nil =>
    have hnone : serveLevel proc rounds q = (none, q) := by
      cases rounds with
      | zero => rfl
      | succ rounds => rw [serveLevel, if_pos (hq.isEmpty_iff.mpr rfl)]
    rw [hnone]
    exact ⟨rfl, hq, rfl⟩
  | cons process l ih =>
    obtain ⟨hfirst, hrest, hprinted⟩ := hq.dequeue
    have hnot : ¬q.isEmpty = true := fun hempty => by cases hq.isEmpty_iff.mp hempty
    have hroom := hq.room
    rw [List.length_cons] at hrounds hroom
    cases rounds with
    | zero => omega
    | succ rounds =>
      have hserve : serveLevel proc (rounds + 1) q =
          if (proc process).finished = false then (some process, q.dequeue.2.enqueue process)
          else serveLevel proc rounds q.dequeue.2 := by
        rw [serveLevel, if_neg hnot]
        obtain ⟨r, hr⟩ : ∃ r, q.dequeue = r := ⟨_, rfl⟩
        rw [hr] at hfirst ⊢
        obtain ⟨first, q'⟩ := r
        obtain rfl : first = some process := hfirst
        rfl
      have hrotate : rotate proc.hasFinished (process :: l) =
          if (proc process).finished then rotate proc.hasFinished l
          else (some process, l ++ [process]) := rfl
      rw [hserve, hrotate]
      cases hfin : (proc process).finished with
      | false =>
        obtain ⟨hpush, hprinted'⟩ := hrest.enqueue (by omega) process
        rw [if_pos rfl, if_neg Bool.false_ne_true]
        exact ⟨rfl, hpush, hprinted'.trans hprinted⟩
      | true =>
        obtain ⟨hchoice, hholds, hsame⟩ := ih hrest rounds (by omega)
        rw [if_neg (by simp), if_pos rfl]
        exact ⟨hchoice, hholds, hsame.trans hprinted⟩

theorem serveLevel_spec (proc : Table) {q : Queue Pid} {l : List Pid} (hq : q.Holds l)
    (rounds : ℕ) (hrounds : l.length ≤ rounds) :
    ∃ l', (serveLevel proc rounds q).2.Holds l' ∧
      (serveLevel proc rounds q).2.printed = q.printed ∧ Kept proc l l' ∧
      (∀ i, (serveLevel proc rounds q).1 = some i → i ∈ l ∧ (proc i).finished = false) ∧
      ((serveLevel proc rounds q).1 = none → ∀ i ∈ l, (proc i).finished = true) := by
  obtain ⟨hchoice, hholds, hprinted⟩ := serveLevel_rotate proc hq rounds hrounds
  rw [hchoice]
  refine ⟨_, hholds, hprinted, kept_rotate proc l, fun i hi => mem_of_rotate hi, fun hnone => ?_⟩
  rcases rotate_spec proc.hasFinished l with ⟨i, before, after, -, -, -, hrotate⟩ | ⟨hall, -⟩
  · rw [hrotate] at hnone
    cases hnone
  · exact hall

/-- The queues hold these lists, and no queue has printed an error. -/
structure Levels (g : Globals) (l : Fin numPriorities → List Pid) : Prop where
  quiet : g.Quiet
  holds : ∀ level, (g.priorityQueue level).Holds (l level)

theorem holds_setPriorityQueue {g : Globals} {l : Fin numPriorities → List Pid}
    (h : ∀ level, (g.priorityQueue level).Holds (l level)) (level : Fin numPriorities)
    {q : Queue Pid} {l' : List Pid} (hholds : q.Holds l') (level' : Fin numPriorities) :
    ((setPriorityQueue g level q).priorityQueue level').Holds (Function.update l level l' level') := by
  by_cases heq : level' = level
  · subst heq
    simpa only [setPriorityQueue, Function.update_self] using hholds
  · simpa only [setPriorityQueue, Function.update_of_ne heq] using h level'

theorem Levels.set {g : Globals} {l : Fin numPriorities → List Pid} (h : Levels g l)
    (level : Fin numPriorities) {q : Queue Pid} {l' : List Pid} (hholds : q.Holds l')
    (hprinted : q.printed = []) :
    Levels (setPriorityQueue g level q) (Function.update l level l') := by
  refine ⟨⟨h.quiet.1, fun level' => ?_⟩, holds_setPriorityQueue h.holds level hholds⟩
  by_cases heq : level' = level
  · subst heq
    simpa only [setPriorityQueue, Function.update_self] using hprinted
  · simpa only [setPriorityQueue, Function.update_of_ne heq] using h.quiet.2 level'

theorem serveLevels_spec (proc : Table) {g : Globals} {l : Fin numPriorities → List Pid}
    (h : Levels g l) (levels : List (Fin numPriorities)) :
    ∃ l', Levels (serveLevels proc levels g).2 l' ∧ (∀ level, Kept proc (l level) (l' level)) ∧
      (∀ i, (serveLevels proc levels g).1 = some i →
        (∃ level, i ∈ l level) ∧ (proc i).finished = false) ∧
      ((serveLevels proc levels g).1 = none →
        ∀ level ∈ levels, ∀ i ∈ l level, (proc i).finished = true) := by
  induction levels generalizing g l with
  | nil =>
    exact ⟨l, h, fun level => .refl proc _, fun i hi => (nomatch hi),
      fun _ level hlevel => (nomatch hlevel)⟩
  | cons level levels ih =>
    have hsize : (l level).length ≤ (g.priorityQueue level).size.toNat := by
      rw [(h.holds level).size, Int.toNat_natCast]
    obtain ⟨l₁, hholds, hprinted, hkept, hsome, hnone⟩ :=
      serveLevel_spec proc (h.holds level) _ hsize
    have hset := h.set level hholds (hprinted.trans (h.quiet.2 level))
    obtain ⟨⟨c, q⟩, hr⟩ : ∃ r, serveLevel proc (g.priorityQueue level).size.toNat
      (g.priorityQueue level) = r := ⟨_, rfl⟩
    rw [hr] at hset hsome hnone
    rw [serveLevels, hr]
    cases c with
    | some process =>
      refine ⟨_, hset, hkept.update, fun i hi => ?_, fun hnone' => (nomatch hnone')⟩
      obtain ⟨hmem, hunf⟩ := hsome i hi
      exact ⟨⟨level, hmem⟩, hunf⟩
    | none =>
      obtain ⟨l', hlevels, hkept', hsome', hnone'⟩ := ih hset
      refine ⟨l', hlevels, fun level' => (hkept.update level').trans (hkept' level'),
        fun i hi => ?_, fun hr' level' hlevel' i hi => ?_⟩
      · obtain ⟨⟨level', hmem⟩, hunf⟩ := hsome' i hi
        exact ⟨⟨level', (hkept.update level').mem i hmem⟩, hunf⟩
      · by_cases heq : level' = level
        · subst heq
          exact hnone rfl i hi
        · refine hnone' hr' level' ((List.mem_cons.mp hlevel').resolve_left heq) i ?_
          rw [Function.update_of_ne heq]
          exact hi

/-- Every process that arrived before `t` and is not finished is in the queue of its priority. -/
structure Leveled (g : Globals) (proc : Table) (t : ℤ) (l : Fin numPriorities → List Pid) : Prop
    extends Levels g l where
  nodup : ∀ level, (l level).Nodup
  arrived : ∀ level, ∀ i ∈ l level, (proc i).arrivaltime < t
  all : ∀ i, (proc i).arrivaltime < t → (proc i).finished = false → i ∈ l (proc i).priority

section Priority

variable {g : Globals} {proc : Table} {t : ℤ} {l : Fin numPriorities → List Pid}

theorem arrivalsByPriority_holds (proc : Table) (t : ℤ) (js : List Pid)
    (h : ∀ level, (g.priorityQueue level).Holds (l level))
    (hroom : ∀ level, (l level).length + js.length ≤ maxQueueSize) (level : Fin numPriorities) :
    ((js.foldl (enqueueByPriority proc t) g).priorityQueue level).Holds (l level ++
      js.filter (fun i => (proc i).arrivaltime = t ∧ (proc i).priority = level)) ∧
    ((js.foldl (enqueueByPriority proc t) g).priorityQueue level).printed =
      (g.priorityQueue level).printed := by
  induction js generalizing g l with
  | nil => exact ⟨by simpa using h level, rfl⟩
  | cons i js ih =>
    rw [List.foldl_cons]
    simp only [List.length_cons] at hroom
    by_cases hi : (proc i).arrivaltime = t
    · have hlevel := hroom (proc i).priority
      obtain ⟨hpush, hprinted⟩ := (h (proc i).priority).enqueue (by omega) i
      have hset := holds_setPriorityQueue h (proc i).priority hpush
      obtain ⟨hholds, hsame⟩ := ih hset (fun level' => by
        have hlen := hroom level'
        by_cases heq : level' = (proc i).priority
        · subst heq
          rw [Function.update_self, List.length_append, List.length_singleton]
          omega
        · rw [Function.update_of_ne heq]
          omega)
      rw [enqueueByPriority, if_pos hi]
      by_cases heq : level = (proc i).priority
      · subst heq
        rw [Function.update_self, List.append_assoc, List.singleton_append] at hholds
        rw [List.filter_cons_of_pos (by simpa using hi)]
        refine ⟨hholds, hsame.trans ?_⟩
        simp only [setPriorityQueue, Function.update_self, hprinted]
      · rw [Function.update_of_ne heq] at hholds
        rw [List.filter_cons_of_neg (by simpa using fun _ => Ne.symm heq)]
        refine ⟨hholds, hsame.trans ?_⟩
        simp only [setPriorityQueue, Function.update_of_ne heq]
    · rw [enqueueByPriority, if_neg hi,
        List.filter_cons_of_neg (by simpa using fun harr => absurd harr hi)]
      exact ih h (fun level' => by
        have hlen := hroom level'
        omega)

theorem arrivalsByPriority_others (proc : Table) (t : ℤ) (js : List Pid) (g : Globals) :
    ∃ queues, js.foldl (enqueueByPriority proc t) g = { g with priorityQueue := queues } := by
  induction js generalizing g with
  | nil => exact ⟨_, rfl⟩
  | cons i js ih =>
    rw [List.foldl_cons]
    obtain ⟨queues, hrest⟩ := ih (enqueueByPriority proc t g i)
    refine ⟨queues, ?_⟩
    rw [hrest, enqueueByPriority]
    split
    · rfl
    · rfl

theorem arrivalsByPriority_foldl (proc : Table) (t : ℤ) (js : List Pid) (h : Levels g l)
    (hroom : ∀ level, (l level).length + js.length ≤ maxQueueSize) :
    Levels (js.foldl (enqueueByPriority proc t) g) (fun level => l level ++
      js.filter (fun i => (proc i).arrivaltime = t ∧ (proc i).priority = level)) := by
  have hlevels := arrivalsByPriority_holds proc t js h.holds hroom
  refine ⟨⟨?_, fun level => (hlevels level).2.trans (h.quiet.2 level)⟩,
    fun level => (hlevels level).1⟩
  obtain ⟨queues, hothers⟩ := arrivalsByPriority_others proc t js g
  rw [hothers]
  exact h.quiet.1

/-- The queues when all that have arrived by `t` are in them. -/
theorem Leveled.arrivals (h : Leveled g proc t l) :
    ∃ l', Levels ((List.finRange numProcesses).foldl (enqueueByPriority proc t) g) l' ∧
      (∀ level, (l' level).Nodup) ∧ (∀ level, ∀ i ∈ l' level, (proc i).arrivaltime ≤ t) ∧
      ∀ i, (proc i).arrivaltime ≤ t → (proc i).finished = false → i ∈ l' (proc i).priority := by
  have hnew : ∀ level i, i ∈ (List.finRange numProcesses).filter
      (fun i => (proc i).arrivaltime = t ∧ (proc i).priority = level) ↔
      (proc i).arrivaltime = t ∧ (proc i).priority = level := by
    intro level i
    simp
  refine ⟨_, arrivalsByPriority_foldl proc t (List.finRange numProcesses) h.toLevels
    (fun level => ?_), fun level => ?_, fun level i hi => ?_, fun i harr hunf => ?_⟩
  · have hlen := (h.nodup level).length_le_card
    rw [Fintype.card_fin] at hlen
    rw [List.length_finRange]
    exact (Nat.add_le_add_right hlen _).trans (by decide)
  · refine List.nodup_append.mpr ⟨h.nodup level, (List.nodup_finRange _).filter _, ?_⟩
    rintro i hi j hj rfl
    have hlt := h.arrived level i hi
    rw [((hnew level i).mp hj).1] at hlt
    exact lt_irrefl t hlt
  · rcases List.mem_append.mp hi with hi | hi
    · exact (h.arrived level i hi).le
    · exact ((hnew level i).mp hi).1.le
  · rcases lt_or_eq_of_le harr with hlt | heq
    · exact List.mem_append_left _ (h.all i hlt hunf)
    · exact List.mem_append_right _ ((hnew _ i).mpr ⟨heq, rfl⟩)

/-- What `round_robin_priority` answers and leaves behind. -/
theorem Leveled.roundRobinPriority (h : Leveled g proc t l) :
    ∃ l', Levels (Lab4.roundRobinPriority g proc t).2 l' ∧ (∀ level, (l' level).Nodup) ∧
      (∀ level, ∀ i ∈ l' level, (proc i).arrivaltime ≤ t) ∧
      (∀ i, ReadyAt proc t i → i ∈ l' (proc i).priority) ∧
      (∀ i, (Lab4.roundRobinPriority g proc t).1 = some i → ReadyAt proc t i) ∧
      ((Lab4.roundRobinPriority g proc t).1 = none → ∀ i, ¬ReadyAt proc t i) := by
  obtain ⟨l₁, hlevels, hnodup, harrived, hall⟩ := h.arrivals
  obtain ⟨l', hlevels', hkept, hsome, hnone⟩ :=
    serveLevels_spec proc hlevels (List.finRange numPriorities).reverse
  refine ⟨l', hlevels', fun level => (hkept level).nodup (hnodup level),
    fun level i hi => harrived level i ((hkept level).mem i hi),
    fun i hi => (hkept _).unfinished i (hall i hi.1 hi.2) hi.2, fun i hi => ?_,
    fun hr i hi => ?_⟩
  · obtain ⟨⟨level, hmem⟩, hunf⟩ := hsome i hi
    exact ⟨harrived level i hmem, hunf⟩
  · have hfin := hnone hr (proc i).priority (List.mem_reverse.mpr (List.mem_finRange _)) i
      (hall i hi.1 hi.2)
    rw [hi.2] at hfin
    cases hfin

end Priority

theorem sound_roundRobinPriority :
    Sound roundRobinPriority (fun g proc t => ∃ l, Leveled g proc t l) where
  start proc hproc := by
    refine ⟨fun _ => [], ⟨⟨⟨rfl, fun _ => rfl⟩, fun _ => Queue.holds_initQueue _⟩,
      fun _ => List.nodup_nil, fun _ i hi => (nomatch hi), fun i hi => ?_⟩⟩
    have hnonneg := (hproc i).1
    omega
  quiet g proc t h := by
    obtain ⟨l, hleveled⟩ := h
    exact hleveled.quiet
  ready g proc t i h hi := by
    obtain ⟨l, hleveled⟩ := h
    obtain ⟨l', -, -, -, -, hready, -⟩ := hleveled.roundRobinPriority
    exact hready i hi
  idle g proc t i h hnone harr := by
    obtain ⟨l, hleveled⟩ := h
    obtain ⟨l', -, -, -, -, -, hidle⟩ := hleveled.roundRobinPriority
    cases hfin : (proc i).finished with
    | true => rfl
    | false => exact absurd ⟨harr, hfin⟩ (hidle hnone i)
  next g proc t proc' h hchanges := by
    obtain ⟨l, hleveled⟩ := h
    obtain ⟨l', hlevels, hnodup, harrived, hall, hready, -⟩ := hleveled.roundRobinPriority
    refine ⟨l', ⟨hlevels, hnodup, fun level i hi => ?_, fun i harr hunf => ?_⟩⟩
    · rw [hchanges.arrivaltime]
      exact Int.lt_add_one_of_le (harrived level i hi)
    · rw [hchanges.arrivaltime] at harr
      have harr' := Int.le_of_lt_add_one harr
      rw [hchanges.priority]
      by_cases hi : (roundRobinPriority g proc t).1 = some i
      · exact hall i (hready i hi)
      · rw [hchanges.finished i hi] at hunf
        exact hall i ⟨harr', hunf⟩

theorem schedulers_sound (n : Fin numSchedulers) : ∃ Inv, Sound (schedulers n).func Inv := by
  match n with
  | 0 => exact ⟨_, sound_firstComeFirstServed⟩
  | 1 => exact ⟨_, sound_shortestRemainingTime⟩
  | 2 => exact ⟨_, sound_roundRobin⟩
  | 3 => exact ⟨_, sound_roundRobinPriority⟩

/-- Each scheduler meets the contract over the whole simulation of any table. -/
theorem schedulers_contract (w : Workload) (n : Fin numSchedulers) :
    Contract w (schedulers n).func := by
  obtain ⟨Inv, hs⟩ := schedulers_sound n
  exact contract_of_sound hs w

end CpreLabs.Lab4
