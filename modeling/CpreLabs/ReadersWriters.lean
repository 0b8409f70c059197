import CpreLabs.PthreadCounting

/-!
# The readers-writers monitor of `ex3_starving_writer.c`

`read_lock`, `read_unlock`, `write_lock` and `write_unlock`, one program point per statement,
for any set of threads. Between its sections a thread may start the next one or return, as
`reader_thread` and `writer_thread` do while `running` is set. The four counters are integers:
none of them leaves the range from 0 to the number of threads.
-/
namespace CpreLabs.ReadersWriters
open Pthread

/-- The counters of `RWMonitor`: active and waiting readers, active and waiting writers. -/
structure RWMonitor where
  ar : ℤ
  wr : ℤ
  aw : ℤ
  ww : ℤ

inductive Cond where
  | okToRead
  | okToWrite
  deriving DecidableEq

inductive Pc where
  /-- Outside the sections. -/
  | idle
  | readLock
  | rlTest
  | rlIncWR
  | rlWait
  | rlDecWR
  | rlIncAR
  | rlUnlock
  /-- In a read section, before `read_unlock`. -/
  | reading
  | ruDecAR
  | ruTest
  | ruSignal
  | ruUnlock
  | writeLock
  | wlTest
  | wlIncWW
  | wlWait
  | wlDecWW
  | wlIncAW
  | wlUnlock
  /-- In a write section, before `write_unlock`. -/
  | writing
  | wuDecAW
  | wuTestWW
  | wuSignal
  | wuTestWR
  | wuBroadcast
  | wuUnlock
  | returned
  deriving DecidableEq

/-- What the loop of a thread brackets with the monitor. -/
inductive Section where
  | read
  | write

variable {T : Type*}

/-- `calls t` are the sections that the loop of `t` contains. -/
def instr (calls : T → Section → Bool) (t : T) : Pc → Instr T Cond Pc RWMonitor
  | .idle => .choose fun
      | .readLock => calls t .read
      | .writeLock => calls t .write
      | .returned => true
      | _ => false
  | .readLock => .lock .rlTest
  | .rlTest => .exec fun m => (if m.aw + m.ww > 0 then .rlIncWR else .rlIncAR, m)
  | .rlIncWR => .exec fun m => (.rlWait, { m with wr := m.wr + 1 })
  | .rlWait => .wait .okToRead .rlDecWR
  | .rlDecWR => .exec fun m => (.rlTest, { m with wr := m.wr - 1 })
  | .rlIncAR => .exec fun m => (.rlUnlock, { m with ar := m.ar + 1 })
  | .rlUnlock => .unlock .reading
  | .reading => .lock .ruDecAR
  | .ruDecAR => .exec fun m => (.ruTest, { m with ar := m.ar - 1 })
  | .ruTest => .exec fun m => (if m.ar = 0 ∧ m.ww > 0 then .ruSignal else .ruUnlock, m)
  | .ruSignal => .signal .okToWrite .ruUnlock
  | .ruUnlock => .unlock .idle
  | .writeLock => .lock .wlTest
  | .wlTest => .exec fun m => (if m.aw + m.ar > 0 then .wlIncWW else .wlIncAW, m)
  | .wlIncWW => .exec fun m => (.wlWait, { m with ww := m.ww + 1 })
  | .wlWait => .wait .okToWrite .wlDecWW
  | .wlDecWW => .exec fun m => (.wlTest, { m with ww := m.ww - 1 })
  | .wlIncAW => .exec fun m => (.wlUnlock, { m with aw := m.aw + 1 })
  | .wlUnlock => .unlock .writing
  | .writing => .lock .wuDecAW
  | .wuDecAW => .exec fun m => (.wuTestWW, { m with aw := m.aw - 1 })
  | .wuTestWW => .exec fun m => (if m.ww > 0 then .wuSignal else .wuTestWR, m)
  | .wuSignal => .signal .okToWrite .wuUnlock
  | .wuTestWR => .exec fun m => (if m.wr > 0 then .wuBroadcast else .wuUnlock, m)
  | .wuBroadcast => .broadcast .okToRead .wuUnlock
  | .wuUnlock => .unlock .idle
  | .returned => .halt

def program (calls : T → Section → Bool) : Program T Cond Pc RWMonitor Empty where
  instr := instr calls
  env e _ := e.elim

/-- After `rw_init`, with all threads before their loops. -/
def start : Config T Cond Pc RWMonitor where
  owner := none
  status _ := .running .idle
  shared := ⟨0, 0, 0, 0⟩

/-- The points between a lock and the next unlock of the mutex. -/
def inside : Pc → Bool
  | .idle | .readLock | .reading | .writeLock | .writing | .returned => false
  | _ => true

inductive Counter where
  | ar
  | wr
  | aw
  | ww

def RWMonitor.value (m : RWMonitor) : Counter → ℤ
  | .ar => m.ar
  | .wr => m.wr
  | .aw => m.aw
  | .ww => m.ww

/-- From the increment of `AR` in `read_lock` to its decrement in `read_unlock`. -/
def inReadSection : Pc → Bool
  | .rlUnlock | .reading | .ruDecAR => true
  | _ => false

def inWriteSection : Pc → Bool
  | .wlUnlock | .writing | .wuDecAW => true
  | _ => false

/-- The points between the increment of a counter and its decrement. -/
def registered : Counter → Pc → Bool
  | .ar, l => inReadSection l
  | .aw, l => inWriteSection l
  | .wr, .rlWait | .wr, .rlDecWR => true
  | .ww, .wlWait | .ww, .wlDecWW => true
  | _, _ => false

theorem bracketed (calls : T → Section → Bool) : (program calls).Bracketed inside := by
  intro t l
  cases l with
  | idle =>
    intro l' hok
    cases l' <;> first | rfl | cases hok
  | rlTest =>
    intro m
    dsimp only
    split <;> rfl
  | ruTest =>
    intro m
    dsimp only
    split <;> rfl
  | wlTest =>
    intro m
    dsimp only
    split <;> rfl
  | wuTestWW =>
    intro m
    dsimp only
    split <;> rfl
  | wuTestWR =>
    intro m
    dsimp only
    split <;> rfl
  | _ => simp [program, instr, Instr.Bracketed, inside]

theorem owned_start [DecidableEq T] : Owned inside (start : Config T Cond Pc RWMonitor) := by
  intro t
  simp [start, Status.Agrees, inside]

theorem tally (calls : T → Section → Bool) (k : Counter) :
    Tally (program calls) (RWMonitor.value · k) (registered k) where
  env e := e.elim
  instr t l := by
    cases l with
    | idle =>
      intro n hn
      cases n <;> first | (cases k <;> rfl) | cases hn
    | rlTest | ruTest | wlTest | wuTestWW | wuTestWR =>
      intro m
      dsimp only
      split <;> cases k <;> rfl
    | _ =>
      cases k <;> simp [program, instr, Instr.Tallies, RWMonitor.value, registered, inReadSection,
        inWriteSection]

/-- What a thread knows of the counters from its last test, until it unlocks. -/
def asserted : Pc → RWMonitor → Prop
  | .rlIncWR, m | .rlWait, m => m.aw + m.ww > 0
  | .rlIncAR, m | .rlUnlock, m => ¬m.aw + m.ww > 0
  | .wlIncWW, m | .wlWait, m => m.aw + m.ar > 0
  | .wlIncAW, m => ¬m.aw + m.ar > 0
  | .wuTestWR, m => ¬m.ww > 0
  | _, _ => True

theorem outline (calls : T → Section → Bool) :
    Outline (program calls) inside (fun _ => True) asserted where
  envI e := e.elim
  envA e := e.elim
  instr t l := by
    cases l with
    | rlTest | ruTest | wlTest | wuTestWW | wuTestWR =>
      intro m hm
      dsimp only
      split <;> first | assumption | trivial
    | rlIncWR | rlIncAR | wlIncWW => exact fun m hm => hm
    | idle => exact fun h => by cases h
    | _ => simp [program, instr, Instr.Keeps, inside, asserted]

theorem asserts_start [DecidableEq T] :
    Asserts inside (fun _ => True) asserted (start : Config T Cond Pc RWMonitor) where
  owned := owned_start
  free _ := trivial
  threads t h := by cases h

/-- Where a thread continues that has waited on a condition variable. -/
def Cond.resume : Cond → Pc
  | .okToRead => .rlDecWR
  | .okToWrite => .wlDecWW

def Resumes : Status Cond Pc → Prop
  | .running _ => True
  | .asleep c l | .woken c l => l = c.resume

theorem keeps_resumes [DecidableEq T] (calls : T → Section → Bool) :
    (program calls).Keeps (fun _ st _ => Resumes st) where
  woken t c l v h := h
  resumed t c l v h := trivial
  others t st u l f v hi h := h
  env t st e := e.elim
  instr t l s st v h hres := by
    cases l with
    | idle =>
      obtain ⟨n, -, rfl, -⟩ := hres
      trivial
    | returned => exact hres.elim
    | rlWait | wlWait =>
      obtain ⟨rfl, -⟩ := hres
      rfl
    | _ =>
      obtain ⟨rfl, -⟩ := hres
      trivial

variable [DecidableEq T] [Fintype T] {calls : T → Section → Bool} {s : Config T Cond Pc RWMonitor}

theorem value_of_reachable (h : Reachable (program calls) start s) (k : Counter) :
    s.shared.value k = standing (registered k) s.status := by
  refine (tally calls k).reachable h ?_
  have hnone : standing (registered k) (start : Config T Cond Pc RWMonitor).status = 0 :=
    count_eq_zero (fun t => by cases k <;> rfl)
  rw [hnone]
  cases k <;> rfl

theorem value_nonneg (h : Reachable (program calls) start s) (k : Counter) :
    0 ≤ s.shared.value k := by
  rw [value_of_reachable h k]
  exact Int.natCast_nonneg _

/-- A thread counts itself where it is registered. -/
theorem value_pos (h : Reachable (program calls) start s) {k : Counter} {t : T}
    (ht : registered k (s.status t).point = true) : 0 < s.shared.value k := by
  rw [value_of_reachable h k]
  exact_mod_cast standing_pos ht

omit [Fintype T] in
theorem asserts_of_reachable (h : Reachable (program calls) start s) :
    Asserts inside (fun _ => True) asserted s :=
  (outline calls).reachable (bracketed calls) h asserts_start

omit [Fintype T] in
theorem resumes_of_reachable (h : Reachable (program calls) start s) (t : T) :
    Resumes (s.status t) :=
  (keeps_resumes calls).reachable h (fun _ => trivial) t

/-- What a thread knows of the counters: the outcome of its test, and that no counter is
negative and its own registrations count. -/
def Known (l : Pc) (m : RWMonitor) : Prop :=
  (inside l = true → asserted l m) ∧ ∀ k, weight (registered k l) ≤ m.value k

theorem known_of_reachable (h : Reachable (program calls) start s) {t : T} {l : Pc}
    (ht : s.status t = .running l) : Known l s.shared := by
  refine ⟨fun hl => (asserts_of_reachable h).held ht hl, fun k => ?_⟩
  cases hk : registered k l with
  | false => exact value_nonneg h k
  | true =>
    apply value_pos h (t := t)
    rw [ht]
    exact hk

/-- At most one writer is active, and then no reader. -/
def Exclusive (m : RWMonitor) : Prop := m.aw ≤ 1 ∧ (m.aw = 1 → m.ar = 0)

omit [DecidableEq T] [Fintype T] in
theorem exclusive_exec {t : T} {l : Pc} {f : RWMonitor → Pc × RWMonitor}
    (hi : (program calls).instr t l = .exec f) {m : RWMonitor} (hknown : Known l m)
    (h : Exclusive m) : Exclusive (f m).2 := by
  obtain ⟨hheld, hvalue⟩ := hknown
  have har : weight (registered .ar l) ≤ m.ar := hvalue .ar
  have haw : weight (registered .aw l) ≤ m.aw := hvalue .aw
  have hww : weight (registered .ww l) ≤ m.ww := hvalue .ww
  obtain ⟨hone, hnone⟩ := h
  cases l with
  | rlIncAR =>
    cases hi
    have hidle : ¬m.aw + m.ww > 0 := hheld rfl
    have haw₀ : 0 ≤ m.aw := haw
    have hww₀ : 0 ≤ m.ww := hww
    refine ⟨hone, fun h1 => ?_⟩
    dsimp only at h1
    omega
  | ruDecAR =>
    cases hi
    have hself : 1 ≤ m.ar := har
    refine ⟨hone, fun h1 => ?_⟩
    have h0 := hnone h1
    omega
  | wlIncAW =>
    cases hi
    have hidle : ¬m.aw + m.ar > 0 := hheld rfl
    have haw₀ : 0 ≤ m.aw := haw
    have har₀ : 0 ≤ m.ar := har
    refine ⟨?_, fun h1 => ?_⟩ <;> dsimp only at * <;> omega
  | wuDecAW =>
    cases hi
    have hself : 1 ≤ m.aw := haw
    refine ⟨?_, fun h1 => ?_⟩ <;> dsimp only at * <;> omega
  | rlTest | rlIncWR | rlDecWR | ruTest | wlTest | wlIncWW | wlDecWW | wuTestWW | wuTestWR =>
    cases hi
    exact ⟨hone, hnone⟩
  | _ => cases hi

theorem exclusive_of_reachable (h : Reachable (program calls) start s) : Exclusive s.shared := by
  induction h with
  | refl => exact ⟨zero_le_one, fun _ => rfl⟩
  | tail hreach hstep ih =>
    rcases hstep.shared_cases with hv | ⟨e, -, -⟩ | ⟨t, l, f, hl, hi, -, hv⟩
    · rwa [hv]
    · exact e.elim
    · rw [hv]
      exact exclusive_exec hi (known_of_reachable hreach hl) ih

/-- The counter of the threads that wait on a condition variable. -/
def Cond.waiting : Cond → Counter
  | .okToRead => .wr
  | .okToWrite => .ww

/-- The thread is inside a `cond_wait` on `c`: asleep, or woken without the mutex. -/
def waitsOn (c : Cond) (st : Status Cond Pc) : Bool := st.isAsleepOn c || st.isWokenOn c

omit [DecidableEq T] [Fintype T] in
theorem waitsOn_eq_registered {c : Cond} {st : Status Cond Pc} (hresumes : Resumes st)
    (hout : ∀ l, st = .running l → inside l = false) :
    waitsOn c st = registered c.waiting st.point := by
  cases st with
  | running l =>
    have hl := hout l rfl
    cases c <;> cases l <;> first | rfl | cases hl
  | asleep c' l | woken c' l =>
    obtain rfl : l = c'.resume := hresumes
    cases c <;> cases c' <;> rfl

theorem value_of_free (h : Reachable (program calls) start s) (hfree : s.owner = none) (c : Cond) :
    s.shared.value c.waiting = count (waitsOn c) s.status := by
  have hsame : ∀ t, waitsOn c (s.status t) = registered c.waiting (s.status t).point := by
    intro t
    apply waitsOn_eq_registered (resumes_of_reachable h t)
    intro l hl
    have hout := (asserts_of_reachable h).owned.owner_iff hl
    rw [hfree] at hout
    simpa using hout
  rw [value_of_reachable h]
  unfold standing count
  simp only [hsame]

/-- The counters tell who is active, and with the mutex free who waits; a writer is active
alone; no counter is negative. -/
theorem counters_safe (h : Reachable (program calls) start s) :
    s.shared.ar = standing inReadSection s.status ∧
      s.shared.aw = standing inWriteSection s.status ∧
      s.shared.aw ≤ 1 ∧ (s.shared.aw = 1 → s.shared.ar = 0) ∧
      (s.owner = none → s.shared.ww = count (waitsOn .okToWrite) s.status ∧
        s.shared.wr = count (waitsOn .okToRead) s.status) ∧
      0 ≤ s.shared.ar ∧ 0 ≤ s.shared.wr ∧ 0 ≤ s.shared.aw ∧ 0 ≤ s.shared.ww := by
  obtain ⟨hone, hnone⟩ := exclusive_of_reachable h
  refine ⟨value_of_reachable h .ar, value_of_reachable h .aw, hone, hnone, fun hfree => ?_,
    value_nonneg h .ar, value_nonneg h .wr, value_nonneg h .aw, value_nonneg h .ww⟩
  exact ⟨value_of_free h hfree .okToWrite, value_of_free h hfree .okToRead⟩

/-- One thread enters a read section, then another one goes to sleep in `write_lock`. -/
def readThenWait (reader writer : T) : List (Event T Pc Empty) :=
  .choose reader .readLock :: List.replicate 4 (.run reader) ++
    .choose writer .writeLock :: List.replicate 4 (.run writer)

def afterReadThenWait (calls : T → Section → Bool) (reader writer : T) :
    Config T Cond Pc RWMonitor :=
  (runSchedule (program calls) start (readThenWait reader writer)).getD start

theorem counters_while_writer_waits :
    let s := afterReadThenWait (fun _ _ => true) (0 : Fin 2) 1
    s.owner = none ∧ s.shared.ar = standing inReadSection s.status ∧ s.shared.ar = 1 ∧
      s.shared.ww = count (waitsOn .okToWrite) s.status ∧ s.shared.ww = 1 := by
  have hrun : Reachable (program (fun _ _ => true)) start
      (afterReadThenWait (fun _ _ => true) (0 : Fin 2) 1) :=
    reachable_of_schedule (readThenWait 0 1) rfl
  have hsafe := counters_safe hrun
  exact ⟨rfl, hsafe.1, rfl, (hsafe.2.2.2.2.1 rfl).1, rfl⟩

end CpreLabs.ReadersWriters
