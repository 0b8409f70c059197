import CpreLabs.ReadersWriters

/-!
# Wakeups and writer priority of the readers-writers monitor

A reader sleeps only while a writer is active or waiting, a writer only while somebody is
active or another writer has been woken; and no reader enters from the time a writer first
goes to sleep until it is active.
-/
namespace CpreLabs.ReadersWriters
open Pthread

variable {T : Type*}

/-- What a reader sleeps under; where no reader waits, it is vacuous. -/
def Occupied (m : RWMonitor) : Prop := m.aw + m.ww > 0 ∨ m.wr ≤ 0

/-- The points from which a writer becomes active or waiting, or the readers are woken. -/
def restoring : Pc → Bool
  | .wlTest | .wlIncWW | .wlIncAW | .wuTestWW | .wuTestWR | .wuBroadcast => true
  | _ => false

/-- A thread that knows the monitor knows its counters nonnegative. -/
theorem Known.value_nonneg {l : Pc} {m : RWMonitor} (hm : Known l m) (k : Counter) :
    0 ≤ m.value k :=
  (weight_nonneg _).trans (hm.2 k)

theorem occupied_of_waits {l : Pc} {m : RWMonitor} (hm : Known l m) :
    Occupied { m with ww := m.ww + 1 } := by
  have haw : 0 ≤ m.aw := hm.value_nonneg .aw
  have hww : 0 ≤ m.ww := hm.value_nonneg .ww
  left
  dsimp only
  omega

theorem occupied_of_enters {l : Pc} {m : RWMonitor} (hm : Known l m) :
    Occupied { m with aw := m.aw + 1 } := by
  have haw : 0 ≤ m.aw := hm.value_nonneg .aw
  have hww : 0 ≤ m.ww := hm.value_nonneg .ww
  left
  dsimp only
  omega

theorem guard_okToRead (calls : T → Section → Bool) :
    Guard (program calls) .okToRead (fun _ => Occupied) restoring Known where
  env e := e.elim
  instr t l := by
    cases l with
    | idle => exact fun h => by cases h
    | rlTest | ruTest =>
      intro _ m hm hor
      exact Or.inl (hor.resolve_right (by simp [restoring]))
    | rlIncWR =>
      intro _ m hm _
      have hbusy : m.aw + m.ww > 0 := hm.1 rfl
      exact Or.inl (Or.inl hbusy)
    | rlWait =>
      refine ⟨fun _ m hm => ?_, fun h => by cases h⟩
      have hbusy : m.aw + m.ww > 0 := hm.1 rfl
      exact Or.inl hbusy
    | rlDecWR =>
      intro _ m hm hor
      refine Or.inl ((hor.resolve_right (by simp [restoring])).imp_right ?_)
      intro hnone
      dsimp only
      omega
    | rlIncAR | ruDecAR =>
      intro _ m hm hor
      exact Or.inl (hor.resolve_right (by simp [restoring]))
    | wlTest =>
      intro _ m hm _
      right
      dsimp only
      split <;> rfl
    | wlIncWW => exact fun _ m hm _ => Or.inl (occupied_of_waits hm)
    | wlIncAW => exact fun _ m hm _ => Or.inl (occupied_of_enters hm)
    | wlDecWW | wuDecAW => exact fun _ m hm _ => Or.inr rfl
    | wuTestWW =>
      intro _ m hm _
      have haw : 0 ≤ m.aw := hm.value_nonneg .aw
      by_cases hww : m.ww > 0
      · refine Or.inl (Or.inl ?_)
        dsimp only
        omega
      · right
        simp [hww, restoring]
    | wuTestWR =>
      intro _ m hm _
      by_cases hwr : m.wr > 0
      · right
        simp [hwr, restoring]
      · refine Or.inl (Or.inr ?_)
        dsimp only
        omega
    | wuBroadcast => exact Or.inl rfl
    | _ => simp [program, instr, Instr.Guards, restoring]

/-- Whether a waiting writer could become active. -/
def admitsWriter (m : RWMonitor) : ℤ := if m.aw + m.ar ≤ 0 ∧ m.ww > 0 then 1 else 0

/-- The points on the way to become the active writer, or to signal a waiting one. -/
def handing : Pc → Bool
  | .wlDecWW | .wlTest | .wlIncAW | .ruTest | .ruSignal | .wuTestWW | .wuSignal => true
  | _ => false

theorem admitsWriter_nonneg (m : RWMonitor) : 0 ≤ admitsWriter m := by
  unfold admitsWriter
  split <;> omega

theorem admitsWriter_le (m : RWMonitor) : admitsWriter m ≤ 1 := by
  unfold admitsWriter
  split <;> omega

theorem admitsWriter_of_active {m : RWMonitor} (h : m.aw + m.ar > 0) : admitsWriter m = 0 := by
  apply if_neg
  omega

theorem admitsWriter_of_none {m : RWMonitor} (h : ¬m.ww > 0) : admitsWriter m = 0 :=
  if_neg (fun h' => h h'.2)

theorem admitsWriter_of_reader {l : Pc} {m : RWMonitor} (hm : Known l m) :
    admitsWriter { m with ar := m.ar + 1 } = 0 := by
  have haw : 0 ≤ m.aw := hm.value_nonneg .aw
  have har : 0 ≤ m.ar := hm.value_nonneg .ar
  apply admitsWriter_of_active
  dsimp only
  omega

theorem admitsWriter_of_writer {l : Pc} {m : RWMonitor} (hm : Known l m) :
    admitsWriter { m with aw := m.aw + 1 } = 0 := by
  have haw : 0 ≤ m.aw := hm.value_nonneg .aw
  have har : 0 ≤ m.ar := hm.value_nonneg .ar
  apply admitsWriter_of_active
  dsimp only
  omega

/-- A change of the monitor admits at most one more writer. -/
theorem admitsWriter_le_succ (m m' : RWMonitor) : admitsWriter m' ≤ admitsWriter m + 1 := by
  have hafter := admitsWriter_le m'
  have hbefore := admitsWriter_nonneg m
  omega

theorem accounting_okToWrite (calls : T → Section → Bool) :
    Accounting (program calls) .okToWrite admitsWriter handing Known where
  env e := e.elim
  instr t l := by
    cases l with
    | idle => exact fun n _ => weight_nonneg _
    | rlTest =>
      intro m hm
      right
      dsimp only
      split <;> exact le_rfl
    | rlIncWR | rlDecWR => exact fun m hm => Or.inr le_rfl
    | rlIncAR => exact fun m hm => Or.inl (admitsWriter_of_reader hm).le
    | ruDecAR =>
      intro m hm
      have hle := admitsWriter_le_succ m { m with ar := m.ar - 1 }
      right
      simp only [handing, weight_true, weight_false]
      omega
    | ruTest =>
      intro m hm
      have haw : 0 ≤ m.aw := hm.value_nonneg .aw
      have har : 0 ≤ m.ar := hm.value_nonneg .ar
      by_cases hlast : m.ar = 0 ∧ m.ww > 0
      · right
        simp [hlast, handing]
      · left
        by_cases hww : m.ww > 0
        · refine (admitsWriter_of_active ?_).le
          dsimp only
          omega
        · exact (admitsWriter_of_none hww).le
    | ruSignal | wuSignal => exact Or.inl rfl
    | wlTest =>
      intro m hm
      by_cases hbusy : m.aw + m.ar > 0
      · exact Or.inl (admitsWriter_of_active hbusy).le
      · right
        simp [hbusy, handing]
    | wlIncWW =>
      intro m hm
      have hbusy : m.aw + m.ar > 0 := hm.1 rfl
      left
      exact (admitsWriter_of_active (m := { m with ww := m.ww + 1 }) hbusy).le
    | wlWait =>
      refine ⟨rfl, fun m hm => ?_⟩
      have hbusy : m.aw + m.ar > 0 := hm.1 rfl
      exact (admitsWriter_of_active hbusy).le
    | wlDecWW =>
      intro m hm
      right
      simp only [handing, admitsWriter]
      split <;> split <;> omega
    | wlIncAW => exact fun m hm => Or.inl (admitsWriter_of_writer hm).le
    | wuDecAW =>
      intro m hm
      have hle := admitsWriter_le_succ m { m with aw := m.aw - 1 }
      right
      simp only [handing, weight_true, weight_false]
      omega
    | wuTestWW =>
      intro m hm
      by_cases hww : m.ww > 0
      · right
        simp [hww, handing]
      · exact Or.inl (admitsWriter_of_none hww).le
    | wuTestWR =>
      intro m hm
      have hnone : ¬m.ww > 0 := hm.1 rfl
      exact Or.inl (admitsWriter_of_none hnone).le
    | wuBroadcast => exact Or.inr le_rfl
    | _ => simp [program, instr, Instr.Accounts, handing]

theorem inside_of_handing {l : Pc} (h : handing l = true) : inside l = true := by
  cases l <;> first | rfl | cases h

theorem inside_of_restoring {l : Pc} (h : restoring l = true) : inside l = true := by
  cases l <;> first | rfl | cases h

variable [DecidableEq T] [Fintype T] {calls : T → Section → Bool} {s : Config T Cond Pc RWMonitor}

theorem guarded_of_reachable (h : Reachable (program calls) start s) :
    Guarded .okToRead (fun _ => Occupied) restoring s := by
  induction h with
  | refl => exact fun t l ht => by cases ht
  | tail hreach hstep ih =>
    exact (guard_okToRead calls).step (fun t l ht => known_of_reachable hreach ht) hstep ih

theorem covered_of_reachable (h : Reachable (program calls) start s) :
    Covered .okToWrite admitsWriter handing s := by
  induction h with
  | refl => exact ⟨by simp [start], by simp [start]⟩
  | tail hreach hstep ih =>
    exact (accounting_okToWrite calls).step (fun t l ht => known_of_reachable hreach ht) hstep ih

/-- A sleeper is counted as waiting. -/
theorem waiting_pos (h : Reachable (program calls) start s) {t : T} {c : Cond}
    (ht : (s.status t).isAsleepOn c = true) : 0 < s.shared.value c.waiting := by
  obtain ⟨l, hl⟩ := Status.isAsleepOn_iff.mp ht
  have hresumes := resumes_of_reachable h t
  apply value_pos h (t := t)
  rw [hl] at hresumes ⊢
  obtain rfl : l = c.resume := hresumes
  cases c <;> rfl

/-- With the mutex free, a reader sleeps only while a writer is active or waiting. -/
theorem occupied_of_reader_asleep (h : Reachable (program calls) start s) (hfree : s.owner = none)
    {t : T} (ht : (s.status t).isAsleepOn .okToRead = true) : s.shared.aw + s.shared.ww > 0 := by
  obtain ⟨l, hl⟩ := Status.isAsleepOn_iff.mp ht
  rcases guarded_of_reachable h t l hl with (hbusy | hnone) | ⟨u, l', hu, hl'⟩
  · exact hbusy
  · have hself : 0 < s.shared.wr := waiting_pos h ht
    omega
  · have howner := ((asserts_of_reachable h).owned.owner_iff hu).mp (inside_of_restoring hl')
    rw [hfree] at howner
    cases howner

/-- With the mutex free, a writer sleeps only while somebody is active or another writer has
been woken. -/
theorem active_of_writer_asleep (h : Reachable (program calls) start s) (hfree : s.owner = none)
    {t : T} (ht : (s.status t).isAsleepOn .okToWrite = true) :
    s.shared.aw + s.shared.ar > 0 ∨ ∃ u, (s.status u).isWokenOn .okToWrite = true := by
  obtain ⟨l, hl⟩ := Status.isAsleepOn_iff.mp ht
  have hcover := (covered_of_reachable h).of_free (asserts_of_reachable h).owned
    (fun _ => inside_of_handing) hfree hl
  have hself : 0 < s.shared.ww := waiting_pos h ht
  by_cases hbusy : s.shared.aw + s.shared.ar > 0
  · exact Or.inl hbusy
  · right
    have hadmits : admitsWriter s.shared = 1 := by
      apply if_pos
      omega
    have hpos : 0 < count (Status.isWokenOn .okToWrite) s.status := by
      omega
    obtain ⟨u, hu⟩ := Finset.card_pos.mp hpos
    exact ⟨u, by simpa using hu⟩

/-- The thread is in a section, without the mutex. -/
def inSection : Status Cond Pc → Prop
  | .running .reading | .running .writing => True
  | _ => False

theorem inSection_of_registered {k : Counter} (hk : k = .ar ∨ k = .aw)
    {st : Status Cond Pc} (hresumes : Resumes st) (hout : ∀ l, st = .running l → inside l = false)
    (h : registered k st.point = true) : inSection st := by
  cases st with
  | running l =>
    have hl := hout l rfl
    rcases hk with rfl | rfl <;> cases l <;> trivial
  | asleep c l | woken c l =>
    obtain rfl : l = c.resume := hresumes
    rcases hk with rfl | rfl <;> cases c <;> cases h

theorem exists_inSection (h : Reachable (program calls) start s) (hfree : s.owner = none)
    (hactive : s.shared.aw + s.shared.ar > 0) : ∃ u, inSection (s.status u) := by
  have hcounted : ∃ k, (k = Counter.ar ∨ k = .aw) ∧ 0 < s.shared.value k := by
    by_cases haw : 0 < s.shared.aw
    · exact ⟨.aw, Or.inr rfl, haw⟩
    · refine ⟨.ar, Or.inl rfl, ?_⟩
      change 0 < s.shared.ar
      omega
  obtain ⟨k, hk, hpos⟩ := hcounted
  rw [value_of_reachable h k] at hpos
  obtain ⟨u, hu⟩ := exists_of_standing_pos (by exact_mod_cast hpos)
  refine ⟨u, inSection_of_registered hk (resumes_of_reachable h u) (fun l hl => ?_) hu⟩
  have hout := (asserts_of_reachable h).owned.owner_iff hl
  rw [hfree] at hout
  simpa using hout

/-- While the mutex is free and a thread sleeps, another one is in a section or woken. -/
theorem exists_awake (h : Reachable (program calls) start s) (hfree : s.owner = none) {t : T}
    {c : Cond} (ht : (s.status t).isAsleepOn c = true) :
    ∃ u, inSection (s.status u) ∨ ∃ c', (s.status u).isWokenOn c' = true := by
  have hwriter : ∀ {w : T}, (s.status w).isAsleepOn .okToWrite = true →
      ∃ u, inSection (s.status u) ∨ ∃ c', (s.status u).isWokenOn c' = true := by
    intro w hw
    rcases active_of_writer_asleep h hfree hw with hactive | ⟨u, hu⟩
    · obtain ⟨u, hu⟩ := exists_inSection h hfree hactive
      exact ⟨u, Or.inl hu⟩
    · exact ⟨u, Or.inr ⟨_, hu⟩⟩
  cases c with
  | okToWrite => exact hwriter ht
  | okToRead =>
    have hbusy := occupied_of_reader_asleep h hfree ht
    by_cases hww : 0 < s.shared.ww
    · -- some writer waits: it has been woken, or sleeps itself
      have hcount := value_of_free h hfree .okToWrite
      have hpos : 0 < count (waitsOn .okToWrite) s.status := by
        change s.shared.ww = _ at hcount
        omega
      obtain ⟨w, hw⟩ := Finset.card_pos.mp hpos
      have hwaits : waitsOn .okToWrite (s.status w) = true := by simpa using hw
      rcases Bool.or_eq_true_iff.mp hwaits with hasleep | hwoken
      · exact hwriter hasleep
      · exact ⟨w, Or.inr ⟨_, hwoken⟩⟩
    · have har : 0 ≤ s.shared.ar := value_nonneg h .ar
      obtain ⟨u, hu⟩ := exists_inSection h hfree (by omega)
      exact ⟨u, Or.inl hu⟩

/-- No wakeup is lost: with the mutex free, who sleeps has a reason to; and a thread never
waits while nobody holds the mutex, is in a section, or has been woken. -/
theorem no_stranded_waiter (h : Reachable (program calls) start s) :
    (s.owner = none →
      (∀ t, (s.status t).isAsleepOn .okToRead = true → s.shared.aw + s.shared.ww > 0) ∧
      (∀ t, (s.status t).isAsleepOn .okToWrite = true →
        s.shared.aw + s.shared.ar > 0 ∨ ∃ u, (s.status u).isWokenOn .okToWrite = true)) ∧
    ∀ t c, waitsOn c (s.status t) = true →
      ∃ u, s.owner = some u ∨ inSection (s.status u) ∨ ∃ c', (s.status u).isWokenOn c' = true := by
  refine ⟨fun hfree => ⟨fun t ht => occupied_of_reader_asleep h hfree ht,
    fun t ht => active_of_writer_asleep h hfree ht⟩, fun t c ht => ?_⟩
  cases howner : s.owner with
  | some u => exact ⟨u, Or.inl rfl⟩
  | none =>
    rcases Bool.or_eq_true_iff.mp ht with hasleep | hwoken
    · obtain ⟨u, hu⟩ := exists_awake h howner hasleep
      exact ⟨u, Or.inr hu⟩
    · exact ⟨t, Or.inr (Or.inr ⟨c, hwoken⟩)⟩

theorem writer_sleeps_while_read :
    let s := afterReadThenWait (fun _ _ => true) (0 : Fin 2) 1
    (s.status 1).isAsleepOn .okToWrite = true ∧
      (s.shared.aw + s.shared.ar > 0 ∨ ∃ u, (s.status u).isWokenOn .okToWrite = true) := by
  have hrun : Reachable (program (fun _ _ => true)) start
      (afterReadThenWait (fun _ _ => true) (0 : Fin 2) 1) :=
    reachable_of_schedule (readThenWait 0 1) rfl
  exact ⟨rfl, ((no_stranded_waiter hrun).1 rfl).2 1 rfl⟩

/-- The points of `write_lock` with the mutex before the increment of `AW`; a thread that waits
continues at one of them. -/
def writerWaits : Pc → Bool
  | .wlTest | .wlIncWW | .wlWait | .wlDecWW | .wlIncAW => true
  | _ => false

/-- The points of `read_lock` past its last test, until it returns. -/
def admitted : Pc → Bool
  | .rlIncAR | .rlUnlock => true
  | _ => false

/-- While a writer waits, no reader is past its test. -/
theorem not_admitted_of_writer_waits (h : Reachable (program calls) start s) {w : T}
    (hw : writerWaits (s.status w).point = true) {t : T} {l : Pc} (ht : s.status t = .running l) :
    admitted l = false := by
  cases hl : admitted l with
  | false => rfl
  | true =>
    have hin : inside l = true := by cases l <;> first | rfl | cases hl
    have hknown := known_of_reachable h ht
    have hidle : ¬s.shared.aw + s.shared.ww > 0 := by
      have hheld := hknown.1 hin
      cases l <;> first | exact hheld | cases hl
    have haw : 0 ≤ s.shared.aw := value_nonneg h .aw
    have hww : ¬0 < s.shared.ww := by omega
    refine absurd ?_ hww
    apply value_pos h (k := .ww) (t := w)
    have hresumes := resumes_of_reachable h w
    cases hst : s.status w with
    | running l' =>
      -- both hold the mutex, so they are one thread at one point
      rw [hst] at hw
      have hin' : inside l' = true := by
        rw [Status.point_running] at hw
        cases l' <;> first | rfl | cases hw
      have htw := (asserts_of_reachable h).owned.unique ht hin hst hin'
      subst htw
      rw [ht] at hst
      cases hst
      cases l <;> simp [admitted, writerWaits] at hl hw
    | asleep c l' | woken c l' =>
      rw [hst] at hw hresumes
      obtain rfl : l' = c.resume := hresumes
      cases c with
      | okToRead => cases hw
      | okToWrite => rfl

omit [DecidableEq T] [Fintype T] in
theorem ar_exec {t : T} {l : Pc} {f : RWMonitor → Pc × RWMonitor}
    (hi : (program calls).instr t l = .exec f) (hl : admitted l = false) (m : RWMonitor) :
    (f m).2.ar ≤ m.ar := by
  cases l with
  | ruDecAR =>
    cases hi
    dsimp only
    omega
  | rlIncAR => cases hl
  | rlTest | rlIncWR | rlDecWR | ruTest | wlTest | wlIncWW | wlDecWW | wlIncAW | wuDecAW |
      wuTestWW | wuTestWR =>
    cases hi
    exact le_rfl
  | _ => cases hi

omit [Fintype T] in
/-- A reader gets into its section from the unlock of `read_lock`. -/
theorem reading_cases {a b : Config T Cond Pc RWMonitor} (hstep : Step (program calls) a b)
    (hresumes : ∀ t, Resumes (a.status t)) {t : T} (h : b.status t = .running .reading) :
    a.status t = .running .reading ∨ a.status t = .running .rlUnlock := by
  rcases hstep.thread_cases t with hsame | ⟨c, l, -, hst', -⟩ | ⟨c, l, hst, hst', -⟩ |
    ⟨l, hst, hres⟩
  · exact Or.inl (hsame.symm.trans h)
  · rw [h] at hst'
    cases hst'
  · rw [h] at hst'
    cases hst'
    have hnone := hresumes t
    rw [hst] at hnone
    have hpc : Pc.reading = c.resume := hnone
    cases c <;> cases hpc
  · rw [h] at hres
    cases l with
    | rlUnlock => exact Or.inr hst
    | idle =>
      obtain ⟨n, hok, hn, -⟩ := hres
      cases hn
      cases hok
    | rlTest | ruTest | wlTest | wuTestWW | wuTestWR =>
      have hpc := Status.running.inj hres.1
      dsimp only at hpc
      split at hpc <;> cases hpc
    | returned => exact hres.elim
    | _ => cases hres.1

/-- No `read_lock` gets past its test, or returns, in the step. -/
def NoReaderEnters (a b : Config T Cond Pc RWMonitor) : Prop :=
  b.shared.ar ≤ a.shared.ar ∧
    ∀ t, b.status t = .running .reading → a.status t = .running .reading

theorem noReaderEnters_step {a b : Config T Cond Pc RWMonitor}
    (h : Reachable (program calls) start a) (hstep : Step (program calls) a b) {w : T}
    (hw : writerWaits (a.status w).point = true) : NoReaderEnters a b := by
  refine ⟨?_, fun t ht => ?_⟩
  · rcases hstep.shared_cases with hv | ⟨e, -, -⟩ | ⟨t, l, f, hl, hi, -, hv⟩
    · rw [hv]
    · exact e.elim
    · rw [hv]
      exact ar_exec hi (not_admitted_of_writer_waits h hw hl) a.shared
  · rcases reading_cases hstep (resumes_of_reachable h) ht with hst | hst
    · exact hst
    · cases not_admitted_of_writer_waits h hw hst

theorem noReaderEnters_run {run : List (Config T Cond Pc RWMonitor)}
    (h : Reachable (program calls) start s) (hrun : (s :: run).IsChain (Step (program calls)))
    {w : T} (hw : writerWaits (s.status w).point = true)
    (hwaits : ∀ a ∈ run.dropLast, writerWaits (a.status w).point = true) :
    (s :: run).IsChain NoReaderEnters := by
  induction run generalizing s with
  | nil => exact .singleton s
  | cons b run ih =>
    obtain ⟨hstep, hrest⟩ := List.isChain_cons_cons.mp hrun
    refine .cons_cons (noReaderEnters_step h hstep hw) ?_
    cases run with
    | nil => exact .singleton b
    | cons c run =>
      have hb : writerWaits (b.status w).point = true := hwaits b List.mem_cons_self
      exact ih (h.tail hstep) hrest hb (fun a ha => hwaits a (List.mem_cons_of_mem b ha))

/-- A waiting writer is not overtaken by a reader: in a run that starts where a writer sleeps
in `write_lock`, no reader enters before the step after which the writer is active. -/
theorem writer_not_overtaken (h : Reachable (program calls) start s) {w : T} {l : Pc}
    (hw : s.status w = .asleep .okToWrite l) {run : List (Config T Cond Pc RWMonitor)}
    (hrun : (s :: run).IsChain (Step (program calls)))
    (hwaits : ∀ a ∈ run.dropLast, writerWaits (a.status w).point = true) :
    (s :: run).IsChain NoReaderEnters := by
  refine noReaderEnters_run h hrun ?_ hwaits
  have hresumes := resumes_of_reachable h w
  rw [hw] at hresumes ⊢
  obtain rfl : l = Cond.okToWrite.resume := hresumes
  rfl

/-- A reader arrives, and the one in the section leaves and wakes the writer. -/
def arriveThenLeave (late reader writer : T) : List (Event T Pc Empty) :=
  .choose late .readLock :: List.replicate 4 (.run late) ++ List.replicate 3 (.run reader) ++
    [.signal reader writer, .run reader, .resume writer]

theorem late_reader_does_not_enter :
    let s := afterReadThenWait (fun _ _ => true) (0 : Fin 3) 1
    s.status 1 = .asleep .okToWrite .wlDecWW ∧
      (s :: scheduleStates (program (fun _ _ => true)) s (arriveThenLeave 2 0 1)).IsChain
        NoReaderEnters := by
  have hrun : Reachable (program (fun _ _ => true)) start
      (afterReadThenWait (fun _ _ => true) (0 : Fin 3) 1) :=
    reachable_of_schedule (readThenWait 0 1) rfl
  have hasleep : (afterReadThenWait (fun _ _ => true) (0 : Fin 3) 1).status 1 =
      .asleep .okToWrite .wlDecWW := rfl
  exact ⟨hasleep, writer_not_overtaken hrun hasleep (isChain_scheduleStates _ _ _) (by decide)⟩

end CpreLabs.ReadersWriters
