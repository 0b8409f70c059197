import CpreLabs.PthreadWaiting
import Mathlib.Algebra.Order.BigOperators.Group.Finset

/-!
# How long programs run, and where they stop

A rank of the program points that every instruction lowers bounds the length of every run: what
a signal gives the thread it wakes, the signalling thread has to spare. Wakeups without a signal
and events of the surroundings are paid for by nobody, and are counted. Where nothing but these
can happen, every thread has returned or is blocked.
-/
namespace CpreLabs.Pthread

variable {T C L S E : Type*}

/-- A wakeup without a signal, or an event of the surroundings. -/
def Event.free : Event T L E → Bool
  | .spurious _ | .env _ => true
  | _ => false

/-- A sleeper has nothing left to do until it is woken. -/
def Status.rank (rank : L → ℕ) : Status C L → ℕ
  | .running l => rank l
  | .asleep _ _ => 0
  | .woken _ l => rank l + 1

variable [Fintype T]

def total (rank : L → ℕ) (status : T → Status C L) : ℕ := ∑ t, (status t).rank rank

/-- The instruction lowers the rank, and one that wakes others lowers it by the `cost` of each
wakeup as well. -/
def Instr.Lowers (rank : L → ℕ) (cost : ℕ) (l : L) : Instr T C L S → Prop
  | .lock n | .unlock n | .join _ n => rank n < rank l
  | .wait _ n => 0 < rank l ∧ rank n < cost
  | .signal _ n => rank n + cost < rank l
  | .broadcast _ n => rank n + Fintype.card T * cost < rank l
  | .exec f => ∀ v, rank (f v).1 < rank l
  | .choose ok => ∀ n, ok n = true → rank n < rank l
  | .halt => True

def Program.Lowers (p : Program T C L S E) (rank : L → ℕ) (cost : ℕ) : Prop :=
  ∀ t l, (p.instr t l).Lowers rank cost l

variable {p : Program T C L S E} {rank : L → ℕ} {cost : ℕ} {s s' : Config T C L S}

theorem Program.Lowers.of_instr (hp : p.Lowers rank cost) {t : T} {l : L} {i : Instr T C L S}
    (hi : p.instr t l = i) : i.Lowers rank cost l :=
  hi ▸ hp t l

/-- To wake a sleeper costs no more than `cost`. -/
def Affordable (rank : L → ℕ) (cost : ℕ) (s : Config T C L S) : Prop :=
  ∀ t c l, s.status t = .asleep c l → rank l < cost

variable [DecidableEq T]

theorem total_update (rank : L → ℕ) (status : T → Status C L) (t : T) (st : Status C L) :
    total rank (Function.update status t st) + (status t).rank rank =
      total rank status + st.rank rank := by
  have hnew := Finset.add_sum_erase Finset.univ
    (fun u => (Function.update status t st u).rank rank) (Finset.mem_univ t)
  have hold := Finset.add_sum_erase Finset.univ
    (fun u => (status u).rank rank) (Finset.mem_univ t)
  have hrest : ∑ u ∈ Finset.univ.erase t, (Function.update status t st u).rank rank =
      ∑ u ∈ Finset.univ.erase t, (status u).rank rank := by
    apply Finset.sum_congr rfl
    intro u hu
    rw [Function.update_of_ne (Finset.ne_of_mem_erase hu)]
  unfold total
  rw [← hnew, ← hold, hrest, Function.update_self]
  omega

theorem total_goto (rank : L → ℕ) {t : T} {l : L} (n : L) (hs : s.status t = .running l) :
    total rank (s.goto t n).status + rank l = total rank s.status + rank n := by
  have h := total_update rank s.status t (.running n)
  rw [hs] at h
  exact h

theorem total_lowered {rank : L → ℕ} {t : T} {l n : L} (hs : s.status t = .running l)
    (hlow : rank n < rank l) (hs' : s'.status = (s.goto t n).status) :
    total rank s'.status + 1 ≤ total rank s.status := by
  have htotal := total_goto rank n hs
  rw [hs']
  omega

theorem total_sleep (rank : L → ℕ) {t : T} {l : L} (c : C) (n : L) (hs : s.status t = .running l) :
    total rank (s.sleep t c n).status + rank l = total rank s.status := by
  have h := total_update rank s.status t (.asleep c n)
  rw [hs] at h
  exact h

theorem total_wake (rank : L → ℕ) {t : T} {c : C} {l : L} (hs : s.status t = .asleep c l) :
    total rank (s.wake t c l).status = total rank s.status + (rank l + 1) := by
  have h := total_update rank s.status t (.woken c l)
  rw [hs] at h
  exact h

theorem total_resume (rank : L → ℕ) {t : T} {c : C} {l : L} (hs : s.status t = .woken c l) :
    total rank (s.goto t l).status + 1 = total rank s.status := by
  have h := total_update rank s.status t (.running l)
  rw [hs] at h
  simp only [Status.rank] at h
  have hgoto : (s.goto t l).status = Function.update s.status t (.running l) := rfl
  rw [hgoto]
  omega

omit [DecidableEq T] in
theorem total_wakeAll [DecidableEq C] (hs : Affordable rank cost s) (c : C) :
    total rank (s.wakeAll c).status ≤ total rank s.status + Fintype.card T * cost := by
  have heach : ∀ t ∈ Finset.univ,
      ((s.wakeAll c).status t).rank rank ≤ (s.status t).rank rank + cost := by
    intro t _
    rcases s.wakeAll_cases c t with ⟨l, hst, hst'⟩ | ⟨-, hst'⟩
    · have hcost := hs t c l hst
      rw [hst, hst']
      simp only [Status.rank]
      omega
    · rw [hst']
      exact Nat.le_add_right _ _
  have hsum := Finset.sum_le_sum heach
  rw [Finset.sum_add_distrib, Finset.sum_const, Finset.card_univ, Nat.nsmul_eq_mul] at hsum
  exact hsum

variable [DecidableEq C]

theorem Affordable.step (hp : p.Lowers rank cost) (hstep : Step p s s')
    (h : Affordable rank cost s) : Affordable rank cost s' := by
  intro t c l ht
  rcases hstep.thread_cases t with hsame | ⟨c', l', -, hst', -⟩ | ⟨c', l', -, hst', -⟩ |
    ⟨l', -, hres⟩
  · exact h t c l (hsame ▸ ht)
  · rw [hst'] at ht
    cases ht
  · rw [hst'] at ht
    cases ht
  · have hlow := hp t l'
    cases hi : p.instr t l' with
    | wait c' n =>
      rw [hi] at hres hlow
      obtain ⟨hst, -⟩ := hres
      rw [hst] at ht
      cases ht
      exact hlow.2
    | join u n =>
      rw [hi] at hres
      rw [hres.1] at ht
      cases ht
    | choose ok =>
      rw [hi] at hres
      obtain ⟨n, -, hst, -⟩ := hres
      rw [hst] at ht
      cases ht
    | halt =>
      rw [hi] at hres
      exact hres.elim
    | _ =>
      rw [hi] at hres
      rw [hres.1] at ht
      cases ht

/-- An instruction that wakes no single thread. -/
theorem Program.Lowers.run (hp : p.Lowers rank cost) (hs : Affordable rank cost s) {t : T} {l : L}
    (hst : s.status t = .running l) (h : Pthread.next p s (.run t) = some s') :
    total rank s'.status + 1 ≤ total rank s.status := by
  simp only [Pthread.next, hst] at h
  have hlow := hp t l
  cases hi : p.instr t l with
  | lock n =>
    simp only [hi] at h hlow
    obtain ⟨-, h⟩ := Option.ite_none_right_eq_some.mp h
    exact total_lowered hst hlow (by cases h; rfl)
  | unlock n =>
    simp only [hi] at h hlow
    obtain ⟨-, h⟩ := Option.ite_none_right_eq_some.mp h
    exact total_lowered hst hlow (by cases h; rfl)
  | wait c n =>
    simp only [hi, Instr.Lowers] at h hlow
    obtain ⟨-, h⟩ := Option.ite_none_right_eq_some.mp h
    cases h
    have htotal := total_sleep rank c n hst
    dsimp only
    omega
  | signal c n =>
    simp only [hi, Instr.Lowers] at h hlow
    obtain ⟨-, h⟩ := Option.ite_none_right_eq_some.mp h
    have hless : rank n < rank l := by omega
    exact total_lowered hst hless (by cases h; rfl)
  | broadcast c n =>
    simp only [hi, Instr.Lowers] at h hlow
    cases h
    have hall := total_wakeAll hs c
    have hst' : (s.wakeAll c).status t = .running l := Config.wakeAll_running hst
    have htotal := total_goto rank n hst'
    omega
  | join u n =>
    simp only [hi] at h hlow
    split at h <;> try contradiction
    split at h <;> try contradiction
    exact total_lowered hst hlow (by cases h; rfl)
  | exec f =>
    simp only [hi] at h hlow
    exact total_lowered hst (hlow s.shared) (by cases h; rfl)
  | choose ok =>
    simp only [hi] at h
    cases h
  | halt =>
    simp only [hi] at h
    cases h

/-- An event lowers the total of the ranks, or is one of those that are counted. -/
theorem Program.Lowers.next (hp : p.Lowers rank cost) (hs : Affordable rank cost s)
    {e : Event T L E} (h : next p s e = some s') :
    total rank s'.status + 1 ≤
      total rank s.status + (if e.free = true then cost + 1 else 0) := by
  cases e with
  | run t =>
    cases hst : s.status t with
    | running l => exact hp.run hs hst h
    | asleep c l =>
      simp only [Pthread.next, hst] at h
      cases h
    | woken c l =>
      simp only [Pthread.next, hst] at h
      cases h
  | signal t u =>
    simp only [Pthread.next] at h
    split at h <;> try contradiction
    rename_i l c l' hst hu
    split at h <;> try contradiction
    rename_i c' n hi
    have hlow := hp.of_instr hi
    obtain ⟨rfl, h⟩ := Option.ite_none_right_eq_some.mp h
    cases h
    have hcost := hs u c l' hu
    have hwake := total_wake rank hu
    have hst' : (s.wake u c l').status t = .running l :=
      (Config.wake_of_ne (Config.ne_of_asleep hst hu)).trans hst
    have htotal := total_goto rank n hst'
    simp only [Instr.Lowers, Event.free] at hlow ⊢
    omega
  | choose t n =>
    simp only [Pthread.next] at h
    split at h <;> try contradiction
    rename_i l hst
    split at h <;> try contradiction
    rename_i ok hi
    obtain ⟨hok, h⟩ := Option.ite_none_right_eq_some.mp h
    exact total_lowered hst (hp.of_instr hi n hok) (by cases h; rfl)
  | spurious t =>
    simp only [Pthread.next] at h
    split at h <;> try contradiction
    rename_i c l hst
    cases h
    have hcost := hs t c l hst
    have htotal := total_wake rank hst
    simp only [Event.free, if_true]
    omega
  | resume t =>
    simp only [Pthread.next] at h
    split at h <;> try contradiction
    rename_i c l hst
    obtain ⟨-, h⟩ := Option.ite_none_right_eq_some.mp h
    cases h
    have htotal := total_resume rank hst
    simp only [Event.free]
    omega
  | env e =>
    cases h
    simp only [Event.free, if_true]
    exact Nat.add_le_add_left (Nat.le_add_left 1 cost) _

/-- A run is no longer than the ranks at its start and its free events allow. -/
theorem Program.Lowers.length_le (hp : p.Lowers rank cost) {es : List (Event T L E)}
    (hs : Affordable rank cost s) (h : runSchedule p s es = some s') :
    es.length + total rank s'.status ≤
      total rank s.status + (cost + 1) * es.countP Event.free := by
  induction es generalizing s with
  | nil =>
    cases h
    simp
  | cons e es ih =>
    obtain ⟨s₁, hs₁, hrest⟩ := Option.bind_eq_some_iff.mp h
    have hfirst := hp.next hs hs₁
    have hlater := ih (hs.step hp (step_of_next hs₁)) hrest
    rw [List.length_cons, List.countP_cons, Nat.mul_add]
    split at hfirst <;> rename_i hfree
    · rw [if_pos hfree]
      omega
    · rw [if_neg hfree]
      omega

/-- Nothing but a free event can happen. -/
def Quiet (p : Program T C L S E) (s : Config T C L S) : Prop :=
  ∀ e : Event T L E, e.free = false → next p s e = none

/-- What keeps a thread at its instruction. -/
def Instr.Blocked (p : Program T C L S E) (s : Config T C L S) (t : T) : Instr T C L S → Prop
  | .lock _ => s.owner ≠ none
  | .unlock _ | .wait _ _ => s.owner ≠ some t
  | .join u _ => ∀ l, s.status u = .running l → p.instr u l ≠ .halt
  | .choose ok => ∀ n, ok n = false
  | .halt => True
  | _ => False

theorem Quiet.blocked (h : Quiet p s) {t : T} {l : L} (hs : s.status t = .running l) :
    (p.instr t l).Blocked p s t := by
  have hrun := h (.run t) rfl
  simp only [next, hs] at hrun
  cases hi : p.instr t l with
  | lock n =>
    intro hfree
    simp [hi, hfree] at hrun
  | unlock n =>
    intro howner
    simp [hi, howner] at hrun
  | wait c n =>
    intro howner
    simp [hi, howner] at hrun
  | signal c n =>
    simp only [hi, ite_eq_right_iff, reduceCtorEq, imp_false, not_forall] at hrun
    obtain ⟨u, hu⟩ := hrun
    obtain ⟨l', hl'⟩ := Status.isAsleepOn_iff.mp (by simpa using hu)
    have hsignal := h (.signal t u) rfl
    simp [next, hs, hl', hi] at hsignal
  | broadcast c n => simp [hi] at hrun
  | join u n =>
    intro l' hu hhalt
    simp [hi, hu, hhalt] at hrun
  | exec f => simp [hi] at hrun
  | choose ok =>
    intro n
    have hchoose := h (.choose t n) rfl
    simpa [next, hs, hi] using hchoose
  | halt => trivial

theorem Quiet.not_free_of_woken (h : Quiet p s) {t : T} {c : C} {l : L}
    (hs : s.status t = .woken c l) : s.owner ≠ none := by
  intro hfree
  have hresume := h (.resume t) rfl
  simp [next, hs, hfree] at hresume

/-- Where all threads have returned, nothing goes on. -/
theorem quiet_of_halted (h : ∀ t, ∃ l, s.status t = .running l ∧ p.instr t l = .halt) :
    Quiet p s := by
  intro e he
  cases e with
  | run t | resume t | choose t n =>
    obtain ⟨l, hst, hi⟩ := h t
    simp [next, hst, hi]
  | signal t u =>
    obtain ⟨l, hst, hi⟩ := h t
    obtain ⟨l', hst', -⟩ := h u
    simp [next, hst, hst']
  | spurious t | env e => cases he

/-- The instruction waits for the mutex at most. -/
def Instr.Brief : Instr T C L S → Prop
  | .join _ _ | .choose _ => False
  | _ => True

/-- A thread that waits for nothing inside the critical section does not stop there. -/
theorem Quiet.owner_eq_none (h : Quiet p s) {inside : L → Bool} (hp : p.Bracketed inside)
    (howned : Owned inside s)
    (hbrief : ∀ t l, s.status t = .running l → inside l = true → (p.instr t l).Brief) :
    s.owner = none := by
  cases howner : s.owner with
  | none => rfl
  | some t =>
    have hag := howned t
    cases hst : s.status t with
    | running l =>
      have hin := (howned.owner_iff hst).mpr howner
      have hblocked := h.blocked hst
      have hb := hp t l
      have hshort := hbrief t l hst hin
      cases hi : p.instr t l with
      | lock n =>
        rw [hi] at hb
        rw [hb.1] at hin
        cases hin
      | unlock n | wait c n =>
        rw [hi] at hblocked
        exact absurd howner hblocked
      | join u n | choose ok =>
        rw [hi] at hshort
        exact hshort.elim
      | halt =>
        rw [hi] at hb
        change inside l = false at hb
        rw [hb] at hin
        cases hin
      | _ =>
        rw [hi] at hblocked
        exact hblocked.elim
    | asleep c l | woken c l =>
      rw [hst] at hag
      exact absurd howner hag.2

end CpreLabs.Pthread
