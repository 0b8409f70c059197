import CpreLabs.PthreadMonitor

/-!
# Rules about single threads and about waiting

What a step does to one thread, the invariant rule for properties of one thread at a time,
and an accounting rule for condition variables: while some thread sleeps on `c`, what is
available to the threads that wait for `c` is covered by the threads on their way to take it.
-/
namespace CpreLabs.Pthread

variable {T C L S E : Type*} [DecidableEq T] [DecidableEq C]

/-- What an instruction of a thread can leave behind: its status and the shared variables. -/
def Instr.Results (p : Program T C L S E) (s : Config T C L S) (st : Status C L) (v : S) :
    Instr T C L S → Prop
  | .lock n | .unlock n | .signal _ n | .broadcast _ n => st = .running n ∧ v = s.shared
  | .wait c n => st = .asleep c n ∧ v = s.shared
  | .join u n => st = .running n ∧ v = s.shared ∧
      ∃ l, s.status u = .running l ∧ p.instr u l = .halt
  | .exec f => st = .running (f s.shared).1 ∧ v = (f s.shared).2
  | .choose ok => ∃ l, ok l = true ∧ st = .running l ∧ v = s.shared
  | .halt => False

variable {p : Program T C L S E} {s s' : Config T C L S}

/-- What a step does to the shared variables. -/
theorem Step.shared_cases (h : Step p s s') :
    s'.shared = s.shared ∨ (∃ e, s'.shared = p.env e s ∧ s'.status = s.status) ∨
      ∃ t l f, s.status t = .running l ∧ p.instr t l = .exec f ∧
        s'.status = Function.update s.status t (.running (f s.shared).1) ∧
        s'.shared = (f s.shared).2 := by
  cases h with
  | env e => exact Or.inr (Or.inl ⟨e, rfl, rfl⟩)
  | exec hs hi => exact Or.inr (Or.inr ⟨_, _, _, hs, hi, rfl, rfl⟩)
  | _ => exact Or.inl rfl

/-- What a step does to one thread. -/
theorem Step.thread_cases (h : Step p s s') (u : T) :
    s'.status u = s.status u ∨
      (∃ c l, s.status u = .asleep c l ∧ s'.status u = .woken c l ∧ s'.shared = s.shared) ∨
      (∃ c l, s.status u = .woken c l ∧ s'.status u = .running l ∧ s'.shared = s.shared) ∨
      ∃ l, s.status u = .running l ∧ (p.instr u l).Results p s (s'.status u) s'.shared := by
  -- every rule but the signals and the broadcast writes one status
  have hone : ∀ {t : T} {l : L} {st : Status C L}, s.status t = .running l →
      s'.status = Function.update s.status t st →
      (p.instr t l).Results p s st s'.shared →
      s'.status u = s.status u ∨
        ∃ l, s.status u = .running l ∧ (p.instr u l).Results p s (s'.status u) s'.shared := by
    intro t l st hs hstatus hres
    by_cases hu : u = t
    · subst hu
      exact Or.inr ⟨l, hs, by rwa [hstatus, Function.update_self]⟩
    · exact Or.inl (by rw [hstatus, Function.update_of_ne hu])
  cases h with
  | lock hs hi hfree =>
    exact (hone hs rfl (by rw [hi]; exact ⟨rfl, rfl⟩)).imp_right (Or.inr ∘ Or.inr)
  | unlock hs hi howner =>
    exact (hone hs rfl (by rw [hi]; exact ⟨rfl, rfl⟩)).imp_right (Or.inr ∘ Or.inr)
  | wait hs hi howner =>
    exact (hone hs rfl (by rw [hi]; exact ⟨rfl, rfl⟩)).imp_right (Or.inr ∘ Or.inr)
  | signalNone hs hi hno =>
    exact (hone hs rfl (by rw [hi]; exact ⟨rfl, rfl⟩)).imp_right (Or.inr ∘ Or.inr)
  | @signalOne t l c n v l' hs hi hv =>
    by_cases hut : u = t
    · subst hut
      refine Or.inr (Or.inr (Or.inr ⟨l, hs, ?_⟩))
      rw [hi]
      exact ⟨Config.goto_self .., rfl⟩
    · rw [Config.goto_of_ne hut]
      by_cases huv : u = v
      · subst huv
        exact Or.inr (Or.inl ⟨c, l', hv, Config.wake_self .., rfl⟩)
      · exact Or.inl (Config.wake_of_ne huv)
  | @broadcast t l c n hs hi =>
    by_cases hut : u = t
    · subst hut
      refine Or.inr (Or.inr (Or.inr ⟨l, hs, ?_⟩))
      rw [hi]
      exact ⟨Config.goto_self .., rfl⟩
    · rw [Config.goto_of_ne hut]
      rcases s.wakeAll_cases c u with ⟨l', hst, hst'⟩ | ⟨-, hst'⟩
      · exact Or.inr (Or.inl ⟨c, l', hst, hst', rfl⟩)
      · exact Or.inl hst'
  | join hs hi hu hhalt =>
    exact (hone hs rfl (by rw [hi]; exact ⟨rfl, rfl, _, hu, hhalt⟩)).imp_right (Or.inr ∘ Or.inr)
  | exec hs hi =>
    exact (hone hs rfl (by rw [hi]; exact ⟨rfl, rfl⟩)).imp_right (Or.inr ∘ Or.inr)
  | choose hs hi hok =>
    exact (hone hs rfl (by rw [hi]; exact ⟨_, hok, rfl, rfl⟩)).imp_right (Or.inr ∘ Or.inr)
  | @spurious t c l hs =>
    by_cases hut : u = t
    · subst hut
      exact Or.inr (Or.inl ⟨c, l, hs, Config.wake_self .., rfl⟩)
    · exact Or.inl (Config.wake_of_ne hut)
  | @resume t c l hs hfree =>
    by_cases hut : u = t
    · subst hut
      exact Or.inr (Or.inr (Or.inl ⟨c, l, hs, Config.goto_self .., rfl⟩))
    · exact Or.inl (Config.goto_of_ne hut)
  | env e => exact Or.inl rfl

theorem Step.ran (h : Step p s s') {t : T} {l : L} (ht : s.status t = .running l)
    (hmoved : s'.status t ≠ s.status t) : (p.instr t l).Results p s (s'.status t) s'.shared := by
  rcases h.thread_cases t with hsame | ⟨c, l', hst, -⟩ | ⟨c, l', hst, -⟩ | ⟨l', hst, hres⟩
  · exact absurd hsame hmoved
  · rw [ht] at hst
    cases hst
  · rw [ht] at hst
    cases hst
  · rw [ht] at hst
    cases hst
    exact hres

omit [DecidableEq C] in
theorem update_status_or {f : T → Status C L} {t u : T} (htu : t ≠ u) (v : T) (st : Status C L) :
    Function.update f v st t = f t ∨ Function.update f v st u = f u := by
  by_cases htv : t = v
  · exact Or.inr (Function.update_of_ne (fun huv => htu (htv.trans huv.symm)) ..)
  · exact Or.inl (Function.update_of_ne htv ..)

/-- No two running threads move in one step. -/
theorem Step.same_or (h : Step p s s') {t u : T} {l l' : L} (htu : t ≠ u)
    (ht : s.status t = .running l) (hu : s.status u = .running l') :
    s'.status t = s.status t ∨ s'.status u = s.status u := by
  cases h with
  | @signalOne v l₁ c n w l₂ hs hi hw =>
    have hor := update_status_or (f := (s.wake w c l₂).status) htu v (.running n)
    rwa [Config.wake_of_ne (Config.ne_of_asleep ht hw),
      Config.wake_of_ne (Config.ne_of_asleep hu hw)] at hor
  | @broadcast v l₁ c n hs hi =>
    have hor := update_status_or (f := (s.wakeAll c).status) htu v (.running n)
    rwa [Config.wakeAll_running ht, Config.wakeAll_running hu, ← ht, ← hu] at hor
  | env e => exact Or.inl rfl
  | _ => exact update_status_or htu ..

theorem Step.halted (h : Step p s s') {t : T} {l : L} (ht : s.status t = .running l)
    (hl : p.instr t l = .halt) : s'.status t = .running l := by
  rcases h.thread_cases t with hsame | ⟨c, l', hst, -⟩ | ⟨c, l', hst, -⟩ | ⟨l', hst, hres⟩
  · rw [hsame, ht]
  · rw [ht] at hst
    cases hst
  · rw [ht] at hst
    cases hst
  · rw [ht] at hst
    cases hst
    rw [hl] at hres
    exact hres.elim

/-- If the thread whose turn it is to broadcast moves, every sleeper is woken. -/
theorem Step.broadcast_eq (h : Step p s s') {t : T} {l n : L} {c : C}
    (ht : s.status t = .running l) (hi : p.instr t l = .broadcast c n)
    (hmoved : s'.status t ≠ s.status t) : s' = (s.wakeAll c).goto t n := by
  have hother : ∀ {u : T} {l' : L} {st : Status C L}, s.status u = .running l' →
      s'.status = Function.update s.status u st → p.instr u l' = .broadcast c n := by
    intro u l' st hu hstatus
    by_cases hut : t = u
    · subst hut
      rw [ht] at hu
      cases hu
      exact hi
    · exact absurd (by rw [hstatus, Function.update_of_ne hut]) hmoved
  have hwaiting : ∀ {u : T} {st : Status C L}, s'.status = Function.update s.status u st →
      s.status u = .running l := by
    intro u st hstatus
    by_cases hut : t = u
    · exact hut ▸ ht
    · exact absurd (by rw [hstatus, Function.update_of_ne hut]) hmoved
  cases h with
  | lock hs hi' _ => exact absurd ((hother hs rfl).symm.trans hi') (by simp)
  | unlock hs hi' _ => exact absurd ((hother hs rfl).symm.trans hi') (by simp)
  | wait hs hi' _ => exact absurd ((hother hs rfl).symm.trans hi') (by simp)
  | signalNone hs hi' _ => exact absurd ((hother hs rfl).symm.trans hi') (by simp)
  | @signalOne u l' c' n' w l₁ hs hi' hw =>
    by_cases hut : t = u
    · subst hut
      rw [ht] at hs
      cases hs
      rw [hi] at hi'
      cases hi'
    · refine absurd ?_ hmoved
      rw [Config.goto_of_ne hut, Config.wake_of_ne (Config.ne_of_asleep ht hw)]
  | @broadcast u l' c' n' hs hi' =>
    by_cases hut : t = u
    · subst hut
      rw [ht] at hs
      cases hs
      rw [hi] at hi'
      cases hi'
      rfl
    · refine absurd ?_ hmoved
      rw [Config.goto_of_ne hut, Config.wakeAll_running ht, ht]
  | join hs hi' _ _ => exact absurd ((hother hs rfl).symm.trans hi') (by simp)
  | exec hs hi' => exact absurd ((hother hs rfl).symm.trans hi') (by simp)
  | choose hs hi' _ => exact absurd ((hother hs rfl).symm.trans hi') (by simp)
  | spurious hs => exact absurd ((hwaiting rfl).symm.trans hs) (by simp)
  | resume hs _ => exact absurd ((hwaiting rfl).symm.trans hs) (by simp)
  | env e => exact absurd rfl hmoved

/-- A property of a thread's status and the shared variables that the thread's own steps keep
and that the steps of the others do not disturb. -/
structure Program.Keeps (p : Program T C L S E) (ok : T → Status C L → S → Prop) : Prop where
  instr : ∀ t l s st v, ok t (.running l) s.shared → (p.instr t l).Results p s st v → ok t st v
  woken : ∀ t c l v, ok t (.asleep c l) v → ok t (.woken c l) v
  resumed : ∀ t c l v, ok t (.woken c l) v → ok t (.running l) v
  others : ∀ t st u l f v, p.instr u l = .exec f → ok t st v → ok t st (f v).2
  env : ∀ t st e s, ok t st s.shared → ok t st (p.env e s)

theorem Program.Keeps.step {ok : T → Status C L → S → Prop} (hp : p.Keeps ok)
    (h : Step p s s') (hs : ∀ t, ok t (s.status t) s.shared) (u : T) :
    ok u (s'.status u) s'.shared := by
  rcases h.thread_cases u with hsame | ⟨c, l, hst, hst', hv⟩ | ⟨c, l, hst, hst', hv⟩ |
    ⟨l, hst, hres⟩
  · rw [hsame]
    rcases h.shared_cases with hv | ⟨e, hv, -⟩ | ⟨t, l, f, -, hi, -, hv⟩
    · rw [hv]
      exact hs u
    · rw [hv]
      exact hp.env u _ e s (hs u)
    · rw [hv]
      exact hp.others u _ t l f _ hi (hs u)
  · rw [hst', hv]
    exact hp.woken u c l _ (hst ▸ hs u)
  · rw [hst', hv]
    exact hp.resumed u c l _ (hst ▸ hs u)
  · exact hp.instr u l s _ _ (hst ▸ hs u) hres

theorem Program.Keeps.reachable {ok : T → Status C L → S → Prop} (hp : p.Keeps ok)
    {start : Config T C L S} (h : Reachable p start s)
    (hstart : ∀ t, ok t (start.status t) start.shared) (t : T) : ok t (s.status t) s.shared :=
  h.invariant (fun s => ∀ t, ok t (s.status t) s.shared) hstart
    (fun _ _ hab ha u => hp.step hab ha u) t

/-- The thread is on its way to take what the sleepers on `c` wait for, or to wake one. -/
def Status.serves (c : C) (serving : L → Bool) : Status C L → Bool
  | .running l => serving l
  | .asleep _ _ => false
  | .woken c' _ => decide (c' = c)

def weight (b : Bool) : ℤ := if b then 1 else 0

@[simp] theorem weight_true : weight true = 1 := rfl

@[simp] theorem weight_false : weight false = 0 := rfl

theorem weight_nonneg (b : Bool) : 0 ≤ weight b := by
  cases b <;> simp

/-- How an instruction may change what is available and the serving of its thread, where `A`
is known of the shared variables. -/
def Instr.Accounts (c : C) (avail : S → ℤ) (serving : L → Bool) (A : L → S → Prop) (l : L) :
    Instr T C L S → Prop
  | .lock n | .unlock n | .join _ n => weight (serving l) ≤ weight (serving n)
  | .wait c' n =>
      if c' = c then serving n = true ∧ ∀ v, A l v → avail v ≤ 0 else serving l = false
  | .signal c' n | .broadcast c' n => c' = c ∨ weight (serving l) ≤ weight (serving n)
  | .exec f => ∀ v, A l v → avail (f v).2 ≤ 0 ∨
      avail (f v).2 + weight (serving l) ≤ avail v + weight (serving (f v).1)
  | .choose ok => ∀ n, ok n = true → weight (serving l) ≤ weight (serving n)
  | .halt => True

structure Accounting (p : Program T C L S E) (c : C) (avail : S → ℤ) (serving : L → Bool)
    (A : L → S → Prop) : Prop where
  instr : ∀ t l, (p.instr t l).Accounts c avail serving A l
  env : ∀ e s, avail (p.env e s) ≤ avail s.shared

omit [DecidableEq T] in
theorem Accounting.of_instr (hp : Accounting p c avail serving A) {t : T} {l : L}
    {i : Instr T C L S} (hi : p.instr t l = i) : i.Accounts c avail serving A l :=
  hi ▸ hp.instr t l

variable [Fintype T]

omit [DecidableEq C] in
theorem count_update_eq (q : Status C L → Bool) (status : T → Status C L) (t : T)
    (st : Status C L) :
    (count q (Function.update status t st) : ℤ) =
      count q status - weight (q (status t)) + weight (q st) := by
  have h := count_update q status t st
  unfold weight
  split_ifs at h ⊢ <;> omega

/-- While a thread sleeps on `c`, the threads that serve `c` cover what is available. -/
structure Covered (c : C) (avail : S → ℤ) (serving : L → Bool) (s : Config T C L S) : Prop where
  waiters : ∀ t l, s.status t = .asleep c l ∨ s.status t = .woken c l → serving l = true
  cover : ∀ t l, s.status t = .asleep c l →
    avail s.shared ≤ count (Status.serves c serving) s.status

variable {c : C} {avail : S → ℤ} {serving : L → Bool} {A : L → S → Prop}

theorem Covered.update (h : Covered c avail serving s) {t : T} {st : Status C L}
    (hstatus : s'.status = Function.update s.status t st)
    (hwait : ∀ l, st = .asleep c l ∨ st = .woken c l → serving l = true)
    (havail : avail s'.shared ≤ 0 ∨ st.isAsleepOn c = false ∧
      avail s'.shared + weight ((s.status t).serves c serving) ≤
        avail s.shared + weight (st.serves c serving)) : Covered c avail serving s' := by
  refine ⟨fun u l hu => ?_, fun u l hu => ?_⟩
  · by_cases hut : u = t
    · subst hut
      rw [hstatus, Function.update_self] at hu
      exact hwait l hu
    · rw [hstatus, Function.update_of_ne hut] at hu
      exact h.waiters u l hu
  · rcases havail with hzero | ⟨hst, hle⟩
    · exact hzero.trans (Int.natCast_nonneg _)
    · have hut : u ≠ t := by
        rintro rfl
        rw [hstatus, Function.update_self] at hu
        simp [hu, Status.isAsleepOn] at hst
      rw [hstatus, Function.update_of_ne hut] at hu
      have hcover := h.cover u l hu
      rw [hstatus, count_update_eq]
      omega

theorem Covered.goto (h : Covered c avail serving s) {t : T} {l n : L}
    (hs : s.status t = .running l) (hstatus : s'.status = Function.update s.status t (.running n))
    (hshared : s'.shared = s.shared) (hle : weight (serving l) ≤ weight (serving n)) :
    Covered c avail serving s' := by
  refine h.update hstatus (by simp) (Or.inr ⟨rfl, ?_⟩)
  rw [hs, hshared]
  simpa [Status.serves] using hle

/-- Where nobody sleeps on `c` there is nothing to cover. -/
theorem Covered.goto_of_awake (h : Covered c avail serving s)
    (hno : ∀ u, (s.status u).isAsleepOn c = false) (t : T) (n : L) :
    Covered c avail serving (s.goto t n) := by
  refine ⟨fun u l hu => h.waiters u l ?_, fun u l hu => ?_⟩
  · exact hu.imp (Config.waiting_of_goto · (by simp)) (Config.waiting_of_goto · (by simp))
  · have hst := Config.waiting_of_goto hu (by simp)
    simpa [hst, Status.isAsleepOn] using hno u

/-- A thread that goes to sleep gives the mutex back, so nothing is left to take on `c`, or it
was no use to the sleepers on `c` anyway. -/
theorem Covered.sleep (h : Covered c avail serving s) {t : T} {l n : L} {c' : C}
    (hs : s.status t = .running l) (hstatus : s'.status = Function.update s.status t (.asleep c' n))
    (hshared : s'.shared = s.shared)
    (hacc : if c' = c then serving n = true ∧ avail s.shared ≤ 0 else serving l = false) :
    Covered c avail serving s' := by
  by_cases hc : c' = c
  · subst hc
    rw [if_pos rfl] at hacc
    refine h.update hstatus ?_ (Or.inl (hshared ▸ hacc.2))
    rintro l₁ (hl | hl)
    · cases hl
      exact hacc.1
    · cases hl
  · rw [if_neg hc] at hacc
    refine h.update hstatus ?_ (Or.inr ⟨by simp [Status.isAsleepOn, hc], ?_⟩)
    · rintro l₁ (hl | hl)
      · cases hl
        exact absurd rfl hc
      · cases hl
    · rw [hs, hshared]
      simp [Status.serves, hacc]

theorem Covered.wake (h : Covered c avail serving s) {t : T} {c' : C} {l : L}
    (hs : s.status t = .asleep c' l) : Covered c avail serving (s.wake t c' l) := by
  refine h.update rfl ?_ (Or.inr ⟨rfl, ?_⟩)
  · rintro l₁ (hl | hl)
    · cases hl
    · cases hl
      exact h.waiters t l (Or.inl hs)
  · have hwoken := weight_nonneg (decide (c' = c))
    rw [hs]
    simpa [Status.serves, Config.wake] using hwoken

theorem weight_le (b b' : Bool) : weight b ≤ 1 + weight b' := by
  cases b <;> cases b' <;> decide

/-- A signal turns one sleeper into a thread that serves, which pays for the one that signals. -/
theorem Covered.signal (h : Covered c avail serving s) {t u : T} {l n l' : L}
    (hs : s.status t = .running l) (hu : s.status u = .asleep c l') :
    Covered c avail serving ((s.wake u c l').goto t n) := by
  have htu : t ≠ u := Config.ne_of_asleep hs hu
  have hcount : (count (Status.serves c serving) ((s.wake u c l').goto t n).status : ℤ) =
      count (Status.serves c serving) s.status + 1 - weight (serving l) + weight (serving n) := by
    simp only [Config.goto, Config.wake]
    rw [count_update_eq, count_update_eq, Function.update_of_ne htu, hs, hu]
    simp [Status.serves]
  refine ⟨fun x l₁ hx => (h.wake hu).waiters x l₁ ?_, fun x l₁ hx => ?_⟩
  · exact hx.imp (Config.waiting_of_goto · (by simp)) (Config.waiting_of_goto · (by simp))
  · have hx' := Config.waiting_of_goto hx (by simp)
    have hxu : x ≠ u := by
      rintro rfl
      rw [Config.wake_self] at hx'
      cases hx'
    rw [Config.wake_of_ne hxu] at hx'
    have hcover := h.cover x l₁ hx'
    have hpays := weight_le (serving l) (serving n)
    rw [hcount]
    change avail s.shared ≤ _
    omega

omit [DecidableEq T] in
/-- A broadcast leaves no sleeper on its own variable and does not concern the others. -/
theorem Covered.wakeAll (h : Covered c avail serving s) (c' : C) :
    Covered c avail serving (s.wakeAll c') := by
  refine ⟨fun x l hx => h.waiters x l ?_, fun x l hx => ?_⟩
  · rcases s.wakeAll_cases c' x with ⟨l', hst, hst'⟩ | ⟨-, hst'⟩
    · rw [hst'] at hx
      rcases hx with hx | hx
      · cases hx
      · cases hx
        exact Or.inl hst
    · rwa [hst'] at hx
  · have hne : c' ≠ c := by
      rintro rfl
      have hno := s.not_asleep_wakeAll c' x
      simp [hx, Status.isAsleepOn] at hno
    have hst : s.status x = .asleep c l := by
      rcases s.wakeAll_cases c' x with ⟨l', -, hst'⟩ | ⟨-, hst'⟩
      · rw [hst'] at hx
        cases hx
      · exact hst'.symm.trans hx
    have hsame : ∀ y, Status.serves c serving ((s.wakeAll c').status y) =
        Status.serves c serving (s.status y) := by
      intro y
      rcases s.wakeAll_cases c' y with ⟨l', hy, hy'⟩ | ⟨-, hy'⟩
      · rw [hy, hy']
        simp [Status.serves, hne]
      · rw [hy']
    have hcount : count (Status.serves c serving) (s.wakeAll c').status =
        count (Status.serves c serving) s.status := by
      unfold count
      simp only [hsame]
    rw [hcount]
    exact h.cover x l hst

theorem Accounting.step (hp : Accounting p c avail serving A)
    (hA : ∀ t l, s.status t = .running l → A l s.shared) (hstep : Step p s s')
    (h : Covered c avail serving s) : Covered c avail serving s' := by
  cases hstep with
  | @lock t l n hs hi hfree =>
    have hacc := hp.of_instr hi
    exact h.goto hs rfl rfl hacc
  | @unlock t l n hs hi howner =>
    have hacc := hp.of_instr hi
    exact h.goto hs rfl rfl hacc
  | @wait t l c' n hs hi howner =>
    have hacc := hp.of_instr hi
    refine h.sleep hs rfl rfl ?_
    by_cases hc : c' = c
    · simp only [Instr.Accounts, if_pos hc] at hacc ⊢
      exact ⟨hacc.1, hacc.2 _ (hA t l hs)⟩
    · simpa only [Instr.Accounts, if_neg hc] using hacc
  | @signalNone t l c' n hs hi hno =>
    have hacc := hp.of_instr hi
    rcases hacc with rfl | hle
    · exact h.goto_of_awake hno t n
    · exact h.goto hs rfl rfl hle
  | @signalOne t l c' n u l' hs hi hu =>
    have hacc := hp.of_instr hi
    rcases hacc with rfl | hle
    · exact h.signal hs hu
    · exact (h.wake hu).goto ((Config.wake_of_ne (Config.ne_of_asleep hs hu)).trans hs) rfl rfl hle
  | @broadcast t l c' n hs hi =>
    have hacc := hp.of_instr hi
    rcases hacc with rfl | hle
    · exact (h.wakeAll c').goto_of_awake (s.not_asleep_wakeAll c') t n
    · exact (h.wakeAll c').goto (Config.wakeAll_running hs) rfl rfl hle
  | @join t l u n l' hs hi hu hhalt =>
    have hacc := hp.of_instr hi
    exact h.goto hs rfl rfl hacc
  | @exec t l f hs hi =>
    have hacc := hp.of_instr hi
    refine h.update rfl (by simp) ?_
    rcases hacc _ (hA t l hs) with hzero | hle
    · exact Or.inl hzero
    · rw [hs]
      exact Or.inr ⟨rfl, hle⟩
  | @choose t l ok l' hs hi hok =>
    have hacc := hp.of_instr hi
    exact h.goto hs rfl rfl (hacc l' hok)
  | spurious hs => exact h.wake hs
  | @resume t c' l hs hfree =>
    refine h.update rfl (by simp) (Or.inr ⟨rfl, ?_⟩)
    rw [hs]
    by_cases hc : c' = c
    · subst hc
      simp [Status.serves, h.waiters t l (Or.inr hs), Config.goto]
    · have hrun := weight_nonneg (serving l)
      simpa [Status.serves, hc, Config.goto] using hrun
  | env e =>
    exact ⟨h.waiters, fun u l hu => (hp.env e s).trans (h.cover u l hu)⟩

omit [DecidableEq T] in
/-- No wakeup is lost: with the mutex free, the threads woken from `c` cover what is
available as long as some thread still sleeps on `c`. -/
theorem Covered.of_free {inside : L → Bool} (h : Covered c avail serving s)
    (howned : Owned inside s) (hin : ∀ l, serving l = true → inside l = true)
    (hfree : s.owner = none) {t : T} {l : L} (ht : s.status t = .asleep c l) :
    avail s.shared ≤ count (Status.isWokenOn c) s.status := by
  have hsame : ∀ u, Status.serves c serving (s.status u) = Status.isWokenOn c (s.status u) := by
    intro u
    cases hu : s.status u with
    | running l' =>
      have hout : ¬inside l' = true := by
        rw [howned.owner_iff hu, hfree]
        simp
      have hno : serving l' = false := by
        by_contra hs
        exact hout (hin l' (by simpa using hs))
      simp [Status.serves, Status.isWokenOn, hno]
    | asleep c' l' => rfl
    | woken c' l' => rfl
  have hcover := h.cover t l ht
  unfold count at hcover ⊢
  simpa only [hsame] using hcover

end CpreLabs.Pthread
