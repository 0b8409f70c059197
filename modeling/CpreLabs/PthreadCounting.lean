import CpreLabs.PthreadWaiting

/-!
# Counters of threads, and guards of sleepers

Three more rules about programs over a mutex and condition variables: a shared variable that
counts the threads at some of the program points, whether these run or wait there; a property
of one thread that only the steps of other threads may disturb; and a guard, which holds while
a thread sleeps on `c` unless another thread is about to restore it or to wake all sleepers.
-/
namespace CpreLabs.Pthread

variable {T C L S E : Type*}

/-- Where a thread runs, or continues after its wait. -/
def Status.point : Status C L → L
  | .running l | .asleep _ l | .woken _ l => l

@[simp] theorem Status.point_running (l : L) : (Status.running l : Status C L).point = l := rfl

@[simp] theorem Status.point_asleep (c : C) (l : L) : (Status.asleep c l).point = l := rfl

@[simp] theorem Status.point_woken (c : C) (l : L) : (Status.woken c l).point = l := rfl

/-- How many threads stand at a point that satisfies the test. -/
def standing [Fintype T] (q : L → Bool) (status : T → Status C L) : ℕ :=
  count (fun st => q st.point) status

variable {p : Program T C L S E} {s s' : Config T C L S}

/-- The instruction changes the counter `f` as it changes the number of threads at `q`. -/
def Instr.Tallies (f : S → ℤ) (q : L → Bool) (l : L) : Instr T C L S → Prop
  | .lock n | .unlock n | .wait _ n | .signal _ n | .broadcast _ n | .join _ n => q n = q l
  | .exec g => ∀ v, f (g v).2 + weight (q l) = f v + weight (q (g v).1)
  | .choose ok => ∀ n, ok n = true → q n = q l
  | .halt => True

structure Tally (p : Program T C L S E) (f : S → ℤ) (q : L → Bool) : Prop where
  instr : ∀ t l, (p.instr t l).Tallies f q l
  env : ∀ e s, f (p.env e s) = f s.shared

theorem Tally.of_instr (hp : Tally p f q) {t : T} {l : L} {i : Instr T C L S}
    (hi : p.instr t l = i) : i.Tallies f q l :=
  hi ▸ hp.instr t l

section Tally

variable [DecidableEq T] [Fintype T] {f : S → ℤ} {q : L → Bool}

/-- A step that writes one status. -/
theorem tally_update (h : f s.shared = standing q s.status) {t : T} {st : Status C L}
    (hstatus : s'.status = Function.update s.status t st)
    (hf : f s'.shared + weight (q (s.status t).point) = f s.shared + weight (q st.point)) :
    f s'.shared = standing q s'.status := by
  have hcount := count_update_eq (fun st => q st.point) s.status t st
  unfold standing at h ⊢
  rw [hstatus, hcount]
  omega

/-- A thread that moves while the counter stays. -/
theorem tally_goto (h : f s.shared = standing q s.status) {t : T} {l n : L}
    (hs : s.status t = .running l) (hn : q n = q l) :
    f s.shared = standing q (s.goto t n).status := by
  have hf : f (s.goto t n).shared + weight (q (s.status t).point) =
      f s.shared + weight (q (Status.running n : Status C L).point) := by
    rw [hs, Status.point_running, Status.point_running, hn]
    rfl
  exact tally_update h rfl hf

omit [DecidableEq T] in
theorem standing_wakeAll [DecidableEq C] (c : C) :
    standing q (s.wakeAll c).status = standing q s.status := by
  have hsame : ∀ t, ((s.wakeAll c).status t).point = (s.status t).point := by
    intro t
    rcases s.wakeAll_cases c t with ⟨l, hst, hst'⟩ | ⟨-, hst'⟩
    · rw [hst, hst']
      rfl
    · rw [hst']
  unfold standing count
  simp only [hsame]

theorem standing_wake {t : T} {c : C} {l : L} (hs : s.status t = .asleep c l) :
    standing q (s.wake t c l).status = standing q s.status := by
  have hcount := count_update_eq (fun st => q st.point) s.status t (.woken c l)
  rw [hs] at hcount
  simp only [Status.point_asleep, Status.point_woken] at hcount
  unfold standing
  simp only [Config.wake]
  omega

variable [DecidableEq C]

theorem Tally.step (hp : Tally p f q) (hstep : Step p s s')
    (h : f s.shared = standing q s.status) : f s'.shared = standing q s'.status := by
  cases hstep with
  | @lock t l n hs hi hfree =>
    have ht := hp.of_instr hi
    exact tally_goto h hs ht
  | @unlock t l n hs hi howner =>
    have ht := hp.of_instr hi
    exact tally_goto h hs ht
  | @wait t l c n hs hi howner =>
    have ht := hp.of_instr hi
    have hn : q n = q l := ht
    refine tally_update h rfl ?_
    rw [hs, Status.point_running, Status.point_asleep, hn]
    rfl
  | @signalNone t l c n hs hi hno =>
    have ht := hp.of_instr hi
    exact tally_goto h hs ht
  | @signalOne t l c n u l' hs hi hu =>
    have ht := hp.of_instr hi
    have hs' : (s.wake u c l').status t = .running l :=
      (Config.wake_of_ne (Config.ne_of_asleep hs hu)).trans hs
    exact tally_goto (s := s.wake u c l') (h.trans (by rw [standing_wake hu])) hs' ht
  | @broadcast t l c n hs hi =>
    have ht := hp.of_instr hi
    exact tally_goto (s := s.wakeAll c) (h.trans (by rw [standing_wakeAll]))
      (Config.wakeAll_running hs) ht
  | @join t l u n l' hs hi hu hhalt =>
    have ht := hp.of_instr hi
    exact tally_goto h hs ht
  | @exec t l g hs hi =>
    have ht := hp.of_instr hi
    refine tally_update h rfl ?_
    rw [hs]
    exact ht s.shared
  | @choose t l ok l' hs hi hok =>
    have ht := hp.of_instr hi
    exact tally_goto h hs (ht l' hok)
  | @spurious t c l hs => exact h.trans (by rw [standing_wake hs])
  | @resume t c l hs hfree =>
    refine tally_update h rfl ?_
    rw [hs]
    rfl
  | env e => exact (hp.env e s).trans h

/-- A counter that starts with the number of threads at `q` keeps to it. -/
theorem Tally.reachable (hp : Tally p f q) {start : Config T C L S} (h : Reachable p start s)
    (hstart : f start.shared = standing q start.status) : f s.shared = standing q s.status :=
  h.invariant _ hstart (fun _ _ hstep => hp.step hstep)

end Tally

theorem standing_pos [Fintype T] {q : L → Bool} {status : T → Status C L} {t : T}
    (ht : q (status t).point = true) : 0 < standing q status :=
  Finset.card_pos.mpr ⟨t, by simpa using ht⟩

theorem exists_of_standing_pos [Fintype T] {q : L → Bool} {status : T → Status C L}
    (h : 0 < standing q status) : ∃ t, q (status t).point = true := by
  obtain ⟨t, ht⟩ := Finset.card_pos.mp h
  exact ⟨t, by simpa using ht⟩

variable [DecidableEq T] [DecidableEq C]

/-- A property of the status of `t` and the shared variables that the steps of `t` keep and
that the steps of the others do not disturb. -/
structure Program.KeepsThread (p : Program T C L S E) (t : T)
    (ok : Status C L → S → Prop) : Prop where
  instr : ∀ l s st v, ok (.running l) s.shared → (p.instr t l).Results p s st v → ok st v
  woken : ∀ c l v, ok (.asleep c l) v → ok (.woken c l) v
  resumed : ∀ c l v, ok (.woken c l) v → ok (.running l) v
  others : ∀ st u l f v, u ≠ t → p.instr u l = .exec f → ok st v → ok st (f v).2
  env : ∀ st e s, ok st s.shared → ok st (p.env e s)

theorem Program.KeepsThread.step {t : T} {ok : Status C L → S → Prop} (hp : p.KeepsThread t ok)
    (h : Step p s s') (hs : ok (s.status t) s.shared) : ok (s'.status t) s'.shared := by
  rcases h.shared_cases with hv | ⟨e, hv, hst⟩ | ⟨u, l, f, hl, hi, hst, hv⟩
  · rcases h.thread_cases t with hsame | ⟨c, l, hst, hst', -⟩ | ⟨c, l, hst, hst', -⟩ |
      ⟨l, hst, hres⟩
    · rwa [hsame, hv]
    · rw [hst', hv]
      exact hp.woken c l _ (hst ▸ hs)
    · rw [hst', hv]
      exact hp.resumed c l _ (hst ▸ hs)
    · exact hp.instr l s _ _ (hst ▸ hs) hres
  · rw [hst, hv]
    exact hp.env _ e s hs
  · by_cases hu : t = u
    · subst hu
      refine hp.instr l s _ _ (hl ▸ hs) ?_
      rw [hi, hst, hv, Function.update_self]
      exact ⟨rfl, rfl⟩
    · rw [hst, hv, Function.update_of_ne hu]
      exact hp.others _ u l f _ (Ne.symm hu) hi hs

theorem Program.KeepsThread.reachable {t : T} {ok : Status C L → S → Prop}
    (hp : p.KeepsThread t ok) {start : Config T C L S} (h : Reachable p start s)
    (hstart : ok (start.status t) start.shared) : ok (s.status t) s.shared :=
  h.invariant (fun s => ok (s.status t) s.shared) hstart (fun _ _ hab => hp.step hab)

/-- The instruction keeps the guards `P` of the sleepers on `c`, one for each point at which
these continue, or the thread stays at a `pending` point, from which it restores the guards or
wakes the sleepers. `A` is known of the shared variables. -/
def Instr.Guards (c : C) (P : L → S → Prop) (pending : L → Bool) (A : L → S → Prop) (l : L) :
    Instr T C L S → Prop
  | .lock n | .unlock n | .signal _ n | .join _ n =>
      pending l = true → pending n = true ∨ ∀ k v, A l v → P k v
  | .wait c' n =>
      (c' = c → ∀ v, A l v → P n v) ∧ (pending l = true → ∀ k v, A l v → P k v)
  | .broadcast c' n => c' = c ∨ (pending l = true → pending n = true)
  | .exec f => ∀ k v, A l v → P k v ∨ pending l = true → P k (f v).2 ∨ pending (f v).1 = true
  | .choose ok => pending l = true → ∀ n, ok n = true → pending n = true
  | .halt => True

structure Guard (p : Program T C L S E) (c : C) (P : L → S → Prop) (pending : L → Bool)
    (A : L → S → Prop) : Prop where
  instr : ∀ t l, (p.instr t l).Guards c P pending A l
  env : ∀ e s k, P k s.shared → P k (p.env e s)

omit [DecidableEq T] [DecidableEq C] in
theorem Guard.of_instr (hp : Guard p c P pending A) {t : T} {l : L} {i : Instr T C L S}
    (hi : p.instr t l = i) : i.Guards c P pending A l :=
  hi ▸ hp.instr t l

def Guarded (c : C) (P : L → S → Prop) (pending : L → Bool) (s : Config T C L S) : Prop :=
  ∀ t k, s.status t = .asleep c k →
    P k s.shared ∨ ∃ u l, s.status u = .running l ∧ pending l = true

variable {c : C} {P : L → S → Prop} {pending : L → Bool} {A : L → S → Prop}

omit [DecidableEq C] in
/-- A thread moves, and answers for the guards if it did before. -/
theorem Guarded.move (h : Guarded c P pending s) {t : T} {l n : L} (hs : s.status t = .running l)
    (hstatus : s'.status = Function.update s.status t (.running n))
    (hkeep : ∀ k, P k s.shared ∨ pending l = true → P k s'.shared ∨ pending n = true) :
    Guarded c P pending s' := by
  have hmine : ∀ k, P k s'.shared ∨ pending n = true →
      P k s'.shared ∨ ∃ u l', s'.status u = .running l' ∧ pending l' = true :=
    fun k => Or.imp_right (fun hn => ⟨t, n, by rw [hstatus, Function.update_self], hn⟩)
  intro x k hx
  have hxt : x ≠ t := by
    rintro rfl
    rw [hstatus, Function.update_self] at hx
    cases hx
  rw [hstatus, Function.update_of_ne hxt] at hx
  rcases h x k hx with hP | ⟨u, l', hu, hl'⟩
  · exact hmine k (hkeep k (Or.inl hP))
  · by_cases hut : u = t
    · subst hut
      rw [hs] at hu
      cases hu
      exact hmine k (hkeep k (Or.inr hl'))
    · exact Or.inr ⟨u, l', by rw [hstatus, Function.update_of_ne hut, hu], hl'⟩

omit [DecidableEq C] in
theorem Guarded.wake (h : Guarded c P pending s) {t : T} {c' : C} {l : L}
    (hs : s.status t = .asleep c' l) : Guarded c P pending (s.wake t c' l) := by
  intro x k hx
  have hxt : x ≠ t := by
    rintro rfl
    rw [Config.wake_self] at hx
    cases hx
  rw [Config.wake_of_ne hxt] at hx
  refine (h x k hx).imp_right ?_
  rintro ⟨u, l', hu, hl'⟩
  exact ⟨u, l', (Config.wake_of_ne (Config.ne_of_asleep hu hs)).trans hu, hl'⟩

omit [DecidableEq T] in
theorem Guarded.wakeAll (h : Guarded c P pending s) (c' : C) :
    Guarded c P pending (s.wakeAll c') := by
  intro x k hx
  rcases s.wakeAll_cases c' x with ⟨l, -, hst'⟩ | ⟨-, hst'⟩
  · rw [hst'] at hx
    cases hx
  · rw [hst'] at hx
    refine (h x k hx).imp_right ?_
    rintro ⟨u, l', hu, hl'⟩
    exact ⟨u, l', Config.wakeAll_running hu, hl'⟩

omit [DecidableEq C] in
/-- A thread goes to sleep, under its own guard if it sleeps on `c`, and answers for the guards
of the others if it did before. -/
theorem Guarded.sleep (h : Guarded c P pending s) {t : T} {l n : L} {c' : C}
    (hs : s.status t = .running l) (hown : c' = c → P n s.shared)
    (hkeep : pending l = true → ∀ k, P k s.shared) :
    Guarded c P pending { s.sleep t c' n with owner := none } := by
  intro x k hx
  by_cases hxt : x = t
  · subst hxt
    simp only [Config.sleep, Function.update_self] at hx
    cases hx
    exact Or.inl (hown rfl)
  · simp only [Config.sleep, Function.update_of_ne hxt] at hx
    rcases h x k hx with hP | ⟨u, l', hu, hl'⟩
    · exact Or.inl hP
    · by_cases hut : u = t
      · subst hut
        rw [hs] at hu
        cases hu
        exact Or.inl (hkeep hl' k)
      · exact Or.inr ⟨u, l', by simpa only [Config.sleep, Function.update_of_ne hut] using hu, hl'⟩

theorem Guard.step (hp : Guard p c P pending A)
    (hA : ∀ t l, s.status t = .running l → A l s.shared) (hstep : Step p s s')
    (h : Guarded c P pending s) : Guarded c P pending s' := by
  have hplain : ∀ {t : T} {l n : L}, s.status t = .running l →
      (pending l = true → pending n = true ∨ ∀ k v, A l v → P k v) →
      ∀ k, P k s.shared ∨ pending l = true → P k s.shared ∨ pending n = true := by
    intro t l n hs hg k hor
    rcases hor with hP | hl
    · exact Or.inl hP
    · exact (hg hl).elim Or.inr (fun hP => Or.inl (hP k _ (hA t l hs)))
  cases hstep with
  | @lock t l n hs hi hfree =>
    have hg := hp.of_instr hi
    exact h.move hs rfl (hplain hs hg)
  | @unlock t l n hs hi howner =>
    have hg := hp.of_instr hi
    exact h.move hs rfl (hplain hs hg)
  | @wait t l c' n hs hi howner =>
    have hg := hp.of_instr hi
    have hl := hA t l hs
    exact h.sleep hs (fun hc => hg.1 hc _ hl) (fun hpending k => hg.2 hpending k _ hl)
  | @signalNone t l c' n hs hi hno =>
    have hg := hp.of_instr hi
    exact h.move hs rfl (hplain hs hg)
  | @signalOne t l c' n u l' hs hi hu =>
    have hg := hp.of_instr hi
    exact (h.wake hu).move ((Config.wake_of_ne (Config.ne_of_asleep hs hu)).trans hs) rfl
      (hplain hs hg)
  | @broadcast t l c' n hs hi =>
    have hg := hp.of_instr hi
    rcases hg with rfl | hg
    · intro x k hx
      have hst := Config.waiting_of_goto hx (by simp)
      have hno := s.not_asleep_wakeAll c' x
      rw [hst] at hno
      simp [Status.isAsleepOn] at hno
    · exact (h.wakeAll c').move (Config.wakeAll_running hs) rfl (fun k => Or.imp_right hg)
  | @join t l u n l' hs hi hu hhalt =>
    have hg := hp.of_instr hi
    exact h.move hs rfl (hplain hs hg)
  | @exec t l f hs hi =>
    have hg := hp.of_instr hi
    exact h.move hs rfl (fun k => hg k _ (hA t l hs))
  | @choose t l ok l' hs hi hok =>
    have hg := hp.of_instr hi
    exact h.move hs rfl (fun k => Or.imp_right (fun hl => hg hl l' hok))
  | spurious hs => exact h.wake hs
  | @resume t c' l hs hfree =>
    intro x k hx
    have hst := Config.waiting_of_goto hx (by simp)
    refine (h x k hst).imp_right ?_
    rintro ⟨u, l', hu, hl'⟩
    have hut : u ≠ t := by
      rintro rfl
      rw [hs] at hu
      cases hu
    exact ⟨u, l', (Config.goto_of_ne hut).trans hu, hl'⟩
  | env e =>
    intro x k hx
    exact (h x k hx).imp_left (hp.env e s k)

/-- By its own steps `t` can get to the status `st`, with this owner of the mutex and these
shared variables. -/
def Alone (p : Program T C L S E) (s : Config T C L S) (t : T) (st : Status C L)
    (owner : Option T) (v : S) : Prop :=
  ∃ s', Reachable p s s' ∧ s'.status t = st ∧ (∀ u, u ≠ t → s'.status u = s.status u) ∧
    s'.owner = owner ∧ s'.shared = v

section Alone

variable {t : T} {l n : L} {c : C} {st : Status C L} {o : Option T} {v : S}

theorem Alone.refl (hs : s.status t = st) : Alone p s t st s.owner s.shared :=
  ⟨s, .refl, hs, fun _ _ => rfl, rfl, rfl⟩

/-- One more step of the thread. -/
theorem Alone.step (h : Alone p s t st o v) {st' : Status C L} {o' : Option T} {v' : S}
    (hstep : ∀ s', s'.status t = st → s'.owner = o → s'.shared = v → ∃ s'', Step p s' s'' ∧
      s''.status = Function.update s'.status t st' ∧ s''.owner = o' ∧ s''.shared = v') :
    Alone p s t st' o' v' := by
  obtain ⟨s', hreach, hself, hothers, howner, hshared⟩ := h
  obtain ⟨s'', hss, hstatus, howner', hshared'⟩ := hstep s' hself howner hshared
  refine ⟨s'', hreach.tail hss, ?_, fun u hu => ?_, howner', hshared'⟩
  · rw [hstatus, Function.update_self]
  · rw [hstatus, Function.update_of_ne hu, hothers u hu]

theorem Alone.lock (h : Alone p s t (.running l) none v) (hi : p.instr t l = .lock n) :
    Alone p s t (.running n) (some t) v :=
  h.step (fun _ hs ho hv => ⟨_, .lock hs hi ho, rfl, rfl, hv⟩)

theorem Alone.unlock (h : Alone p s t (.running l) (some t) v) (hi : p.instr t l = .unlock n) :
    Alone p s t (.running n) none v :=
  h.step (fun _ hs ho hv => ⟨_, .unlock hs hi ho, rfl, rfl, hv⟩)

/-- A signal while nobody sleeps. -/
theorem Alone.signal (h : Alone p s t (.running l) o v) (hi : p.instr t l = .signal c n)
    (hno : ∀ u, u ≠ t → (s.status u).isAsleepOn c = false) :
    Alone p s t (.running n) o v := by
  obtain ⟨s', hreach, hself, hothers, howner, hshared⟩ := h
  have hnone : ∀ u, (s'.status u).isAsleepOn c = false := by
    intro u
    by_cases hu : u = t
    · rw [hu, hself]
      rfl
    · rw [hothers u hu]
      exact hno u hu
  refine ⟨_, hreach.tail (.signalNone hself hi hnone), Config.goto_self .., fun u hu => ?_, howner,
    hshared⟩
  rw [Config.goto_of_ne hu, hothers u hu]

theorem Alone.wait (h : Alone p s t (.running l) (some t) v) (hi : p.instr t l = .wait c n) :
    Alone p s t (.asleep c n) none v :=
  h.step (fun _ hs ho hv => ⟨_, .wait hs hi ho, rfl, rfl, hv⟩)

theorem Alone.exec (h : Alone p s t (.running l) o v) {f : S → L × S}
    (hi : p.instr t l = .exec f) : Alone p s t (.running (f v).1) o (f v).2 :=
  h.step (fun _ hs ho hv => ⟨_, .exec hs hi, by rw [hv]; rfl, ho, by rw [hv]⟩)

theorem Alone.choose (h : Alone p s t (.running l) o v) {ok : L → Bool}
    (hi : p.instr t l = .choose ok) (hok : ok n = true) : Alone p s t (.running n) o v :=
  h.step (fun _ hs ho hv => ⟨_, .choose hs hi hok, rfl, ho, hv⟩)

theorem Alone.resume (h : Alone p s t (.woken c l) none v) : Alone p s t (.running l) (some t) v :=
  h.step (fun _ hs ho hv => ⟨_, .resume hs ho, rfl, rfl, hv⟩)

end Alone

end CpreLabs.Pthread
