import CpreLabs.RwlockThreads

/-!
# What one readers-writer lock alone guarantees

For any code, correct or not: an operation in exclusive mode is alone inside, and what holds
of the entry frames and survives the steps of the code holds of all frames. While a reader is
inside, only readers run.
-/
namespace CpreLabs.Rwlock

variable {T Op F H N O : Type*}

/-- Who is inside holds the lock in the mode of its operation, and a writer excludes the others. -/
structure Excludes (c : Code Op F H N O) (s : Config T Op F H N O) : Prop where
  held : ∀ t, s.held t = (s.call t).map (fun x => c.mode x.2)
  exclusive : ∀ t u x y, s.call t = some x → s.call u = some y → c.reads x.2 = false → u = t

variable {c : Code Op F H N O} {s s' : Config T Op F H N O}

/-- A thread that may enter in the mode of `op` finds only readers inside, as one of them. -/
theorem Excludes.available (h : Excludes c s) {op : Op} (hfree : s.available (c.mode op)) {t : T}
    {x : ℕ × Op} (ht : s.call t = some x) : c.reads op = true ∧ c.reads x.2 = true := by
  have hheld : s.held t = some (c.mode x.2) := by
    rw [h.held, ht]
    rfl
  cases hop : c.reads op with
  | false =>
    simp only [Code.mode, hop, Config.available] at hfree
    rw [hfree t] at hheld
    cases hheld
  | true =>
    simp only [Code.mode, hop, Config.available] at hfree
    refine ⟨rfl, ?_⟩
    cases hx : c.reads x.2 with
    | false =>
      refine absurd ?_ (hfree t)
      rw [hheld, Code.mode, hx]
      rfl
    | true => rfl

theorem Excludes.congr (h : Excludes c s) (hcall : s'.call = s.call) (hheld : s'.held = s.held) :
    Excludes c s' := by
  constructor
  · rw [hcall, hheld]
    exact h.held
  · rw [hcall]
    exact h.exclusive

variable [DecidableEq T]

theorem Excludes.update (h : Excludes c s) {t : T} {th : Thread Op F}
    (hheld : s'.held = Function.update s.held t (th.call.map (fun x => c.mode x.2)))
    (hthread : s'.thread = Function.update s.thread t th)
    (halone : ∀ u x y, u ≠ t → s.call u = some x → th.call = some y →
      c.reads x.2 = true ∧ c.reads y.2 = true) : Excludes c s' := by
  have hcall : ∀ u, s'.call u = if u = t then th.call else s.call u := by
    intro u
    rw [Config.call, hthread]
    exact call_update s t th u
  constructor
  · intro u
    rw [hcall, hheld]
    by_cases hut : u = t
    · rw [if_pos hut, hut, Function.update_self]
    · rw [if_neg hut, Function.update_of_ne hut]
      exact h.held u
  · intro u v x y hu hv hx
    rw [hcall] at hu hv
    by_cases hut : u = t <;> by_cases hvt : v = t
    · rw [hut, hvt]
    · rw [if_pos hut] at hu
      rw [if_neg hvt] at hv
      have hr := (halone v y x hvt hv hu).2
      rw [hx] at hr
      cases hr
    · rw [if_neg hut] at hu
      rw [if_pos hvt] at hv
      have hr := (halone u x y hut hu hv).1
      rw [hx] at hr
      cases hr
    · rw [if_neg hut] at hu
      rw [if_neg hvt] at hv
      exact h.exclusive u v x y hu hv hx

theorem Excludes.lock (h : Excludes c s) {t : T} {op : Op} (hfree : s.available (c.mode op)) :
    Excludes c { s with
      held := Function.update s.held t (some (c.mode op))
      thread := Function.update s.thread t (.inside s.grants.length op (c.entry op))
      grants := s.grants ++ [op] } := by
  refine h.update rfl rfl (fun u x y _ hu hy => ?_)
  cases hy
  exact (h.available hfree hu).symm

theorem Excludes.unlock (h : Excludes c s) (t : T) (n : ℕ) (o : O) :
    Excludes c { s with
      held := Function.update s.held t none
      thread := Function.update s.thread t .idle
      returned := Function.update s.returned n (some o) } :=
  h.update rfl rfl (fun u x y _ _ hy => by cases hy)

variable [Add N]

theorem excludes_step (h : Excludes c s) (hstep : Step c s s') : Excludes c s' := by
  cases hstep with
  | tick hle => exact h.congr rfl rfl
  | call op ht => exact h.congr (call_of_idle op ht) rfl
  | lock ht hfree => exact h.lock hfree
  | run ht hrun => exact h.congr (call_of_run ht rfl) rfl
  | unlock ht ho => exact h.unlock _ _ _

theorem excludes_of_reachable {counters₀ : N} {memory : H} {clock : ℕ}
    (h : Reachable c (initial counters₀ memory clock) s) : Excludes c s := by
  induction h with
  | refl => exact ⟨fun _ => rfl, fun t u x y ht => by cases ht⟩
  | tail _ hstep ih => exact excludes_step ih hstep

omit [DecidableEq T] [Add N] in
/-- Beside a reader there are only readers. -/
theorem Excludes.reads_of_reader (h : Excludes c s) {t u : T} {n m : ℕ} {op op' : Op} {f f' : F}
    (ht : s.thread t = .inside n op f) (hr : c.reads op = true)
    (hu : s.thread u = .inside m op' f') : c.reads op' = true := by
  cases hr' : c.reads op' with
  | true => rfl
  | false =>
    have htu := h.exclusive u t _ _ (call_of_inside hu) (call_of_inside ht) hr'
    subst htu
    rw [ht] at hu
    cases hu
    rw [hr] at hr'
    cases hr'

/-- A property of an operation and its frame that holds at the entry and survives every step of
the code. -/
theorem frames_of_reachable {ok : Op → F → Prop} (hentry : ∀ op, ok op (c.entry op))
    (hok : ∀ op f now h f' h' d, ok op f → c.step now f h f' h' d → ok op f')
    {counters₀ : N} {memory : H} {clock : ℕ} (h : Reachable c (initial counters₀ memory clock) s)
    {t : T} {n : ℕ} {op : Op} {f : F} (ht : s.thread t = .inside n op f) : ok op f := by
  induction h generalizing n op f with
  | refl => cases ht
  | tail _ hstep ih =>
    cases hstep with
    | tick hle => exact ih ht
    | call op' hidle => exact ih (inside_update rfl ht).2
    | lock hwait hfree =>
      rcases inside_cases ht with ⟨-, -, rfl, rfl⟩ | ⟨-, ht'⟩
      · exact hentry op
      · exact ih ht'
    | run hin hrun =>
      rcases inside_cases ht with ⟨rfl, rfl, rfl, rfl⟩ | ⟨-, ht'⟩
      · exact hok _ _ _ _ _ _ _ (ih hin) hrun
      · exact ih ht'
    | unlock hin ho => exact ih (inside_update rfl ht).2

theorem Step.memory_cases (h : Step c s s') :
    s'.memory = s.memory ∨ ∃ t n op f f' d, s.thread t = .inside n op f ∧
      c.step s.clock f s.memory f' s'.memory d ∧ s'.thread t = .inside n op f' := by
  cases h with
  | run ht hrun =>
    exact Or.inr ⟨_, _, _, _, _, _, ht, hrun, Function.update_self ..⟩
  | _ => exact Or.inl rfl

theorem Step.thread_cases (h : Step c s s') (t : T) :
    s'.thread t = s.thread t ∨
      (∃ op, s.thread t = .idle ∧ s'.thread t = .waiting op ∧ s'.memory = s.memory) ∨
      (∃ n op, s.thread t = .waiting op ∧ s'.thread t = .inside n op (c.entry op) ∧
        s'.memory = s.memory) ∨
      (∃ n op f f' d, s.thread t = .inside n op f ∧ s'.thread t = .inside n op f' ∧
        c.step s.clock f s.memory f' s'.memory d) ∨
      ∃ n op f o, s.thread t = .inside n op f ∧ c.result f = some o ∧ s'.thread t = .idle ∧
        s'.memory = s.memory := by
  cases h with
  | tick hle => exact Or.inl rfl
  | @call u op hu =>
    by_cases htu : t = u
    · subst htu
      exact Or.inr (Or.inl ⟨op, hu, Function.update_self .., rfl⟩)
    · exact Or.inl (Function.update_of_ne htu ..)
  | @lock u op hu hfree =>
    by_cases htu : t = u
    · subst htu
      exact Or.inr (Or.inr (Or.inl ⟨_, op, hu, Function.update_self .., rfl⟩))
    · exact Or.inl (Function.update_of_ne htu ..)
  | @run u n op f f' h' d hu hrun =>
    by_cases htu : t = u
    · subst htu
      exact Or.inr (Or.inr (Or.inr (Or.inl ⟨n, op, f, f', d, hu, Function.update_self .., hrun⟩)))
    · exact Or.inl (Function.update_of_ne htu ..)
  | @unlock u n op f o hu ho =>
    by_cases htu : t = u
    · subst htu
      exact Or.inr (Or.inr (Or.inr (Or.inr ⟨n, op, f, o, hu, ho, Function.update_self .., rfl⟩)))
    · exact Or.inl (Function.update_of_ne htu ..)

end CpreLabs.Rwlock
