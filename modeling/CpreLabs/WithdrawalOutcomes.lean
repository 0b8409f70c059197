import CpreLabs.Withdrawals

/-!
# What the withdrawal programs print, and when they hang

The final balance is what is left after some of the withdrawals, and covers none of the others.
With the unlock missing, a thread that is refused keeps the mutex: the program ends if it was
the last, and hangs otherwise.
-/
namespace CpreLabs.Withdrawals
open ForkJoin

variable {n : ℕ} {version : Version} {amounts : Fin n → ℤ} {granted : Finset (Fin n)}
  {s s' : Team n Point Account}

theorem eq_returned_of_finished (h : Finished (code version amounts) s) (t : Fin n) :
    s.point t = .returned := by
  have hret := h t
  cases hp : s.point t <;> simp only [code, hp, withdraw] at hret <;> cases hret
  rfl

/-- Who has returned without money did not find it, and has the mutex if the unlock is missing. -/
theorem Books.refused (hs : Books version amounts granted s) {t : Fin n}
    (hp : s.point t = .returned) (ht : t ∉ granted) :
    s.memory.balance < amounts t ∧ (s.owner = some t ↔ version = .missingUnlock) := by
  have hstands := hs.stands t
  rw [hp] at hstands
  rcases hstands with ⟨hg, -⟩ | ⟨-, hless, howns⟩
  · exact absurd hg ht
  · exact ⟨hless, howns⟩

section Alone

variable {t : Fin n} {a : Account}

theorem runs_granted (h : amounts t ≤ a.balance) :
    Runs (code version amounts) t (none, .lock, a)
      (none, .returned, ⟨a.balance - amounts t, a.output ++ [.withdrawing (amounts t)]⟩) := by
  have htest : Runs (code version amounts) t (some t, .test, a) (some t, .withdraw, a) :=
    .exec rfl (by rw [if_pos h])
  exact (((Runs.lock rfl).trans htest).trans (.exec rfl rfl)).trans (.unlock rfl)

theorem runs_refused (h : a.balance < amounts t) :
    Runs (code version amounts) t (none, .lock, a)
      (some t, version.afterRefusal, { a with output := a.output ++ [.insufficientFunds] }) := by
  have htest : Runs (code version amounts) t (some t, .test, a) (some t, .refuse, a) :=
    .exec rfl (by rw [if_neg (not_le.mpr h)])
  exact ((Runs.lock rfl).trans htest).trans (.exec rfl rfl)

end Alone

theorem moves_granted (version : Version) (hpos : ∀ t, 0 ≤ amounts t) (hsum : ∑ t ∈ granted, amounts t ≤ 1000) :
    ∃ a, a.balance = 1000 - ∑ t ∈ granted, amounts t ∧
      Moves (code version amounts) ((code version amounts).start opened)
        ⟨none, fun t => if t ∈ granted then .returned else .lock, a⟩ := by
  have hopened : opened.balance = 1000 - ∑ t ∈ (∅ : Finset (Fin n)), amounts t := by simp [opened]
  refine moves_in_turn granted (fun B (a : Account) => a.balance = 1000 - ∑ t ∈ B, amounts t)
    (fun B t a hB ht htB ha => ⟨_, ?_, runs_granted ?_⟩) hopened
  · rw [Finset.sum_insert htB]
    dsimp only
    omega
  · have hinsert : ∑ u ∈ insert t B, amounts u ≤ ∑ u ∈ granted, amounts u :=
      Finset.sum_le_sum_of_subset_of_nonneg (Finset.insert_subset ht hB) (fun u _ _ => hpos u)
    rw [Finset.sum_insert htB] at hinsert
    omega

theorem moves_refused {point : Fin n → Point} {a : Account} (A : Finset (Fin n))
    (hpoint : ∀ t ∈ A, point t = .lock) (hless : ∀ t ∈ A, a.balance < amounts t) :
    ∃ a' : Account, a'.balance = a.balance ∧ Moves (code .fixed amounts) ⟨none, point, a⟩
      ⟨none, fun t => if t ∈ A then .returned else point t, a'⟩ := by
  refine moves_in_turn A (fun _ (a' : Account) => a'.balance = a.balance)
    (fun B t a' hB ht htB ha' => ⟨⟨a'.balance, a'.output ++ [.insufficientFunds]⟩, ha', ?_⟩) rfl
  rw [hpoint t ht]
  have hless' : a'.balance < amounts t := by
    have h := hless t ht
    omega
  exact (runs_refused hless').trans (.unlock rfl)

/-- With the unlock missing, the one that is refused keeps the mutex. -/
theorem moves_kept (point : Fin n → Point) {a : Account} {t : Fin n} (hpoint : point t = .lock)
    (hless : a.balance < amounts t) : ∃ a' : Account, a'.balance = a.balance ∧
      Moves (code .missingUnlock amounts) ⟨none, point, a⟩
        ⟨some t, Function.update point t .returned, a'⟩ :=
  ⟨⟨a.balance, a.output ++ [.insufficientFunds]⟩, rfl, runs_refused hless point hpoint⟩

/-- What the threads can leave in the account. -/
def Leaves (version : Version) (amounts : Fin n → ℤ) (v : ℤ) : Prop :=
  ∃ c, Moves (code version amounts) ((code version amounts).start opened) c ∧
    Finished (code version amounts) c ∧ c.memory.balance = v

/-- The balance covers none of those that have not been granted, and with the unlock missing
there is at most one of them. -/
structure Settled (version : Version) (amounts : Fin n → ℤ) (granted : Finset (Fin n)) (v : ℤ) :
    Prop where
  balance : v = 1000 - ∑ t ∈ granted, amounts t
  nonneg : 0 ≤ v
  refused : ∀ t, t ∉ granted → v < amounts t
  one : version = .missingUnlock → ∀ t u, t ∉ granted → u ∉ granted → t = u

theorem settled_of_leaves (hpos : ∀ t, 0 ≤ amounts t) {v : ℤ} (h : Leaves version amounts v) :
    ∃ granted, Settled version amounts granted v := by
  obtain ⟨c, hmoves, hfinished, rfl⟩ := h
  obtain ⟨granted, hbooks⟩ := books_of_moves hpos hmoves
  have hreturned := eq_returned_of_finished hfinished
  refine ⟨granted, hbooks.balance, hbooks.nonneg,
    fun t ht => (hbooks.refused (hreturned t) ht).1, fun hmissing t u ht hu => ?_⟩
  have howner := (hbooks.refused (hreturned t) ht).2.mpr hmissing
  have howner' := (hbooks.refused (hreturned u) hu).2.mpr hmissing
  rw [howner] at howner'
  exact Option.some.inj howner'

theorem leaves_of_settled (hpos : ∀ t, 0 ≤ amounts t) {v : ℤ}
    (h : Settled version amounts granted v) : Leaves version amounts v := by
  obtain ⟨hbalance, hnonneg, hless, hone⟩ := h
  obtain ⟨a, ha, hgranted⟩ := moves_granted version hpos
    (by omega : ∑ t ∈ granted, amounts t ≤ 1000)
  rw [← hbalance] at ha
  cases version with
  | fixed =>
    have hrest : ∀ t ∈ grantedᶜ, (if t ∈ granted then Point.returned else .lock) = .lock :=
      fun t ht => if_neg (Finset.mem_compl.mp ht)
    obtain ⟨a', ha', hrefused⟩ := moves_refused grantedᶜ hrest
      (fun t ht => by rw [ha]; exact hless t (Finset.mem_compl.mp ht))
    refine ⟨_, hgranted.trans hrefused, fun t => ?_, ha'.trans ha⟩
    by_cases ht : t ∈ granted <;> simp [code, withdraw, ht]
  | missingUnlock =>
    by_cases hall : ∀ t, t ∈ granted
    · exact ⟨_, hgranted, fun t => by simp [code, withdraw, hall t], ha⟩
    · obtain ⟨t, ht⟩ := not_forall.mp hall
      obtain ⟨a', ha', hkept⟩ := moves_kept (fun t => if t ∈ granted then .returned else .lock)
        (if_neg ht) (by rw [ha]; exact hless t ht : a.balance < amounts t)
      refine ⟨_, hgranted.trans hkept, fun u => ?_, ha'.trans ha⟩
      by_cases hut : u = t
      · subst hut
        simp [code, withdraw]
      · have hu : u ∈ granted := by
          by_contra hu
          exact hut (hone rfl u t hu ht)
        simp [code, withdraw, hut, hu]

theorem withdrawals_print_iff (hpos : ∀ t, 0 ≤ amounts t) (v : ℤ) :
    (∃ s account, Pthread.Reachable (program (code version amounts)) (start n Point opened) s ∧
      s.shared.printed = some account ∧ account.balance = v) ↔
      ∃ granted, Settled version amounts granted v := by
  constructor
  · rintro ⟨s, account, hreach, hprinted, rfl⟩
    obtain ⟨c, hmoves, hfinished, rfl⟩ := (prints_iff .refl).mp ⟨s, hreach, hprinted⟩
    exact settled_of_leaves hpos ⟨c, hmoves, hfinished, rfl⟩
  · rintro ⟨granted, hsettled⟩
    obtain ⟨c, hmoves, hfinished, hv⟩ := leaves_of_settled hpos hsettled
    obtain ⟨s, hreach, hprinted⟩ := (prints_iff .refl).mpr ⟨c, hmoves, hfinished, rfl⟩
    exact ⟨s, c.memory, hreach, hprinted, hv⟩

/-- Two of 600 from 1000: the second is refused. -/
theorem withdrawals_print_two :
    ∃ s account, Pthread.Reachable (program (code .fixed (fun _ : Fin 2 => 600)))
      (start 2 Point opened) s ∧ s.shared.printed = some account ∧ account.balance = 400 := by
  have hsettled : Settled .fixed (fun _ : Fin 2 => 600) {0} 400 :=
    ⟨by decide, by decide, fun _ _ => by decide, by simp⟩
  exact (withdrawals_print_iff (fun _ => by decide) 400).mpr ⟨_, hsettled⟩

def Point.rank : Point → ℕ
  | .lock => 4
  | .test => 3
  | .withdraw | .refuse => 2
  | .unlock => 1
  | .returned => 0

theorem rank_move (h : Move (code version amounts) s s') :
    ∃ t l, s'.point = Function.update s.point t l ∧ l.rank < (s.point t).rank := by
  cases h with
  | @lock t l hi hfree =>
    refine ⟨t, l, rfl, ?_⟩
    cases hp : s.point t <;> simp only [code, hp, withdraw] at hi <;> cases hi
    decide
  | @unlock t l hi howner =>
    refine ⟨t, l, rfl, ?_⟩
    cases hp : s.point t <;> simp only [code, hp, withdraw] at hi <;> cases hi
    decide
  | @exec t f hi =>
    refine ⟨t, _, rfl, ?_⟩
    cases hp : s.point t <;> simp only [code, hp, withdraw] at hi <;> cases hi
    · dsimp only
      split <;> decide
    · simp [Point.rank]
    · cases version <;> simp [Version.afterRefusal, Point.rank]

theorem can_move (hs : Books version amounts granted s) (t : Fin n) :
    s.point t = .returned ∨ (s.point t = .lock ∧ s.owner ≠ none) ∨
      ∃ s', Move (code version amounts) s s' := by
  have hstands := hs.stands t
  have hself : ∀ p, s.point t = p →
      (code version amounts).stmt t (s.point t) = withdraw version (amounts t) p := by
    rintro p rfl
    rfl
  cases hp : s.point t with
  | returned => exact Or.inl rfl
  | lock =>
    right
    by_cases howner : s.owner = none
    · exact Or.inr ⟨_, .lock (hself _ hp) howner⟩
    · exact Or.inl ⟨rfl, howner⟩
  | unlock =>
    rw [hp] at hstands
    exact Or.inr (Or.inr ⟨_, .unlock (hself _ hp) hstands.1⟩)
  | test | withdraw | refuse => exact Or.inr (Or.inr ⟨_, .exec (hself _ hp)⟩)

/-- With the unlock missing, a thread can be refused while another has not begun. -/
structure LocksOut (amounts : Fin n → ℤ) (granted : Finset (Fin n)) (t u : Fin n) : Prop where
  covered : ∑ t ∈ granted, amounts t ≤ 1000
  refused : 1000 - ∑ t ∈ granted, amounts t < amounts t
  refused_out : t ∉ granted
  waiting_out : u ∉ granted
  ne : t ≠ u

theorem progress (hs : Books version amounts granted s)
    (hnone : version = .missingUnlock → ∀ t u, ¬LocksOut amounts granted t u) :
    Finished (code version amounts) s ∨ ∃ s', Move (code version amounts) s s' := by
  by_cases hall : ∀ t, s.point t = .returned
  · left
    intro t
    simp [code, hall t, withdraw]
  · right
    obtain ⟨u, hu⟩ := not_forall.mp hall
    rcases can_move hs u with hret | ⟨hlock, howner⟩ | hmove
    · exact absurd hret hu
    · obtain ⟨t, ht⟩ := Option.ne_none_iff_exists'.mp howner
      have hstands := hs.stands t
      rcases can_move hs t with hret | ⟨hlock', -⟩ | hmove
      · rw [hret] at hstands
        have hwaits := hs.stands u
        rw [hlock] at hwaits
        rcases hstands with ⟨-, howns⟩ | ⟨hg, hless, howns⟩
        · exact absurd ht howns
        · have hbalance := hs.balance
          have hnonneg := hs.nonneg
          refine absurd ⟨by omega, by omega, hg, hwaits.1, ?_⟩ (hnone (howns.mp ht) t u)
          rintro rfl
          exact hu hret
      · rw [hlock'] at hstands
        exact absurd ht hstands.2
      · exact hmove
    · exact hmove

/-- A thread that has returned with the mutex keeps it, and one that waits keeps waiting. -/
theorem locked_out_move {t u : Fin n} (h : Move (code version amounts) s s')
    (hs : s.owner = some t ∧ s.point t = .returned ∧ s.point u = .lock) :
    s'.owner = some t ∧ s'.point t = .returned ∧ s'.point u = .lock := by
  obtain ⟨howner, hreturned, hlock⟩ := hs
  cases h with
  | lock hi hfree =>
    rw [howner] at hfree
    cases hfree
  | @unlock w l hi howner' =>
    rw [howner] at howner'
    cases howner'
    simp only [code, hreturned, withdraw] at hi
    cases hi
  | @exec w f hi =>
    have hwt : t ≠ w := by
      rintro rfl
      simp only [code, hreturned, withdraw] at hi
      cases hi
    have hwu : u ≠ w := by
      rintro rfl
      simp only [code, hlock, withdraw] at hi
      cases hi
    exact ⟨howner, (Function.update_of_ne hwt ..).trans hreturned,
      (Function.update_of_ne hwu ..).trans hlock⟩

theorem stuck_of_locksOut (hpos : ∀ t, 0 ≤ amounts t) {t u : Fin n}
    (h : LocksOut amounts granted t u) :
    ∃ c, Moves (code .missingUnlock amounts) ((code .missingUnlock amounts).start opened) c ∧
      ∀ c', Moves (code .missingUnlock amounts) c c' →
        ¬Finished (code .missingUnlock amounts) c' := by
  obtain ⟨a, ha, hgranted⟩ := moves_granted .missingUnlock hpos h.covered
  obtain ⟨a', -, hkept⟩ := moves_kept (fun t => if t ∈ granted then .returned else .lock)
    (if_neg h.refused_out) (by rw [ha]; exact h.refused : a.balance < amounts t)
  refine ⟨_, hgranted.trans hkept, fun c' hmoves hfinished => ?_⟩
  have hlocked := hmoves.invariant
    (fun s => s.owner = some t ∧ s.point t = .returned ∧ s.point u = .lock)
    ⟨rfl, by simp, by simp [Function.update_of_ne h.ne.symm, h.waiting_out]⟩
    (fun _ _ => locked_out_move)
  have hreturned := eq_returned_of_finished hfinished u
  rw [hlocked.2.2] at hreturned
  cases hreturned

/-- The program hangs in some run exactly if the unlock is missing and the amounts are such that
one thread can be refused before another has begun. -/
theorem withdrawals_hang_iff (hpos : ∀ t, 0 ≤ amounts t) :
    (∃ s, Pthread.Reachable (program (code version amounts)) (start n Point opened) s ∧
      ∀ s', Pthread.Reachable (program (code version amounts)) s s' → s'.shared.printed = none) ↔
      version = .missingUnlock ∧ ∃ granted t u, LocksOut amounts granted t u := by
  rw [hangs_iff]
  constructor
  · rintro ⟨c, hmoves, hnever⟩
    by_contra hno
    have hnone : ∀ granted, version = .missingUnlock → ∀ t u, ¬LocksOut amounts granted t u :=
      fun granted hmissing t u hout => hno ⟨hmissing, granted, t, u, hout⟩
    obtain ⟨c', hmoves', hfinished⟩ := finishes (fun s => ∃ granted, Books version amounts granted s)
      Point.rank (fun _ _ hmove ⟨_, hs⟩ => books_move hpos hmove hs)
      (fun _ _ hmove _ => rank_move hmove) (fun _ ⟨granted, hs⟩ => progress hs (hnone granted))
      (books_of_moves hpos hmoves)
    exact hnever c' hmoves' hfinished
  · rintro ⟨rfl, granted, t, u, hout⟩
    exact stuck_of_locksOut hpos hout

/-- Three of 600: the second is refused and keeps the mutex from the third. -/
theorem withdrawals_hang_three :
    ∃ s, Pthread.Reachable (program (code .missingUnlock (fun _ : Fin 3 => 600)))
        (start 3 Point opened) s ∧
      ∀ s', Pthread.Reachable (program (code .missingUnlock (fun _ : Fin 3 => 600))) s s' →
        s'.shared.printed = none := by
  have hout : LocksOut (fun _ : Fin 3 => 600) {0} 1 2 :=
    ⟨by decide, by decide, by decide, by decide, by decide⟩
  exact (withdrawals_hang_iff (fun _ => by decide)).mpr ⟨rfl, _, _, _, hout⟩

/-- The two withdrawals of `ex2_bug1.c` do not get that far. -/
example : ∀ granted t u, ¬LocksOut (fun _ : Fin 2 => 600) granted t u := by
  have hcover : ∀ (granted : Finset (Fin 2)) (t u : Fin 2), t ∉ granted → u ∉ granted → t ≠ u →
      ¬1000 - ∑ t ∈ granted, (600 : ℤ) < 600 := by decide
  exact fun granted t u h => hcover granted t u h.refused_out h.waiting_out h.ne h.refused

end CpreLabs.Withdrawals
