import CpreLabs.ForkJoin

/-!
# Withdrawals from one account

Each thread withdraws its amount if the balance covers it, under one mutex. `4_1.c` unlocks the
mutex after the conditional, `ex2_bug1.c` only in the branch that withdraws. Each `printf` is one
step with the statement after it.
-/
namespace CpreLabs.Withdrawals
open ForkJoin

inductive Version where
  /-- `4_1.c` -/
  | fixed
  /-- `ex2_bug1.c` -/
  | missingUnlock
  deriving DecidableEq

inductive Line where
  | withdrawing (amount : ℤ)
  | insufficientFunds
  deriving DecidableEq

structure Account where
  balance : ℤ
  /-- What has been printed. -/
  output : List Line

inductive Point where
  | lock
  | test
  | withdraw
  | refuse
  | unlock
  | returned
  deriving DecidableEq

def Version.afterRefusal : Version → Point
  | .fixed => .unlock
  | .missingUnlock => .returned

def withdraw (version : Version) (amount : ℤ) : Point → Stmt Point Account
  | .lock => .lock .test
  | .test => .exec fun a => (if a.balance ≥ amount then .withdraw else .refuse, a)
  | .withdraw => .exec fun a => (.unlock, ⟨a.balance - amount, a.output ++ [.withdrawing amount]⟩)
  | .refuse => .exec fun a =>
      (version.afterRefusal, { a with output := a.output ++ [.insufficientFunds] })
  | .unlock => .unlock .returned
  | .returned => .ret

variable {n : ℕ}

def code (version : Version) (amounts : Fin n → ℤ) : Code n Point Account where
  entry _ := .lock
  stmt t := withdraw version (amounts t)

def opened : Account := ⟨1000, []⟩

def Line.amount : Line → ℤ
  | .withdrawing amount => amount
  | .insufficientFunds => 0

/-- What the point of a thread says about its amount, the balance, the mutex and whether the
thread is among those that have been granted. -/
def Stands (version : Version) (amount balance : ℤ) (owns granted : Prop) : Point → Prop
  | .lock => ¬granted ∧ ¬owns
  | .test => ¬granted ∧ owns
  | .withdraw => ¬granted ∧ owns ∧ amount ≤ balance
  | .refuse => ¬granted ∧ owns ∧ balance < amount
  | .unlock => owns ∧ (granted ∨ version = .fixed ∧ balance < amount)
  | .returned => granted ∧ ¬owns ∨
      ¬granted ∧ balance < amount ∧ (owns ↔ version = .missingUnlock)

/-- The account after the threads in `granted` have withdrawn. -/
structure Books (version : Version) (amounts : Fin n → ℤ) (granted : Finset (Fin n))
    (s : Team n Point Account) : Prop where
  balance : s.memory.balance = 1000 - ∑ t ∈ granted, amounts t
  nonneg : 0 ≤ s.memory.balance
  output : (s.memory.output.map Line.amount).sum + s.memory.balance = 1000
  stands : ∀ t, Stands version (amounts t) s.memory.balance (s.owner = some t) (t ∈ granted)
    (s.point t)

variable {version : Version} {amounts : Fin n → ℤ} {granted : Finset (Fin n)}
  {s s' : Team n Point Account}

theorem books_start : Books version amounts ∅ ((code version amounts).start opened) where
  balance := by simp [Code.start, opened]
  nonneg := by simp [Code.start, opened]
  output := by simp [Code.start, opened]
  stands t := by simp [Code.start, code, Stands]

/-- A thread without the mutex does not mind that the balance falls. -/
theorem Stands.of_le {amount b b' : ℤ} {owns g : Prop} {p : Point}
    (h : Stands version amount b owns g p) (howns : ¬owns) (hle : b' ≤ b) :
    Stands version amount b' owns g p := by
  cases p with
  | lock => exact h
  | test => exact absurd h.2 howns
  | withdraw | refuse => exact absurd h.2.1 howns
  | unlock => exact absurd h.1 howns
  | returned => exact h.imp_right (fun hr => ⟨hr.1, by omega, hr.2.2⟩)

/-- A thread moves, and the balance changes only while it has the mutex. -/
theorem stands_update (hs : Books version amounts granted s) {t : Fin n} {p : Point}
    {owner : Option (Fin n)} {granted' : Finset (Fin n)} {b : ℤ}
    (howner : ∀ u, u ≠ t → (owner = some u ↔ s.owner = some u))
    (hgranted : ∀ u, u ≠ t → (u ∈ granted' ↔ u ∈ granted))
    (hbalance : b = s.memory.balance ∨ b ≤ s.memory.balance ∧ s.owner = some t)
    (hself : Stands version (amounts t) b (owner = some t) (t ∈ granted') p) (u : Fin n) :
    Stands version (amounts u) b (owner = some u) (u ∈ granted')
      (Function.update s.point t p u) := by
  by_cases hut : u = t
  · subst hut
    rwa [Function.update_self]
  · rw [Function.update_of_ne hut, propext (howner u hut), propext (hgranted u hut)]
    rcases hbalance with rfl | ⟨hle, howns⟩
    · exact hs.stands u
    · refine (hs.stands u).of_le (fun hu => ?_) hle
      rw [howns] at hu
      exact hut (Option.some.inj hu).symm

theorem books_move (hpos : ∀ t, 0 ≤ amounts t) (h : Move (code version amounts) s s')
    (hs : Books version amounts granted s) : ∃ granted', Books version amounts granted' s' := by
  have hsame : ∀ {t : Fin n} (u : Fin n), u ≠ t → (s.owner = some u ↔ s.owner = some u) :=
    fun _ _ => Iff.rfl
  cases h with
  | @lock t l hi hfree =>
    have hstands := hs.stands t
    cases hp : s.point t <;> simp only [code, hp, withdraw] at hi <;> cases hi
    rw [hp] at hstands
    refine ⟨granted, hs.balance, hs.nonneg, hs.output,
      stands_update hs (fun u hu => ?_) (fun _ _ => Iff.rfl) (Or.inl rfl) ⟨hstands.1, rfl⟩⟩
    simp [hfree, Ne.symm hu]
  | @unlock t l hi howner =>
    have hstands := hs.stands t
    cases hp : s.point t <;> simp only [code, hp, withdraw] at hi <;> cases hi
    rw [hp] at hstands
    refine ⟨granted, hs.balance, hs.nonneg, hs.output,
      stands_update hs (fun u hu => ?_) (fun _ _ => Iff.rfl) (Or.inl rfl) ?_⟩
    · simp [howner, Ne.symm hu]
    · by_cases hg : t ∈ granted
      · exact Or.inl ⟨hg, by simp⟩
      · obtain ⟨rfl, hless⟩ := hstands.2.resolve_left hg
        exact Or.inr ⟨hg, hless, by simp⟩
  | @exec t f hi =>
    have hstands := hs.stands t
    cases hp : s.point t with
    | lock | unlock | returned =>
      simp only [code, hp, withdraw] at hi
      cases hi
    | test =>
      simp only [code, hp, withdraw] at hi
      cases hi
      rw [hp] at hstands
      refine ⟨granted, hs.balance, hs.nonneg, hs.output,
        stands_update hs hsame (fun _ _ => Iff.rfl) (Or.inl rfl) ?_⟩
      dsimp only
      split
      · rename_i hcovered
        exact ⟨hstands.1, hstands.2, hcovered⟩
      · rename_i hcovered
        exact ⟨hstands.1, hstands.2, not_le.mp hcovered⟩
    | withdraw =>
      simp only [code, hp, withdraw] at hi
      cases hi
      rw [hp] at hstands
      obtain ⟨hg, howns, hcovered⟩ := hstands
      refine ⟨insert t granted, ?_, ?_, ?_, stands_update hs hsame (fun u hu => ?_)
        (Or.inr ⟨?_, howns⟩) ⟨howns, Or.inl (Finset.mem_insert_self t granted)⟩⟩
      · rw [Finset.sum_insert hg]
        have hb := hs.balance
        dsimp only
        omega
      · dsimp only
        omega
      · have hout := hs.output
        simp only [List.map_append, List.sum_append, List.map_cons, List.map_nil, List.sum_cons,
          List.sum_nil, Line.amount]
        omega
      · simp [Finset.mem_insert, hu]
      · have hamount := hpos t
        dsimp only
        omega
    | refuse =>
      simp only [code, hp, withdraw] at hi
      cases hi
      rw [hp] at hstands
      obtain ⟨hg, howns, hless⟩ := hstands
      refine ⟨granted, hs.balance, hs.nonneg, ?_,
        stands_update hs hsame (fun _ _ => Iff.rfl) (Or.inl rfl) ?_⟩
      · have hout := hs.output
        simp only [List.map_append, List.sum_append, List.map_cons, List.map_nil, List.sum_cons,
          List.sum_nil, Line.amount]
        omega
      · cases version with
        | fixed => exact ⟨howns, Or.inr ⟨rfl, hless⟩⟩
        | missingUnlock => exact Or.inr ⟨hg, hless, by simp [howns]⟩

theorem books_of_moves (hpos : ∀ t, 0 ≤ amounts t)
    (h : Moves (code version amounts) ((code version amounts).start opened) s) :
    ∃ granted, Books version amounts granted s :=
  h.invariant (fun s => ∃ granted, Books version amounts granted s) ⟨∅, books_start⟩
    (fun _ _ hmove ⟨_, hs⟩ => books_move hpos hmove hs)

end CpreLabs.Withdrawals
