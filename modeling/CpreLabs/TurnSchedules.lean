import CpreLabs.FirstComeSchedules
import CpreLabs.RoundRobinQueue

/-!
# Schedules by turns

The turns of jobs that have an arrival and a length each. Jobs wait with whole turns behind them;
where no job is longer than a turn they run first come, first served.
-/
namespace CpreLabs.RoundRobin
open UnitTick

variable {ι : Type*}

section ServeFirst

variable {P : ι → Prop} {l : List ι}

theorem serveFirst_running (h : ∀ i ∈ l, P i) {c : ι} {used : ℕ}
    (hr : (serveFirst l).running = some (c, used)) : used = 0 ∧ P c := by
  cases l with
  | nil => cases hr
  | cons i l =>
    cases hr
    exact ⟨rfl, h _ List.mem_cons_self⟩

theorem serveFirst_queue (h : ∀ i ∈ l, P i) : ∀ i ∈ (serveFirst l).queue, P i := by
  cases l with
  | nil => exact h
  | cons i l => exact fun j hj => h j (List.mem_cons_of_mem i hj)

theorem serveFirst_list (l : List ι) :
    (serveFirst l).current.toList ++ (serveFirst l).queue = l := by
  cases l with
  | nil => rfl
  | cons i l => rfl

end ServeFirst

variable [DecidableEq ι]

/-- The jobs that have run for their whole length. -/
def finishedBy (length : ι → ℕ) (σ : ℕ → Option ι) (k : ℕ) (i : ι) : Bool := length i ≤ served σ k i

theorem finishedBy_eq_true {length : ι → ℕ} {σ : ℕ → Option ι} {k : ℕ} {i : ι} :
    finishedBy length σ k i = true ↔ length i ≤ served σ k i := decide_eq_true_iff

theorem finishedBy_eq_false {length : ι → ℕ} {σ : ℕ → Option ι} {k : ℕ} {i : ι} :
    finishedBy length σ k i = false ↔ served σ k i < length i := by
  rw [finishedBy, decide_eq_false_iff_not, not_le]

variable [LinearOrder ι]

/-- The jobs of `joining k` join the queue at tick `k`; a job that could run waits in the queue
once, unless it has the CPU. -/
structure Schedule (quantum : ℕ) (arrival length : ι → ℕ) (joining : ℕ → List ι)
    (σ : ℕ → Option ι) (s : ℕ → Turn ι) : Prop
    extends Run quantum (finishedBy length σ) joining σ s,
      Feasible arrival length σ where
  busy : Busy arrival length σ
  start : s 0 = ⟨[], none⟩
  joining_iff : ∀ k i, i ∈ joining k ↔ arrival i = k
  joining_sorted : ∀ k, (joining k).Pairwise (· < ·)
  nodup : ∀ k, (s (k + 1)).queue.Nodup
  apart : ∀ k i, σ k = some i → i ∉ (s (k + 1)).queue
  ready : ∀ k, ∀ i ∈ (s (k + 1)).queue, arrival i ≤ k ∧ served σ k i < length i
  all : ∀ k i, arrival i ≤ k → served σ k i < length i →
    i ∈ (s (k + 1)).queue ∨ σ k = some i

namespace Schedule

variable {quantum : ℕ} {arrival length : ι → ℕ} {joining : ℕ → List ι} {σ : ℕ → Option ι}
variable {s : ℕ → Turn ι} {k : ℕ}

theorem choice_of_running (h : Schedule quantum arrival length joining σ s) {c : ι} {used : ℕ}
    (hr : (s (k + 1)).running = some (c, used)) : σ k = some c := by
  rw [h.choice, Turn.current, hr]
  rfl

theorem served_joining (h : Schedule quantum arrival length joining σ s) {i : ι}
    (hi : i ∈ joining k) : served σ k i = 0 :=
  h.served_of_not_arrived ((h.joining_iff k i).mp hi).ge

/-- Who waits does not run. -/
theorem served_waiting (h : Schedule quantum arrival length joining σ s) {i : ι}
    (hi : i ∈ (s (k + 1)).queue) : served σ (k + 1) i = served σ k i := by
  rw [served_succ, if_neg (fun hrun => h.apart k i hrun hi), Nat.add_zero]

/-- No job joins twice. -/
theorem joining_length_le [Fintype ι] (h : Schedule quantum arrival length joining σ s) (k : ℕ) :
    ((List.range k).flatMap joining).length ≤ Fintype.card ι := by
  apply List.Nodup.length_le_card
  refine List.nodup_flatMap.mpr ⟨fun j _ => (h.joining_sorted j).imp ne_of_lt, ?_⟩
  refine List.nodup_range.imp (fun {j j'} hne => ?_)
  intro i hi hi'
  exact hne (((h.joining_iff j i).mp hi).symm.trans ((h.joining_iff j' i).mp hi'))

theorem used_lt (h : Schedule quantum arrival length joining σ s) (hquantum : 0 < quantum) {c : ι}
    {used : ℕ} (hr : (s (k + 1)).running = some (c, used)) : used < quantum := by
  rw [h.step] at hr
  exact used_next hquantum hr

/-- A job waits with whole turns behind it, and `used` counts the ticks since. -/
theorem served_mod (h : Schedule quantum arrival length joining σ s) (hquantum : 0 < quantum)
    (k : ℕ) :
    (∀ c used, (s (k + 1)).running = some (c, used) → served σ k c % quantum = used) ∧
      ∀ i ∈ (s (k + 1)).queue, served σ k i % quantum = 0 := by
  have hserve : ∀ {m : ℕ} {l : List ι}, s (m + 1) = serveFirst l →
      (∀ i ∈ l, served σ m i % quantum = 0) →
      (∀ c used, (s (m + 1)).running = some (c, used) → served σ m c % quantum = used) ∧
        ∀ i ∈ (s (m + 1)).queue, served σ m i % quantum = 0 := by
    intro m l hm hl
    rw [hm]
    refine ⟨fun c used hr => ?_, serveFirst_queue hl⟩
    obtain ⟨rfl, hc⟩ := serveFirst_running hl hr
    exact hc
  have hnew : ∀ m, ∀ i ∈ joining m, served σ m i % quantum = 0 := by
    intro m i hi
    rw [h.served_joining hi, Nat.zero_mod]
  induction k with
  | zero =>
    have hfirst : s 1 = serveFirst (joining 0) := by
      rw [h.step, h.start, next_of_idle, List.nil_append]
    exact hserve hfirst (hnew 0)
  | succ k ih =>
    obtain ⟨hrunning, hwaiting⟩ := ih
    have hqueue : ∀ i ∈ (s (k + 1)).queue ++ joining (k + 1),
        served σ (k + 1) i % quantum = 0 := by
      intro i hi
      rcases List.mem_append.mp hi with hi | hi
      · rw [h.served_waiting hi]
        exact hwaiting i hi
      · exact hnew (k + 1) i hi
    have hstep := h.step (k + 1)
    rcases next_cases quantum (finishedBy length σ (k + 1)) (joining (k + 1))
      (s (k + 1)).running with
      ⟨c, used, hr, -, hlt, hkeep⟩ | ⟨-, hfree⟩ | ⟨c, used, hr, -, hge, hexpired⟩
    · rw [hstep.trans (hkeep _)]
      refine ⟨fun c' used' hr' => ?_, hqueue⟩
      cases hr'
      rw [served_succ, if_pos (h.choice_of_running hr), ← Nat.mod_add_mod, hrunning c used hr,
        Nat.mod_eq_of_lt hlt]
    · exact hserve (hstep.trans (hfree _)) hqueue
    · refine hserve (hstep.trans (hexpired _)) (fun i hi => ?_)
      rcases List.mem_append.mp hi with hi | hi
      · exact hqueue i hi
      · have hused := h.used_lt hquantum hr
        have hfull : used + 1 = quantum := by omega
        rw [List.mem_singleton.mp hi, served_succ, if_pos (h.choice_of_running hr),
          ← Nat.mod_add_mod, hrunning c used hr, hfull, Nat.mod_self]

/-- A job that is not longer than a turn is finished when its turn is over. -/
theorem finished_of_short (h : Schedule quantum arrival length joining σ s)
    (hquantum : 0 < quantum) {c : ι} {used : ℕ} (hr : (s (k + 1)).running = some (c, used))
    (hshort : length c ≤ quantum) (hge : quantum ≤ used + 1) : length c ≤ served σ (k + 1) c := by
  have hrun := h.choice_of_running hr
  have hlt := h.unfinished k c hrun
  have hmod := (h.served_mod hquantum k).1 c used hr
  rw [Nat.mod_eq_of_lt (hlt.trans_le hshort)] at hmod
  rw [served_succ, if_pos hrun]
  omega

/-- A job that is not longer than a turn runs in one go. -/
theorem runs_through (h : Schedule quantum arrival length joining σ s) (hquantum : 0 < quantum)
    {c : ι} (hshort : length c ≤ quantum) (hrun : σ k = some c) (hzero : served σ k c = 0) (n : ℕ)
    (hn : n ≤ length c) : ∀ j, k ≤ j → j < k + n → σ j = some c := by
  induction n with
  | zero =>
    intro j hj hjk
    omega
  | succ n ih =>
    have hbefore := ih (by omega)
    intro j hj hjk
    rcases Nat.lt_or_ge j (k + n) with hlt | hge
    · exact hbefore j hj hlt
    · obtain rfl : j = k + n := by omega
      cases n with
      | zero => exact hrun
      | succ n =>
        have hlast := hbefore (k + n) (Nat.le_add_right k n) (by omega)
        have hserved := served_of_constant (Nat.le_add_right k (n + 1)) hbefore c
        rw [hzero, if_pos rfl] at hserved
        have hcurrent := h.choice (k + n)
        rw [hlast, Turn.current, eq_comm, Option.map_eq_some_iff] at hcurrent
        obtain ⟨⟨c', used⟩, hr, hc⟩ := hcurrent
        obtain rfl : c' = c := hc
        have hunfinished : served σ (k + n + 1) c' < length c' := by
          rw [Nat.add_assoc]
          omega
        have hstep := h.step (k + n + 1)
        rcases next_cases quantum (finishedBy length σ (k + n + 1)) (joining (k + n + 1))
          (s (k + n + 1)).running with
          ⟨c, used', hr', -, -, hkeep⟩ | ⟨hfree, -⟩ | ⟨c, used', hr', -, hge', -⟩
        · rw [hr] at hr'
          cases hr'
          have hr'' : (s (k + n + 1 + 1)).running = some (c', used + 1) := by
            rw [hstep.trans (hkeep _)]
          exact h.choice_of_running hr''
        · have hdone := finishedBy_eq_true.mp (hfree c' used hr)
          omega
        · rw [hr] at hr'
          cases hr'
          have hdone := h.finished_of_short hquantum hr hshort hge'
          omega

theorem sorted (h : Schedule quantum arrival length joining σ s) (hquantum : 0 < quantum)
    (hshort : ∀ i, length i ≤ quantum) (k : ℕ) :
    ((s (k + 1)).current.toList ++ (s (k + 1)).queue).Pairwise
      (fun i l => place arrival i < place arrival l) := by
  have hnew : ∀ m, (joining m).Pairwise (fun i l => place arrival i < place arrival l) := by
    intro m
    refine (h.joining_sorted m).imp_of_mem (fun {i l} hi hl hlt => ?_)
    have hi' := (h.joining_iff m i).mp hi
    have hl' := (h.joining_iff m l).mp hl
    exact place_lt_iff.mpr (Or.inr ⟨hi'.trans hl'.symm, hlt⟩)
  induction k with
  | zero =>
    rw [h.step, h.start, next_of_idle, List.nil_append, serveFirst_list]
    exact hnew 0
  | succ k ih =>
    have harrived : ∀ i ∈ (s (k + 1)).current.toList ++ (s (k + 1)).queue, arrival i ≤ k := by
      intro i hi
      rcases List.mem_append.mp hi with hi | hi
      · rw [← h.choice, Option.mem_toList] at hi
        exact h.arrived k i hi
      · exact (h.ready k i hi).1
    have hjoin : ((s (k + 1)).current.toList ++ ((s (k + 1)).queue ++ joining (k + 1))).Pairwise
        (fun i l => place arrival i < place arrival l) := by
      rw [← List.append_assoc]
      refine List.pairwise_append.mpr ⟨ih, hnew (k + 1), fun i hi l hl => ?_⟩
      have hile := harrived i hi
      have hl' := (h.joining_iff (k + 1) l).mp hl
      exact place_lt_iff.mpr (Or.inl (by omega))
    have hstep := h.step (k + 1)
    rcases next_cases quantum (finishedBy length σ (k + 1)) (joining (k + 1))
      (s (k + 1)).running with
      ⟨c, used, hr, -, -, hkeep⟩ | ⟨-, hfree⟩ | ⟨c, used, hr, hfin, hge, -⟩
    · rw [hstep.trans (hkeep _)]
      rw [Turn.current, hr] at hjoin
      exact hjoin
    · rw [hstep.trans (hfree _), serveFirst_list]
      exact (List.pairwise_append.mp hjoin).2.1
    · have hdone := h.finished_of_short hquantum hr (hshort c) hge
      exact absurd hdone (not_le.mpr (finishedBy_eq_false.mp hfin))

theorem firstCome (h : Schedule quantum arrival length joining σ s) (hquantum : 0 < quantum)
    (hshort : ∀ i, length i ≤ quantum) : FirstCome arrival length σ := by
  refine ⟨h.toFeasible, fun k i hi l harr hlt => ?_, h.busy⟩
  rcases h.all k l harr hlt with hmem | hrun
  · have hsorted := h.sorted hquantum hshort k
    rw [← h.choice, hi] at hsorted
    exact (List.rel_of_pairwise_cons hsorted hmem).le
  · rw [Option.some.inj (hi.symm.trans hrun)]

end Schedule

end CpreLabs.RoundRobin
