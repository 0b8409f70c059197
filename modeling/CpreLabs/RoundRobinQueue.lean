import CpreLabs.UnitTickScheduling

/-!
# Turns in a round-robin queue

Jobs that arrive join a queue; the first one gets the CPU until it is finished or has used up its
quantum, and in the second case it goes to the end of the queue. A job that waits gets the CPU
after those before it have had one quantum at most.
-/
namespace CpreLabs.RoundRobin
open UnitTick

variable {ι : Type*}

/-- The jobs that wait, and the one on the CPU with the ticks of its turn that were over when it
was last chosen. -/
structure Turn (ι : Type*) where
  queue : List ι
  running : Option (ι × ℕ)

def Turn.current (s : Turn ι) : Option ι := s.running.map Prod.fst

def serveFirst : List ι → Turn ι
  | [] => ⟨[], none⟩
  | i :: queue => ⟨queue, some (i, 0)⟩

def Turn.next (quantum : ℕ) (finished : ι → Bool) (arrived : List ι) (s : Turn ι) : Turn ι :=
  match s.running with
  | none => serveFirst (s.queue ++ arrived)
  | some (c, used) =>
    if finished c then serveFirst (s.queue ++ arrived)
    else if used + 1 < quantum then ⟨s.queue ++ arrived, some (c, used + 1)⟩
    else serveFirst (s.queue ++ arrived ++ [c])

/-- The states before the ticks, and the jobs that the ticks run. -/
structure Run (quantum : ℕ) (finished : ℕ → ι → Bool) (arrived : ℕ → List ι) (σ : ℕ → Option ι)
    (s : ℕ → Turn ι) : Prop where
  step : ∀ k, s (k + 1) = (s k).next quantum (finished k) (arrived k)
  choice : ∀ k, σ k = (s (k + 1)).current

section Step

variable {quantum : ℕ} {finished : ι → Bool} {arrived queue : List ι} {c : ι} {used : ℕ}

theorem next_of_idle :
    Turn.next quantum finished arrived ⟨queue, none⟩ = serveFirst (queue ++ arrived) := rfl

theorem next_of_finished (h : finished c = true) :
    Turn.next quantum finished arrived ⟨queue, some (c, used)⟩ = serveFirst (queue ++ arrived) :=
  if_pos h

theorem next_of_keep (h : finished c = false) (hlt : used + 1 < quantum) :
    Turn.next quantum finished arrived ⟨queue, some (c, used)⟩ =
      ⟨queue ++ arrived, some (c, used + 1)⟩ := by
  rw [Turn.next]
  simp only [h, if_pos hlt, Bool.false_eq_true, if_false]

theorem next_of_expired (h : finished c = false) (hle : quantum ≤ used + 1) :
    Turn.next quantum finished arrived ⟨queue, some (c, used)⟩ =
      serveFirst (queue ++ arrived ++ [c]) := by
  rw [Turn.next]
  simp only [h, if_neg (not_lt.mpr hle), Bool.false_eq_true, if_false]

/-- A tick goes on with the turn, or gives the CPU to the first job of the queue; a job that is not
finished goes to the end of it. -/
theorem next_cases (quantum : ℕ) (finished : ι → Bool) (arrived : List ι) (r : Option (ι × ℕ)) :
    (∃ c used, r = some (c, used) ∧ finished c = false ∧ used + 1 < quantum ∧
      ∀ queue, Turn.next quantum finished arrived ⟨queue, r⟩ =
        ⟨queue ++ arrived, some (c, used + 1)⟩) ∨
    ((∀ c used, r = some (c, used) → finished c = true) ∧
      ∀ queue, Turn.next quantum finished arrived ⟨queue, r⟩ = serveFirst (queue ++ arrived)) ∨
    ∃ c used, r = some (c, used) ∧ finished c = false ∧ quantum ≤ used + 1 ∧
      ∀ queue, Turn.next quantum finished arrived ⟨queue, r⟩ =
        serveFirst (queue ++ arrived ++ [c]) := by
  cases r with
  | none => exact Or.inr (Or.inl ⟨fun _ _ h => (nomatch h), fun _ => next_of_idle⟩)
  | some r =>
    obtain ⟨c, used⟩ := r
    cases h : finished c with
    | true =>
      refine Or.inr (Or.inl ⟨fun c' used' heq => ?_, fun _ => next_of_finished h⟩)
      cases heq
      exact h
    | false =>
      by_cases hlt : used + 1 < quantum
      · exact Or.inl ⟨c, used, rfl, h, hlt, fun _ => next_of_keep h hlt⟩
      · exact Or.inr (Or.inr ⟨c, used, rfl, h, not_lt.mp hlt,
          fun _ => next_of_expired h (not_lt.mp hlt)⟩)

theorem used_serveFirst {l : List ι} (h : (serveFirst l).running = some (c, used)) : used = 0 := by
  cases l with
  | nil => cases h
  | cons i l =>
    cases h
    rfl

theorem used_next (hquantum : 0 < quantum) {s : Turn ι}
    (h : (s.next quantum finished arrived).running = some (c, used)) : used < quantum := by
  obtain ⟨queue, r⟩ := s
  rcases next_cases quantum finished arrived r with
    ⟨c', used', -, -, hlt, hkeep⟩ | ⟨-, hfree⟩ | ⟨c', used', -, -, -, hexpired⟩
  · rw [hkeep] at h
    cases h
    exact hlt
  · rw [hfree] at h
    rw [used_serveFirst h]
    exact hquantum
  · rw [hexpired] at h
    rw [used_serveFirst h]
    exact hquantum

/-- The number of jobs in the queue and on the CPU. -/
def Turn.load (s : Turn ι) : ℕ := s.queue.length + s.running.toList.length

theorem load_serveFirst (l : List ι) : (serveFirst l).load = l.length := by
  cases l with
  | nil => rfl
  | cons i l => rfl

theorem load_next_le (quantum : ℕ) (finished : ι → Bool) (arrived : List ι) (s : Turn ι) :
    (s.next quantum finished arrived).load ≤ s.load + arrived.length := by
  obtain ⟨queue, r⟩ := s
  rcases next_cases quantum finished arrived r with
    ⟨c, used, rfl, -, -, hkeep⟩ | ⟨-, hfree⟩ | ⟨c, used, rfl, -, -, hexpired⟩
  · rw [hkeep]
    simp only [Turn.load, List.length_append, Option.toList_some, List.length_singleton]
    omega
  · rw [hfree, load_serveFirst, List.length_append]
    simp only [Turn.load]
    omega
  · rw [hexpired, load_serveFirst]
    simp only [Turn.load, List.length_append, Option.toList_some, List.length_singleton]
    omega

end Step

/-- Nobody is in the queue or on the CPU but who was at the start or has arrived since. -/
theorem load_le {quantum : ℕ} {finished : ℕ → ι → Bool} {arrived : ℕ → List ι} {s : ℕ → Turn ι}
    (hstep : ∀ k, s (k + 1) = (s k).next quantum (finished k) (arrived k)) (k : ℕ) :
    (s k).load ≤ (s 0).load + ((List.range k).flatMap arrived).length := by
  induction k with
  | zero => exact Nat.le_add_right _ _
  | succ k ih =>
    rw [hstep, List.range_succ, List.flatMap_append, List.length_append, List.flatMap_singleton]
    have hle := load_next_le quantum (finished k) (arrived k) (s k)
    omega

namespace Run

variable {quantum : ℕ} {finished : ℕ → ι → Bool} {arrived : ℕ → List ι} {σ : ℕ → Option ι}
variable {s : ℕ → Turn ι}

theorem choice_eq (h : Run quantum finished arrived σ s) {k used : ℕ} {queue : List ι} {c : ι}
    (hs : s (k + 1) = ⟨queue, some (c, used)⟩) : σ k = some c := by
  rw [h.choice, hs]
  rfl

theorem turn_step (h : Run quantum finished arrived σ s) {k used : ℕ} {queue : List ι} {c : ι}
    (hs : s (k + 1) = ⟨queue, some (c, used)⟩) :
    (used + 1 < quantum ∧ s (k + 1 + 1) = ⟨queue ++ arrived (k + 1), some (c, used + 1)⟩) ∨
      ∃ back, s (k + 1 + 1) = serveFirst (queue ++ back) := by
  have hstep := h.step (k + 1)
  rw [hs] at hstep
  rcases next_cases quantum (finished (k + 1)) (arrived (k + 1)) (some (c, used)) with
    ⟨c', used', hr, -, hlt, hkeep⟩ | ⟨-, hfree⟩ | ⟨c', used', -, -, -, hexpired⟩
  · cases hr
    exact Or.inl ⟨hlt, hstep.trans (hkeep queue)⟩
  · exact Or.inr ⟨_, hstep.trans (hfree queue)⟩
  · refine Or.inr ⟨arrived (k + 1) ++ [c'], hstep.trans ?_⟩
    rw [hexpired, List.append_assoc]

/-- A turn ends within the quantum, and the first job that waits is next. -/
theorem turn_ends (h : Run quantum finished arrived σ s) {k used : ℕ} {queue : List ι} {c : ι}
    (hs : s (k + 1) = ⟨queue, some (c, used)⟩) (hused : used < quantum) :
    ∃ j, k < j ∧ j ≤ k + (quantum - used) ∧ (∀ m, k ≤ m → m < j → σ m = some c) ∧
      ∃ back, s (j + 1) = serveFirst (queue ++ back) := by
  obtain ⟨left, hleft⟩ : ∃ left, left + used + 1 = quantum := ⟨quantum - used - 1, by omega⟩
  have hnow : ∀ m, k ≤ m → m < k + 1 → σ m = some c := by
    intro m hkm hmk
    obtain rfl : k = m := by omega
    exact h.choice_eq hs
  induction left generalizing k used queue with
  | zero =>
    rcases h.turn_step hs with ⟨hlt, -⟩ | hend
    · omega
    · exact ⟨k + 1, Nat.lt_succ_self k, by omega, hnow, hend⟩
  | succ left ih =>
    rcases h.turn_step hs with ⟨hlt, hkeep⟩ | hend
    · have hnext : ∀ m, k + 1 ≤ m → m < k + 1 + 1 → σ m = some c := by
        intro m hkm hmk
        obtain rfl : k + 1 = m := by omega
        exact h.choice_eq hkeep
      obtain ⟨j, hkj, hj, hruns, back, hback⟩ := ih hkeep hlt (by omega) hnext
      refine ⟨j, by omega, by omega, fun m hkm hmj => ?_, arrived (k + 1) ++ back, ?_⟩
      · rcases Nat.eq_or_lt_of_le hkm with rfl | hlt
        · exact h.choice_eq hs
        · exact hruns m hlt hmj
      · rw [hback, List.append_assoc]
    · exact ⟨k + 1, Nat.lt_succ_self k, by omega, hnow, hend⟩

/-- A job gets the CPU after those before it, of which each has had one quantum at most. -/
theorem waits [DecidableEq ι] (h : Run quantum finished arrived σ s) (hquantum : 0 < quantum)
    {p : ι} {before after : List ι} {k used : ℕ} {c : ι}
    (hs : s (k + 1) = ⟨before ++ p :: after, some (c, used)⟩) (hused : used < quantum)
    (hnodup : (c :: before).Nodup) :
    ∃ t, k < t ∧ t ≤ k + (quantum - used) + quantum * before.length ∧ σ t = some p ∧
      ∀ i, served σ t i ≤ served σ k i + quantum ∧
        (i ∉ c :: before → served σ t i = served σ k i) := by
  obtain ⟨j, hkj, hj, hruns, back, hback⟩ := h.turn_ends hs hused
  have hturn : ∀ i, served σ j i = served σ k i + if some c = some i then j - k else 0 :=
    served_of_constant hkj.le hruns
  induction before generalizing k used c after j back with
  | nil =>
    refine ⟨j, hkj, hj, h.choice_eq hback, fun i => ⟨?_, fun hi => ?_⟩⟩
    · rw [hturn]
      split <;> omega
    · rw [hturn, if_neg (fun heq => List.ne_of_not_mem_cons hi (Option.some.inj heq).symm),
        Nat.add_zero]
  | cons b before ih =>
    obtain ⟨hc, hrest⟩ := List.nodup_cons.mp hnodup
    have hnext : s (j + 1) = ⟨before ++ p :: (after ++ back), some (b, 0)⟩ := by
      rw [hback, List.cons_append, List.cons_append, serveFirst, List.append_assoc, List.cons_append]
    obtain ⟨j', hkj', hj', hruns', back', hback'⟩ := h.turn_ends hnext hquantum
    obtain ⟨t, hjt, ht, hp, hcount⟩ := ih hnext hquantum hrest j' hkj' hj' hruns' back' hback'
      (served_of_constant hkj'.le hruns')
    refine ⟨t, hkj.trans hjt, ?_, hp, fun i => ⟨?_, fun hi => ?_⟩⟩
    · rw [List.length_cons, Nat.mul_succ]
      omega
    · obtain ⟨hle, hsame⟩ := hcount i
      by_cases hic : i = c
      · subst hic
        rw [hsame hc, hturn, if_pos rfl]
        omega
      · rw [hturn, if_neg (fun heq => hic (Option.some.inj heq).symm)] at hle
        exact hle
    · rw [(hcount i).2 (fun hmem => hi (List.mem_cons_of_mem c hmem)), hturn,
        if_neg (fun heq => List.ne_of_not_mem_cons hi (Option.some.inj heq).symm), Nat.add_zero]

end Run

end CpreLabs.RoundRobin
