import CpreLabs.RoundRobinRefinement

/-!
# Waiting under round robin is bounded

A process that is ready and not on the CPU is in the queue, behind at most 18 others.
-/
namespace CpreLabs.Lab4
open UnitTick RoundRobin

section Turns

variable {w : Workload} {k : ℕ} {p : Pid}

theorem turns_used (w : Workload) {c : Pid} {used : ℕ}
    (h : (w.turns (k + 1)).running = some (c, used)) : used < 50 :=
  used_next (by decide) h

theorem turns_of_waiting (hready : (w.run roundRobin k).Ready p)
    (hp : w.choices roundRobin k ≠ some p) :
    ∃ before after c used, w.turns (k + 1) = ⟨before ++ p :: after, some (c, used)⟩ ∧
      (c :: (before ++ p :: after)).Nodup ∧ used < 50 := by
  obtain ⟨-, hchoice, hshared⟩ := shows_turns w k
  have hmem : p ∈ (w.turns (k + 1)).queue :=
    (hshared.all p hready).resolve_right (fun hcurrent => hp (hchoice.trans hcurrent))
  obtain ⟨before, after, hqueue⟩ := List.append_of_mem hmem
  have hbusy : w.choices roundRobin k ≠ none := fun hnone =>
    (contract_of_sound sound_roundRobin w).idle k |>.mp hnone p hready
  cases hrunning : (w.turns (k + 1)).running with
  | none =>
    rw [Turn.current, hrunning] at hchoice
    exact absurd hchoice hbusy
  | some r =>
    obtain ⟨c, used⟩ := r
    have hcurrent : (w.turns (k + 1)).current = some c := by
      rw [Turn.current, hrunning]
      rfl
    refine ⟨before, after, c, used, ?_, ?_, turns_used w hrunning⟩
    · rw [← hqueue, ← hrunning]
    · rw [← hqueue]
      exact List.nodup_cons.mpr ⟨hshared.apart c hcurrent, hshared.nodup⟩

/-- The turn of the process on the CPU ends within 50 ticks, and then another one runs. -/
theorem turn_of_waiting (hready : (w.run roundRobin k).Ready p)
    (hp : w.choices roundRobin k ≠ some p) :
    ∃ j, k < j ∧ j ≤ k + 50 ∧ w.choices roundRobin j ≠ w.choices roundRobin k := by
  obtain ⟨before, after, c, used, hturns, hnodup, hused⟩ := turns_of_waiting hready hp
  obtain ⟨j, hkj, hj, hruns, back, hback⟩ := (run_turns w).turn_ends hturns hused
  refine ⟨j, hkj, by omega, ?_⟩
  rw [hruns k le_rfl hkj, (run_turns w).choice, hback]
  obtain ⟨hc, -⟩ := List.nodup_cons.mp hnodup
  cases before with
  | nil => exact fun heq => hc (by cases heq; exact List.mem_cons_self)
  | cons b before => exact fun heq => hc (by cases heq; exact List.mem_cons_self)

end Turns

/-- Under round robin no process has the CPU for more than 50 ticks in a row while another one
waits, and one that waits gets it within `50 * 19` ticks, of which each other process has had 50 at
most. -/
theorem roundRobin_bounded_waiting (w : Workload) :
    (∀ c a n, (∀ k, a ≤ k → k < a + n → w.choices roundRobin k = some c ∧
        ∃ p, p ≠ c ∧ (w.run roundRobin k).Ready p) → n ≤ 50) ∧
      ∀ t p, (w.run roundRobin t).Ready p → w.choices roundRobin t ≠ some p →
        ∃ t', t < t' ∧ t' ≤ t + 50 * 19 ∧ w.choices roundRobin t' = some p ∧
          (∀ k, t ≤ k → k < t' → w.choices roundRobin k ≠ some p) ∧
          ∀ i, served (w.choices roundRobin) t' i - served (w.choices roundRobin) t i ≤ 50 := by
  refine ⟨fun c a n hrow => ?_, fun t p hready hp => ?_⟩
  · by_contra hlong
    obtain ⟨hc, p, hpc, hready⟩ := hrow a le_rfl (by omega)
    obtain ⟨j, haj, hj, hother⟩ := turn_of_waiting hready
      (fun heq => hpc (Option.some.inj (heq.symm.trans hc)))
    exact hother ((hrow j haj.le (by omega)).1.trans hc.symm)
  · obtain ⟨before, after, c, used, hturns, hnodup, hused⟩ := turns_of_waiting hready hp
    have hlen := hnodup.length_le_card
    rw [Fintype.card_fin] at hlen
    rw [← List.cons_append] at hnodup
    obtain ⟨hbefore, -, hapart⟩ := List.nodup_append.mp hnodup
    have hnotmem : p ∉ c :: before := fun hmem => hapart p hmem p List.mem_cons_self rfl
    obtain ⟨t', htt', ht', hrun, hcount⟩ := (run_turns w).waits (by decide) hturns hused hbefore
    refine ⟨t', htt', ?_, hrun, fun k htk hkt' hk => ?_, fun i => ?_⟩
    · have hcard : (c :: (before ++ p :: after)).length ≤ 20 := hlen
      rw [List.length_cons, List.length_append, List.length_cons] at hcard
      omega
    · have hsame := (hcount p).2 hnotmem
      have hlow := served_mono (σ := w.choices roundRobin) (i := p) htk
      have hhigh := served_mono (σ := w.choices roundRobin) (i := p) (Nat.succ_le_of_lt hkt')
      rw [Nat.succ_eq_add_one, served_succ, if_pos hk] at hhigh
      omega
    · have hle := (hcount i).1
      omega

end CpreLabs.Lab4
