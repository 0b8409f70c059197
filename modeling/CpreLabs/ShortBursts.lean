import CpreLabs.FirstComeFirstServed
import CpreLabs.RoundRobinRefinement

/-!
# Round robin without preemption

When no process runs for longer than the quantum, `round_robin` makes the choices of
`first_come_first_served`.
-/
namespace CpreLabs.Lab4
open UnitTick RoundRobin

/-- Round robin and first come, first served coincide on processes of 50 ticks at most. -/
theorem roundRobin_firstComeFirstServed (w : Workload) (hshort : ∀ i, w.runtime i ≤ 50) :
    (∀ k, w.choices roundRobin k = w.choices firstComeFirstServed k) ∧
      (∃ s, w.Ends roundRobin s) ∧ (∃ s, w.Ends firstComeFirstServed s) ∧
      ∀ s s', w.Ends roundRobin s → w.Ends firstComeFirstServed s' →
        (∀ i, (s.procCopy i).starttime = (s'.procCopy i).starttime ∧
          (s.procCopy i).endtime = (s'.procCopy i).endtime) ∧
        s.totalTurnaroundTime = s'.totalTurnaroundTime := by
  have hsame : w.choices roundRobin = w.choices firstComeFirstServed :=
    ((schedule_turns w).firstCome (by decide) hshort).unique (firstCome_choices w)
  refine ⟨fun k => congrFun hsame k, exists_ends sound_roundRobin w,
    exists_ends sound_firstComeFirstServed w, fun s s' hends hends' => ?_⟩
  obtain ⟨htable, -, -, htotal⟩ :=
    Simulation.fields_of_ledger (ends_ledger (fun k => congrFun hsame k) hends hends')
  rw [htable]
  exact ⟨fun i => ⟨rfl, rfl⟩, htotal⟩

/-- Twenty processes of 10 to 29 ticks that arrive two at a time. -/
def staggered : Workload where
  arrivaltime i := 10 * (i.val / 2)
  runtime i := 10 + i.val
  priority _ := ⟨0, by decide⟩
  runtime_pos i := by omega

theorem roundRobin_firstComeFirstServed_staggered :
    (∀ k, staggered.choices roundRobin k = staggered.choices firstComeFirstServed k) ∧
      (∃ s, staggered.Ends roundRobin s) ∧ (∃ s, staggered.Ends firstComeFirstServed s) ∧
      ∀ s s', staggered.Ends roundRobin s → staggered.Ends firstComeFirstServed s' →
        (∀ i, (s.procCopy i).starttime = (s'.procCopy i).starttime ∧
          (s.procCopy i).endtime = (s'.procCopy i).endtime) ∧
        s.totalTurnaroundTime = s'.totalTurnaroundTime :=
  roundRobin_firstComeFirstServed staggered (fun i => by
    have hi : i.val < 20 := i.isLt
    change 10 + i.val ≤ 50
    omega)

end CpreLabs.Lab4
