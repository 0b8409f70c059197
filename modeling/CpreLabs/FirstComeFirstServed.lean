import CpreLabs.FirstComeSchedules
import CpreLabs.SimulationTimes

/-!
# First come, first served

The scan of `first_come_first_served` finds the process that came first, at every tick anew, so the
processes run in the order of arrival and each without a break.
-/
namespace CpreLabs.Lab4
open UnitTick

/-- The result of a scan: the first ready process with the least key of those seen. -/
def FirstReady (key : Process → ℤ) (proc : Table) (t : ℤ) (seen : List Pid) : Option Pid → Prop
  | none => ∀ j ∈ seen, ¬ReadyAt proc t j
  | some i => ReadyAt proc t i ∧ ∀ j ∈ seen, ReadyAt proc t j →
      key (proc i) < key (proc j) ∨ key (proc i) = key (proc j) ∧ i ≤ j

section Scan

variable {key : Process → ℤ} {proc : Table} {t : ℤ} {seen : List Pid} {minIndex : Option Pid}

theorem FirstReady.scanMin (h : FirstReady key proc t seen minIndex)
    (hmin : ∀ m, minIndex = some m → m ∈ seen) {i : Pid} (hi : ∀ j ∈ seen, j < i) :
    FirstReady key proc t (seen ++ [i]) (scanMin key proc t minIndex i) ∧
      ∀ m, Lab4.scanMin key proc t minIndex i = some m → m ∈ seen ++ [i] := by
  have hlast : i ∈ seen ++ [i] := List.mem_append_right _ (List.mem_singleton_self i)
  unfold Lab4.scanMin
  split
  case isTrue hready =>
    cases minIndex with
    | none =>
      refine ⟨⟨hready, fun j hj hj' => ?_⟩, fun m hm => by cases hm; exact hlast⟩
      rcases List.mem_append.mp hj with hj | hj
      · exact absurd hj' (h j hj)
      · exact Or.inr ⟨by rw [List.mem_singleton.mp hj], (List.mem_singleton.mp hj).ge⟩
    | some m =>
      obtain ⟨hm, hfirst⟩ := h
      simp only
      split
      case isTrue hlt =>
        refine ⟨⟨hready, fun j hj hj' => ?_⟩, fun m' hm' => by cases hm'; exact hlast⟩
        rcases List.mem_append.mp hj with hj | hj
        · rcases hfirst j hj hj' with hlt' | ⟨heq, -⟩
          · exact Or.inl (hlt.trans hlt')
          · exact Or.inl (hlt.trans_eq heq)
        · exact Or.inr ⟨by rw [List.mem_singleton.mp hj], (List.mem_singleton.mp hj).ge⟩
      case isFalse hle =>
        refine ⟨⟨hm, fun j hj hj' => ?_⟩, fun m' hm' => ?_⟩
        · rcases List.mem_append.mp hj with hj | hj
          · exact hfirst j hj hj'
          · rw [List.mem_singleton.mp hj]
            rcases lt_or_eq_of_le (not_lt.mp hle) with hlt | heq
            · exact Or.inl hlt
            · exact Or.inr ⟨heq, (hi m (hmin m rfl)).le⟩
        · exact List.mem_append_left _ (hmin m' hm')
  case isFalse hnot =>
    refine ⟨?_, fun m hm => List.mem_append_left _ (hmin m hm)⟩
    cases minIndex with
    | none =>
      intro j hj
      rcases List.mem_append.mp hj with hj | hj
      · exact h j hj
      · rw [List.mem_singleton.mp hj]
        exact hnot
    | some m =>
      refine ⟨h.1, fun j hj hj' => ?_⟩
      rcases List.mem_append.mp hj with hj | hj
      · exact h.2 j hj hj'
      · rw [List.mem_singleton.mp hj] at hj'
        exact absurd hj' hnot

theorem FirstReady.foldl (h : FirstReady key proc t seen minIndex)
    (hmin : ∀ m, minIndex = some m → m ∈ seen) (js : List Pid)
    (hsorted : (seen ++ js).Pairwise (· < ·)) :
    FirstReady key proc t (seen ++ js) (js.foldl (Lab4.scanMin key proc t) minIndex) := by
  induction js generalizing seen minIndex with
  | nil =>
    rw [List.append_nil]
    exact h
  | cons i js ih =>
    obtain ⟨hnext, hmin'⟩ := h.scanMin hmin
      (fun j hj => (List.pairwise_append.mp hsorted).2.2 j hj i List.mem_cons_self)
    have hassoc : seen ++ i :: js = seen ++ [i] ++ js := by
      rw [List.append_assoc, List.singleton_append]
    rw [hassoc] at hsorted ⊢
    exact ih hnext hmin' hsorted

theorem firstReady_scan (key : Process → ℤ) (proc : Table) (t : ℤ) :
    FirstReady key proc t (List.finRange numProcesses)
      ((List.finRange numProcesses).foldl (scanMin key proc t) none) := by
  have hstart : FirstReady key proc t [] none := fun j hj => (nomatch hj)
  exact hstart.foldl (fun m hm => (nomatch hm)) _ (List.pairwise_lt_finRange numProcesses)

end Scan

theorem firstCome_choices (w : Workload) :
    FirstCome w.arrivaltime w.runtime (w.choices firstComeFirstServed) := by
  obtain ⟨hfeasible, hbusy⟩ := feasible_of_sound sound_firstComeFirstServed w
  refine ⟨hfeasible, fun k i hi l hl hlt => ?_, hbusy⟩
  obtain ⟨hbooks, -⟩ := run_of_sound sound_firstComeFirstServed w k
  have hfirst := firstReady_scan Process.arrivaltime (w.run firstComeFirstServed k).procCopy
    (w.run firstComeFirstServed k).currentTime
  rw [show List.foldl _ _ _ = some i from hi] at hfirst
  have hready : ReadyAt (w.run firstComeFirstServed k).procCopy
      (w.run firstComeFirstServed k).currentTime l := by
    refine ⟨?_, hbooks.unfinished.mpr hlt⟩
    rw [hbooks.arrivaltime, hbooks.time]
    exact Int.ofNat_le.mpr hl
  have hle := hfirst.2 l (List.mem_finRange l) hready
  rw [hbooks.arrivaltime, hbooks.arrivaltime, Int.ofNat_lt, Int.ofNat_inj] at hle
  exact place_le_iff.mpr hle

/-- The processes by `arrivaltime`, and by index where it is the same. -/
def Workload.byArrival (w : Workload) : List Pid :=
  (List.finRange numProcesses).mergeSort
    (fun i j => w.arrivaltime i < w.arrivaltime j ∨ w.arrivaltime i = w.arrivaltime j ∧ i ≤ j)

/-- Each process of the list starts when it has arrived and the one before it has ended, and runs
without a break. -/
def Recurrence (w : Workload) (s : Simulation) : ℤ → List Pid → Prop
  | _, [] => True
  | prevEnd, p :: ps =>
    (s.procCopy p).starttime = max (w.arrivaltime p : ℤ) prevEnd ∧
      (s.procCopy p).endtime = (s.procCopy p).starttime + w.runtime p ∧
      (∀ k : ℕ, (s.procCopy p).starttime ≤ k → k < (s.procCopy p).endtime →
        w.choices firstComeFirstServed k = some p) ∧
      Recurrence w s (s.procCopy p).endtime ps

theorem byArrival_perm (w : Workload) : w.byArrival.Perm (List.finRange numProcesses) :=
  List.mergeSort_perm _ _

theorem byArrival_sorted (w : Workload) :
    w.byArrival.Pairwise (fun i j => place w.arrivaltime i < place w.arrivaltime j) := by
  have hle : w.byArrival.Pairwise (fun i j => place w.arrivaltime i ≤ place w.arrivaltime j) := by
    refine (List.pairwise_mergeSort (fun i j l hij hjl => ?_) (fun i j => ?_) _).imp ?_
    · rw [decide_eq_true_eq, ← place_le_iff] at hij hjl ⊢
      exact hij.trans hjl
    · rw [Bool.or_eq_true, decide_eq_true_eq, decide_eq_true_eq, ← place_le_iff, ← place_le_iff]
      exact le_total _ _
    · intro i j hij
      rw [decide_eq_true_eq, ← place_le_iff] at hij
      exact hij
  have hnodup : w.byArrival.Nodup := (byArrival_perm w).nodup_iff.mpr (List.nodup_finRange _)
  refine (hle.and hnodup).imp ?_
  rintro i j ⟨hij, hne⟩
  exact lt_of_le_of_ne hij (fun heq => hne (place_injective _ heq))

theorem recurrence_of_bursts (w : Workload) {last : ℕ}
    (hall : ∀ i, served (w.choices firstComeFirstServed) last i = w.runtime i) (ps : List Pid)
    (prevEnd : ℕ)
    (h : Bursts w.arrivaltime w.runtime (w.choices firstComeFirstServed) prevEnd ps) :
    Recurrence w (w.run firstComeFirstServed last) prevEnd ps := by
  induction ps generalizing prevEnd with
  | nil => trivial
  | cons p ps ih =>
    obtain ⟨hburst, hrest⟩ := h
    obtain ⟨start, hstart⟩ : ∃ start, max (w.arrivaltime p) prevEnd = start := ⟨_, rfl⟩
    rw [hstart] at hburst hrest
    have htimes := times_of_sound sound_firstComeFirstServed w last
    have hpos := w.runtime_pos p
    have hserved : ∀ m, start ≤ m → m ≤ start + w.runtime p →
        served (w.choices firstComeFirstServed) m p = m - start := by
      have hsum : ∀ m, start ≤ m → m ≤ start + w.runtime p →
          served (w.choices firstComeFirstServed) m p =
            served (w.choices firstComeFirstServed) start p + (m - start) := by
        intro m hm hle
        rw [served_of_constant hm (fun j hj hjm => hburst j hj (lt_of_lt_of_le hjm hle)) p,
          if_pos rfl]
      have hbound := (firstCome_choices w).served_le (start + w.runtime p) p
      have hend := hsum _ (Nat.le_add_right start _) le_rfl
      intro m hm hle
      have hm' := hsum m hm hle
      omega
    have hlast : start + w.runtime p ≤ last := by
      by_contra hnot
      have hmono := served_mono (σ := w.choices firstComeFirstServed) (i := p)
        (show last ≤ start + w.runtime p - 1 by omega)
      rw [hall, hserved _ (by omega) (by omega)] at hmono
      omega
    have hs := htimes.starttime p start (by omega) (hburst start le_rfl (by omega))
      (by rw [hserved start le_rfl (by omega), Nat.sub_self])
    have he := htimes.endtime p (start + w.runtime p - 1) (by omega)
      (hburst _ (by omega) (by omega)) (by rw [hserved _ (by omega) (by omega)]; omega)
    have he' : ((w.run firstComeFirstServed last).procCopy p).endtime =
        (start + w.runtime p : ℕ) := by omega
    rw [Recurrence, he', hs]
    refine ⟨by omega, by omega, fun k hk hkend => ?_, ih _ hrest⟩
    exact hburst k (Int.ofNat_le.mp hk) (Int.ofNat_lt.mp hkend)

/-- First come, first served runs the processes in the order of arrival without preemption. -/
theorem firstComeFirstServed_recurrence (w : Workload) :
    w.byArrival.Perm (List.finRange numProcesses) ∧
      w.byArrival.Pairwise (fun i j =>
        w.arrivaltime i < w.arrivaltime j ∨ w.arrivaltime i = w.arrivaltime j ∧ i < j) ∧
      (∃ s, w.Ends firstComeFirstServed s) ∧
      ∀ s, w.Ends firstComeFirstServed s → Recurrence w s 0 w.byArrival := by
  refine ⟨byArrival_perm w, (byArrival_sorted w).imp place_lt_iff.mp,
    exists_ends sound_firstComeFirstServed w, fun s hends => ?_⟩
  obtain ⟨rounds, hloop⟩ := hends
  obtain ⟨last, rfl, hfinished, -⟩ := run_of_loop rounds 0 hloop
  have hdone := (numFinished_iff sound_firstComeFirstServed w last).mp hfinished
  have hall : ∀ i, served (w.choices firstComeFirstServed) last i = w.runtime i := by
    intro i
    have hmem : i ∈ done w.runtime (w.choices firstComeFirstServed) last :=
      hdone ▸ Finset.mem_univ i
    exact le_antisymm ((firstCome_choices w).served_le last i) (mem_done.mp hmem)
  refine recurrence_of_bursts w hall w.byArrival 0 ?_
  refine (firstCome_choices w).bursts [] w.byArrival 0 (byArrival_sorted w) (fun i => ?_)
    (fun i hi => (nomatch hi)) (fun i _ => served_zero)
  exact (byArrival_perm w).mem_iff.mpr (List.mem_finRange i)

end CpreLabs.Lab4
