import CpreLabs.LeftoverTurn
import CpreLabs.RoundRobinRefinement
import CpreLabs.ShortBursts
import CpreLabs.SimulationRuns

/-!
# When the runs of `main` are independent

A run of `round_robin` ends with its last process on the CPU, and the static variables keep it
there for the next run. The runs of a sequence are independent if `round_robin` has one of them at
most, or if the table is such that the process left over makes no difference.
-/
namespace CpreLabs.Lab4
open UnitTick RoundRobin

instance : Nontrivial Pid := ⟨0, 1, by decide⟩

/-- The static variables show who is on the CPU. -/
structure Left (g : Globals) (r : Option (Pid × ℕ)) : Prop where
  current : g.currentPid = r.map Prod.fst
  time : g.timeOnCpu = (r.elim 0 Prod.snd : ℕ)

/-- The queues of turns when `r` is on the CPU at the start, as long as the choices are those of a
first run. -/
def Workload.turnsFrom (w : Workload) (r : Option (Pid × ℕ)) : ℕ → Turn Pid
  | 0 => ⟨[], r⟩
  | k + 1 => (w.turnsFrom r k).next 50 (finishedBy w.runtime (w.choices roundRobin) k) (w.joining k)

theorem turnsFrom_none (w : Workload) (k : ℕ) : w.turnsFrom none k = w.turns k := by
  induction k with
  | zero => rfl
  | succ k ih =>
    rw [Workload.turnsFrom, Workload.turns, ih, hasFinished_run, arrivals_run]

theorem leftover_turnsFrom (w : Workload) (c : Pid) (used : ℕ) :
    Leftover 50 w.runtime w.joining (w.choices roundRobin) c used
      (w.turnsFrom (some (c, used))) := ⟨rfl, fun _ => rfl⟩

theorem turnsFrom_room (w : Workload) (r : Option (Pid × ℕ)) (k : ℕ) :
    (w.turnsFrom r k).queue.length + numProcesses < maxQueueSize := by
  have hload := load_le (s := w.turnsFrom r) (fun _ => rfl) k
  have hjoining := (schedule_turns w).joining_length_le k
  have hstart : (w.turnsFrom r 0).load ≤ 1 := by
    cases r with
    | none => exact Nat.zero_le 1
    | some r => exact le_rfl
  rw [Turn.load] at hload
  rw [Fintype.card_fin] at hjoining
  have hsize : numProcesses + 1 + numProcesses < maxQueueSize := by decide
  omega

section RoundRobin

variable {w : Workload} {g : Globals} {r : Option (Pid × ℕ)} {k last : ℕ}

/-- As long as the choices agree, `round_robin` shows the queue of turns. -/
theorem roundRobin_follows (w : Workload) (hleft : Left g r)
    (hagree : ∀ j, j < k →
      (w.runFrom g.initQueues roundRobin j).choice roundRobin = w.choices roundRobin j) :
    Shows (w.runFrom g.initQueues roundRobin k).globals (w.turnsFrom r k) ∧
      (w.runFrom g.initQueues roundRobin k).choice roundRobin =
        (w.turnsFrom r (k + 1)).current := by
  have hcall : ∀ k g, Shows g (w.turnsFrom r k) →
      Shows (roundRobin g (w.run roundRobin k).procCopy k).2 (w.turnsFrom r (k + 1)) ∧
        (roundRobin g (w.run roundRobin k).procCopy k).1 = (w.turnsFrom r (k + 1)).current := by
    intro k g hshows
    have hnext := hshows.roundRobin (turnsFrom_room w r k) (w.run roundRobin k).procCopy k
    rw [hasFinished_run, arrivals_run] at hnext
    exact hnext
  have hcontract := contract_of_sound sound_roundRobin w
  obtain ⟨hshows, hanswer⟩ := runFrom_follows (g := g.initQueues) hcontract
    (R := fun k g => Shows g (w.turnsFrom r k))
    ⟨Queue.holds_initQueue _, hleft.current, hleft.time⟩
    (fun k g hshows => (hcall k g hshows).1) hagree
  exact ⟨hshows, hanswer.trans (hcall k _ hshows).2⟩

theorem roundRobin_agree_iff (w : Workload) (hleft : Left g r) (last : ℕ) :
    (∀ k, k < last →
      (w.runFrom g.initQueues roundRobin k).choice roundRobin = w.choices roundRobin k) ↔
    ∀ k, k < last → (w.turnsFrom r (k + 1)).current = w.choices roundRobin k := by
  constructor
  · intro hagree k hk
    rw [← hagree k hk]
    exact (roundRobin_follows w hleft (fun j hj => hagree j (hj.trans hk))).2.symm
  · intro hturns k hk
    induction k using Nat.strong_induction_on with
    | h k ih =>
      rw [← hturns k hk]
      exact (roundRobin_follows w hleft (fun j hj => ih j hj (hj.trans hk))).2

/-- What such a run leaves behind. -/
theorem roundRobin_left (w : Workload) (hleft : Left g r)
    (hagree : ∀ k, k < last →
      (w.runFrom g.initQueues roundRobin k).choice roundRobin = w.choices roundRobin k) :
    Left (w.runFrom g.initQueues roundRobin last).globals (w.turnsFrom r last).running := by
  obtain ⟨hshows, -⟩ := roundRobin_follows w hleft hagree
  exact ⟨hshows.current, hshows.time⟩

/-- The last round of `round_robin` ends with the last process on the CPU. -/
theorem exists_finishing (h : EndsAt w .start roundRobin last) :
    ∃ m c used, last = m + 1 ∧ Finishing 50 w.arrivaltime w.runtime w.joining
      (w.choices roundRobin) w.turns m c used := by
  have hfinished := h.finished
  have hbefore := h.before
  simp only [← run_eq_runFrom] at hfinished hbefore
  obtain ⟨m, rfl⟩ : ∃ m, last = m + 1 := by
    apply Nat.exists_eq_succ_of_ne_zero
    rintro rfl
    have hzero : (w.run roundRobin 0).numFinished = 0 := rfl
    rw [hzero] at hfinished
    exact absurd hfinished (by decide)
  have hdone := (numFinished_iff sound_roundRobin w (m + 1)).mp hfinished
  have hnot : done w.runtime (w.choices roundRobin) m ≠ Finset.univ := fun hall =>
    absurd ((numFinished_iff sound_roundRobin w m).mpr hall)
      (not_le.mpr (hbefore m (Nat.lt_succ_self m)))
  obtain ⟨i, hi⟩ : ∃ i, i ∉ done w.runtime (w.choices roundRobin) m := by
    by_contra hall
    push Not at hall
    exact hnot (Finset.eq_univ_of_forall hall)
  rw [mem_done, not_le] at hi
  obtain ⟨c, used, hfinishing⟩ := (schedule_turns w).exists_finishing (by decide) w.runtime_pos
    ⟨i, hi⟩ (fun i => mem_done.mp (hdone ▸ Finset.mem_univ i))
  exact ⟨m, c, used, rfl, hfinishing⟩

end RoundRobin

/-- The rounds after which the first runs end, and who is on the CPU when that of `round_robin`
does. -/
structure FirstRuns (w : Workload) (last : Fin numSchedulers → ℕ) (m : ℕ) (c : Pid)
    (used : ℕ) : Prop
    extends Finishing 50 w.arrivaltime w.runtime w.joining (w.choices roundRobin) w.turns m c
      used where
  ends : ∀ n, EndsAt w .start (schedulers n).func (last n)
  last_roundRobin : last 2 = m + 1

theorem exists_firstRuns (w : Workload) : ∃ last m c used, FirstRuns w last m c used := by
  choose last hends using exists_endsAt w
  obtain ⟨m, c, used, hlast, hfinishing⟩ := exists_finishing (hends 2)
  exact ⟨last, m, c, used, hfinishing, hends, hlast⟩

namespace FirstRuns

variable {w : Workload} {g g' : Globals} {n : Fin numSchedulers} {rounds m used : ℕ} {c : Pid}
variable {last : Fin numSchedulers → ℕ} {r : Option (Pid × ℕ)}

theorem others (h : FirstRuns w last m c used) (hn : n ≠ 2) (hrounds : last n ≤ rounds)
    (hleft : Left g r) :
    ∃ g', w.runScheduler rounds g n = some (w.firstRun n (last n), g') ∧ Left g' r := by
  obtain ⟨-, hcurrent, htime⟩ := others_agree w g hn (last n)
  have hrun := runScheduler_of_agree rounds (h.ends n)
    (fun k _ => (others_agree w g hn k).1)
  exact ⟨_, hrun.trans (if_pos hrounds),
    hcurrent.trans hleft.current, htime.trans hleft.time⟩

/-- A run of `round_robin` whose turns are those of the first run. -/
theorem agreeing (h : FirstRuns w last m c used) (hrounds : last 2 ≤ rounds) (hleft : Left g r)
    (hturns : ∀ k, k < m + 1 → (w.turnsFrom r (k + 1)).current = w.choices roundRobin k)
    (hending : (w.turnsFrom r (m + 1)).running = some (c, used)) :
    ∃ g', w.runScheduler rounds g 2 = some (w.firstRun 2 (last 2), g') ∧
      Left g' (some (c, used)) := by
  have hagree := (roundRobin_agree_iff w hleft (m + 1)).mpr hturns
  rw [← h.last_roundRobin] at hagree
  have hleft' := roundRobin_left w hleft hagree
  rw [h.last_roundRobin, hending] at hleft'
  have hrun := runScheduler_of_agree rounds (h.ends 2) hagree
  rw [if_pos hrounds, h.last_roundRobin] at hrun
  rw [h.last_roundRobin]
  exact ⟨_, hrun, hleft'⟩

theorem first (h : FirstRuns w last m c used) (hrounds : last 2 ≤ rounds) (hleft : Left g none) :
    ∃ g', w.runScheduler rounds g 2 = some (w.firstRun 2 (last 2), g') ∧
      Left g' (some (c, used)) := by
  apply h.agreeing hrounds hleft
  · intro k _
    rw [turnsFrom_none, h.choice]
  · rw [turnsFrom_none, h.ending_running]

theorem again (h : FirstRuns w last m c used) (hrounds : last 2 ≤ rounds)
    (hleft : Left g (some (c, used))) {d : Pid} (hd : Seamless 50 w.arrivaltime w.runtime d) :
    ∃ g', w.runScheduler rounds g 2 = some (w.firstRun 2 (last 2), g') ∧
      Left g' (some (c, used)) := by
  have hleftover := leftover_turnsFrom w c used
  apply h.agreeing hrounds hleft
  · intro k hk
    exact (h.agree_iff hleftover).mpr ⟨d, hd⟩ k (Nat.le_of_lt_succ hk)
  · exact h.running_of_seamless hleftover hd

theorem seamless_of_again (h : FirstRuns w last m c used) (hleft : Left g (some (c, used)))
    (hrun : w.runScheduler rounds g 2 = some (w.firstRun 2 (last 2), g')) :
    ∃ d, Seamless 50 w.arrivaltime w.runtime d := by
  have hagree := (roundRobin_agree_iff w hleft (last 2)).mp
    (fun k hk => agree_of_runScheduler hrun hk)
  rw [h.last_roundRobin] at hagree
  exact (h.agree_iff (leftover_turnsFrom w c used)).mp
    (fun k hk => hagree k (Nat.lt_succ_of_le hk))

end FirstRuns

section Sequences

variable {w : Workload} {g g' : Globals} {n : Fin numSchedulers} {rounds m used : ℕ} {c : Pid}
variable {ns : List (Fin numSchedulers)} {record : RunRecord} {records : List RunRecord}
variable {last : Fin numSchedulers → ℕ} {r : Option (Pid × ℕ)}

theorem runSchedulers_cons_of_some (h : w.runScheduler rounds g n = some (record, g')) :
    w.runSchedulers rounds (n :: ns) g = some (record :: records) ↔
      w.runSchedulers rounds ns g' = some records := by
  simp only [Workload.runSchedulers, h, Option.map_eq_some_iff, List.cons.injEq, true_and,
    exists_eq_right]

theorem exists_of_runSchedulers_cons
    (h : w.runSchedulers rounds (n :: ns) g = some (record :: records)) :
    ∃ g', w.runScheduler rounds g n = some (record, g') := by
  rw [Workload.runSchedulers] at h
  split at h
  · cases h
  · rename_i r g' hrun
    obtain ⟨rest, -, hlist⟩ := Option.map_eq_some_iff.mp h
    obtain ⟨rfl, -⟩ := List.cons.inj hlist
    exact ⟨g', hrun⟩

/-- From static variables in their initial state, or left by a run of `round_robin`. -/
theorem FirstRuns.runSchedulers_iff (h : FirstRuns w last m c used)
    (ns : List (Fin numSchedulers)) (hrounds : ∀ n ∈ ns, last n ≤ rounds)
    (hr : r = none ∨ r = some (c, used)) (hleft : Left g r) :
    w.runSchedulers rounds ns g = some (ns.map (fun n => w.firstRun n (last n))) ↔
      r.toList.length + ns.count 2 ≤ 1 ∨ ∃ d, Seamless 50 w.arrivaltime w.runtime d := by
  induction ns generalizing g r with
  | nil =>
    refine ⟨fun _ => Or.inl ?_, fun _ => rfl⟩
    rcases hr with rfl | rfl
    · exact Nat.zero_le 1
    · exact le_rfl
  | cons n ns ih =>
    have hnow := hrounds n List.mem_cons_self
    have hrest := fun n hn => hrounds n (List.mem_cons_of_mem _ hn)
    rw [List.map_cons]
    by_cases hn : n = 2
    · subst hn
      have hcount : (2 :: ns).count 2 = ns.count 2 + 1 := List.count_cons_self
      rw [hcount]
      rcases hr with rfl | rfl
      · obtain ⟨g', hrun, hleft'⟩ := h.first hnow hleft
        rw [runSchedulers_cons_of_some hrun, ih hrest (Or.inr rfl) hleft']
        simp only [Option.toList_some, Option.toList_none, List.length_singleton, List.length_nil,
          Nat.zero_add, Nat.add_comm]
      · by_cases hseamless : ∃ d, Seamless 50 w.arrivaltime w.runtime d
        · obtain ⟨d, hd⟩ := hseamless
          obtain ⟨g', hrun, hleft'⟩ := h.again hnow hleft hd
          rw [runSchedulers_cons_of_some hrun, ih hrest (Or.inr rfl) hleft']
          exact ⟨fun _ => Or.inr ⟨d, hd⟩, fun _ => Or.inr ⟨d, hd⟩⟩
        · refine ⟨fun hruns => ?_, fun hor => ?_⟩
          · obtain ⟨g', hrun⟩ := exists_of_runSchedulers_cons hruns
            exact Or.inr (h.seamless_of_again hleft hrun)
          · have hle := hor.resolve_right hseamless
            rw [Option.toList_some, List.length_singleton] at hle
            omega
    · obtain ⟨g', hrun, hleft'⟩ := h.others hn hnow hleft
      rw [runSchedulers_cons_of_some hrun, ih hrest hr hleft', List.count_cons_of_ne hn]

theorem FirstRuns.forall₂_iff (h : FirstRuns w last m c used) (ns : List (Fin numSchedulers))
    (records : List RunRecord) :
    List.Forall₂ (fun n r => ∃ g, w.runScheduler rounds .boot n = some (r, g)) ns records ↔
      (∀ n ∈ ns, last n ≤ rounds) ∧ records = ns.map (fun n => w.firstRun n (last n)) := by
  have hone : ∀ n r, (∃ g, w.runScheduler rounds .boot n = some (r, g)) ↔
      last n ≤ rounds ∧ r = w.firstRun n (last n) := by
    intro n r
    rw [runScheduler_boot (h.ends n)]
    by_cases hle : last n ≤ rounds
    · rw [if_pos hle]
      constructor
      · rintro ⟨g, heq⟩
        cases heq
        exact ⟨hle, rfl⟩
      · rintro ⟨-, rfl⟩
        exact ⟨_, rfl⟩
    · rw [if_neg hle]
      exact ⟨fun ⟨g, heq⟩ => (nomatch heq), fun hand => absurd hand.1 hle⟩
  induction ns generalizing records with
  | nil => simp
  | cons n ns ih =>
    cases records with
    | nil => simp
    | cons r records =>
      have hrest := ih records
      rw [List.forall₂_cons, hone, List.forall_mem_cons, List.map_cons, List.cons.injEq]
      tauto

theorem FirstRuns.independent_cases (h : FirstRuns w last m c used)
    (ns : List (Fin numSchedulers)) :
    w.Independent ns ↔ ns.count 2 ≤ 1 ∨ ∃ d, Seamless 50 w.arrivaltime w.runtime d := by
  have hiff : ∀ rounds, (∀ n ∈ ns, last n ≤ rounds) →
      (w.runSchedulers rounds ns .boot = some (ns.map (fun n => w.firstRun n (last n))) ↔
        ns.count 2 ≤ 1 ∨ ∃ d, Seamless 50 w.arrivaltime w.runtime d) := by
    intro rounds hrounds
    have hboot := h.runSchedulers_iff ns hrounds (Or.inl rfl) (g := .boot) ⟨rfl, rfl⟩
    rw [Option.toList_none, List.length_nil, Nat.zero_add] at hboot
    exact hboot
  constructor
  · rintro ⟨rounds, records, hruns, hfirst⟩
    obtain ⟨hrounds, rfl⟩ := (h.forall₂_iff ns records).mp hfirst
    exact (hiff rounds hrounds).mp hruns
  · intro hcases
    have hrounds : ∀ n ∈ ns, last n ≤ Finset.univ.sup last :=
      fun n _ => Finset.le_sup (Finset.mem_univ n)
    exact ⟨_, _, (hiff _ hrounds).mpr hcases, (h.forall₂_iff ns _).mpr ⟨hrounds, rfl⟩⟩

end Sequences

/-- The runs of a sequence are independent if `round_robin` has one of them at most, or the process
it leaves on the CPU makes no difference; in no other case. -/
theorem independent_iff (w : Workload) (ns : List (Fin numSchedulers)) :
    w.Independent ns ↔ ns.count 2 ≤ 1 ∨ ∃ d, Seamless 50 w.arrivaltime w.runtime d := by
  obtain ⟨last, m, c, used, h⟩ := exists_firstRuns w
  exact h.independent_cases ns

/-- Every process of `staggered` needs less than a quantum, and a second run of `round_robin` is not
like the first. -/
theorem staggered_dependent : ¬staggered.Independent [2, 2] := by
  obtain ⟨last, m, c, used, h⟩ := exists_firstRuns staggered
  rw [h.independent_cases]
  rintro (hcount | ⟨d, hd⟩)
  · exact absurd hcount (by decide)
  · have hlt : d.val < 20 := d.isLt
    have hle := Nat.le_of_dvd (staggered.runtime_pos d) hd.whole
    change 50 ≤ 10 + d.val at hle
    omega

/-- `main` calls every scheduler once. -/
theorem main_independent (w : Workload) : w.Independent (List.finRange numSchedulers) := by
  obtain ⟨last, m, c, used, h⟩ := exists_firstRuns w
  exact (h.independent_cases _).mpr (Or.inl (by decide))

end CpreLabs.Lab4
