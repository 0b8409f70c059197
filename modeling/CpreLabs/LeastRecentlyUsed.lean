import CpreLabs.OptimalReplacement

/-!
# `simulate_lru` keeps the most recently referenced pages

The frames that hold pages, in the order of `last_used`, are the list of the most recently
referenced pages, each in one frame.
-/
namespace CpreLabs.PageSim
open DemandPaging

variable {n : ℕ+} {refString : List ℤ} {i : ℕ} {page : ℤ} {frames lastUsed : Frames n}
  {js : List (Fin n)}

/-- The scan stops at an empty frame or ends at one with the least `last_used`. -/
theorem scanLru_spec (frames lastUsed : Frames n) (lruIdx : Fin n) (js : List (Fin n)) :
    frames (scanLru frames lastUsed lruIdx js) = -1 ∨
      (∀ j ∈ js, frames j ≠ -1) ∧
        ∀ j ∈ lruIdx :: js, lastUsed (scanLru frames lastUsed lruIdx js) ≤ lastUsed j := by
  induction js generalizing lruIdx with
  | nil =>
    refine Or.inr ⟨fun j hj => absurd hj List.not_mem_nil, fun j hj => ?_⟩
    rw [List.mem_singleton.mp hj]
    exact le_rfl
  | cons j js ih =>
    rw [scanLru]
    by_cases hempty : frames j = -1
    · rw [if_pos hempty]
      exact Or.inl hempty
    · rw [if_neg hempty]
      rcases ih (if lastUsed j < lastUsed lruIdx then j else lruIdx) with hfound | ⟨hall, hleast⟩
      · exact Or.inl hfound
      · refine Or.inr ⟨fun j' hj' => ?_, fun j' hj' => ?_⟩
        · rcases List.mem_cons.mp hj' with rfl | hj'
          · exact hempty
          · exact hall j' hj'
        · have hbest := hleast _ List.mem_cons_self
          rcases List.mem_cons.mp hj' with rfl | hj'
          · refine hbest.trans ?_
            split
            · exact le_of_lt ‹_›
            · exact le_rfl
          · rcases List.mem_cons.mp hj' with rfl | hj'
            · refine hbest.trans ?_
              split
              · exact le_rfl
              · exact not_lt.mp ‹_›
            · exact hleast j' (List.mem_cons_of_mem _ hj')

theorem finRange_eq_cons (n : ℕ+) : List.finRange n = 0 :: (List.finRange n).tail := by
  obtain ⟨m, rfl⟩ : ∃ m, n = Nat.succPNat m := ⟨n.natPred, (PNat.succPNat_natPred n).symm⟩
  have hsucc : List.finRange (m.succPNat : ℕ) = 0 :: (List.finRange m).map Fin.succ :=
    List.finRange_succ
  rw [hsucc]
  rfl

/-- The choice of `simulate_lru`: it evicts nothing unless all frames but the first are in use. -/
theorem lru_replace (refString : List ℤ) (i : ℕ) (frames lastUsed : Frames n) :
    frames ((lru n).replace refString i frames lastUsed).1 = -1 ∨
      (∀ j, j ≠ 0 → frames j ≠ -1) ∧
        ∀ j, lastUsed ((lru n).replace refString i frames lastUsed).1 ≤ lastUsed j := by
  have hmem : ∀ j : Fin n, j ∈ (0 : Fin n) :: (List.finRange n).tail := by
    intro j
    rw [← finRange_eq_cons]
    exact List.mem_finRange j
  rcases scanLru_spec frames lastUsed 0 (List.finRange n).tail with hempty | ⟨hall, hleast⟩
  · exact Or.inl hempty
  · refine Or.inr ⟨fun j hj => ?_, fun j => hleast j (hmem j)⟩
    exact hall j ((List.mem_cons.mp (hmem j)).resolve_left hj)

/-- `js` are the frames that hold pages, the one used last at the front. -/
structure Ranked (frames lastUsed : Frames n) (i : ℕ) (js : List (Fin n)) : Prop where
  mem : ∀ j, j ∈ js ↔ frames j ≠ -1
  latest : js.Pairwise (fun j j' => lastUsed j' < lastUsed j)
  used : ∀ j ∈ js, 0 ≤ lastUsed j ∧ lastUsed j < i
  unused : ∀ j, frames j = -1 → lastUsed j = -1

theorem Ranked.nodup (h : Ranked frames lastUsed i js) : js.Nodup :=
  h.latest.imp fun {j j'} hlt (heq : j = j') => absurd hlt (heq ▸ lt_irrefl _)

theorem Ranked.use (h : Ranked frames lastUsed i js) (idx : Fin n) (hpage : page ≠ -1) :
    Ranked (Function.update frames idx page) (Function.update lastUsed idx i) (i + 1)
      (idx :: js.erase idx) := by
  have hne : ∀ j ∈ js.erase idx, j ≠ idx := fun j hj heq => h.nodup.not_mem_erase (heq ▸ hj)
  have hother : ∀ j ∈ js.erase idx, Function.update lastUsed idx (i : ℤ) j = lastUsed j :=
    fun j hj => Function.update_of_ne (hne j hj) _ _
  constructor
  · intro j
    by_cases hj : j = idx
    · rw [hj, Function.update_self]
      exact ⟨fun _ => hpage, fun _ => List.mem_cons_self⟩
    · rw [Function.update_of_ne hj, ← h.mem j, List.mem_cons, List.mem_erase_of_ne hj]
      exact ⟨fun hor => hor.resolve_left hj, Or.inr⟩
  · refine List.pairwise_cons.mpr ⟨fun j hj => ?_, ?_⟩
    · rw [hother j hj, Function.update_self]
      exact (h.used j (List.mem_of_mem_erase hj)).2
    · refine (h.latest.sublist List.erase_sublist).imp_of_mem ?_
      intro j j' hj hj' hlt
      rw [hother j hj, hother j' hj']
      exact hlt
  · intro j hj
    rcases List.mem_cons.mp hj with rfl | hj
    · rw [Function.update_self]
      omega
    · have hused := h.used j (List.mem_of_mem_erase hj)
      rw [hother j hj]
      omega
  · intro j hj
    by_cases hji : j = idx
    · rw [hji, Function.update_self] at hj
      exact absurd hj hpage
    · rw [Function.update_of_ne hji] at hj ⊢
      exact h.unused j hj

theorem Ranked.map_use (h : Ranked frames lastUsed i js) (idx : Fin n) (page : ℤ) :
    (idx :: js.erase idx).map (Function.update frames idx page) =
      page :: (js.erase idx).map frames := by
  rw [List.map_cons, Function.update_self]
  congr 1
  apply List.map_congr_left
  intro j hj
  exact Function.update_of_ne (fun heq => h.nodup.not_mem_erase (heq ▸ hj)) _ _

theorem map_erase_of_nodup (frames : Frames n) {js : List (Fin n)} (h : (js.map frames).Nodup)
    {j : Fin n} (hj : j ∈ js) : (js.erase j).map frames = (js.map frames).erase (frames j) := by
  induction js with
  | nil => exact absurd hj List.not_mem_nil
  | cons x js ih =>
    rw [List.map_cons, List.nodup_cons] at h
    by_cases hx : x = j
    · rw [hx, List.erase_cons_head, List.map_cons, List.erase_cons_head]
    · have hmem : j ∈ js := (List.mem_cons.mp hj).resolve_left (Ne.symm hx)
      have hne : frames x ≠ frames j := fun heq => h.1 (heq ▸ List.mem_map_of_mem hmem)
      rw [List.erase_cons_tail (by simpa using hx), List.map_cons, List.map_cons,
        List.erase_cons_tail (by simpa using hne), ih h.2 hmem]

theorem erase_least {js : List (Fin n)} (h : js.Pairwise (fun j j' => lastUsed j' < lastUsed j))
    {idx : Fin n} (hidx : idx ∈ js) (hleast : ∀ j ∈ js, lastUsed idx ≤ lastUsed j) :
    js.erase idx = js.take (js.length - 1) := by
  induction js with
  | nil => exact absurd hidx List.not_mem_nil
  | cons x js ih =>
    rw [List.pairwise_cons] at h
    by_cases hx : x = idx
    · cases js with
      | nil => rw [hx, List.erase_cons_head]; rfl
      | cons y js =>
        have hlater := h.1 y List.mem_cons_self
        have hleast' := hleast y (List.mem_cons_of_mem _ List.mem_cons_self)
        rw [hx] at hlater
        exact absurd hlater (not_lt.mpr hleast')
    · have hmem : idx ∈ js := (List.mem_cons.mp hidx).resolve_left (Ne.symm hx)
      have hpos := List.length_pos_of_mem hmem
      have htake : (x :: js).length - 1 = (js.length - 1) + 1 := by
        rw [List.length_cons]
        omega
      rw [List.erase_cons_tail (by simpa using hx), htake, List.take_succ_cons,
        ih h.2 hmem fun j hj => hleast j (List.mem_cons_of_mem _ hj)]

/-- The frame to replace is empty, or none is and it was used least recently. -/
theorem Ranked.replace (h : Ranked frames lastUsed i js) (refString : List ℤ) :
    frames ((lru n).replace refString i frames lastUsed).1 = -1 ∨
      (∀ j, j ∈ js) ∧
        ∀ j, lastUsed ((lru n).replace refString i frames lastUsed).1 ≤ lastUsed j := by
  rcases lru_replace refString i frames lastUsed with hempty | ⟨-, hleast⟩
  · exact Or.inl hempty
  · by_cases hidx : frames ((lru n).replace refString i frames lastUsed).1 = -1
    · exact Or.inl hidx
    · refine Or.inr ⟨fun j => (h.mem j).mpr fun hj => ?_, hleast⟩
      have hused := h.used _ ((h.mem _).mpr hidx)
      have hle := hleast j
      rw [h.unused j hj] at hle
      omega

/-- The frames after `i` references hold the most recently referenced pages, in this order. -/
def Recent (n : ℕ+) (refString : List ℤ) (i : ℕ) (s : Simulation n (Frames n)) : Prop :=
  ∃ js, Ranked s.frames s.kept i js ∧ js.map s.frames = mostRecent n (refString.take i)

theorem Ranked.mem_map (h : Ranked frames lastUsed i js) (hpage : page ≠ -1) :
    page ∈ js.map frames ↔ ∃ j, frames j = page := by
  rw [List.mem_map]
  constructor
  · rintro ⟨j, -, hj⟩
    exact ⟨j, hj⟩
  · rintro ⟨j, hj⟩
    exact ⟨j, (h.mem j).mpr (hj.trans_ne hpage), hj⟩

theorem Ranked.hit (h : Ranked frames lastUsed i js) (hnodup : (js.map frames).Nodup) {j : Fin n}
    (hj : frames j ≠ -1) : Ranked frames (Function.update lastUsed j i) (i + 1) (j :: js.erase j) ∧
      (j :: js.erase j).map frames = lruStep n (js.map frames) (frames j) := by
  have hmem : j ∈ js := (h.mem j).mpr hj
  constructor
  · have huse := h.use j hj
    rw [Function.update_eq_self] at huse
    exact huse
  · rw [lruStep, if_pos (List.mem_map_of_mem hmem), List.map_cons,
      map_erase_of_nodup frames hnodup hmem]

/-- A page that is not found comes to the front, and if all frames hold pages the last is left
out. -/
theorem Ranked.miss (h : Ranked frames lastUsed i js) (hpage : page ≠ -1)
    (hnone : page ∉ js.map frames) {idx : Fin n}
    (hidx : frames idx = -1 ∨ (∀ j, j ∈ js) ∧ ∀ j, lastUsed idx ≤ lastUsed j) :
    Ranked (Function.update frames idx page) (Function.update lastUsed idx i) (i + 1)
        (idx :: js.erase idx) ∧
      (idx :: js.erase idx).map (Function.update frames idx page) =
        lruStep n (js.map frames) page := by
  refine ⟨h.use idx hpage, ?_⟩
  rw [h.map_use idx page, lruStep, if_neg hnone]
  rcases hidx with hempty | ⟨hall, hleast⟩
  · have hidx' : idx ∉ js := fun hin => (h.mem idx).mp hin hempty
    have hroom := (List.nodup_cons.mpr ⟨hidx', h.nodup⟩).length_le_card
    rw [Fintype.card_fin] at hroom
    rw [List.erase_of_not_mem hidx', List.take_of_length_le]
    rw [List.length_cons, List.length_map]
    exact hroom
  · have hfull : js.length = n := by
      have hset : js.toFinset = Finset.univ :=
        Finset.eq_univ_of_forall fun j => List.mem_toFinset.mpr (hall j)
      rw [← List.toFinset_card_of_nodup h.nodup, hset, Finset.card_univ, Fintype.card_fin]
    rw [erase_least h.latest (hall idx) fun j _ => hleast j, List.map_take, hfull,
      List.take_cons n.pos]

theorem recent_access {s : Simulation n (Frames n)} (hget : refString[i]? = some page)
    (hpage : page ≠ -1) (h : Recent n refString i s) :
    Recent n refString (i + 1) ((lru n).access refString s i page) := by
  obtain ⟨js, hjs, hlist⟩ := h
  have hnodup : (js.map s.frames).Nodup := hlist ▸ nodup_mostRecent
  rw [Recent, take_succ_eq hget, mostRecent_concat n.pos, ← hlist]
  cases hfind : findFrame s.frames page with
  | some j =>
    have hj := findFrame_some hfind
    rw [access_of_some hfind, ← hj]
    exact ⟨_, hjs.hit hnodup (hj.trans_ne hpage)⟩
  | none =>
    have hnot : page ∉ js.map s.frames := fun hin => by
      obtain ⟨j, hj⟩ := (hjs.mem_map hpage).mp hin
      exact findFrame_none hfind j hj
    rw [access_of_none hfind]
    exact ⟨_, hjs.miss hpage hnot (hjs.replace refString)⟩

theorem recent_after (hpages : ∀ page ∈ refString, page ≠ -1) (hi : i ≤ refString.length) :
    Recent n refString i ((lru n).after refString i) := by
  refine after_induction (P := Recent n refString) (lru n) refString ?_ ?_ hi
  · refine ⟨[], ⟨fun j => ?_, List.Pairwise.nil, fun j hj => absurd hj List.not_mem_nil,
      fun j _ => rfl⟩, ?_⟩
    · exact ⟨fun hj => absurd hj List.not_mem_nil, fun hne => absurd rfl hne⟩
    · exact List.take_nil.symm
  · intro i page s hget hs
    exact recent_access hget (hpages page (List.mem_of_getElem? hget)) hs

variable {s : Simulation n (Frames n)}

theorem Recent.mem_iff (h : Recent n refString i s) (hpage : page ≠ -1) :
    page ∈ mostRecent n (refString.take i) ↔ ∃ j, s.frames j = page := by
  obtain ⟨js, hjs, hlist⟩ := h
  rw [← hlist]
  exact hjs.mem_map hpage

theorem Recent.resident_eq (h : Recent n refString i s) :
    resident s.frames = (mostRecent n (refString.take i)).toFinset := by
  obtain ⟨js, hjs, hlist⟩ := h
  ext x
  rw [List.mem_toFinset, ← hlist, mem_resident]
  constructor
  · rintro ⟨hne, hx⟩
    exact (hjs.mem_map hne).mpr hx
  · intro hx
    obtain ⟨j, hj, rfl⟩ := List.mem_map.mp hx
    exact ⟨(hjs.mem j).mp hj, j, rfl⟩

theorem simulateLru_eq (hpages : ∀ page ∈ refString, page ≠ -1) :
    simulateLru refString n = listFaults (lruStep n) [] refString := by
  refine faults_eq_listFaults (lru n) hpages fun i hi page => ?_
  rw [listRun_lruStep n.pos, (recent_after hpages hi).resident_eq, List.mem_toFinset]

/-- After every reference the resident pages are the `n` most recently referenced ones, each in one
frame, and a reference faults when its page is not among them. With more frames at least the same
pages are resident and there are no more faults. -/
theorem simulateLru_refines_stack (hpages : ∀ page ∈ refString, 0 ≤ page) (n : ℕ+) :
    (∀ i ≤ refString.length,
      resident ((lru n).after refString i).frames = (mostRecent n (refString.take i)).toFinset ∧
      ∀ page ∈ mostRecent n (refString.take i),
        ∃! j, ((lru n).after refString i).frames j = page) ∧
    (∀ i page, refString[i]? = some page →
      (((lru n).simulate refString).printed[i]?).map StepLine.isFault =
        some (decide (page ∉ mostRecent n (refString.take i)))) ∧
    ∀ m, n < m →
      (∀ i ≤ refString.length, resident ((lru n).after refString i).frames ⊆
        resident ((lru m).after refString i).frames) ∧
      simulateLru refString m ≤ simulateLru refString n := by
  have hne : ∀ page ∈ refString, page ≠ -1 := fun page hmem => by
    have hnonneg := hpages page hmem
    omega
  refine ⟨fun i hi => ?_, fun i page hget => ?_, fun m hm => ⟨fun i hi => ?_, ?_⟩⟩
  · have hrecent := recent_after (n := n) hne hi
    refine ⟨hrecent.resident_eq, fun page hmem => ?_⟩
    apply (distinct_after (lru n) refString hi).existsUnique
    rw [hrecent.resident_eq]
    exact List.mem_toFinset.mpr hmem
  · have hi := (List.getElem?_eq_some_iff.mp hget).1
    have hrecent := recent_after (n := n) hne hi.le
    rw [printed_simulate (lru n) hget, Option.map_some]
    congr 1
    rw [decide_eq_decide, hrecent.mem_iff (hne page (List.mem_of_getElem? hget)), not_exists]
  · rw [(recent_after hne hi).resident_eq, (recent_after hne hi).resident_eq]
    intro x hx
    exact List.mem_toFinset.mpr (mostRecent_subset hm.le (List.mem_toFinset.mp hx))
  · rw [simulateLru_eq hne, simulateLru_eq hne]
    exact listFaults_lruStep_anti n.pos hm.le

/-- Two frames against three, where the first reference back finds its page in three only. -/
theorem simulateLru_inclusion :
    simulateLru [1, 2, 3, 1] 3 ≤ simulateLru [1, 2, 3, 1] 2 :=
  ((simulateLru_refines_stack (by decide) 2).2.2 3 (by decide)).2

end CpreLabs.PageSim
