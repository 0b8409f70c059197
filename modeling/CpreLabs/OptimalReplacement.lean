import CpreLabs.PageSimulator

/-!
# Belady's policy is optimal

`simulate_opt` replaces a page whose next use is farthest away, and fills empty frames first, so
it has the fewest faults of all demand-paging schedules.
-/
namespace CpreLabs.PageSim
open DemandPaging

variable {n : ℕ+} {S : Type*}

theorem find_range' (before : List ℤ) (rest : List ℤ) (page : ℤ) :
    (List.range' before.length rest.length).find?
        (fun k => (before ++ rest)[k]? = some page) =
      if page ∈ rest then some (before.length + rest.idxOf page) else none := by
  induction rest generalizing before with
  | nil => rfl
  | cons x rest ih =>
    have hx : (before ++ x :: rest)[before.length]? = some x := by
      rw [List.getElem?_append_right le_rfl, Nat.sub_self, List.getElem?_cons_zero]
    have htail := ih (before ++ [x])
    rw [List.append_assoc, List.singleton_append, List.length_append, List.length_singleton]
      at htail
    rw [List.length_cons, List.range'_succ]
    by_cases hxp : x = page
    · subst hxp
      rw [List.find?_cons_of_pos (by simp), if_pos List.mem_cons_self,
        List.idxOf_cons_self, Nat.add_zero]
    · have hne : (before ++ x :: rest)[before.length]? ≠ some page := by
        rw [hx]
        exact fun heq => hxp (Option.some.inj heq)
      rw [List.find?_cons_of_neg (by simpa using hne), htail, List.idxOf_cons_ne _ hxp]
      by_cases hp : page ∈ rest
      · rw [if_pos hp, if_pos (List.mem_cons_of_mem x hp)]
        congr 1
        omega
      · rw [if_neg hp, if_neg]
        exact fun hmem => (List.mem_cons.mp hmem).elim (fun heq => hxp heq.symm) hp

variable {refString before rest : List ℤ} {i : ℕ} {page : ℤ}

theorem nextUse_eq (href : refString = before ++ page :: rest) (x : ℤ) :
    nextUse refString before.length x =
      if x ∈ rest then ((before.length + 1 + rest.idxOf x : ℕ) : ℤ) else 1000000 := by
  have hsplit : refString = (before ++ [page]) ++ rest := by
    rw [href, List.append_assoc, List.singleton_append]
  have hfind := find_range' (before ++ [page]) rest x
  rw [← hsplit, List.length_append, List.length_singleton] at hfind
  have hlen : refString.length - (before.length + 1) = rest.length := by
    rw [hsplit, List.length_append, List.length_append, List.length_singleton]
    omega
  rw [nextUse, hlen, hfind]
  by_cases hx : x ∈ rest
  · rw [if_pos hx, if_pos hx]
  · rw [if_neg hx, if_neg hx]

/-- The scan compares pages as their positions in the rest do: infinity is greater than any
position. -/
theorem idxOf_le_of_nextUse_le (href : refString = before ++ page :: rest)
    (hlen : refString.length ≤ maxRefLength) {x y : ℤ}
    (hle : nextUse refString before.length x ≤ nextUse refString before.length y) :
    rest.idxOf x ≤ rest.idxOf y := by
  rw [nextUse_eq href, nextUse_eq href] at hle
  by_cases hy : y ∈ rest
  · rw [if_pos hy] at hle
    have hybound := List.idxOf_lt_length_of_mem hy
    have hbound : before.length + 1 + rest.length ≤ maxRefLength := by
      rw [href, List.length_append, List.length_cons] at hlen
      omega
    by_cases hx : x ∈ rest
    · rw [if_pos hx] at hle
      omega
    · rw [if_neg hx] at hle
      have hmax : maxRefLength = 1000 := rfl
      omega
  · rw [List.idxOf_eq_length hy]
    exact List.idxOf_le_length

theorem scanFarthest_foldl (use : Fin n → ℤ) (js : List (Fin n)) (found : ℤ × Option (Fin n)) :
    let found' := js.foldl (scanFarthest use) found
    found.1 ≤ found'.1 ∧ (∀ j ∈ js, use j ≤ found'.1) ∧
      (found' = found ∨ ∃ j ∈ js, found' = (use j, some j)) := by
  induction js generalizing found with
  | nil => exact ⟨le_rfl, fun j hj => absurd hj List.not_mem_nil, Or.inl rfl⟩
  | cons j js ih =>
    obtain ⟨hle, hall, hfrom⟩ := ih (scanFarthest use found j)
    have hstep : found.1 ≤ (scanFarthest use found j).1 ∧ use j ≤ (scanFarthest use found j).1 ∧
        (scanFarthest use found j = found ∨ scanFarthest use found j = (use j, some j)) := by
      unfold scanFarthest
      split
      · exact ⟨le_of_lt ‹_›, le_rfl, Or.inr rfl⟩
      · exact ⟨le_rfl, not_lt.mp ‹_›, Or.inl rfl⟩
    refine ⟨hstep.1.trans hle, fun j' hj' => ?_, ?_⟩
    · rcases List.mem_cons.mp hj' with rfl | hj'
      · exact hstep.2.1.trans hle
      · exact hall j' hj'
    · rcases hfrom with hsame | ⟨j', hj', hnew⟩
      · rw [List.foldl_cons, hsame]
        rcases hstep.2.2 with hold | hnew
        · exact Or.inl hold
        · exact Or.inr ⟨j, List.mem_cons_self, hnew⟩
      · exact Or.inr ⟨j', List.mem_cons_of_mem j hj', hnew⟩

theorem nextUse_nonneg (refString : List ℤ) (i : ℕ) (x : ℤ) : 0 ≤ nextUse refString i x := by
  unfold nextUse
  split
  · exact Int.natCast_nonneg _
  · omega

/-- With an empty frame, `opt` chooses one. -/
theorem opt_replace_empty {frames : Frames n} {j : Fin n} (h : findFrame frames (-1) = some j)
    (kept : Unit) : frames ((opt n).replace refString i frames kept).1 = -1 := by
  simp only [opt, h]
  exact findFrame_some h

/-- With no empty frame, `opt` chooses a frame with the greatest next use. -/
theorem opt_replace_full {frames : Frames n} (hfull : findFrame frames (-1) = none) (j : Fin n) :
    nextUse refString i (frames j) ≤
      nextUse refString i (frames ((opt n).replace refString i frames ()).1) := by
  obtain ⟨-, hall, hfrom⟩ := scanFarthest_foldl (fun j => nextUse refString i (frames j))
    (List.finRange n) (-1, none)
  simp only [opt, hfull]
  rcases hfrom with hnone | ⟨j', -, hsome⟩
  · have hj := hall j (List.mem_finRange j)
    rw [hnone] at hj
    have hnonneg := nextUse_nonneg refString i (frames j)
    omega
  · have hj := hall j (List.mem_finRange j)
    rw [hsome] at hj ⊢
    exact hj

def Distinct (frames : Frames n) : Prop :=
  ∀ j j', frames j = frames j' → frames j = -1 ∨ j = j'

theorem Distinct.update {frames : Frames n} (h : Distinct frames) {idx : Fin n}
    (hnone : ∀ j, frames j ≠ page) : Distinct (Function.update frames idx page) := by
  intro j j' heq
  by_cases hj : j = idx <;> by_cases hj' : j' = idx
  · exact Or.inr (hj.trans hj'.symm)
  · rw [hj, Function.update_self, Function.update_of_ne hj'] at heq
    exact absurd heq.symm (hnone j')
  · rw [hj', Function.update_self, Function.update_of_ne hj] at heq
    exact absurd heq (hnone j)
  · rw [Function.update_of_ne hj, Function.update_of_ne hj'] at heq
    rw [Function.update_of_ne hj]
    exact h j j' heq

theorem Distinct.access {s : Simulation n S} (h : Distinct s.frames) (policy : Policy n S) :
    Distinct (policy.access refString s i page).frames := by
  rcases access_cases policy refString s i page with ⟨j, -, hframes, -⟩ | ⟨hnone, hframes, -⟩
  · rw [hframes]
    exact h
  · rw [hframes]
    exact h.update hnone

theorem distinct_after (policy : Policy n S) (refString : List ℤ) (hi : i ≤ refString.length) :
    Distinct (policy.after refString i).frames :=
  after_induction (P := fun _ s => Distinct s.frames) policy refString
    (fun _ _ _ => Or.inl rfl) (fun _ _ _ _ hs => hs.access policy) hi

/-- Each resident page is in one frame. -/
theorem Distinct.existsUnique {frames : Frames n} (h : Distinct frames)
    (hx : page ∈ resident frames) : ∃! j, frames j = page := by
  obtain ⟨hpage, j, hj⟩ := mem_resident.mp hx
  refine ⟨j, hj, fun j' hj' => ?_⟩
  exact (h j' j (hj'.trans hj.symm)).resolve_left (hj'.trans_ne hpage)

/-- Without an empty frame there are as many resident pages as frames. -/
theorem Distinct.card_resident {frames : Frames n} (h : Distinct frames)
    (hfull : ∀ j, frames j ≠ -1) : (resident frames).card = n := by
  have hinj : Function.Injective frames := fun j j' heq => (h j j' heq).resolve_left (hfull j)
  have hnot : (-1 : ℤ) ∉ Finset.univ.image frames := by
    intro hmem
    obtain ⟨j, -, hj⟩ := Finset.mem_image.mp hmem
    exact hfull j hj
  rw [resident, Finset.erase_eq_of_notMem hnot, Finset.card_image_of_injective _ hinj,
    Finset.card_fin]

/-- The page in the replaced frame is given up, no other. -/
theorem Distinct.resident_update {frames : Frames n} (h : Distinct frames) {idx : Fin n}
    (hpage : page ≠ -1) (hnone : ∀ j, frames j ≠ page) :
    resident (Function.update frames idx page) =
      insert page ((resident frames).erase (frames idx)) := by
  ext x
  simp only [mem_resident, Finset.mem_insert, Finset.mem_erase]
  constructor
  · rintro ⟨hne, j, hj⟩
    by_cases hji : j = idx
    · rw [hji, Function.update_self] at hj
      exact Or.inl hj.symm
    · rw [Function.update_of_ne hji] at hj
      refine Or.inr ⟨fun hx => hji ?_, hne, j, hj⟩
      exact (h j idx (hj.trans hx)).resolve_left (hj.trans_ne hne)
  · rintro (rfl | ⟨hx, hne, j, hj⟩)
    · exact ⟨hpage, idx, Function.update_self ..⟩
    · refine ⟨hne, j, ?_⟩
      rw [Function.update_of_ne, hj]
      rintro rfl
      exact hx hj.symm

theorem farthest_access {s : Simulation n Unit} (h : Distinct s.frames) (hpage : page ≠ -1)
    (href : refString = before ++ page :: rest) (hlen : refString.length ≤ maxRefLength) :
    Farthest n rest (resident s.frames) page
      (resident ((opt n).access refString s before.length page).frames) := by
  rcases access_cases (opt n) refString s before.length page with ⟨j, hj, hframes, -⟩ |
    ⟨hnone, hframes, -⟩
  · rw [hframes]
    exact .hit (mem_resident.mpr ⟨hpage, j, hj⟩)
  · have hnot : page ∉ resident s.frames := by
      intro hmem
      obtain ⟨-, j, hj⟩ := mem_resident.mp hmem
      exact hnone j hj
    rw [hframes, h.resident_update hpage hnone]
    cases hfull : findFrame s.frames (-1) with
    | some j =>
      have hidx : s.frames ((opt n).replace refString before.length s.frames s.kept).1 = -1 :=
        opt_replace_empty hfull s.kept
      have hempty : (-1 : ℤ) ∉ resident s.frames := fun hmem => (mem_resident.mp hmem).1 rfl
      rw [hidx, Finset.erase_eq_of_notMem hempty]
      exact .room hnot
    | none =>
      have hnone' := findFrame_none hfull
      refine .evict hnot (h.card_resident hnone') (mem_resident.mpr ⟨hnone' _, _, rfl⟩) ?_
      intro u hu
      obtain ⟨-, j, rfl⟩ := mem_resident.mp hu
      exact idxOf_le_of_nextUse_le href hlen (opt_replace_full hfull j)

theorem farthestServes_run {s : Simulation n Unit} (h : Distinct s.frames)
    (hpages : ∀ page ∈ rest, 0 ≤ page) (href : refString = before ++ rest)
    (hlen : refString.length ≤ maxRefLength) :
    ∃ f, ((opt n).run refString s before.length rest).faults = s.faults + f ∧
      FarthestServes n (resident s.frames) rest f := by
  induction rest generalizing s before with
  | nil => exact ⟨0, rfl, .nil _⟩
  | cons page rest ih =>
    have hpage : page ≠ -1 := by
      have hnonneg := hpages page List.mem_cons_self
      omega
    obtain ⟨-, hfaults⟩ := loads_access (opt n) refString s before.length hpage
    have hsplit : refString = (before ++ [page]) ++ rest := by
      rw [href, List.append_assoc, List.singleton_append]
    obtain ⟨f, hf, hserves⟩ := ih (h.access (opt n))
      (fun x hx => hpages x (List.mem_cons_of_mem _ hx)) hsplit
    rw [List.length_append, List.length_singleton] at hf
    refine ⟨cost (resident s.frames) page + f, ?_,
      .cons (farthest_access h hpage href hlen) hserves⟩
    rw [run_cons, hf, hfaults, Nat.add_assoc]

theorem farthestServes_simulateOpt (hpages : ∀ page ∈ refString, 0 ≤ page)
    (hlen : refString.length ≤ maxRefLength) :
    FarthestServes n ∅ refString (simulateOpt refString n) := by
  have hall : refString = [] ++ refString := rfl
  obtain ⟨f, hf, hserves⟩ := farthestServes_run (n := n) (s := ⟨fun _ => -1, (), 0, []⟩)
    (fun _ _ _ => Or.inl rfl) hpages hall hlen
  rw [resident_empty] at hserves
  have hfaults : simulateOpt refString n = f := hf.trans (Nat.zero_add f)
  rw [hfaults]
  exact hserves

/-- The least number of faults of any demand-paging schedule with as many frames or fewer. -/
theorem simulateOpt_isLeast (hpages : ∀ page ∈ refString, 0 ≤ page)
    (hlen : refString.length ≤ maxRefLength) :
    IsLeast {f | Serves n ∅ refString f} (simulateOpt refString n) ∧
      ∀ m ≤ n, (∀ f, Serves m ∅ refString f → simulateOpt refString n ≤ f) ∧
        simulateOpt refString n ≤ simulateFifo refString m ∧
        simulateOpt refString n ≤ simulateLru refString m := by
  have hopt := farthestServes_simulateOpt (n := n) hpages hlen
  have hleast : ∀ m ≤ n, ∀ f, Serves m ∅ refString f → simulateOpt refString n ≤ f :=
    fun m hm f hf => farthest_le hopt (hf.mono hm)
  refine ⟨⟨serves_simulate (opt n) hpages, fun f hf => hleast n le_rfl f hf⟩,
    fun m hm => ⟨hleast m hm, ?_, ?_⟩⟩
  · exact hleast m hm _ (serves_simulate (fifo m) hpages)
  · exact hleast m hm _ (serves_simulate (lru m) hpages)

theorem simulateOpt_isLeast_usage :
    IsLeast {f | Serves 3 ∅ ([7, 0, 1, 2, 0, 3, 0, 4, 2, 3, 0, 3, 2] : List ℤ) f} 7 := by
  have hpages : ∀ page ∈ ([7, 0, 1, 2, 0, 3, 0, 4, 2, 3, 0, 3, 2] : List ℤ), 0 ≤ page := by decide
  have hfaults : simulateOpt [7, 0, 1, 2, 0, 3, 0, 4, 2, 3, 0, 3, 2] 3 = 7 := by decide
  have hleast := (simulateOpt_isLeast (n := 3) hpages (by decide)).1
  rw [hfaults] at hleast
  exact hleast

end CpreLabs.PageSim
