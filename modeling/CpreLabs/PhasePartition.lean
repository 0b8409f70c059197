import CpreLabs.ReplacementLists

/-!
# Phases, and how far a list policy is from the best schedule

A string falls into phases of at most `k` distinct pages. Every schedule with a memory of `k` pages
misses once for each, a policy that brings what misses to the front of its list at most `k` times.
-/
namespace CpreLabs.DemandPaging

variable {α : Type*} [DecidableEq α] {k : ℕ} {p : α} {q σ : List α} {M : Finset α}
  {step : List α → α → List α}

/-- How many phases of at most `k` distinct pages begin in the string, when `M` are the pages of the
phase it continues. -/
def newPhases (k : ℕ) : Finset α → List α → ℕ
  | _, [] => 0
  | M, p :: σ =>
    if p ∈ M then newPhases k M σ
    else if M.card < k then newPhases k (insert p M) σ
    else newPhases k {p} σ + 1

theorem newPhases_cons (k : ℕ) (M : Finset α) (p : α) (σ : List α) (hM : M.card ≤ k) :
    (insert p M).card ≤ k ∧ newPhases k M (p :: σ) = newPhases k (insert p M) σ ∨
      p ∉ M ∧ M.card = k ∧ newPhases k M (p :: σ) = newPhases k {p} σ + 1 := by
  rw [newPhases]
  by_cases hp : p ∈ M
  · rw [if_pos hp, Finset.insert_eq_of_mem hp]
    exact Or.inl ⟨hM, rfl⟩
  · rw [if_neg hp]
    by_cases hroom : M.card < k
    · rw [if_pos hroom]
      refine Or.inl ⟨?_, rfl⟩
      rw [Finset.card_insert_of_notMem hp]
      exact hroom
    · rw [if_neg hroom]
      exact Or.inr ⟨hp, by omega, rfl⟩

/-- Every schedule misses once for each new phase, except perhaps the first of them; that one it
misses as well if its memory is still within what it was when the phase before began. -/
theorem Serves.newPhases_le {R : Finset α} {f : ℕ} (h : Serves k R σ f) (hM : M.card ≤ k)
    (hk : 0 < k) :
    newPhases k M σ ≤ f + 1 ∧
      ∀ R₀, R ⊆ R₀ → M ⊆ R₀ → R₀.card ≤ k → newPhases k M σ ≤ f := by
  induction h generalizing M with
  | nil R => exact ⟨Nat.zero_le _, fun _ _ _ _ => Nat.zero_le _⟩
  | @cons R R' p σ f hload hrest ih =>
    rcases newPhases_cons k M p σ hM with ⟨hcard, hsame⟩ | ⟨hp, hfull, hnew⟩
    · obtain ⟨hcredit, htight⟩ := ih hcard
      rw [hsame]
      refine ⟨by omega, fun R₀ hR hMR hroom => ?_⟩
      rw [cost]
      split
      · have hpR : p ∈ R := ‹p ∈ R›
        have hR' : R' ⊆ R₀ := by
          rw [← Finset.insert_eq_of_mem hpR] at hR
          exact hload.sub.trans hR
        have hM' : insert p M ⊆ R₀ := Finset.insert_subset (hR hpR) hMR
        have hle := htight R₀ hR' hM' hroom
        omega
      · omega
    · obtain ⟨-, htight⟩ := ih (M := {p}) (by rw [Finset.card_singleton]; exact hk)
      have hle := htight R' (Finset.Subset.refl _) (Finset.singleton_subset_iff.mpr hload.mem)
        hload.room
      rw [hnew]
      refine ⟨by omega, fun R₀ hR hMR hroom => ?_⟩
      have hMR₀ : M = R₀ := Finset.eq_of_subset_of_card_le hMR (by omega)
      have hpR : p ∉ R := fun hmem => hp (hMR₀ ▸ hR hmem)
      rw [cost, if_neg hpR]
      omega

/-- A page that misses comes to the front of at most `k`; one that is there may stay or come to the
front. -/
structure Conservative (k : ℕ) (step : List α → α → List α) : Prop where
  miss : ∀ q p, p ∉ q → step q p = (p :: q).take k
  hit : ∀ q p, p ∈ q → step q p = q ∨ step q p = p :: q.erase p

theorem conservative_lruStep (k : ℕ) : Conservative k (lruStep (α := α) k) :=
  ⟨fun _ _ hp => if_neg hp, fun _ _ hp => Or.inr (if_pos hp)⟩

theorem conservative_fifoStep (k : ℕ) : Conservative k (fifoStep (α := α) k) :=
  ⟨fun _ _ hp => if_neg hp, fun _ _ hp => Or.inl (if_pos hp)⟩

theorem length_le_of_nodup {l : List α} (hl : l.Nodup) (hlM : ∀ x ∈ l, x ∈ M) (hM : M.card ≤ k) :
    l.length ≤ k := by
  rw [← List.toFinset_card_of_nodup hl]
  exact (Finset.card_le_card fun x hx => hlM x (List.mem_toFinset.mp hx)).trans hM

/-- The front of the list consists of distinct pages of the phase; every miss makes it longer. -/
theorem Conservative.front (h : Conservative k step) {l r : List α} (hl : l.Nodup)
    (hlM : ∀ x ∈ l, x ∈ M) (hp : p ∈ M) (hM : M.card ≤ k) :
    ∃ l' r', step (l ++ r) p = l' ++ r' ∧ l'.Nodup ∧ (∀ x ∈ l', x ∈ M) ∧
      l.length + (if p ∈ l ++ r then 0 else 1) ≤ l'.length := by
  by_cases hmem : p ∈ l ++ r
  · rw [if_pos hmem]
    rcases h.hit _ p hmem with hstay | hfront
    · exact ⟨l, r, hstay, hl, hlM, le_rfl⟩
    · by_cases hpl : p ∈ l
      · have hlength := List.length_erase_add_one hpl
        refine ⟨p :: l.erase p, r, ?_, ?_, ?_, ?_⟩
        · rw [hfront, List.erase_append_left _ hpl, List.cons_append]
        · exact List.nodup_cons.mpr ⟨hl.not_mem_erase, hl.erase p⟩
        · intro x hx
          rcases List.mem_cons.mp hx with rfl | hx
          · exact hp
          · exact hlM x (List.mem_of_mem_erase hx)
        · rw [List.length_cons]
          omega
      · refine ⟨p :: l, r.erase p, ?_, List.nodup_cons.mpr ⟨hpl, hl⟩, ?_, ?_⟩
        · rw [hfront, List.erase_append_right _ hpl, List.cons_append]
        · intro x hx
          exact (List.mem_cons.mp hx).elim (fun heq => heq ▸ hp) (hlM x)
        · rw [List.length_cons]
          omega
  · have hpl : p ∉ l := fun hpl => hmem (List.mem_append_left r hpl)
    have hnodup : (p :: l).Nodup := List.nodup_cons.mpr ⟨hpl, hl⟩
    have hsub : ∀ x ∈ p :: l, x ∈ M := fun x hx =>
      (List.mem_cons.mp hx).elim (fun heq => heq ▸ hp) (hlM x)
    have hlength : (p :: l).length ≤ k := length_le_of_nodup hnodup hsub hM
    refine ⟨p :: l, r.take (k - (p :: l).length), ?_, hnodup, hsub, ?_⟩
    · rw [h.miss _ p hmem, ← List.cons_append, List.take_append, List.take_of_length_le hlength]
    · rw [if_neg hmem, List.length_cons]

theorem Conservative.faults_le (h : Conservative k step) (hk : 0 < k) {l r : List α} (hl : l.Nodup)
    (hlM : ∀ x ∈ l, x ∈ M) (hM : M.card ≤ k) :
    listFaults step (l ++ r) σ ≤ k * newPhases k M σ + (k - l.length) := by
  induction σ generalizing M l r with
  | nil => exact Nat.zero_le _
  | cons p σ ih =>
    rw [listFaults]
    rcases newPhases_cons k M p σ hM with ⟨hcard, hsame⟩ | ⟨-, -, hnew⟩
    · obtain ⟨l', r', hstep, hl', hlM', hlength⟩ := h.front (r := r) hl
        (fun x hx => Finset.mem_insert_of_mem (hlM x hx)) (Finset.mem_insert_self p M) hcard
      have hrest := ih (r := r') hl' hlM' hcard
      have hroom := length_le_of_nodup hl' hlM' hcard
      rw [hstep, hsame]
      omega
    · have hcard : ({p} : Finset α).card ≤ k := by
        rw [Finset.card_singleton]
        exact hk
      obtain ⟨l', r', hstep, hl', hlM', hlength⟩ := h.front (l := []) (r := l ++ r) List.nodup_nil
        (fun x hx => absurd hx List.not_mem_nil) (Finset.mem_singleton_self p) hcard
      have hrest := ih (r := r') hl' hlM' hcard
      have hroom := length_le_of_nodup hl' hlM' hcard
      rw [List.nil_append] at hstep hlength
      rw [hstep, hnew, Nat.mul_succ]
      rw [List.length_nil] at hlength
      omega

/-- From an empty memory a conservative policy misses at most `k` times as often as any schedule. -/
theorem Conservative.competitive (h : Conservative k step) (hk : 0 < k) {f : ℕ}
    (hf : Serves k ∅ σ f) : listFaults step [] σ ≤ k * f := by
  cases hf with
  | nil => exact Nat.zero_le _
  | @cons _ R' p σ f hload hrest =>
    have hcard : ({p} : Finset α).card ≤ k := by
      rw [Finset.card_singleton]
      exact hk
    obtain ⟨l', r', hstep, hl', hlM', hlength⟩ := h.front (l := []) (r := []) List.nodup_nil
      (fun x hx => absurd hx List.not_mem_nil) (Finset.mem_singleton_self p) hcard
    have honline := h.faults_le (σ := σ) (r := r') hk hl' hlM' hcard
    have hoffline := (hrest.newPhases_le hcard hk).2 R' (Finset.Subset.refl _)
      (Finset.singleton_subset_iff.mpr hload.mem) hload.room
    have hscaled := Nat.mul_le_mul_left k hoffline
    have hroom := length_le_of_nodup hl' hlM' hcard
    rw [List.nil_append] at hstep
    rw [List.nil_append, List.length_nil] at hlength
    rw [listFaults, hstep, cost, if_neg (Finset.notMem_empty p), Nat.add_comm 1 f, Nat.mul_succ]
    omega

end CpreLabs.DemandPaging
