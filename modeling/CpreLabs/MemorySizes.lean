import CpreLabs.PhasePartition

/-!
# Memories of different sizes

A phase of `k` distinct pages costs a memory of `n` pages at least `k + 1 - n` misses, whatever it
gives up. The policy that gives up the page whose next reference is farthest away keeps in a larger
memory all that it keeps in a smaller one and that is referenced again.
-/
namespace CpreLabs.DemandPaging

variable {α : Type*} [DecidableEq α] {n m k f : ℕ} {p : α} {σ : List α} {M R U : Finset α}
  {step : List α → α → List α}

/-- The pages of the phase in which the string ends. -/
def lastPhase (k : ℕ) : Finset α → List α → Finset α
  | M, [] => M
  | M, p :: σ =>
    if p ∈ M then lastPhase k M σ
    else if M.card < k then lastPhase k (insert p M) σ
    else lastPhase k {p} σ

theorem phases_cons (k : ℕ) (M : Finset α) (p : α) (σ : List α) (hM : M.card ≤ k) :
    ((insert p M).card ≤ k ∧ newPhases k M (p :: σ) = newPhases k (insert p M) σ ∧
        lastPhase k M (p :: σ) = lastPhase k (insert p M) σ) ∨
      p ∉ M ∧ M.card = k ∧ newPhases k M (p :: σ) = newPhases k {p} σ + 1 ∧
        lastPhase k M (p :: σ) = lastPhase k {p} σ := by
  rw [newPhases, lastPhase]
  by_cases hp : p ∈ M
  · rw [if_pos hp, if_pos hp, Finset.insert_eq_of_mem hp]
    exact Or.inl ⟨hM, rfl, rfl⟩
  · rw [if_neg hp, if_neg hp]
    by_cases hroom : M.card < k
    · rw [if_pos hroom, if_pos hroom]
      refine Or.inl ⟨?_, rfl, rfl⟩
      rw [Finset.card_insert_of_notMem hp]
      exact hroom
    · rw [if_neg hroom, if_neg hroom]
      exact Or.inr ⟨hp, by omega, rfl, rfl⟩

/-- What is not in `U` misses, where `U` has the pages of the memory and of the phase. -/
theorem Serves.phases_le (h : Serves n R σ f) (hn : n ≤ k) (hk : 0 < k) (hM : M.card ≤ k)
    (hRU : R ⊆ U) (hMU : M ⊆ U) :
    (k + 1 - n) * newPhases k M σ + (lastPhase k M σ).card ≤ f + U.card := by
  induction h generalizing M U with
  | nil R =>
    rw [newPhases, lastPhase, Nat.mul_zero, Nat.zero_add, Nat.zero_add]
    exact Finset.card_le_card hMU
  | @cons R R' p σ f hload hrest ih =>
    rcases phases_cons k M p σ hM with ⟨hcard, hsame, hlast⟩ | ⟨hp, hfull, hnew, hlast⟩
    · have hle := ih hcard (hload.sub.trans (Finset.insert_subset_insert p hRU))
        (Finset.insert_subset_insert p hMU)
      have hcost : (insert p U).card ≤ U.card + cost R p := by
        rw [cost]
        split
        · rw [Finset.insert_eq_of_mem (hRU ‹p ∈ R›), Nat.add_zero]
        · exact Finset.card_insert_le p U
      rw [hsame, hlast]
      omega
    · have hle := ih (by rw [Finset.card_singleton]; exact hk) (Finset.Subset.refl R')
        (Finset.singleton_subset_iff.mpr hload.mem)
      -- a memory within `M` does not hold the page that begins the next phase
      have hcost : k + 1 ≤ U.card + cost R p := by
        have hle := Finset.card_le_card hMU
        rw [cost]
        split
        · have hlt : M.card < U.card := by
            apply Finset.card_lt_card
            exact Finset.ssubset_iff_subset_ne.mpr ⟨hMU, fun heq => hp (heq ▸ hRU ‹p ∈ R›)⟩
          omega
        · omega
      have hroom := hload.room
      rw [hnew, hlast, Nat.mul_succ]
      omega

/-- Every miss is another page at the front of the list. -/
theorem Conservative.faults_le_phases (h : Conservative k step) (hk : 0 < k) {l r : List α}
    (hl : l.Nodup) (hlM : ∀ x ∈ l, x ∈ M) (hM : M.card ≤ k) :
    listFaults step (l ++ r) σ + l.length ≤ k * newPhases k M σ + (lastPhase k M σ).card := by
  induction σ generalizing M l r with
  | nil =>
    rw [listFaults, newPhases, lastPhase, Nat.mul_zero, Nat.zero_add, Nat.zero_add]
    exact length_le_of_nodup hl hlM le_rfl
  | cons p σ ih =>
    rw [listFaults]
    rcases phases_cons k M p σ hM with ⟨hcard, hsame, hlast⟩ | ⟨-, -, hnew, hlast⟩
    · obtain ⟨l', r', hstep, hl', hlM', hlength⟩ := h.front (r := r) hl
        (fun x hx => Finset.mem_insert_of_mem (hlM x hx)) (Finset.mem_insert_self p M) hcard
      have hrest := ih (r := r') hl' hlM' hcard
      rw [hstep, hsame, hlast]
      omega
    · have hcard : ({p} : Finset α).card ≤ k := by
        rw [Finset.card_singleton]
        exact hk
      obtain ⟨l', r', hstep, hl', hlM', hlength⟩ := h.front (l := []) (r := l ++ r) List.nodup_nil
        (fun x hx => absurd hx List.not_mem_nil) (Finset.mem_singleton_self p) hcard
      have hrest := ih (r := r') hl' hlM' hcard
      have hroom := length_le_of_nodup hl hlM hM
      rw [List.nil_append] at hstep hlength
      rw [List.length_nil] at hlength
      rw [hstep, hnew, hlast, Nat.mul_succ]
      omega

/-- A conservative policy with `k` pages against any schedule with `n`. -/
theorem Conservative.augmented (h : Conservative k step) (hn : 0 < n) (hk : 0 < k)
    (hf : Serves n ∅ σ f) : (k + 1 - n) * listFaults step [] σ ≤ k * f := by
  rcases Nat.lt_or_ge k n with hlt | hle
  · rw [Nat.sub_eq_zero_of_le hlt, Nat.zero_mul]
    exact Nat.zero_le _
  · have honline := h.faults_le_phases (M := ∅) (σ := σ) (r := []) hk List.nodup_nil
      (fun x hx => absurd hx List.not_mem_nil) (Nat.zero_le k)
    have hoffline := hf.phases_le (M := ∅) hle hk (Nat.zero_le k) (Finset.Subset.refl ∅)
      (Finset.Subset.refl ∅)
    rw [List.nil_append, List.length_nil, Nat.add_zero] at honline
    rw [Finset.card_empty, Nat.add_zero] at hoffline
    calc (k + 1 - n) * listFaults step [] σ
        ≤ (k + 1 - n) * (k * newPhases k ∅ σ + (lastPhase k ∅ σ).card) :=
          Nat.mul_le_mul_left _ honline
      _ = k * ((k + 1 - n) * newPhases k ∅ σ) + (k + 1 - n) * (lastPhase k ∅ σ).card := by
          rw [Nat.mul_add, Nat.mul_left_comm]
      _ ≤ k * ((k + 1 - n) * newPhases k ∅ σ) + k * (lastPhase k ∅ σ).card :=
          Nat.add_le_add_left (Nat.mul_le_mul_right _ (by omega)) _
      _ = k * ((k + 1 - n) * newPhases k ∅ σ + (lastPhase k ∅ σ).card) :=
          (Nat.mul_add _ _ _).symm
      _ ≤ k * f := Nat.mul_le_mul_left k hoffline

/-- The pages that are not referenced any more. -/
def unused (σ : List α) (X : Finset α) : Finset α := X.filter (· ∉ σ)

variable {X A A' B B' : Finset α} {v : α}

theorem mem_unused {x : α} : x ∈ unused σ X ↔ x ∈ X ∧ x ∉ σ := Finset.mem_filter

theorem unused_cons_of_notMem (hp : p ∉ X) : unused (p :: σ) X = unused σ X := by
  apply Finset.filter_congr
  intro x hx
  rw [List.mem_cons, not_or]
  exact and_iff_right (fun heq => hp (heq ▸ hx))

theorem card_unused_insert (hp : p ∉ X) :
    (unused σ (insert p X)).card = (unused σ X).card + if p ∈ σ then 0 else 1 := by
  rw [unused, Finset.filter_insert]
  by_cases hmem : p ∈ σ
  · rw [if_neg (not_not_intro hmem), if_pos hmem]
    rfl
  · rw [if_pos hmem, if_neg hmem, Finset.card_insert_of_notMem]
    · rfl
    · exact fun h => hp (mem_unused.mp h).1

theorem card_unused_of_mem (hp : p ∈ X) :
    (unused σ X).card = (unused (p :: σ) X).card + if p ∈ σ then 0 else 1 := by
  have hnot : p ∉ X.erase p := Finset.notMem_erase p X
  have hrest : unused (p :: σ) X = unused σ (X.erase p) := by
    ext x
    rw [mem_unused, mem_unused, Finset.mem_erase, List.mem_cons, not_or]
    exact ⟨fun ⟨hx, hne, hσ⟩ => ⟨⟨hne, hx⟩, hσ⟩, fun ⟨⟨hne, hx⟩, hσ⟩ => ⟨hx, hne, hσ⟩⟩
  rw [hrest, ← card_unused_insert hnot, Finset.insert_erase hp]

/-- The page whose next reference is farthest away has none, if any page has none. -/
theorem unused_of_farthest (hv : v ∈ X) (hfar : ∀ u ∈ X, σ.idxOf u ≤ σ.idxOf v) :
    (unused σ (X.erase v)).card = (unused σ X).card - 1 ∧ (v ∈ σ → unused σ X = ∅) := by
  have hnone : v ∈ σ → unused σ X = ∅ := by
    intro hmem
    apply Finset.eq_empty_of_forall_notMem
    intro u hu
    obtain ⟨hu, hout⟩ := mem_unused.mp hu
    have hlt := List.idxOf_lt_length_of_mem hmem
    have hle := hfar u hu
    rw [List.idxOf_eq_length hout] at hle
    omega
  refine ⟨?_, hnone⟩
  have hinsert := card_unused_insert (σ := σ) (Finset.notMem_erase v X)
  rw [Finset.insert_erase hv] at hinsert
  by_cases hmem : v ∈ σ
  · rw [if_pos hmem] at hinsert
    rw [hnone hmem, Finset.card_empty] at hinsert ⊢
    omega
  · rw [if_neg hmem] at hinsert
    omega

/-- `B` holds what `A` holds and will be referenced, and is not behind in pages to give up; as long
as there is room in `A`, nothing has been given up. -/
structure Retains (n : ℕ) (σ : List α) (A B : Finset α) : Prop where
  live : ∀ x ∈ A, x ∈ σ → x ∈ B
  spare : (unused σ A).card ≤ (unused σ B).card
  room : A.card < n → B ⊆ A

theorem Retains.hit (h : Retains n (p :: σ) A B) (hp : p ∈ A) : Retains n σ A B := by
  refine ⟨fun x hx hσ => h.live x hx (List.mem_cons_of_mem p hσ), ?_, h.room⟩
  rw [card_unused_of_mem hp, card_unused_of_mem (h.live p hp List.mem_cons_self)]
  exact Nat.add_le_add_right h.spare _

theorem Retains.fill (h : Retains n (p :: σ) A B) (hroom : A.card < n) (hpA : p ∉ A) (hpB : p ∉ B) :
    Retains n σ (insert p A) (insert p B) := by
  have hspare := h.spare
  rw [unused_cons_of_notMem hpA, unused_cons_of_notMem hpB] at hspare
  refine ⟨fun x hx hσ => ?_, ?_, fun _ => Finset.insert_subset_insert p (h.room hroom)⟩
  · rcases Finset.mem_insert.mp hx with rfl | hx
    · exact Finset.mem_insert_self x B
    · exact Finset.mem_insert_of_mem (h.live x hx (List.mem_cons_of_mem p hσ))
  · rw [card_unused_insert hpA, card_unused_insert hpB]
    exact Nat.add_le_add_right hspare _

theorem Retains.evict (h : Retains n (p :: σ) A B) (hpA : p ∉ A) (hfull : A.card = n) (hv : v ∈ A)
    (hfar : ∀ u ∈ A, σ.idxOf u ≤ σ.idxOf v) (hB : Farthest m σ B p B') :
    Retains n σ (insert p (A.erase v)) B' := by
  have hpv : p ∉ A.erase v := fun hmem => hpA (Finset.mem_of_mem_erase hmem)
  have hspare := h.spare
  rw [unused_cons_of_notMem hpA] at hspare
  obtain ⟨herase, hnone⟩ := unused_of_farthest hv hfar
  have hcard : (insert p (A.erase v)).card = n := by
    rw [Finset.card_insert_of_notMem hpv, Finset.card_erase_add_one hv, hfull]
  have hlive : ∀ x ∈ A.erase v, x ∈ σ → x ∈ B := fun x hx hσ =>
    h.live x (Finset.mem_of_mem_erase hx) (List.mem_cons_of_mem p hσ)
  refine ⟨fun x hx hσ => ?_, ?_, fun hlt => absurd hlt (by omega)⟩
  · rcases Finset.mem_insert.mp hx with rfl | hx
    · cases hB with
      | hit hp => exact hp
      | room hp => exact Finset.mem_insert_self x B
      | evict hp hfull' hw hfar' => exact Finset.mem_insert_self x _
    · have hxB := hlive x hx hσ
      cases hB with
      | hit hp => exact hxB
      | room hp => exact Finset.mem_insert_of_mem hxB
      | @evict w hp hfull' hw hfar' =>
        apply Finset.mem_insert_of_mem
        apply Finset.mem_erase.mpr
        refine ⟨?_, hxB⟩
        intro hxw
        subst hxw
        -- nothing is spare in `B`, so nothing in `A`: then `v` is as far away as `x`, and is `x`
        have hempty : unused σ A = ∅ := by
          apply Finset.card_eq_zero.mp
          have hlast := (unused_of_farthest hw hfar').2 hσ
          rw [unused_cons_of_notMem hp, hlast, Finset.card_empty] at hspare
          omega
        have hvσ : v ∈ σ := by
          by_contra hout
          have hmem := mem_unused.mpr ⟨hv, hout⟩
          rw [hempty] at hmem
          exact Finset.notMem_empty v hmem
        have hvB := h.live v hv (List.mem_cons_of_mem p hvσ)
        have hle := hfar x (Finset.mem_of_mem_erase hx)
        have hle' := hfar' v hvB
        exact Finset.ne_of_mem_erase hx ((List.idxOf_inj hσ).mp (by omega))
  · rw [card_unused_insert hpv, herase]
    cases hB with
    | hit hp =>
      rw [card_unused_of_mem hp]
      omega
    | room hp =>
      rw [unused_cons_of_notMem hp] at hspare
      rw [card_unused_insert hp]
      omega
    | @evict w hp hfull' hw hfar' =>
      have hpw : p ∉ B.erase w := fun hmem => hp (Finset.mem_of_mem_erase hmem)
      rw [unused_cons_of_notMem hp] at hspare
      rw [card_unused_insert hpw, (unused_of_farthest hw hfar').1]
      omega

theorem Retains.next (h : Retains n (p :: σ) A B) (hnm : n ≤ m) (hA : Farthest n σ A p A')
    (hB : Farthest m σ B p B') (hroom : A'.card ≤ n) : Retains n σ A' B' := by
  cases hA with
  | hit hp =>
    have hpB := h.live p hp List.mem_cons_self
    cases hB with
    | hit _ => exact h.hit hp
    | room hout => exact absurd hpB hout
    | evict hout _ _ _ => exact absurd hpB hout
  | room hp =>
    rw [Finset.card_insert_of_notMem hp] at hroom
    have hsub := h.room hroom
    have hpB : p ∉ B := fun hmem => hp (hsub hmem)
    cases hB with
    | hit hin => exact absurd hin hpB
    | room _ => exact h.fill hroom hp hpB
    | evict _ hfull _ _ =>
      have hle := Finset.card_le_card hsub
      omega
  | evict hp hfull hv hfar => exact h.evict hp hfull hv hfar hB

end CpreLabs.DemandPaging
