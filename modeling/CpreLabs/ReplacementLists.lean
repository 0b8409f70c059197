import CpreLabs.DemandPaging
import Mathlib.Data.List.Dedup

/-!
# Replacement policies as lists

The memory is a list of the pages in it, the one that is given up last at its front. Least recently
used moves a page to the front at every reference, first in, first out leaves it where it is.
-/
namespace CpreLabs.DemandPaging

variable {α : Type*} [DecidableEq α] {n m : ℕ} {p : α} {q σ : List α}

def lruStep (n : ℕ) (q : List α) (p : α) : List α :=
  if p ∈ q then p :: q.erase p else (p :: q).take n

def fifoStep (n : ℕ) (q : List α) (p : α) : List α :=
  if p ∈ q then q else (p :: q).take n

/-- The memory after a string of references. -/
def listRun (step : List α → α → List α) (q σ : List α) : List α := σ.foldl step q

/-- The number of references that miss. -/
def listFaults (step : List α → α → List α) : List α → List α → ℕ
  | _, [] => 0
  | q, p :: σ => (if p ∈ q then 0 else 1) + listFaults step (step q p) σ

/-- At most `n` distinct pages, the most recently referenced ones, the latest at the front. -/
def mostRecent (n : ℕ) (σ : List α) : List α := σ.dedup.reverse.take n

variable {step : List α → α → List α}

omit [DecidableEq α] in
theorem listRun_concat : listRun step q (σ ++ [p]) = step (listRun step q σ) p := by
  rw [listRun, List.foldl_append]
  rfl

theorem listFaults_concat : listFaults step q (σ ++ [p]) =
    listFaults step q σ + if p ∈ listRun step q σ then 0 else 1 := by
  induction σ generalizing q with
  | nil => exact Nat.add_comm _ _
  | cons x σ ih =>
    rw [List.cons_append, listFaults, listFaults, ih, Nat.add_assoc]
    rfl

theorem nodup_mostRecent : (mostRecent n σ).Nodup :=
  (List.nodup_reverse.mpr σ.nodup_dedup).sublist (List.take_sublist n _)

theorem length_mostRecent_le : (mostRecent n σ).length ≤ n := List.length_take_le n _

/-- A smaller memory holds fewer of them. -/
theorem mostRecent_subset (h : n ≤ m) : mostRecent n σ ⊆ mostRecent m σ := by
  intro x hx
  rw [mostRecent, ← Nat.min_eq_left h, ← List.take_take] at hx
  exact List.mem_of_mem_take hx

theorem dedup_concat (σ : List α) (p : α) : (σ ++ [p]).dedup = σ.dedup.erase p ++ [p] := by
  induction σ with
  | nil => rfl
  | cons x σ ih =>
    rw [List.cons_append]
    by_cases hx : x ∈ σ
    · rw [List.dedup_cons_of_mem (List.mem_append_left _ hx), List.dedup_cons_of_mem hx, ih]
    · rw [List.dedup_cons_of_notMem hx]
      by_cases hp : x = p
      · subst hp
        rw [List.dedup_cons_of_mem (List.mem_append_right _ (List.mem_singleton_self x)), ih,
          List.erase_cons_head, List.erase_of_not_mem (mt List.mem_dedup.mp hx)]
      · have hnot : x ∉ σ ++ [p] := by
          rw [List.mem_append, List.mem_singleton]
          exact fun hor => hor.elim hx hp
        rw [List.dedup_cons_of_notMem hnot, ih, List.erase_cons_tail (by simpa using hp),
          List.cons_append]

/-- With room for one page less, it does not matter whether the last page is there when another one
is taken out. -/
theorem take_erase_take (n : ℕ) (q : List α) (p : α) :
    ((q.take (n + 1)).erase p).take n = (q.erase p).take n := by
  induction q generalizing n with
  | nil => rfl
  | cons x q ih =>
    by_cases hx : x = p
    · subst hx
      rw [List.take_succ_cons, List.erase_cons_head, List.erase_cons_head, List.take_take, min_self]
    · rw [List.take_succ_cons, List.erase_cons_tail (by simpa using hx),
        List.erase_cons_tail (by simpa using hx)]
      cases n with
      | zero => rfl
      | succ n => rw [List.take_succ_cons, List.take_succ_cons, ih]

theorem lruStep_eq (hq : q.length ≤ n) : lruStep n q p = (p :: q.erase p).take n := by
  unfold lruStep
  split
  · have hlength := List.length_erase_add_one ‹p ∈ q›
    rw [List.take_of_length_le]
    rw [List.length_cons]
    omega
  · rw [List.erase_of_not_mem ‹p ∉ q›]

/-- Least recently used keeps the most recently referenced pages. -/
theorem mostRecent_concat (hn : 0 < n) : mostRecent n (σ ++ [p]) = lruStep n (mostRecent n σ) p := by
  obtain ⟨n, rfl⟩ : ∃ k, n = k + 1 := ⟨n - 1, by omega⟩
  have hreverse : (σ.dedup.erase p).reverse = σ.dedup.reverse.erase p := by
    rw [σ.nodup_dedup.erase_eq_filter, (List.nodup_reverse.mpr σ.nodup_dedup).erase_eq_filter,
      List.filter_reverse]
  rw [lruStep_eq length_mostRecent_le, mostRecent, mostRecent, dedup_concat, List.reverse_append,
    List.reverse_singleton, List.singleton_append, List.take_succ_cons, List.take_succ_cons,
    take_erase_take, hreverse]

theorem listRun_lruStep (hn : 0 < n) : listRun (lruStep n) [] σ = mostRecent n σ := by
  induction σ using List.reverseRecOn with
  | nil => exact List.take_nil.symm
  | append_singleton σ p ih => rw [listRun_concat, ih, mostRecent_concat hn]

/-- With more room it misses no more often. -/
theorem listFaults_lruStep_anti (hn : 0 < n) (h : n ≤ m) :
    listFaults (lruStep m) [] σ ≤ listFaults (lruStep n) [] σ := by
  induction σ using List.reverseRecOn with
  | nil => exact le_rfl
  | append_singleton σ p ih =>
    rw [listFaults_concat, listFaults_concat, listRun_lruStep hn, listRun_lruStep (hn.trans_le h)]
    apply Nat.add_le_add ih
    by_cases hp : p ∈ mostRecent n σ
    · rw [if_pos hp, if_pos (mostRecent_subset h hp)]
    · rw [if_neg hp]
      split
      · exact Nat.zero_le 1
      · exact le_rfl

end CpreLabs.DemandPaging
