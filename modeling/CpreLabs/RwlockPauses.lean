import CpreLabs.RwlockSerialization

/-!
# Holding a readers-writer lock for something else

To a code another operation is added that holds the lock in shared mode and leaves the memory
and the counters alone. What a thread does while it holds the lock so is not part of the code.
-/
namespace CpreLabs.Rwlock

variable {Op F H N O A : Type*}

/-- `none` is the operation that holds the lock, `false` its entry and `true` its end. -/
def Code.withPause [Zero N] (c : Code Op F H N O) :
    Code (Option Op) (F ⊕ Bool) H N (Option O) where
  reads
    | some op => c.reads op
    | none => true
  entry
    | some op => .inl (c.entry op)
    | none => .inr false
  step now f h f' h' d := match f, f' with
    | .inl f, .inl f' => c.step now f h f' h' d
    | .inr false, .inr true => h' = h ∧ d = 0
    | _, _ => False
  commits
    | .inl f => c.commits f
    | .inr b => !b
  result
    | .inl f => (c.result f).map some
    | .inr true => some none
    | .inr false => none

def pauseSpec [Zero N] (spec : Op → ℕ → A → Effect A N O) :
    Option Op → ℕ → A → Effect A N (Option O)
  | some op, now, a => ⟨some (spec op now a).result, (spec op now a).state, (spec op now a).added⟩
  | none, _, a => ⟨none, a, 0⟩

def PauseEarly (Early : Op → F → H → A → Prop) : Option Op → F ⊕ Bool → H → A → Prop
  | some op, .inl f, h, a => Early op f h a
  | none, .inr b, _, _ => b = false
  | _, _, _, _ => False

def PauseLate [Zero N] (Late : Op → F → H → A → O → N → Prop) :
    Option Op → F ⊕ Bool → H → A → Option O → N → Prop
  | some op, .inl f, h, a, some o, m => Late op f h a o m
  | none, .inr b, _, _, o, m => b = true ∧ o = none ∧ m = 0
  | _, _, _, _, _, _ => False

variable [AddCommGroup N] {c : Code Op F H N O} {spec : Op → ℕ → A → Effect A N O}
  {Rep : H → A → Prop} {Early : Op → F → H → A → Prop} {Late : Op → F → H → A → O → N → Prop}

theorem Correct.withPause (hc : Correct c spec Rep Early Late) :
    Correct c.withPause (pauseSpec spec) Rep (PauseEarly Early) (PauseLate Late) where
  reads_state op now a hr := by
    cases op with
    | some op => exact hc.reads_state op now a hr
    | none => rfl
  entry op h a hrep := by
    cases op with
    | some op => exact hc.entry op h a hrep
    | none => rfl
  early_step op f h a now f' h' d hrep hearly hf hstep := by
    cases op with
    | some op =>
      cases f with
      | inl f =>
        cases f' with
        | inl f' => exact hc.early_step op f h a now f' h' d hrep hearly hf hstep
        | inr b => exact hstep.elim
      | inr b => exact hearly.elim
    | none =>
      cases f with
      | inl f => exact hearly.elim
      | inr b =>
        obtain rfl : b = false := hearly
        cases hf
  commit_step op f h a now f' h' d hrep hearly hf hstep := by
    cases op with
    | some op =>
      cases f with
      | inl f =>
        cases f' with
        | inl f' => exact hc.commit_step op f h a now f' h' d hrep hearly hf hstep
        | inr b => exact hstep.elim
      | inr b => exact hearly.elim
    | none =>
      cases f with
      | inl f => exact hearly.elim
      | inr b =>
        obtain rfl : b = false := hearly
        cases f' with
        | inl f' => exact hstep.elim
        | inr b =>
          cases b with
          | false => exact hstep.elim
          | true => exact ⟨hstep.1, hstep.2, rfl, rfl, rfl⟩
  early_result op f h a hearly := by
    cases op with
    | some op =>
      cases f with
      | inl f => exact congrArg (Option.map some) (hc.early_result op f h a hearly)
      | inr b => exact hearly.elim
    | none =>
      cases f with
      | inl f => exact hearly.elim
      | inr b =>
        obtain rfl : b = false := hearly
        rfl
  late_commits op f h a o m hlate := by
    cases op with
    | some op =>
      cases f with
      | inl f =>
        cases o with
        | some o => exact hc.late_commits op f h a o m hlate
        | none => exact hlate.elim
      | inr b => exact hlate.elim
    | none =>
      cases f with
      | inl f => exact hlate.elim
      | inr b =>
        obtain ⟨rfl, -, -⟩ := hlate
        rfl
  late_step op f h a o m now f' h' d hlate hstep := by
    cases op with
    | some op =>
      cases f with
      | inl f =>
        cases o with
        | some o =>
          cases f' with
          | inl f' => exact hc.late_step op f h a o m now f' h' d hlate hstep
          | inr b => exact hstep.elim
        | none => exact hlate.elim
      | inr b => exact hlate.elim
    | none =>
      cases f with
      | inl f => exact hlate.elim
      | inr b =>
        obtain ⟨rfl, -, -⟩ := hlate
        exact hstep.elim
  late_result op f h a o m o' hlate hf := by
    cases op with
    | some op =>
      cases f with
      | inl f =>
        cases o with
        | some o =>
          obtain ⟨x, hx, rfl⟩ := Option.map_eq_some_iff.mp hf
          obtain ⟨rfl, hm, hrep⟩ := hc.late_result op f h a o m x hlate hx
          exact ⟨rfl, hm, hrep⟩
        | none => exact hlate.elim
      | inr b => exact hlate.elim
    | none =>
      cases f with
      | inl f => exact hlate.elim
      | inr b =>
        obtain ⟨rfl, rfl, hm⟩ := hlate
        cases hf
        exact ⟨rfl, hm, fun hr => by cases hr⟩

end CpreLabs.Rwlock
