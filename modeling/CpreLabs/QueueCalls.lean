import CpreLabs.WorkQueue

/-!
# The work queue as its callers see it

What the callers hand to `queue_enqueue` and what `queue_dequeue` returns to them, in the order in
which the calls give the mutex up, against the histories that the statements of the two functions
keep.
-/
namespace CpreLabs.WorkQueue
open Pthread RingBuffer

/-- The argument of the call of `queue_enqueue` a thread is in, the arguments of the calls that
have returned, and what the calls of `queue_dequeue` have returned. -/
structure Calls (T : Type*) where
  argument : T → ℤ
  enqueued : List ℤ
  returned : List ℤ

variable {T K : Type*} {capacity : ℕ+} {callers : T → K → Action T K}
  {a b : Config T Cond (Pc K) Shared} {c c' : Calls T}

/-- The points that a thread leaves in sight of the callers. -/
def Shows (callers : T → K → Action T K) (t : T) : Pc K → Prop
  | .caller k => ∃ fd k', callers t k = .enqueue fd k'
  | .enqUnlock _ | .deqUnlock _ _ => True
  | _ => False

/-- The argument that a point carries until it is stored. -/
def carried : Pc K → Option ℤ
  | .enqTest fd _ | .enqWait fd _ | .enqStore fd _ => some fd
  | _ => none

/-- The argument of a thread's call is the one that its program point carries. -/
def Calls.Carries (c : Calls T) (t : T) : Status Cond (Pc K) → Prop
  | .running l => ∀ fd, carried l = some fd → c.argument t = fd
  | .asleep cond l | .woken cond l =>
      resumesAt cond l ∧ ∀ fd, carried l = some fd → c.argument t = fd

theorem Calls.Carries.congr {t : T} {st : Status Cond (Pc K)} (h : c.Carries t st)
    (heq : c'.argument t = c.argument t) : c'.Carries t st := by
  cases st with
  | running l => exact fun fd hfd => heq.trans (h fd hfd)
  | asleep cond l => exact ⟨h.1, fun fd hfd => heq.trans (h.2 fd hfd)⟩
  | woken cond l => exact ⟨h.1, fun fd hfd => heq.trans (h.2 fd hfd)⟩

/-- What a thread has stored or taken in a call that it has not returned from. -/
def unreturned (argument : ℤ) : Pc K → List ℤ × List ℤ
  | .enqSignal _ | .enqUnlock _ => ([argument], [])
  | .deqSignal fd _ | .deqUnlock fd _ => ([], [fd])
  | _ => ([], [])

theorem unreturned_resumed {cond : Cond} {l : Pc K} (h : resumesAt cond l) (argument : ℤ) :
    unreturned argument l = ([], []) := by
  cases l with
  | enqTest fd k => rfl
  | deqTest k => rfl
  | _ => cases cond <;> exact h.elim

/-- What the owner of the mutex has not returned. -/
def Calls.pending (c : Calls T) (s : Config T Cond (Pc K) Shared) : List ℤ × List ℤ :=
  match s.owner with
  | none => ([], [])
  | some t => match s.status t with
    | .running l => unreturned (c.argument t) l
    | _ => ([], [])

theorem Calls.pending_of_free (c : Calls T) {s : Config T Cond (Pc K) Shared}
    (h : s.owner = none) : c.pending s = ([], []) := by
  simp [Calls.pending, h]

theorem Calls.pending_of_owner (c : Calls T) {s : Config T Cond (Pc K) Shared} {t : T} {l : Pc K}
    (howner : s.owner = some t) (ht : s.status t = .running l) :
    c.pending s = unreturned (c.argument t) l := by
  simp [Calls.pending, howner, ht]

/-- The results of `queue_dequeue` that are not its failure. -/
def connections (results : List ℤ) : List ℤ := results.filter (· ≠ -1)

/-- The calls that have returned account for the histories, up to what the owner of the mutex has
done in the call it is in. -/
def Calls.Accounts (c : Calls T) (s : Config T Cond (Pc K) Shared) : Prop :=
  s.shared.enqueued = c.enqueued ++ (c.pending s).1 ∧
    connections s.shared.dequeued = connections (c.returned ++ (c.pending s).2)

namespace Calls.Accounts

variable {t : T} {l n : Pc K}

theorem acquired (h : c.Accounts a) (ha : a.owner = none) (hb : b.owner = some t)
    (hn : b.status t = .running n) (hshared : b.shared = a.shared)
    (hlists : c'.enqueued = c.enqueued ∧ c'.returned = c.returned)
    (hnone : ∀ argument, unreturned argument n = ([], [])) : c'.Accounts b := by
  obtain ⟨henq, hdeq⟩ := h
  rw [c.pending_of_free ha] at henq hdeq
  unfold Calls.Accounts
  rw [c'.pending_of_owner hb hn, hnone, hshared, hlists.1, hlists.2]
  exact ⟨henq, hdeq⟩

theorem released (h : c.Accounts a) (ha : a.owner = some t) (hl : a.status t = .running l)
    (hb : b.owner = none) (hshared : b.shared = a.shared)
    (hlists : c'.enqueued = c.enqueued ++ (unreturned (c.argument t) l).1 ∧
      c'.returned = c.returned ++ (unreturned (c.argument t) l).2) : c'.Accounts b := by
  obtain ⟨henq, hdeq⟩ := h
  rw [c.pending_of_owner ha hl] at henq hdeq
  unfold Calls.Accounts
  rw [c'.pending_of_free hb, hshared, hlists.1, hlists.2, List.append_nil, List.append_nil]
  exact ⟨henq, hdeq⟩

theorem held (h : c.Accounts a) (ha : a.owner = some t) (hl : a.status t = .running l)
    (hb : b.owner = some t) (hn : b.status t = .running n) {stored taken : List ℤ}
    (henqueued : b.shared.enqueued = a.shared.enqueued ++ stored)
    (hdequeued : b.shared.dequeued = a.shared.dequeued ++ taken)
    (hstored : (unreturned (c.argument t) n).1 = (unreturned (c.argument t) l).1 ++ stored)
    (htaken : connections (unreturned (c.argument t) n).2 =
      connections ((unreturned (c.argument t) l).2 ++ taken)) : c.Accounts b := by
  obtain ⟨henq, hdeq⟩ := h
  rw [c.pending_of_owner ha hl] at henq hdeq
  unfold Calls.Accounts
  rw [c.pending_of_owner hb hn, henqueued, hdequeued, henq, hstored]
  refine ⟨List.append_assoc .., ?_⟩
  simp only [connections, List.filter_append] at hdeq htaken ⊢
  rw [hdeq, htaken, List.append_assoc]

theorem signalled (h : c.Accounts a) (ha : a.owner = some t) (hl : a.status t = .running l)
    (hb : b.owner = some t) (hn : b.status t = .running n) (hshared : b.shared = a.shared)
    (hsame : ∀ argument, unreturned argument n = unreturned argument l) : c.Accounts b := by
  have hpending : c.pending b = c.pending a := by
    rw [c.pending_of_owner hb hn, c.pending_of_owner ha hl, hsame]
  unfold Calls.Accounts
  rw [hpending, hshared]
  exact h

theorem without [DecidableEq T] (h : c.Accounts a) {st : Status Cond (Pc K)}
    (hfree : a.owner ≠ some t) (howner : b.owner = a.owner)
    (hstatus : b.status = Function.update a.status t st) (hshared : b.shared = a.shared) :
    c.Accounts b := by
  have hpending : c.pending b = c.pending a := by
    unfold Calls.pending
    rw [howner]
    cases hu : a.owner with
    | none => rfl
    | some u =>
      have hut : u ≠ t := by
        rintro rfl
        exact hfree hu
      simp only [hstatus, Function.update_of_ne hut]
  unfold Calls.Accounts
  rw [hpending, hshared]
  exact h

end Calls.Accounts

variable [DecidableEq T]

/-- What one step adds to the calls. -/
inductive Calls.Next (callers : T → K → Action T K) (a b : Config T Cond (Pc K) Shared)
    (c : Calls T) : Calls T → Prop
  | called {t k fd k'} (ha : a.status t = .running (.caller k))
      (hcall : callers t k = .enqueue fd k') (hb : b.status t ≠ a.status t) :
      Next callers a b c { c with argument := Function.update c.argument t fd }
  | enqueued {t k} (ha : a.status t = .running (.enqUnlock k))
      (hb : b.status t = .running (.caller k)) :
      Next callers a b c { c with enqueued := c.enqueued ++ [c.argument t] }
  | dequeued {t fd k} (ha : a.status t = .running (.deqUnlock fd k))
      (hb : b.status t = .running (.caller (k fd))) :
      Next callers a b c { c with returned := c.returned ++ [fd] }
  | silent (h : ∀ t l, a.status t = .running l → Shows callers t l → b.status t = a.status t) :
      Next callers a b c c

/-- The runs of the program together with their calls. -/
inductive Run (capacity : ℕ+) (callers : T → K → Action T K) (s : Config T Cond (Pc K) Shared) :
    Config T Cond (Pc K) Shared → Calls T → Prop
  | refl : Run capacity callers s s ⟨fun _ => 0, [], []⟩
  | step {a b : Config T Cond (Pc K) Shared} {c c' : Calls T} (h : Run capacity callers s a c)
      (hstep : Step (program capacity callers) a b) (hcalls : c.Next callers a b c') :
      Run capacity callers s b c'

theorem exists_next (hstep : Step (program capacity callers) a b) (c : Calls T) :
    ∃ c', c.Next callers a b c' := by
  by_cases hsilent : ∀ t l, a.status t = .running l → Shows callers t l → b.status t = a.status t
  · exact ⟨c, .silent hsilent⟩
  · push Not at hsilent
    obtain ⟨t, l, ha, hshows, hb⟩ := hsilent
    cases l with
    | caller k =>
      obtain ⟨fd, k', hcall⟩ := hshows
      exact ⟨_, .called ha hcall hb⟩
    | enqUnlock k => exact ⟨_, .enqueued ha (hstep.ran ha hb).1⟩
    | deqUnlock fd k => exact ⟨_, .dequeued ha (hstep.ran ha hb).1⟩
    | _ => exact hshows.elim

theorem exists_run {s s' : Config T Cond (Pc K) Shared}
    (h : Reachable (program capacity callers) s s') : ∃ c, Run capacity callers s s' c := by
  induction h with
  | refl => exact ⟨_, .refl⟩
  | tail _ hstep ih =>
    obtain ⟨c, hrun⟩ := ih
    obtain ⟨c', hcalls⟩ := exists_next hstep c
    exact ⟨c', hrun.step hstep hcalls⟩

/-- What the execution of the instruction at `l` by `t` adds to the calls. -/
def Calls.after (callers : T → K → Action T K) (t : T) (c : Calls T) : Pc K → Calls T
  | .caller k => match callers t k with
    | .enqueue fd _ => { c with argument := Function.update c.argument t fd }
    | _ => c
  | .enqUnlock _ => { c with enqueued := c.enqueued ++ [c.argument t] }
  | .deqUnlock fd _ => { c with returned := c.returned ++ [fd] }
  | _ => c

theorem Calls.after_eq_self (c : Calls T) {t : T} {l : Pc K} (h : ¬Shows callers t l) :
    c.after callers t l = c := by
  cases l with
  | caller k =>
    cases hcall : callers t k with
    | enqueue fd k' => exact absurd ⟨fd, k', hcall⟩ h
    | _ => simp [Calls.after, hcall]
  | enqUnlock k => exact absurd trivial h
  | deqUnlock fd k => exact absurd trivial h
  | _ => rfl

namespace Calls.Next

theorem eq_after (h : c.Next callers a b c') {t : T} {l : Pc K} (ha : a.status t = .running l)
    (hb : Shows callers t l → b.status t ≠ a.status t)
    (hothers : ∀ u l', u ≠ t → a.status u = .running l' → b.status u = a.status u) :
    c' = c.after callers t l := by
  cases h with
  | @called u k fd k' hu hcall hmoved =>
    obtain rfl : u = t := by
      by_contra hne
      exact hmoved (hothers u _ hne hu)
    rw [ha] at hu
    cases hu
    simp only [Calls.after, hcall]
  | @enqueued u k hu hreturn =>
    obtain rfl : u = t := by
      by_contra hne
      rw [hothers u _ hne hu, hu] at hreturn
      cases hreturn
    rw [ha] at hu
    cases hu
    rfl
  | @dequeued u fd k hu hreturn =>
    obtain rfl : u = t := by
      by_contra hne
      rw [hothers u _ hne hu, hu] at hreturn
      cases hreturn
    rw [ha] at hu
    cases hu
    rfl
  | silent hsilent =>
    exact (c.after_eq_self (fun hshows => hb hshows (hsilent t l ha hshows))).symm

theorem eq_self (h : c.Next callers a b c')
    (hrest : ∀ u l, a.status u = .running l → b.status u = a.status u) : c' = c := by
  cases h with
  | called hu hcall hmoved => exact absurd (hrest _ _ hu) hmoved
  | enqueued hu hreturn =>
    rw [hrest _ _ hu, hu] at hreturn
    cases hreturn
  | dequeued hu hreturn =>
    rw [hrest _ _ hu, hu] at hreturn
    cases hreturn
  | silent => rfl

theorem argument_eq (h : c.Next callers a b c') {u : T}
    (hu : ∀ k, a.status u = .running (.caller k) → b.status u = a.status u) :
    c'.argument u = c.argument u := by
  cases h with
  | @called t k fd k' ha hcall hmoved =>
    refine Function.update_of_ne ?_ ..
    rintro rfl
    exact hmoved (hu k ha)
  | _ => rfl

end Calls.Next

theorem Calls.Carries.ran {t : T} {l : Pc K} (h : c.Carries t (.running l))
    (ha : a.status t = .running l) (hmoved : b.status t ≠ a.status t)
    (hstep : Step (program capacity callers) a b) (hcalls : c.Next callers a b c') :
    c'.Carries t (b.status t) := by
  have hres := hstep.ran ha hmoved
  have hothers : ∀ u l', u ≠ t → a.status u = .running l' → b.status u = a.status u :=
    fun u l' hne hu => (hstep.same_or hne hu ha).resolve_right hmoved
  obtain rfl := hcalls.eq_after ha (fun _ => hmoved) hothers
  cases l with
  | caller k =>
    simp only [program, instr, Calls.after] at hres ⊢
    cases hcall : callers t k with
    | enqueue fd k' =>
      rw [hcall] at hres
      rw [hres.1]
      rintro fd' ⟨⟩
      exact Function.update_self ..
    | choose ok =>
      rw [hcall] at hres
      obtain ⟨l', hok, hst, -⟩ := hres
      rw [hst]
      cases l' with
      | caller k' => exact fun fd hfd => by cases hfd
      | _ => cases hok
    | halt =>
      rw [hcall] at hres
      exact hres.elim
    | _ =>
      rw [hcall] at hres
      rw [hres.1]
      exact fun fd hfd => by cases hfd
  | enqTest fd k =>
    rw [hres.1]
    dsimp only
    split
    · exact h
    · exact h
  | enqWait fd k =>
    rw [hres.1]
    exact ⟨trivial, h⟩
  | deqWait k =>
    rw [hres.1]
    exact ⟨trivial, h⟩
  | deqTest k =>
    rw [hres.1]
    dsimp only
    split
    · exact h
    · exact h
  | deqCheck k =>
    rw [hres.1]
    dsimp only
    split
    · exact h
    · exact h
  | _ =>
    rw [hres.1]
    exact fun fd hfd => by cases hfd

theorem Calls.Carries.step (h : ∀ t, c.Carries t (a.status t))
    (hstep : Step (program capacity callers) a b) (hcalls : c.Next callers a b c') (t : T) :
    c'.Carries t (b.status t) := by
  have ht := h t
  by_cases hmoved : b.status t = a.status t
  · rw [hmoved]
    exact ht.congr (hcalls.argument_eq (fun _ _ => hmoved))
  · rcases hstep.thread_cases t with hsame | ⟨cond, l, ha, hb, -⟩ | ⟨cond, l, ha, hb, -⟩ |
      ⟨l, ha, -⟩
    · exact absurd hsame hmoved
    · have hwoken : c.Carries t (.woken cond l) := by rwa [ha] at ht
      rw [hb]
      exact hwoken.congr (hcalls.argument_eq (fun k hk => by rw [ha] at hk; cases hk))
    · have hresumed : c.Carries t (.running l) := by
        rw [ha] at ht
        exact ht.2
      rw [hb]
      exact hresumed.congr (hcalls.argument_eq (fun k hk => by rw [ha] at hk; cases hk))
    · rw [ha] at ht
      exact ht.ran ha hmoved hstep hcalls

/-- What an instruction at `l` does to the calls, and to what its thread has not returned. -/
def Traced (callers : T → K → Action T K) (t : T) (l : Pc K) :
    Instr T Cond (Pc K) Shared → Prop
  | .lock n => (∀ argument, unreturned argument n = ([], [])) ∧ ∀ c : Calls T,
      (c.after callers t l).enqueued = c.enqueued ∧ (c.after callers t l).returned = c.returned
  | .unlock _ => ∀ c : Calls T,
      (c.after callers t l).enqueued = c.enqueued ++ (unreturned (c.argument t) l).1 ∧
        (c.after callers t l).returned = c.returned ++ (unreturned (c.argument t) l).2
  | .wait _ _ => ¬Shows callers t l ∧ ∀ argument, unreturned argument l = ([], [])
  | .signal _ n | .broadcast _ n => ¬Shows callers t l ∧ inside l = true ∧
      ∀ argument, unreturned argument n = unreturned argument l
  | .join _ _ | .choose _ => ¬Shows callers t l ∧ inside l = false
  | .exec f => ¬Shows callers t l ∧ (inside l = false → ∀ v, (f v).2 = v) ∧
      ∀ c : Calls T, c.Carries t (.running l) → ∀ v, ∃ stored taken,
        (f v).2.enqueued = v.enqueued ++ stored ∧ (f v).2.dequeued = v.dequeued ++ taken ∧
        (unreturned (c.argument t) (f v).1).1 = (unreturned (c.argument t) l).1 ++ stored ∧
        connections (unreturned (c.argument t) (f v).1).2 =
          connections ((unreturned (c.argument t) l).2 ++ taken)
  | .halt => True

theorem traced_caller (t : T) (k : K) :
    Traced callers t (.caller k) ((program capacity callers).instr t (.caller k)) := by
  have hno : (∀ fd k', callers t k ≠ .enqueue fd k') → ¬Shows callers t (.caller k) :=
    fun h ⟨fd, k', hcall⟩ => h fd k' hcall
  have hafter : ∀ c : Calls T, (c.after callers t (.caller k)).enqueued = c.enqueued ∧
      (c.after callers t (.caller k)).returned = c.returned := by
    intro c
    simp only [Calls.after]
    cases callers t k <;> exact ⟨rfl, rfl⟩
  simp only [program, instr]
  cases hcall : callers t k with
  | enqueue fd k' => exact ⟨fun _ => rfl, hafter⟩
  | dequeue k' => exact ⟨fun _ => rfl, hafter⟩
  | broadcast k' => exact ⟨fun _ => rfl, hafter⟩
  | testShutdown set clear =>
    exact ⟨hno (by simp [hcall]), fun _ v => rfl, fun c _ v => ⟨[], [], by simp [unreturned]⟩⟩
  | choose ok => exact ⟨hno (by simp [hcall]), rfl⟩
  | join u k' => exact ⟨hno (by simp [hcall]), rfl⟩
  | halt => trivial

theorem traced (t : T) (l : Pc K) : Traced callers t l ((program capacity callers).instr t l) := by
  cases l with
  | caller k => exact traced_caller t k
  | enqTest fd k =>
    refine ⟨id, by simp [inside], fun c _ v => ⟨[], [], ?_⟩⟩
    by_cases hfull : v.queue.count = capacity
    · simp [unreturned, hfull]
    · simp [unreturned, hfull]
  | enqWait fd k => exact ⟨id, fun _ => rfl⟩
  | enqStore fd k =>
    refine ⟨id, by simp [inside], fun c hc v => ⟨[fd], [], rfl, (List.append_nil _).symm, ?_, rfl⟩⟩
    simp [unreturned, hc fd rfl]
  | enqSignal k => exact ⟨id, rfl, fun _ => rfl⟩
  | enqUnlock k => exact fun c => ⟨rfl, (List.append_nil _).symm⟩
  | deqTest k =>
    refine ⟨id, by simp [inside], fun c _ v => ⟨[], [], ?_⟩⟩
    by_cases hempty : v.queue.count = 0 ∧ v.gShutdown = false
    · simp [unreturned, hempty]
    · simp [unreturned, hempty]
  | deqWait k => exact ⟨id, fun _ => rfl⟩
  | deqCheck k =>
    refine ⟨id, by simp [inside], fun c _ v => ⟨[], [], ?_⟩⟩
    by_cases hend : v.queue.count = 0 ∧ v.gShutdown = true
    · simp [unreturned, hend, connections]
    · simp [unreturned, hend]
  | deqTake k =>
    exact ⟨id, by simp [inside], fun c _ v =>
      ⟨[], [v.queue.fds v.queue.head], (List.append_nil _).symm, rfl, rfl, rfl⟩⟩
  | deqSignal fd k => exact ⟨id, rfl, fun _ => rfl⟩
  | deqUnlock fd k => exact fun c => ⟨(List.append_nil _).symm, rfl⟩
  | broadcast k => exact ⟨id, rfl, fun _ => rfl⟩
  | broadcastUnlock k => exact fun c => ⟨(List.append_nil _).symm, (List.append_nil _).symm⟩

theorem Traced.of_instr {t : T} {l : Pc K} {i : Instr T Cond (Pc K) Shared}
    (hi : (program capacity callers).instr t l = i) : Traced callers t l i :=
  hi ▸ traced t l

theorem Calls.Accounts.step (h : c.Accounts a) (hcarries : ∀ t, c.Carries t (a.status t))
    (howned : Owned inside a) (hstep : Step (program capacity callers) a b)
    (hcalls : c.Next callers a b c') : c'.Accounts b := by
  have hself : ∀ {t : T} {l : Pc K}, a.status t = .running l → ¬Shows callers t l →
      (∀ u l', u ≠ t → a.status u = .running l' → b.status u = a.status u) → c' = c :=
    fun ha hno hothers => (hcalls.eq_after ha (fun hl => absurd hl hno) hothers).trans
      (Calls.after_eq_self _ hno)
  have hcross : ∀ {t : T} {l n : Pc K}, a.status t = .running l → b.status t = .running n →
      inside l ≠ inside n → b.status t ≠ a.status t := by
    intro t l n ha hb hne heq
    rw [ha, hb] at heq
    cases heq
    exact hne rfl
  have hfree : ∀ {t : T} {l : Pc K}, a.status t = .running l → inside l = false →
      a.owner ≠ some t := by
    intro t l ha hl ho
    rw [(howned.owner_iff ha).mpr ho] at hl
    cases hl
  cases hstep with
  | @lock t l n hs hi hnobody =>
    obtain ⟨hnone, hlists⟩ := Traced.of_instr hi
    have hsides := (bracketed capacity callers).of_instr hi
    have hmoved := hcross (n := n) hs (Config.goto_self ..) (by simp [hsides.1, hsides.2])
    obtain rfl := hcalls.eq_after hs (fun _ => hmoved) (fun u _ hne _ => Config.goto_of_ne hne)
    exact h.acquired hnobody rfl (Config.goto_self ..) rfl (hlists c) hnone
  | @unlock t l n hs hi howner =>
    have hsides := (bracketed capacity callers).of_instr hi
    have hmoved := hcross (n := n) hs (Config.goto_self ..) (by simp [hsides.1, hsides.2])
    obtain rfl := hcalls.eq_after hs (fun _ => hmoved) (fun u _ hne _ => Config.goto_of_ne hne)
    exact h.released howner hs rfl rfl (Traced.of_instr hi c)
  | @wait t l cond n hs hi howner =>
    obtain ⟨hno, hnone⟩ := Traced.of_instr hi
    obtain rfl := hself hs hno (fun u _ hne _ => Function.update_of_ne hne ..)
    refine h.released howner hs rfl rfl ?_
    rw [hnone, List.append_nil, List.append_nil]
    exact ⟨rfl, rfl⟩
  | @signalNone t l cond n hs hi hquiet =>
    obtain ⟨hno, hl, hsame⟩ := Traced.of_instr hi
    obtain rfl := hself hs hno (fun u _ hne _ => Config.goto_of_ne hne)
    have howner := (howned.owner_iff hs).mp hl
    exact h.signalled howner hs howner (Config.goto_self ..) rfl hsame
  | @signalOne t l cond n v l₁ hs hi hv =>
    obtain ⟨hno, hl, hsame⟩ := Traced.of_instr hi
    obtain rfl := hself hs hno (fun u _ hne hu => (Config.goto_of_ne hne).trans
      (Config.wake_of_ne (Config.ne_of_asleep hu hv)))
    have howner := (howned.owner_iff hs).mp hl
    exact h.signalled howner hs howner (Config.goto_self ..) rfl hsame
  | @broadcast t l cond n hs hi =>
    obtain ⟨hno, hl, hsame⟩ := Traced.of_instr hi
    obtain rfl := hself hs hno (fun u _ hne hu => (Config.goto_of_ne hne).trans
      ((Config.wakeAll_running hu).trans hu.symm))
    have howner := (howned.owner_iff hs).mp hl
    exact h.signalled howner hs howner (Config.goto_self ..) rfl hsame
  | @join t l u n l' hs hi hu hhalt =>
    obtain ⟨hno, hl⟩ := Traced.of_instr hi
    obtain rfl := hself hs hno (fun v _ hne _ => Config.goto_of_ne hne)
    exact h.without (hfree hs hl) rfl rfl rfl
  | @exec t l f hs hi =>
    obtain ⟨hno, hout, hin⟩ := Traced.of_instr hi
    obtain rfl := hself hs hno (fun v _ hne _ => Config.goto_of_ne hne)
    cases hl : inside l with
    | false => exact h.without (hfree hs hl) rfl rfl (hout hl a.shared)
    | true =>
      have howner := (howned.owner_iff hs).mp hl
      have hcarry := hcarries t
      rw [hs] at hcarry
      obtain ⟨stored, taken, henq, hdeq, hstored, htaken⟩ := hin _ hcarry a.shared
      exact h.held howner hs howner (Config.goto_self ..) henq hdeq hstored htaken
  | @choose t l ok l' hs hi hok =>
    obtain ⟨hno, hl⟩ := Traced.of_instr hi
    obtain rfl := hself hs hno (fun v _ hne _ => Config.goto_of_ne hne)
    exact h.without (hfree hs hl) rfl rfl rfl
  | @spurious t cond l hs =>
    obtain rfl := hcalls.eq_self (fun u _ hu => Config.wake_of_ne (Config.ne_of_asleep hu hs))
    have hag := howned t
    rw [hs] at hag
    exact h.without hag.2 rfl rfl rfl
  | @resume t cond l hs hnobody =>
    have hne : ∀ u l', a.status u = .running l' → u ≠ t := by
      rintro u l' hu rfl
      rw [hs] at hu
      cases hu
    obtain rfl := hcalls.eq_self (fun u l' hu => Config.goto_of_ne (hne u l' hu))
    have hl := hcarries t
    rw [hs] at hl
    exact h.acquired hnobody rfl (Config.goto_self ..) rfl ⟨rfl, rfl⟩ (unreturned_resumed hl.1)
  | env e =>
    obtain rfl := hcalls.eq_self (fun u l' hu => rfl)
    exact h

/-- Over a whole run the calls account for the histories. -/
theorem Run.accounts {fds : ℤ → ℤ} {entry : T → K} {s : Config T Cond (Pc K) Shared}
    (h : Run capacity callers (start fds entry) s c) :
    Reachable (program capacity callers) (start fds entry) s ∧
      (∀ t, c.Carries t (s.status t)) ∧ c.Accounts s := by
  induction h with
  | refl =>
    refine ⟨.refl, fun t fd hfd => ?_, rfl, rfl⟩
    cases hfd
  | @step a b c c' _ hstep hcalls ih =>
    obtain ⟨hreach, hcarries, haccounts⟩ := ih
    have howned := hreach.owned (bracketed capacity callers) (owned_start fds entry)
    exact ⟨hreach.tail hstep, Calls.Carries.step hcarries hstep hcalls,
      haccounts.step hcarries howned hstep hcalls⟩

/-- Whoever calls them, the two functions implement a bounded FIFO: in every reachable state
with the mutex free, what was stored is what was taken, followed by the cells in use. In every
run to the state, what was stored is what the callers have enqueued, in the order of their calls,
and what was taken is what their calls of `queue_dequeue` have returned, failures apart. -/
theorem fifo_of_reachable {fds : ℤ → ℤ} {entry : T → K} {s : Config T Cond (Pc K) Shared}
    (h : Reachable (program capacity callers) (start fds entry) s) (hfree : s.owner = none) :
    (0 ≤ s.shared.queue.count ∧ s.shared.queue.count ≤ capacity) ∧
      (0 ≤ s.shared.queue.head ∧ s.shared.queue.head < capacity) ∧
      (0 ≤ s.shared.queue.tail ∧ s.shared.queue.tail < capacity) ∧
      s.shared.queue.tail = (s.shared.queue.head + s.shared.queue.count).tmod capacity ∧
      s.shared.enqueued = s.shared.dequeued ++
        window s.shared.queue.fds capacity s.shared.queue.head s.shared.queue.count.toNat ∧
      (∃ c, Run capacity callers (start fds entry) s c) ∧
      ∀ c, Run capacity callers (start fds entry) s c →
        c.enqueued = s.shared.enqueued ∧
        connections c.returned = connections s.shared.dequeued ∧
        ((∀ fd ∈ c.enqueued, fd ≠ -1) → c.enqueued = connections c.returned ++
          window s.shared.queue.fds capacity s.shared.queue.head s.shared.queue.count.toNat) := by
  have hf := fifo_of_free h hfree
  have hsum : 0 ≤ s.shared.queue.head + s.shared.queue.count :=
    add_nonneg hf.head_nonneg hf.count_nonneg
  refine ⟨⟨hf.count_nonneg, hf.count_le⟩, ⟨hf.head_nonneg, hf.head_lt⟩,
    ⟨hf.tail_nonneg, hf.tail_lt⟩, by rw [Int.tmod_eq_emod_of_nonneg hsum, hf.tail_eq],
    hf.enqueued_eq, exists_run h, fun c hrun => ?_⟩
  obtain ⟨-, -, henq, hdeq⟩ := hrun.accounts
  rw [c.pending_of_free hfree, List.append_nil] at henq hdeq
  refine ⟨henq.symm, hdeq.symm, fun hvalid => ?_⟩
  rw [← henq] at hvalid
  have hall : connections s.shared.dequeued = s.shared.dequeued := by
    refine List.filter_eq_self.mpr (fun fd hfd => ?_)
    have hmem : fd ∈ s.shared.enqueued := by
      rw [hf.enqueued_eq]
      exact List.mem_append_left _ hfd
    simpa using hvalid fd hmem
  rw [← hdeq, hall, ← henq]
  exact hf.enqueued_eq

/-- A producer that stores 5, 6, 7, ... and a consumer that continues at what it gets. -/
def producerConsumer : Bool → ℕ → Action Bool ℕ
  | true, k => .enqueue (5 + k) (k + 1)
  | false, _ => .dequeue Int.toNat

/-- Two entries fill the queue, the producer waits for room, and the third wraps around. -/
def wrapSchedule : List (Event Bool (Pc ℕ) Unit) :=
  List.replicate 5 (.run true) ++ List.replicate 5 (.run true) ++ List.replicate 3 (.run true) ++
    List.replicate 4 (.run false) ++ [.signal false true, .run false, .resume true] ++
    List.replicate 4 (.run true)

def afterWrap : Config Bool Cond (Pc ℕ) Shared :=
  (runSchedule (program 2 producerConsumer) (start (fun _ => 0) (fun _ => 0)) wrapSchedule).getD
    (start (fun _ => 0) (fun _ => 0))

theorem fifo_after_wrap :
    afterWrap.shared.queue.tail = 1 ∧ afterWrap.status false = .running (.caller 5) ∧
      ∃ c, Run 2 producerConsumer (start (fun _ => 0) (fun _ => 0)) afterWrap c ∧
        c.enqueued = [5, 6, 7] ∧ connections c.returned = [5] ∧
        c.enqueued = connections c.returned ++ window afterWrap.shared.queue.fds 2
          afterWrap.shared.queue.head afterWrap.shared.queue.count.toNat := by
  have hrun : Reachable (program 2 producerConsumer) (start (fun _ => 0) (fun _ => 0)) afterWrap :=
    reachable_of_schedule wrapSchedule rfl
  obtain ⟨-, -, -, -, -, ⟨c, hc⟩, hall⟩ := fifo_of_reachable hrun rfl
  obtain ⟨henq, hdeq, hfifo⟩ := hall c hc
  have hfive : c.enqueued = [5, 6, 7] := henq
  refine ⟨rfl, rfl, c, hc, hfive, hdeq, hfifo ?_⟩
  rw [hfive]
  decide

end CpreLabs.WorkQueue
