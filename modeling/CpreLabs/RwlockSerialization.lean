import CpreLabs.RwlockExclusion
import Mathlib.Algebra.BigOperators.Group.Finset.Piecewise
import Mathlib.Algebra.BigOperators.Group.Finset.Basic
import Mathlib.Tactic.Abel

/-!
# Serial execution of operations under one readers-writer lock

If the code of each operation is correct when it runs alone, every interleaving gives the
results, the memory and the counters of a serial execution.
-/
namespace CpreLabs.Rwlock

variable {T Op F H N O A : Type*}

/-- What an operation does to the abstract state when it runs alone. -/
structure Effect (A N O : Type*) where
  result : O
  state : A
  added : N

section Serial

variable (spec : Op → ℕ → A → Effect A N O)

def serialState : List (Entry Op) → A → A
  | [], a => a
  | e :: es, a => serialState es (spec e.op e.now a).state

def serialResults : List (Entry Op) → A → List (ℕ × O)
  | [], _ => []
  | e :: es, a =>
      (e.ticket, (spec e.op e.now a).result) :: serialResults es (spec e.op e.now a).state

def serialAdded [AddCommMonoid N] : List (Entry Op) → A → N
  | [], _ => 0
  | e :: es, a => (spec e.op e.now a).added + serialAdded es (spec e.op e.now a).state

theorem serialState_concat (es : List (Entry Op)) (e : Entry Op) (a : A) :
    serialState spec (es ++ [e]) a = (spec e.op e.now (serialState spec es a)).state := by
  induction es generalizing a with
  | nil => rfl
  | cons x es ih => exact ih _

theorem serialResults_concat (es : List (Entry Op)) (e : Entry Op) (a : A) :
    serialResults spec (es ++ [e]) a = serialResults spec es a ++
      [(e.ticket, (spec e.op e.now (serialState spec es a)).result)] := by
  induction es generalizing a with
  | nil => rfl
  | cons x es ih =>
    simp only [List.cons_append, serialResults, serialState]
    rw [ih]

theorem serialAdded_concat [AddCommMonoid N] (es : List (Entry Op)) (e : Entry Op) (a : A) :
    serialAdded spec (es ++ [e]) a = serialAdded spec es a +
      (spec e.op e.now (serialState spec es a)).added := by
  induction es generalizing a with
  | nil => simp [serialAdded, serialState]
  | cons x es ih =>
    simp only [List.cons_append, serialAdded, serialState]
    rw [ih, add_assoc]

end Serial

/-- What ties the lock, the tickets and the history together; it concerns no frame. -/
structure Books (c : Code Op F H N O) (s : Config T Op F H N O) : Prop where
  held : ∀ t, s.held t = (s.call t).map (fun x => c.mode x.2)
  exclusive : ∀ t u x y, s.call t = some x → s.call u = some y → c.reads x.2 = false → u = t
  granted : ∀ t x, s.call t = some x → s.grants[x.1]? = some x.2
  unique : ∀ t u x y, s.call t = some x → s.call u = some y → x.1 = y.1 → t = u
  /-- Only readers are let in while a reader is inside, and nobody while a writer is. -/
  later : ∀ t x m op, s.call t = some x → x.1 < m → s.grants[m]? = some op →
    c.reads x.2 = true ∧ c.reads op = true
  finished : ∀ n, n < s.grants.length → (∃ t op, s.call t = some (n, op)) ∨
    (n ∈ s.tickets ∧ ∃ o, s.returned n = some o)
  entries : ∀ e ∈ s.committed, s.grants[e.ticket]? = some e.op
  nodup : s.tickets.Nodup
  ordered : s.committed.Pairwise
    (fun x y => x.ticket < y.ticket ∨ c.reads x.op = true ∧ c.reads y.op = true)
  clocked : s.committed.Pairwise (fun x y => x.now ≤ y.now)
  past : ∀ e ∈ s.committed, e.now ≤ s.clock

section Books

variable {c : Code Op F H N O} {s : Config T Op F H N O}

theorem Books.ticket_lt (h : Books c s) {t : T} {n : ℕ} {op : Op} (ht : s.call t = some (n, op)) :
    n < s.grants.length := by
  obtain ⟨hlt, -⟩ := List.getElem?_eq_some_iff.mp (h.granted t _ ht)
  exact hlt

theorem Books.committed_lt (h : Books c s) {n : ℕ} (hn : n ∈ s.tickets) : n < s.grants.length := by
  obtain ⟨e, he, rfl⟩ := List.mem_map.mp hn
  obtain ⟨hlt, -⟩ := List.getElem?_eq_some_iff.mp (h.entries e he)
  exact hlt

theorem Books.excludes (h : Books c s) : Excludes c s := ⟨h.held, h.exclusive⟩

/-- A step that changes no call, or only the frame of one. -/
theorem Books.congr {s' : Config T Op F H N O} (h : Books c s)
    (hcall : s'.call = s.call) (hheld : s'.held = s.held) (hgrants : s'.grants = s.grants)
    (hcommitted : s'.committed = s.committed) (hreturned : s'.returned = s.returned)
    (hclock : s.clock ≤ s'.clock) : Books c s' := by
  have htickets : s'.tickets = s.tickets := by rw [Config.tickets, Config.tickets, hcommitted]
  refine ⟨?_, ?_, ?_, ?_, ?_, ?_, ?_, ?_, ?_, ?_, ?_⟩
  · rw [hcall, hheld]
    exact h.held
  · rw [hcall]
    exact h.exclusive
  · rw [hcall, hgrants]
    exact h.granted
  · rw [hcall]
    exact h.unique
  · rw [hcall, hgrants]
    exact h.later
  · rw [hcall, hgrants, htickets, hreturned]
    exact h.finished
  · rw [hcommitted, hgrants]
    exact h.entries
  · rw [htickets]
    exact h.nodup
  · rw [hcommitted]
    exact h.ordered
  · rw [hcommitted]
    exact h.clocked
  · rw [hcommitted]
    exact fun e he => (h.past e he).trans hclock

variable [DecidableEq T]

theorem Books.lock (h : Books c s) {t : T} {op : Op} (ht : s.thread t = .waiting op)
    (hfree : s.available (c.mode op)) :
    Books c { s with
      held := Function.update s.held t (some (c.mode op))
      thread := Function.update s.thread t (.inside s.grants.length op (c.entry op))
      grants := s.grants ++ [op] } := by
  have hout : s.call t = none := by rw [Config.call, ht]; rfl
  have hcall : ∀ u x, Config.call { s with
      held := Function.update s.held t (some (c.mode op))
      thread := Function.update s.thread t (.inside s.grants.length op (c.entry op))
      grants := s.grants ++ [op] } u = some x →
      (u = t ∧ x = (s.grants.length, op)) ∨
        (u ≠ t ∧ s.call u = some x ∧ c.reads op = true ∧ c.reads x.2 = true) := by
    intro u x hu
    rw [Config.call, call_update] at hu
    split at hu
    · rename_i hut
      exact Or.inl ⟨hut, (Option.some.inj hu).symm⟩
    · rename_i hut
      exact Or.inr ⟨hut, hu, h.excludes.available hfree hu⟩
  have hexcludes := h.excludes.lock (t := t) hfree
  refine ⟨hexcludes.held, hexcludes.exclusive, fun u x hu => ?_, fun u v x y hu hv hxy => ?_,
    fun u x m op' hu hm hop => ?_, fun n hn => ?_, fun e he => ?_, h.nodup, h.ordered, h.clocked,
    h.past⟩
  · rcases hcall u x hu with ⟨rfl, rfl⟩ | ⟨-, hu', -, -⟩
    · simp
    · have hlt := h.ticket_lt hu'
      rw [List.getElem?_append_left hlt]
      exact h.granted u x hu'
  · rcases hcall u x hu with ⟨rfl, rfl⟩ | ⟨-, hu', -, -⟩
    · rcases hcall v y hv with ⟨rfl, -⟩ | ⟨-, hv', -, -⟩
      · rfl
      · have hlt := h.ticket_lt hv'
        dsimp only at hxy
        omega
    · rcases hcall v y hv with ⟨-, rfl⟩ | ⟨-, hv', -, -⟩
      · have hlt := h.ticket_lt hu'
        dsimp only at hxy
        omega
      · exact h.unique u v x y hu' hv' hxy
  · rcases hcall u x hu with ⟨-, rfl⟩ | ⟨-, hu', hr, hxr⟩
    · obtain ⟨hlt, -⟩ := List.getElem?_eq_some_iff.mp hop
      simp only [List.length_append, List.length_singleton] at hlt
      dsimp only at hm
      omega
    · refine ⟨hxr, ?_⟩
      rcases Nat.lt_or_ge m s.grants.length with hlt | hge
      · rw [List.getElem?_append_left hlt] at hop
        exact (h.later u x m op' hu' hm hop).2
      · rw [List.getElem?_append_right hge] at hop
        obtain ⟨-, rfl⟩ := List.getElem?_eq_some_iff.mp hop
        simpa using hr
  · simp only [List.length_append, List.length_singleton] at hn
    rcases Nat.lt_succ_iff_lt_or_eq.mp hn with hlt | rfl
    · rcases h.finished n hlt with ⟨u, op', hu⟩ | hfin
      · have hut : u ≠ t := by
          rintro rfl
          rw [hout] at hu
          cases hu
        refine Or.inl ⟨u, op', ?_⟩
        rw [Config.call, call_update, if_neg hut]
        exact hu
      · exact Or.inr hfin
    · refine Or.inl ⟨t, op, ?_⟩
      rw [Config.call, call_update, if_pos rfl]
      rfl
  · have hlt := h.committed_lt (List.mem_map_of_mem he)
    rw [List.getElem?_append_left hlt]
    exact h.entries e he

omit [DecidableEq T] in
/-- An operation commits; the others that hold the lock, if any, are readers. -/
theorem Books.commit (h : Books c s) {s' : Config T Op F H N O} {t : T} {n : ℕ} {op : Op}
    (ht : s.call t = some (n, op)) (hnew : n ∉ s.tickets) (hcall : s'.call = s.call)
    (hheld : s'.held = s.held) (hgrants : s'.grants = s.grants)
    (hcommitted : s'.committed = s.committed ++ [⟨n, op, s.clock⟩])
    (hreturned : s'.returned = s.returned) (hclock : s'.clock = s.clock) : Books c s' := by
  have htickets : s'.tickets = s.tickets ++ [n] := by
    rw [Config.tickets, hcommitted, List.map_append]
    rfl
  have hbefore : ∀ e ∈ s.committed, e.ticket < n ∨ c.reads e.op = true ∧ c.reads op = true := by
    intro e he
    rcases Nat.lt_trichotomy e.ticket n with hlt | heq | hgt
    · exact Or.inl hlt
    · exact absurd (heq ▸ List.mem_map_of_mem he) hnew
    · obtain ⟨hr, hr'⟩ := h.later t _ _ _ ht hgt (h.entries e he)
      exact Or.inr ⟨hr', hr⟩
  refine ⟨?_, ?_, ?_, ?_, ?_, ?_, ?_, ?_, ?_, ?_, ?_⟩
  · rw [hcall, hheld]
    exact h.held
  · rw [hcall]
    exact h.exclusive
  · rw [hcall, hgrants]
    exact h.granted
  · rw [hcall]
    exact h.unique
  · rw [hcall, hgrants]
    exact h.later
  · rw [hcall, hgrants, htickets, hreturned]
    intro m hm
    rcases h.finished m hm with hin | ⟨hmem, ho⟩
    · exact Or.inl hin
    · exact Or.inr ⟨List.mem_append_left _ hmem, ho⟩
  · rw [hcommitted, hgrants]
    intro e he
    rcases List.mem_append.mp he with he | he
    · exact h.entries e he
    · rw [List.mem_singleton.mp he]
      exact h.granted t _ ht
  · rw [htickets]
    exact List.Nodup.append h.nodup (List.nodup_singleton n) (by simpa using hnew)
  · rw [hcommitted]
    refine List.pairwise_append.mpr ⟨h.ordered, List.pairwise_singleton .., fun e he x hx => ?_⟩
    rw [List.mem_singleton.mp hx]
    exact hbefore e he
  · rw [hcommitted]
    refine List.pairwise_append.mpr ⟨h.clocked, List.pairwise_singleton .., fun e he x hx => ?_⟩
    rw [List.mem_singleton.mp hx]
    exact h.past e he
  · rw [hcommitted, hclock]
    intro e he
    rcases List.mem_append.mp he with he | he
    · exact h.past e he
    · rw [List.mem_singleton.mp he]

theorem Books.unlock (h : Books c s) {t : T} {n : ℕ} {op : Op} (ht : s.call t = some (n, op))
    (hdone : n ∈ s.tickets) (o : O) :
    Books c { s with
      held := Function.update s.held t none
      thread := Function.update s.thread t .idle
      returned := Function.update s.returned n (some o) } := by
  have hcall : ∀ u x, Config.call { s with
      held := Function.update s.held t none
      thread := Function.update s.thread t .idle
      returned := Function.update s.returned n (some o) } u = some x →
      u ≠ t ∧ s.call u = some x := by
    intro u x hu
    rw [Config.call, call_update] at hu
    split at hu
    · cases hu
    · exact ⟨‹_›, hu⟩
  have hexcludes := h.excludes.unlock t n o
  refine ⟨hexcludes.held, hexcludes.exclusive, fun u x hu => h.granted u x (hcall u x hu).2,
    fun u v x y hu hv hxy => ?_, fun u x m op' hu => h.later u x m op' (hcall u x hu).2,
    fun m hm => ?_, h.entries, h.nodup, h.ordered, h.clocked, h.past⟩
  · exact h.unique u v x y (hcall u x hu).2 (hcall v y hv).2 hxy
  · by_cases hmn : m = n
    · subst hmn
      exact Or.inr ⟨hdone, o, Function.update_self ..⟩
    · rcases h.finished m hm with ⟨u, op', hu⟩ | ⟨hmem, o', ho'⟩
      · have hut : u ≠ t := by
          rintro rfl
          rw [ht] at hu
          cases hu
          exact hmn rfl
        refine Or.inl ⟨u, op', ?_⟩
        rw [Config.call, call_update, if_neg hut]
        exact hu
      · exact Or.inr ⟨hmem, o', by simpa [Function.update_of_ne hmn] using ho'⟩

end Books

/-- The code of each operation is correct when it runs alone, or among readers if it reads.
`Rep` says that the memory represents an abstract state. `Early` is the invariant of a frame
before it commits, over the abstract state then. `Late` is its invariant afterwards: the
memory of a writer is on its way to the abstract state, and the frame will return the given
result and has yet to add the given amount to the counters. -/
structure Correct [AddCommGroup N] (c : Code Op F H N O) (spec : Op → ℕ → A → Effect A N O)
    (Rep : H → A → Prop) (Early : Op → F → H → A → Prop)
    (Late : Op → F → H → A → O → N → Prop) : Prop where
  reads_state : ∀ op now a, c.reads op = true → (spec op now a).state = a
  entry : ∀ op h a, Rep h a → Early op (c.entry op) h a
  early_step : ∀ op f h a now f' h' d, Rep h a → Early op f h a → c.commits f = false →
    c.step now f h f' h' d → h' = h ∧ d = 0 ∧ Early op f' h a
  commit_step : ∀ op f h a now f' h' d, Rep h a → Early op f h a → c.commits f = true →
    c.step now f h f' h' d → h' = h ∧ d = 0 ∧
      Late op f' h (spec op now a).state (spec op now a).result (spec op now a).added
  early_result : ∀ op f h a, Early op f h a → c.result f = none
  late_commits : ∀ op f h a o m, Late op f h a o m → c.commits f = false
  late_step : ∀ op f h a o m now f' h' d, Late op f h a o m → c.step now f h f' h' d →
    Late op f' h' a o (m - d) ∧ (c.reads op = true → h' = h)
  late_result : ∀ op f h a o m o', Late op f h a o m → c.result f = some o' →
    o' = o ∧ m = 0 ∧ (c.reads op = false → Rep h a)

section Simulation

variable [AddCommGroup N] (c : Code Op F H N O) (spec : Op → ℕ → A → Effect A N O)
  (Rep : H → A → Prop) (Early : Op → F → H → A → Prop) (Late : Op → F → H → A → O → N → Prop)
  (a₀ : A) (counters₀ : N)

/-- The frames, the memory and the counters against the serial execution of the operations
that have committed; `owed` is what each of them has yet to add to the counters. -/
structure Sim (s : Config T Op F H N O) (owed : ℕ → N) : Prop where
  rep : (∀ t n op, s.call t = some (n, op) → n ∈ s.tickets → c.reads op = true) →
    Rep s.memory (serialState spec s.committed a₀)
  early : ∀ t n op f, s.thread t = .inside n op f → n ∉ s.tickets →
    Early op f s.memory (serialState spec s.committed a₀)
  late : ∀ t n op f, s.thread t = .inside n op f → n ∈ s.tickets →
    ∃ o, (n, o) ∈ serialResults spec s.committed a₀ ∧
      Late op f s.memory (serialState spec s.committed a₀) o (owed n)
  returned : ∀ n o, s.returned n = some o → (n, o) ∈ serialResults spec s.committed a₀
  counters : counters₀ + serialAdded spec s.committed a₀ =
    s.counters + ∑ n ∈ Finset.range s.grants.length, owed n
  owed_early : ∀ n, n ∉ s.tickets → owed n = 0
  owed_done : ∀ n, (∀ t op, s.call t ≠ some (n, op)) → owed n = 0

variable {c spec Rep Early Late a₀ counters₀}
variable {s : Config T Op F H N O} {owed : ℕ → N}

/-- Beside a thread inside that has not committed there are only readers that have. -/
theorem Sim.rep_of_early (hs : Sim c spec Rep Early Late a₀ counters₀ s owed) (hb : Books c s)
    {t : T} {n : ℕ} {op : Op} (ht : s.call t = some (n, op)) (hn : n ∉ s.tickets) :
    Rep s.memory (serialState spec s.committed a₀) := by
  refine hs.rep (fun u m op' hu hm => ?_)
  cases hr : c.reads op' with
  | true => rfl
  | false =>
    have htu := hb.exclusive u t _ _ hu ht hr
    subst htu
    rw [ht] at hu
    cases hu
    exact absurd hm hn

variable [DecidableEq T]

omit [DecidableEq T] in
theorem Sim.tick (hs : Sim c spec Rep Early Late a₀ counters₀ s owed) (now : ℕ) :
    Sim c spec Rep Early Late a₀ counters₀ { s with clock := now } owed :=
  ⟨hs.rep, hs.early, hs.late, hs.returned, hs.counters, hs.owed_early, hs.owed_done⟩

theorem Sim.call (hs : Sim c spec Rep Early Late a₀ counters₀ s owed) {t : T} (op : Op)
    (ht : s.thread t = .idle) :
    Sim c spec Rep Early Late a₀ counters₀
      { s with thread := Function.update s.thread t (.waiting op) } owed := by
  have hcall := call_of_idle op ht
  refine ⟨?_, fun u n op' f hu => ?_, fun u n op' f hu => ?_, hs.returned, hs.counters,
    hs.owed_early, ?_⟩
  · rw [hcall]
    exact hs.rep
  · exact hs.early u n op' f (inside_update rfl hu).2
  · exact hs.late u n op' f (inside_update rfl hu).2
  · rw [hcall]
    exact hs.owed_done

theorem Sim.lock (hc : Correct c spec Rep Early Late)
    (hs : Sim c spec Rep Early Late a₀ counters₀ s owed) (hb : Books c s) {t : T} {op : Op}
    (ht : s.thread t = .waiting op) (hfree : s.available (c.mode op)) :
    Sim c spec Rep Early Late a₀ counters₀ { s with
      held := Function.update s.held t (some (c.mode op))
      thread := Function.update s.thread t (.inside s.grants.length op (c.entry op))
      grants := s.grants ++ [op] } owed := by
  have hrep : Rep s.memory (serialState spec s.committed a₀) :=
    hs.rep (fun u n op' hu _ => (hb.excludes.available hfree hu).2)
  have hfresh : s.grants.length ∉ s.tickets := fun hn => absurd (hb.committed_lt hn) (lt_irrefl _)
  refine ⟨fun _ => hrep, fun u n op' f hu hn => ?_, fun u n op' f hu hn => ?_, hs.returned, ?_,
    hs.owed_early, fun n hn => ?_⟩
  · rcases inside_cases hu with ⟨rfl, rfl, rfl, rfl⟩ | ⟨hut, hu⟩
    · exact hc.entry _ s.memory _ hrep
    · exact hs.early u n op' f hu hn
  · rcases inside_cases hu with ⟨rfl, rfl, rfl, rfl⟩ | ⟨hut, hu⟩
    · exact absurd hn hfresh
    · exact hs.late u n op' f hu hn
  · simp only [List.length_append, List.length_singleton, Finset.sum_range_succ,
      hs.owed_early _ hfresh, add_zero]
    exact hs.counters
  · by_cases hlast : n = s.grants.length
    · rw [hlast]
      exact hs.owed_early _ hfresh
    · refine hs.owed_done n (fun u op' hu => ?_)
      have hcall := hn u op'
      rw [Config.call, call_update] at hcall
      split at hcall
      · rename_i hut
        rw [hut, Config.call, ht] at hu
        cases hu
      · exact hcall hu

omit [AddCommGroup N] [DecidableEq T] in
/-- The other threads inside when a thread makes a step: all readers if that one reads, and
none if it writes. -/
theorem reads_of_other (hb : Books c s) {t u : T} {n m : ℕ} {op op' : Op} {f f' : F}
    (ht : s.thread t = .inside n op f) (hu : s.thread u = .inside m op' f') (hut : u ≠ t) :
    c.reads op = true ∧ n ≠ m := by
  constructor
  · cases hr : c.reads op with
    | true => rfl
    | false =>
      exact absurd (hb.exclusive t u _ _ (call_of_inside ht) (call_of_inside hu) hr) hut
  · intro heq
    exact hut (hb.unique u t _ _ (call_of_inside hu) (call_of_inside ht) heq.symm)

/-- A step of an operation that has not committed and does not yet. -/
theorem Sim.run_early (hc : Correct c spec Rep Early Late)
    (hs : Sim c spec Rep Early Late a₀ counters₀ s owed) (hb : Books c s) {t : T} {n : ℕ}
    {op : Op} {f f' : F} {h' : H} {d : N} (ht : s.thread t = .inside n op f)
    (hstep : c.step s.clock f s.memory f' h' d) (hn : n ∉ s.tickets) (hf : c.commits f = false) :
    Sim c spec Rep Early Late a₀ counters₀ { s with
      memory := h'
      counters := s.counters + d
      thread := Function.update s.thread t (.inside n op f') } owed := by
  have hrep := hs.rep_of_early hb (call_of_inside ht) hn
  obtain ⟨rfl, rfl, hearly⟩ :=
    hc.early_step op f _ _ _ _ _ _ hrep (hs.early t n op f ht hn) hf hstep
  have hcall : Config.call { s with
      counters := s.counters + 0
      thread := Function.update s.thread t (.inside n op f') } = s.call :=
    call_of_run ht rfl
  refine ⟨fun _ => hrep, fun u m op' g hu hm => ?_, fun u m op' g hu hm => ?_, hs.returned, ?_,
    hs.owed_early, ?_⟩
  · rcases inside_cases hu with ⟨rfl, rfl, rfl, rfl⟩ | ⟨hut, hu⟩
    · exact hearly
    · exact hs.early u m op' g hu hm
  · rcases inside_cases hu with ⟨rfl, rfl, rfl, rfl⟩ | ⟨hut, hu⟩
    · exact absurd hm hn
    · exact hs.late u m op' g hu hm
  · rw [add_zero]
    exact hs.counters
  · rw [hcall]
    exact hs.owed_done

theorem sum_update {n k : ℕ} (owed : ℕ → N) (hn : n < k) (x : N) :
    ∑ m ∈ Finset.range k, Function.update owed n x m =
      (∑ m ∈ Finset.range k, owed m) - owed n + x := by
  have hmem : n ∈ Finset.range k := Finset.mem_range.mpr hn
  have hsplit := Finset.sum_sdiff (f := owed) (Finset.singleton_subset_iff.mpr hmem)
  rw [Finset.sum_singleton] at hsplit
  rw [Finset.sum_update_of_mem hmem, ← hsplit]
  abel

/-- The step with which an operation commits. -/
theorem Sim.run_commit (hc : Correct c spec Rep Early Late)
    (hs : Sim c spec Rep Early Late a₀ counters₀ s owed) (hb : Books c s) {t : T} {n : ℕ}
    {op : Op} {f f' : F} {h' : H} {d : N} (ht : s.thread t = .inside n op f)
    (hstep : c.step s.clock f s.memory f' h' d) (hn : n ∉ s.tickets) (hf : c.commits f = true) :
    Sim c spec Rep Early Late a₀ counters₀ { s with
      memory := h'
      counters := s.counters + d
      thread := Function.update s.thread t (.inside n op f')
      committed := s.committed ++ [⟨n, op, s.clock⟩] }
      (Function.update owed n
        (spec op s.clock (serialState spec s.committed a₀)).added) := by
  have hrep := hs.rep_of_early hb (call_of_inside ht) hn
  obtain ⟨rfl, rfl, hlate⟩ :=
    hc.commit_step op f _ _ _ _ _ _ hrep (hs.early t n op f ht hn) hf hstep
  have hlt : n < s.grants.length := hb.ticket_lt (call_of_inside ht)
  have hcall : Config.call { s with
      counters := s.counters + 0
      thread := Function.update s.thread t (.inside n op f')
      committed := s.committed ++ [⟨n, op, s.clock⟩] } = s.call :=
    call_of_run ht rfl
  have htickets : ∀ m, m ∈ Config.tickets { s with
      counters := s.counters + 0
      thread := Function.update s.thread t (.inside n op f')
      committed := s.committed ++ [⟨n, op, s.clock⟩] } ↔ m ∈ s.tickets ∨ m = n := by
    simp [Config.tickets]
  -- nobody else is inside when a writer commits, and a reader leaves the abstract state alone
  have hstate : ∀ {u m op' g}, s.thread u = .inside m op' g → u ≠ t →
      serialState spec (s.committed ++ [⟨n, op, s.clock⟩]) a₀ = serialState spec s.committed a₀ ∧
        n ≠ m := by
    intro u m op' g hu hut
    obtain ⟨hr, hnm⟩ := reads_of_other hb ht hu hut
    refine ⟨?_, hnm⟩
    rw [serialState_concat]
    exact hc.reads_state op _ _ hr
  refine ⟨fun hreads => ?_, fun u m op' g hu hm => ?_, fun u m op' g hu hm => ?_,
    fun m o hm => ?_, ?_, fun m hm => ?_, fun m hm => ?_⟩
  · have hr : c.reads op = true :=
      hreads t n op (hcall ▸ call_of_inside ht) ((htickets n).mpr (Or.inr rfl))
    dsimp only
    rw [serialState_concat, hc.reads_state op _ _ hr]
    exact hrep
  · rw [htickets] at hm
    rcases inside_cases hu with ⟨rfl, rfl, rfl, rfl⟩ | ⟨hut, hu⟩
    · exact absurd (Or.inr rfl) hm
    · dsimp only
      rw [(hstate hu hut).1]
      exact hs.early u m op' g hu (fun h => hm (Or.inl h))
  · rcases inside_cases hu with ⟨rfl, rfl, rfl, rfl⟩ | ⟨hut, hu⟩
    · dsimp only
      rw [serialState_concat, serialResults_concat, Function.update_self]
      exact ⟨_, List.mem_append_right _ (List.mem_singleton_self _), hlate⟩
    · obtain ⟨hsame, hnm⟩ := hstate hu hut
      have hm' : m ∈ s.tickets := ((htickets m).mp hm).resolve_right (Ne.symm hnm)
      obtain ⟨o, ho, hl⟩ := hs.late u m op' g hu hm'
      dsimp only
      rw [hsame, serialResults_concat, Function.update_of_ne (Ne.symm hnm)]
      exact ⟨o, List.mem_append_left _ ho, hl⟩
  · dsimp only
    rw [serialResults_concat]
    exact List.mem_append_left _ (hs.returned m o hm)
  · dsimp only
    rw [serialAdded_concat, sum_update owed hlt, hs.owed_early n hn, ← add_assoc, hs.counters]
    abel
  · rw [htickets] at hm
    have hmn : m ≠ n := fun h => hm (Or.inr h)
    rw [Function.update_of_ne hmn]
    exact hs.owed_early m (fun h => hm (Or.inl h))
  · rw [hcall] at hm
    have hmn : m ≠ n := by
      rintro rfl
      exact hm t op (call_of_inside ht)
    rw [Function.update_of_ne hmn]
    exact hs.owed_done m hm

/-- A step of an operation that has committed. -/
theorem Sim.run_late (hc : Correct c spec Rep Early Late)
    (hs : Sim c spec Rep Early Late a₀ counters₀ s owed) (hb : Books c s) {t : T} {n : ℕ}
    {op : Op} {f f' : F} {h' : H} {d : N} (ht : s.thread t = .inside n op f)
    (hstep : c.step s.clock f s.memory f' h' d) (hn : n ∈ s.tickets) :
    Sim c spec Rep Early Late a₀ counters₀ { s with
      memory := h'
      counters := s.counters + d
      thread := Function.update s.thread t (.inside n op f') }
      (Function.update owed n (owed n - d)) := by
  obtain ⟨o, ho, hlate⟩ := hs.late t n op f ht hn
  obtain ⟨hlate', hsame⟩ := hc.late_step op f _ _ _ _ _ _ _ _ hlate hstep
  have hlt : n < s.grants.length := hb.ticket_lt (call_of_inside ht)
  have hcall : Config.call { s with
      memory := h'
      counters := s.counters + d
      thread := Function.update s.thread t (.inside n op f') } = s.call :=
    call_of_run ht rfl
  refine ⟨fun hreads => ?_, fun u m op' g hu hm => ?_, fun u m op' g hu hm => ?_, hs.returned, ?_,
    fun m hm => ?_, fun m hm => ?_⟩
  · have hr : c.reads op = true := hreads t n op (hcall ▸ call_of_inside ht) hn
    dsimp only
    rw [hsame hr]
    exact hs.rep (fun u m op' hu hm => hreads u m op' (hcall ▸ hu) hm)
  · rcases inside_cases hu with ⟨rfl, rfl, rfl, rfl⟩ | ⟨hut, hu⟩
    · exact absurd hn hm
    · dsimp only
      rw [hsame (reads_of_other hb ht hu hut).1]
      exact hs.early u m op' g hu hm
  · rcases inside_cases hu with ⟨rfl, rfl, rfl, rfl⟩ | ⟨hut, hu⟩
    · rw [Function.update_self]
      exact ⟨o, ho, hlate'⟩
    · obtain ⟨hr, hnm⟩ := reads_of_other hb ht hu hut
      dsimp only
      rw [hsame hr, Function.update_of_ne (Ne.symm hnm)]
      exact hs.late u m op' g hu hm
  · dsimp only
    rw [sum_update owed hlt, hs.counters]
    abel
  · have hmn : m ≠ n := by
      rintro rfl
      exact hm hn
    rw [Function.update_of_ne hmn]
    exact hs.owed_early m hm
  · rw [hcall] at hm
    have hmn : m ≠ n := by
      rintro rfl
      exact hm t op (call_of_inside ht)
    rw [Function.update_of_ne hmn]
    exact hs.owed_done m hm

/-- Unlocking and returning. -/
theorem Sim.unlock (hc : Correct c spec Rep Early Late)
    (hs : Sim c spec Rep Early Late a₀ counters₀ s owed) {t : T} {n : ℕ}
    {op : Op} {f : F} {o : O} (ht : s.thread t = .inside n op f) (ho : c.result f = some o) :
    n ∈ s.tickets ∧ Sim c spec Rep Early Late a₀ counters₀ { s with
      held := Function.update s.held t none
      thread := Function.update s.thread t .idle
      returned := Function.update s.returned n (some o) } owed := by
  have hn : n ∈ s.tickets := by
    by_contra hn
    rw [hc.early_result op f _ _ (hs.early t n op f ht hn)] at ho
    cases ho
  obtain ⟨o', ho', hlate⟩ := hs.late t n op f ht hn
  obtain ⟨rfl, howed, hrep⟩ := hc.late_result op f _ _ _ _ _ hlate ho
  refine ⟨hn, fun hreads => ?_, fun u m op' g hu => ?_, fun u m op' g hu => ?_, fun m x hm => ?_,
    hs.counters, hs.owed_early, fun m hm => ?_⟩
  · cases hr : c.reads op with
    | false => exact hrep hr
    | true =>
      refine hs.rep (fun u m op' hu hm => ?_)
      by_cases hut : u = t
      · subst hut
        rw [call_of_inside ht] at hu
        cases hu
        exact hr
      · refine hreads u m op' ?_ hm
        rw [Config.call, call_update, if_neg hut]
        exact hu
  · exact hs.early u m op' g (inside_update rfl hu).2
  · exact hs.late u m op' g (inside_update rfl hu).2
  · by_cases hmn : m = n
    · subst hmn
      simp only [Function.update_self, Option.some.injEq] at hm
      rw [← hm]
      exact ho'
    · simp only [Function.update_of_ne hmn] at hm
      exact hs.returned m x hm
  · by_cases hmn : m = n
    · rw [hmn]
      exact howed
    · refine hs.owed_done m (fun u op' hu => ?_)
      have hcall := hm u op'
      rw [Config.call, call_update] at hcall
      split at hcall
      · rename_i hut
        rw [hut, call_of_inside ht] at hu
        cases hu
        exact hmn rfl
      · exact hcall hu

theorem books_sim_step (hc : Correct c spec Rep Early Late) {s' : Config T Op F H N O}
    (hb : Books c s) (hs : Sim c spec Rep Early Late a₀ counters₀ s owed) (hstep : Step c s s') :
    Books c s' ∧ ∃ owed', Sim c spec Rep Early Late a₀ counters₀ s' owed' := by
  cases hstep with
  | @tick now hle => exact ⟨hb.congr rfl rfl rfl rfl rfl hle, owed, hs.tick now⟩
  | @call t op ht =>
    exact ⟨hb.congr (call_of_idle op ht) rfl rfl rfl rfl le_rfl, owed, hs.call op ht⟩
  | lock ht hfree => exact ⟨hb.lock ht hfree, owed, hs.lock hc hb ht hfree⟩
  | @run t n op f f' h' d ht hstep =>
    by_cases hn : n ∈ s.tickets
    · obtain ⟨o, -, hlate⟩ := hs.late t n op f ht hn
      rw [hc.late_commits _ _ _ _ _ _ hlate]
      exact ⟨hb.congr (call_of_run ht rfl) rfl rfl rfl rfl le_rfl, _, hs.run_late hc hb ht hstep hn⟩
    · cases hf : c.commits f with
      | false =>
        exact ⟨hb.congr (call_of_run ht rfl) rfl rfl rfl rfl le_rfl, _,
          hs.run_early hc hb ht hstep hn hf⟩
      | true =>
        exact ⟨hb.commit (call_of_inside ht) hn (call_of_run ht rfl) rfl rfl rfl rfl rfl, _,
          hs.run_commit hc hb ht hstep hn hf⟩
  | unlock ht ho =>
    obtain ⟨hn, hsim⟩ := hs.unlock hc ht ho
    exact ⟨hb.unlock (call_of_inside ht) hn _, owed, hsim⟩

theorem books_sim_of_reachable (hc : Correct c spec Rep Early Late) {memory : H} {clock : ℕ}
    (h₀ : Rep memory a₀) (h : Reachable c (initial counters₀ memory clock) s) :
    Books c s ∧ ∃ owed, Sim c spec Rep Early Late a₀ counters₀ s owed := by
  induction h with
  | refl =>
    refine ⟨⟨fun t => rfl, ?_, ?_, ?_, ?_, ?_, ?_, ?_, ?_, ?_, ?_⟩, fun _ => 0, fun _ => h₀, ?_, ?_,
      ?_, ?_, fun _ _ => rfl, fun _ _ => rfl⟩
    all_goals simp [initial, Config.call, Thread.call, Config.tickets, serialAdded]
  | tail _ hstep ih =>
    obtain ⟨hb, owed, hs⟩ := ih
    exact books_sim_step hc hb hs hstep

end Simulation

end CpreLabs.Rwlock
