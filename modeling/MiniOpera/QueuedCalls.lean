import MiniOpera.ExecQueue

/-!
# What the queue loses

`Inv s w`: in every run without `quit` the taken calls and those in `w`, which wait,
are accepted calls in the order of acceptance. One step keeps it (`step_keeps`), and
says when something is lost: what waits stays among the taken and the waiting calls
unless the worker drops a call that it was not given. `exec_queue_keeps_iff` follows by
induction on the run.
-/

namespace MiniOpera.QueuedCalls
open Queueing

variable {α : Type}

/-! ## What every step keeps -/

/-- The calls in `w` wait. -/
structure Ledger (s : System α) (w : List (Call α)) : Prop where
  opened : s.q.closed = false
  numbered : ∀ c ∈ s.accepted, c.number < s.accepted.length
  distinct : s.accepted.Nodup
  order : (s.taken ++ w).Sublist s.accepted
  known : ∀ c ∈ s.cleared, c ∈ s.accepted
  fresh : ∀ c ∈ w, c ∉ s.cleared

/-- Which part of the slice waits: all of it, unless the running function is in front. -/
inductive Waits (s : System α) (w : List (Call α)) : Prop
  | idle (free : s.worker.busy = none) (all : s.q.funcs = w)
  | front (c : Call α) (busy : s.worker.busy = some c) (there : s.q.funcs = c :: w)
      (uncleared : c ∉ s.cleared)
  | gone (c : Call α) (busy : s.worker.busy = some c) (cleared : c ∈ s.cleared)
  (all : s.q.funcs = w)

/-- Holds in every run without `quit`. -/
structure Inv (s : System α) (w : List (Call α)) : Prop where
  ledger : Ledger s w
  waits : Waits s w
  asleep : s.worker = .waiting → s.q.funcs = []
  loops : s.worker ≠ .ended
  given : ∀ c, s.worker.busy = some c → c ∈ s.taken

/-- Nothing is lost so far. -/
def Kept (s : System α) (w : List (Call α)) : Prop :=
  ∀ c ∈ s.accepted, c ∉ s.cleared → c ∈ s.taken ++ w

section Steps

variable {s s' : System α} {w : List (Call α)} {a : Action α}

theorem inv_new (capacity : Nat) : Inv (System.new capacity : System α) [] where
  ledger := ⟨rfl, by simp [System.new], .nil, .refl _, by simp [System.new], by simp⟩
  waits := .idle rfl rfl
  asleep h := by cases h
  loops h := by cases h
  given c h := by cases h

theorem take_nil (hopen : s.q.closed = false) (hall : s.q.funcs = []) :
    s.take = { s with worker := .waiting } := by
  rw [System.take, ExecQueue.next, hopen, hall]
  rfl

theorem take_cons {c : Call α} (hopen : s.q.closed = false) (hall : s.q.funcs = c :: w) :
    s.take = { s with worker := .running c, taken := s.taken ++ [c] } := by
  rw [System.take, ExecQueue.next, hopen, hall]
  rfl

theorem take_empty (h : Ledger s []) (hall : s.q.funcs = []) : Inv s.take [] := by
  rw [take_nil h.opened hall]
  obtain ⟨opened, numbered, distinct, order, known, fresh⟩ := h
  refine ⟨⟨opened, numbered, distinct, order, known, fresh⟩, .idle rfl hall,
    fun _ => hall, ?_, ?_⟩
  · intro heq
    cases heq
  · intro c heq
    cases heq

theorem take_first {c : Call α} (h : Ledger s (c :: w)) (hall : s.q.funcs = c :: w) :
    Inv s.take w := by
  rw [take_cons h.opened hall]
  have horder : (s.taken ++ [c] ++ w).Sublist s.accepted := by
    rw [List.append_assoc, List.singleton_append]
    exact h.order
  refine ⟨⟨h.opened, h.numbered, h.distinct, horder, h.known, ?_⟩,
    .front c rfl hall (h.fresh c List.mem_cons_self), ?_, ?_, ?_⟩
  · exact fun x hx => h.fresh x (List.mem_cons_of_mem c hx)
  · intro heq
    cases heq
  · intro heq
    cases heq
  · intro x hx
    cases hx
    exact List.mem_append_right _ (List.mem_singleton_self c)

/-- With the whole slice waiting, the worker gets the first of it or goes to sleep. -/
theorem take_spec (h : Ledger s w) (hall : s.q.funcs = w) :
    ∃ w', Inv s.take w' ∧ s.take.taken ++ w' = s.taken ++ w ∧ s.take.accepted = s.accepted ∧
      s.take.cleared = s.cleared := by
  cases w with
  | nil =>
    refine ⟨[], take_empty h hall, ?_⟩
    rw [take_nil h.opened hall]
    exact ⟨rfl, rfl, rfl⟩
  | cons c w =>
    refine ⟨w, take_first h hall, ?_⟩
    rw [take_cons h.opened hall]
    exact ⟨List.append_assoc .., rfl, rfl⟩

/-- `Kept` reads three lists. -/
theorem kept_congr {w' : List (Call α)} (haccepted : s'.accepted = s.accepted)
    (hcleared : s'.cleared = s.cleared) (hlist : s'.taken ++ w' = s.taken ++ w) :
    Kept s' w' ↔ Kept s w := by
  rw [Kept, Kept, haccepted, hcleared, hlist]

theorem signal_busy (v : Worker α) : v.signal.busy = v.busy := by cases v <;> rfl

theorem signal_ne_waiting (v : Worker α) : v.signal ≠ .waiting := by
  cases v <;> (intro h; cases h)

theorem signal_ne_ended {v : Worker α} (h : v ≠ .ended) : v.signal ≠ .ended := by
  cases v with
  | ended => exact absurd rfl h
  | _ => intro h; cases h

theorem busy_mem (h : Inv s w) {c : Call α} (hc : c ∈ s.q.funcs) : c ∈ s.taken ++ w := by
  cases h.waits with
  | idle free all => exact List.mem_append_right _ (all ▸ hc)
  | front b busy there uncleared =>
    rw [there] at hc
    rcases List.mem_cons.mp hc with rfl | hc
    · exact List.mem_append_left _ (h.given _ busy)
    · exact List.mem_append_right _ hc
  | gone b busy cleared all => exact List.mem_append_right _ (all ▸ hc)

theorem all_of_free (h : Inv s w) (hfree : s.worker.busy = none) : s.q.funcs = w := by
  cases h.waits with
  | idle free all => exact all
  | front b busy there uncleared => rw [hfree] at busy; cases busy
  | gone b busy cleared all => rw [hfree] at busy; cases busy

theorem waiting_mem (h : Inv s w) {c : Call α} (hc : c ∈ w) : c ∈ s.q.funcs := by
  cases h.waits with
  | idle free all => exact all ▸ hc
  | front b busy there uncleared => exact there ▸ List.mem_cons_of_mem b hc
  | gone b busy cleared all => exact all ▸ hc

/-- The number of the next call is new. -/
theorem Ledger.number_new (h : Ledger s w) (f : α) {c : Call α} (hc : c ∈ s.accepted) :
    c ≠ ⟨s.accepted.length, f⟩ := by
  rintro rfl
  exact Nat.lt_irrefl _ (h.numbered _ hc)

theorem Ledger.accept (h : Ledger s w) (f : α) :
    Ledger (s.accept f) (w ++ [⟨s.accepted.length, f⟩]) := by
  refine ⟨h.opened, ?_, ?_, ?_, ?_, ?_⟩
  · intro c hc
    rw [System.accept, List.length_append, List.length_singleton]
    rcases List.mem_append.mp hc with hc | hc
    · exact Nat.lt_succ_of_lt (h.numbered c hc)
    · rw [List.mem_singleton.mp hc]
      exact Nat.lt_succ_self _
  · refine List.nodup_append.mpr ⟨h.distinct, List.pairwise_singleton _ _, ?_⟩
    intro c hc b hb
    rw [List.mem_singleton.mp hb]
    exact h.number_new f hc
  · show (s.taken ++ (w ++ _)).Sublist _
    rw [← List.append_assoc]
    exact h.order.append (.refl _)
  · exact fun c hc => List.mem_append_left _ (h.known c hc)
  · intro c hc
    rcases List.mem_append.mp hc with hc | hc
    · exact h.fresh c hc
    · rw [List.mem_singleton.mp hc]
      exact fun hcleared => h.number_new f (h.known _ hcleared) rfl

/-- The new call is behind the others in the slice. -/
theorem Waits.accept (h : Waits s w) (f : α) : Waits (s.accept f)
    (w ++ [⟨s.accepted.length, f⟩]) := by
  cases h with
  | idle free all => exact .idle ((signal_busy _).trans free) (by rw [← all]; rfl)
  | front b busy there uncleared =>
    refine .front b ((signal_busy _).trans busy) ?_ uncleared
    rw [← List.cons_append, ← there]
    rfl
  | gone b busy cleared all =>
    exact .gone b ((signal_busy _).trans busy) cleared (by rw [← all]; rfl)

theorem accept_keeps (h : Inv s w) (f : α) :
    Inv (s.accept f) (w ++ [⟨s.accepted.length, f⟩]) ∧
      (Kept (s.accept f) (w ++ [⟨s.accepted.length, f⟩]) ↔ Kept s w) := by
  refine ⟨⟨h.ledger.accept f, h.waits.accept f, ?_, signal_ne_ended h.loops, ?_⟩, ?_⟩
  · exact fun heq => absurd heq (signal_ne_waiting _)
  · exact fun c hc => h.given c ((signal_busy _).symm.trans hc)
  · constructor
    · intro hkept c hc hnot
      have hmem := hkept c (List.mem_append_left _ hc) hnot
      rw [← List.append_assoc] at hmem
      rcases List.mem_append.mp hmem with hmem | hmem
      · exact hmem
      · exact absurd (List.mem_singleton.mp hmem) (h.ledger.number_new f hc)
    · intro hkept c hc hnot
      show c ∈ s.taken ++ (w ++ _)
      rw [← List.append_assoc]
      rcases List.mem_append.mp hc with hc | hc
      · exact List.mem_append_left _ (hkept c hc hnot)
      · exact List.mem_append_right _ hc

theorem clear_keeps (h : Inv s w) :
    Inv { s with q := s.q.clear, cleared := s.cleared ++ s.q.funcs } [] ∧
      (Kept { s with q := s.q.clear, cleared := s.cleared ++ s.q.funcs } [] ↔ Kept s w) := by
  have hsub : ∀ c ∈ s.q.funcs, c ∈ s.accepted := fun c hc =>
    h.ledger.order.subset (busy_mem h hc)
  refine ⟨⟨⟨h.ledger.opened, h.ledger.numbered, h.ledger.distinct, ?_, ?_, ?_⟩,
    ?_, fun _ => rfl,
    h.loops, h.given⟩, ?_⟩
  · show (s.taken ++ []).Sublist s.accepted
    rw [List.append_nil]
    exact (List.sublist_append_left _ w).trans h.ledger.order
  · intro c hc
    rcases List.mem_append.mp hc with hc | hc
    · exact h.ledger.known c hc
    · exact hsub c hc
  · intro c hc
    cases hc
  · cases h.waits with
    | idle free all => exact .idle free rfl
    | front b busy there uncleared =>
      exact .gone b busy (List.mem_append_right _ (there ▸ List.mem_cons_self)) rfl
    | gone b busy cleared all => exact .gone b busy (List.mem_append_left _ cleared) rfl
  · constructor
    · intro hkept c hc hnot
      by_cases hin : c ∈ s.q.funcs
      · exact busy_mem h hin
      · have hmem := hkept c hc fun hmem => (List.mem_append.mp hmem).elim hnot hin
        rw [List.append_nil] at hmem
        exact List.mem_append_left _ hmem
    · intro hkept c hc hnot
      rw [List.mem_append, not_or] at hnot
      rcases List.mem_append.mp (hkept c hc hnot.1) with hmem | hmem
      · exact List.mem_append_left _ hmem
      · exact absurd (waiting_mem h hmem) hnot.2

/-- A waiting call that is dropped is lost. -/
theorem Ledger.lost {g : Call α} (h : Ledger s (g :: w)) : ¬ Kept s w := by
  intro hkept
  have hg : g ∈ s.accepted := h.order.subset (List.mem_append_right _ List.mem_cons_self)
  have hmem := hkept g hg (h.fresh g List.mem_cons_self)
  have hnodup := h.distinct.sublist h.order
  rw [List.nodup_append, List.nodup_cons] at hnodup
  obtain ⟨-, ⟨hgw, -⟩, hdisjoint⟩ := hnodup
  rcases List.mem_append.mp hmem with hmem | hmem
  · exact hdisjoint g hmem g List.mem_cons_self rfl
  · exact hgw hmem

/-- The worker comes back: what is in front is dropped, be it the function that ran or not. -/
theorem return_keeps (h : Inv s w) {c : Call α} (hran : s.worker = .ran c) :
    ∃ w', Inv { s with q := s.q.drop }.take w' ∧
      (Kept { s with q := s.q.drop }.take w' ↔ Kept s w ∧
        (c ∈ s.cleared → s.q.funcs = [])) := by
  have hbusy : s.worker.busy = some c := by rw [hran]; rfl
  -- with the front of the slice dropped, all the rest waits
  have htake : ∀ v, s.q.funcs.tail = v → (s.taken ++ v).Sublist s.accepted →
      (∀ x ∈ v, x ∉ s.cleared) →
      ∃ w', Inv { s with q := s.q.drop }.take w' ∧
        ({ s with q := s.q.drop } : System α).take.taken ++ w' = s.taken ++ v ∧
        ({ s with q := s.q.drop } : System α).take.accepted = s.accepted ∧
        ({ s with q := s.q.drop } : System α).take.cleared = s.cleared :=
    fun v hv horder hfresh => take_spec (s := { s with q := s.q.drop })
      ⟨h.ledger.opened, h.ledger.numbered, h.ledger.distinct, horder, h.ledger.known, hfresh⟩ hv
  cases h.waits with
  | idle free all => rw [free] at hbusy; cases hbusy
  | front b busy there uncleared =>
    rw [hbusy] at busy
    cases busy
    obtain ⟨w', hinv, hlist, haccepted, hcleared⟩ := htake w (by rw [there]; rfl) h.ledger.order
      h.ledger.fresh
    refine ⟨w', hinv, ?_⟩
    rw [kept_congr haccepted hcleared hlist]
    exact (and_iff_left fun hc => absurd hc uncleared).symm
  | gone b busy cleared all =>
    rw [hbusy] at busy
    cases busy
    cases w with
    | nil =>
      obtain ⟨w', hinv, hlist, haccepted, hcleared⟩ :=
        htake [] (by rw [all]; rfl) h.ledger.order
        h.ledger.fresh
      refine ⟨w', hinv, ?_⟩
      rw [kept_congr haccepted hcleared hlist]
      exact (and_iff_left fun _ => all).symm
    | cons g w =>
      -- a call that was queued after the clear is in front, and is lost
      have hsub : (s.taken ++ w).Sublist (s.taken ++ g :: w) :=
        (List.Sublist.refl _).append (List.sublist_cons_self g w)
      obtain ⟨w', hinv, hlist, haccepted, hcleared⟩ := htake w (by rw [all]; rfl)
        (hsub.trans h.ledger.order) fun x hx => h.ledger.fresh x (List.mem_cons_of_mem g hx)
      refine ⟨w', hinv, ?_⟩
      rw [kept_congr (w := w) haccepted hcleared hlist]
      constructor
      · exact fun hkept => absurd hkept h.ledger.lost
      · rintro ⟨-, hempty⟩
        rw [all] at hempty
        exact absurd (hempty cleared) (List.cons_ne_nil g w)

theorem careful_of_not_ran (h : ∀ c, s.worker ≠ .ran c) : CarefulStep s .work :=
  fun c hran => absurd hran (h c)

/-- A worker that comes from no function takes nothing away. -/
theorem take_keeps (h : Inv s w) (hfree : s.worker.busy = none) :
    ∃ w', Inv s.take w' ∧ (Kept s.take w' ↔ Kept s w ∧ CarefulStep s .work) := by
  have hcareful : CarefulStep s .work := by
    refine careful_of_not_ran fun c hran => ?_
    rw [hran] at hfree
    cases hfree
  obtain ⟨w', hinv, hlist, haccepted, hcleared⟩ := take_spec h.ledger (all_of_free h hfree)
  exact ⟨w', hinv, (kept_congr haccepted hcleared hlist).trans (and_iff_left hcareful).symm⟩

/-- The function returns. -/
theorem running_keeps (h : Inv s w) {c : Call α} (hworker : s.worker = .running c) :
    Inv { s with worker := .ran c } w := by
  have hbusy : (Worker.ran c).busy = s.worker.busy := by rw [hworker]; rfl
  obtain ⟨opened, numbered, distinct, order, known, fresh⟩ := h.ledger
  refine ⟨⟨opened, numbered, distinct, order, known, fresh⟩, ?_, ?_, ?_,
    fun x hx => h.given x (hbusy.symm.trans hx)⟩
  · cases h.waits with
    | idle free all => exact .idle (hbusy.trans free) all
    | front b busy there uncleared => exact .front b (hbusy.trans busy) there uncleared
    | gone b busy cleared all => exact .gone b (hbusy.trans busy) cleared all
  · intro heq
    cases heq
  · intro heq
    cases heq

theorem work_keeps (h : Inv s w) (hstep : s.work = some s') :
    ∃ w', Inv s' w' ∧ (Kept s' w' ↔ Kept s w ∧ CarefulStep s .work) := by
  unfold System.work at hstep
  cases hworker : s.worker with
  | started =>
    rw [hworker] at hstep
    cases hstep
    exact take_keeps h (by rw [hworker]; rfl)
  | waiting =>
    rw [hworker] at hstep
    cases hstep
  | signalled =>
    rw [hworker] at hstep
    cases hstep
    exact take_keeps h (by rw [hworker]; rfl)
  | running c =>
    rw [hworker] at hstep
    cases hstep
    have hcareful : CarefulStep s .work := by
      refine careful_of_not_ran fun x hran => ?_
      rw [hworker] at hran
      cases hran
    exact ⟨w, running_keeps h hworker, (and_iff_left hcareful).symm⟩
  | ran c =>
    rw [hworker] at hstep
    cases hstep
    obtain ⟨w', hinv, hkept⟩ := return_keeps h hworker
    refine ⟨w', hinv, hkept.trans (and_congr_right fun _ => ?_)⟩
    constructor
    · intro hcond x hran
      rw [hworker] at hran
      cases hran
      exact hcond
    · exact fun hcond => hcond c hworker
  | ended => exact absurd hworker h.loops

/-- One step: the invariant holds again, and what was lost before, or is lost by
a careless step, stays lost. -/
theorem step_keeps (h : Inv s w) (hopen : a ≠ .quit) (hstep : s.step a = some s') :
    ∃ w', Inv s' w' ∧ (Kept s' w' ↔ Kept s w ∧ CarefulStep s a) := by
  cases a with
  | queue f =>
    rw [step_queue] at hstep
    cases hstep
    split
    · obtain ⟨hinv, hkept⟩ := accept_keeps h f
      exact ⟨_, hinv, hkept.trans (and_iff_left trivial).symm⟩
    · exact ⟨w, h, (and_iff_left trivial).symm⟩
  | clear =>
    cases hstep
    obtain ⟨hinv, hkept⟩ := clear_keeps h
    exact ⟨[], hinv, hkept.trans (and_iff_left trivial).symm⟩
  | quit => exact absurd rfl hopen
  | work => exact work_keeps h hstep

/-- A run, by induction on its steps. -/
theorem run_keeps {actions : List (Action α)} (h : Inv s w) (hopen : .quit ∉ actions)
    (hrun : s.run actions = some s') :
    ∃ w', Inv s' w' ∧ (Kept s' w' ↔ Kept s w ∧ Careful s actions) := by
  induction actions generalizing s w with
  | nil =>
    cases hrun
    exact ⟨w, h, (and_iff_left trivial).symm⟩
  | cons a rest ih =>
    rw [List.mem_cons, not_or] at hopen
    obtain ⟨t, hstep, hrest⟩ := Option.bind_eq_some_iff.mp hrun
    obtain ⟨v, hinv, hkept⟩ := step_keeps h (Ne.symm hopen.1) hstep
    obtain ⟨w', hinv', hkept'⟩ := ih hinv hopen.2 hrest
    refine ⟨w', hinv', ?_⟩
    rw [hkept', hkept, Careful, and_assoc]
    refine and_congr_right fun _ => and_congr_right fun _ => ?_
    constructor
    · intro hcareful t' ht'
      rw [hstep] at ht'
      cases ht'
      exact hcareful
    · exact fun hcareful => hcareful t hstep

theorem nothingLost_iff (h : Inv s w) : NothingLost s ↔ Kept s w := by
  constructor
  · intro hlost c hc hnot
    rcases hlost.kept c hc hnot with hmem | hmem
    · exact List.mem_append_left _ hmem
    · exact busy_mem h hmem
  · intro hkept
    refine ⟨h.ledger.distinct, (List.sublist_append_left _ w).trans h.ledger.order, ?_⟩
    intro c hc hnot
    rcases List.mem_append.mp (hkept c hc hnot) with hmem | hmem
    · exact .inl hmem
    · exact .inr (waiting_mem h hmem)

/-! ## Progress -/

/-- No wake-up is lost: a worker with something to take has a step. -/
theorem work_enabled (h : Inv s w) (hw : w ≠ []) : s.work ≠ none := by
  unfold System.work
  cases hworker : s.worker with
  | waiting =>
    obtain ⟨c, hc⟩ := List.exists_mem_of_ne_nil w hw
    have hmem := waiting_mem h hc
    rw [h.asleep hworker] at hmem
    cases hmem
  | ended => exact absurd hworker h.loops
  | _ => exact Option.some_ne_none _

/-- A careful step of the worker: a function returns, or the whole of `w` is in the slice when
the next one is taken. -/
theorem work_cases (h : Inv s w) (hcareful : CarefulStep s .work) (hstep : s.work = some s') :
    (∃ c, s.worker = .running c ∧ s' = { s with worker := .ran c }) ∨
      ((∀ c, s.worker ≠ .running c) ∧
        ∃ t, Ledger t w ∧ t.q.funcs = w ∧ t.taken = s.taken ∧ s' = t.take) := by
  unfold System.work at hstep
  cases hworker : s.worker with
  | waiting => rw [hworker] at hstep; cases hstep
  | ended => exact absurd hworker h.loops
  | running c =>
    rw [hworker] at hstep
    cases hstep
    exact .inl ⟨c, rfl, rfl⟩
  | ran c =>
    rw [hworker] at hstep
    cases hstep
    have hbusy : s.worker.busy = some c := by rw [hworker]; rfl
    have htail : s.q.funcs.tail = w := by
      cases h.waits with
      | idle free all => rw [hbusy] at free; cases free
      | front b busy there uncleared => rw [there]; rfl
      | gone b busy cleared all =>
        rw [hbusy] at busy
        cases busy
        rw [← all, hcareful c hworker cleared]
        rfl
    refine .inr ⟨(fun x hx => by cases hx), { s with q := s.q.drop }, ?_, htail, rfl, rfl⟩
    obtain ⟨opened, numbered, distinct, order, known, fresh⟩ := h.ledger
    exact ⟨opened, numbered, distinct, order, known, fresh⟩
  | started =>
    rw [hworker] at hstep
    cases hstep
    exact .inr ⟨(fun x hx => by cases hx), s, h.ledger, all_of_free h (by rw [hworker]; rfl), rfl,
      rfl⟩
  | signalled =>
    rw [hworker] at hstep
    cases hstep
    exact .inr ⟨(fun x hx => by cases hx), s, h.ledger, all_of_free h (by rw [hworker]; rfl), rfl,
      rfl⟩

/-- The steps of the worker before its next call of `waitNext`. -/
def delay (s : System α) : Nat :=
  match s.worker with
  | .running _ => 1
  | _ => 0

theorem delay_running {c : Call α} (h : s.worker = .running c) : delay s = 1 := by
  rw [delay, h]

theorem delay_ready (h : ∀ c, s.worker ≠ .running c) : delay s = 0 := by
  unfold delay
  split
  · next c hrunning => exact absurd hrunning (h c)
  · rfl

theorem delay_accept (s : System α) (f : α) : delay (s.accept f) = delay s := by
  unfold delay System.accept
  cases s.worker <;> rfl

/-- While nothing is cleared, `2 * j` steps of the worker are enough for the first `j` calls
that wait. By induction on the run; a function takes two steps, its call and the way back. -/
theorem run_takes {more : List (Action α)} (h : Inv s w) (hopen : .quit ∉ more)
    (hclear : .clear ∉ more) (hrun : s.run more = some s') (hcareful : Careful s more) {j : Nat}
    (hj : j ≤ w.length) (hcount : 2 * j + delay s ≤ more.countP Action.isWork + 1) :
    (s.taken ++ w.take j) <+: s'.taken := by
  induction more generalizing s w j with
  | nil =>
    cases hrun
    obtain rfl : j = 0 := by simp only [List.countP_nil] at hcount; omega
    simp
  | cons a rest ih =>
    rw [List.mem_cons, not_or] at hopen hclear
    obtain ⟨t, hstep, hrest⟩ := Option.bind_eq_some_iff.mp hrun
    have hcarefulRest := hcareful.2 t hstep
    cases a with
    | quit => exact absurd rfl hopen.1
    | clear => exact absurd rfl hclear.1
    | queue f =>
      rw [List.countP_cons_of_neg (by simp [Action.isWork])] at hcount
      rw [step_queue] at hstep
      by_cases hcan : s.q.canQueue = true
      · rw [if_pos hcan] at hstep
        cases hstep
        have happend := ih (j := j) (accept_keeps h f).1 hopen.2 hclear.2 hrest hcarefulRest
          (by rw [List.length_append]; omega) (by rw [delay_accept]; exact hcount)
        rw [List.take_append_of_le_length hj] at happend
        exact happend
      · rw [if_neg hcan] at hstep
        cases hstep
        exact ih h hopen.2 hclear.2 hrest hcarefulRest hj hcount
    | work =>
      rw [List.countP_cons_of_pos (by rfl)] at hcount
      rcases work_cases h hcareful.1 hstep with ⟨c, hworker, rfl⟩ | ⟨hready, u,
        hledger, hall, htaken, rfl⟩
      · have hdelay := delay_running hworker
        exact ih (running_keeps h hworker) hopen.2 hclear.2 hrest hcarefulRest hj
          (by show 2 * j + 0 ≤ _; omega)
      · have hzero := delay_ready hready
        cases w with
        | nil =>
          have hprefix := ih (j := j) (take_empty hledger hall) hopen.2 hclear.2
            hrest hcarefulRest hj
            (by
              rw [take_nil hledger.opened hall]
              show 2 * j + 0 ≤ _
              simp only [List.length_nil] at hj
              omega)
          rw [take_nil hledger.opened hall] at hprefix
          rw [← htaken]
          exact hprefix
        | cons c v =>
          have hprefix := ih (j := j - 1) (take_first hledger hall) hopen.2
            hclear.2 hrest hcarefulRest
            (by rw [List.length_cons] at hj; omega)
            (by rw [take_cons hledger.opened hall]; show 2 * (j - 1) + 1 ≤ _; omega)
          rw [take_cons hledger.opened hall] at hprefix
          refine List.IsPrefix.trans ?_ hprefix
          show s.taken ++ (c :: v).take j <+: u.taken ++ [c] ++ v.take (j - 1)
          rw [htaken, List.append_assoc, List.prefix_append_right_inj]
          cases j with
          | zero => exact List.nil_prefix
          | succ j => exact List.prefix_refl _

theorem delay_le (s : System α) : delay s ≤ 1 := by
  unfold delay
  split
  · exact Nat.le_refl 1
  · exact Nat.zero_le 1

theorem waiting_length (h : Inv s w) : w.length ≤ s.q.funcs.length := by
  cases h.waits with
  | idle free all => exact Nat.le_of_eq (by rw [all])
  | front b busy there uncleared => rw [there]; exact Nat.le_succ _
  | gone b busy cleared all => exact Nat.le_of_eq (by rw [all])

end Steps

/-- The queue loses nothing exactly in the careful runs: those in which no call that was
queued after a `clear` is in the queue when the function returns that was running at the
`clear`. In every run a call that waits leaves the worker a step to do, and
as long as nothing is cleared the worker takes it after two steps for each call in the queue. -/
theorem exec_queue_keeps_iff (capacity : Nat) (actions : List (Action α)) (s : System α)
    (hopen : .quit ∉ actions) (hrun : (System.new capacity).run actions = some s) :
    (NothingLost s ↔ Careful (System.new capacity) actions) ∧
      ((∃ c ∈ s.q.funcs, c ∉ s.taken) → s.work ≠ none) ∧
      ∀ more s', .quit ∉ more → .clear ∉ more → s.run more = some s' →
        Careful s more →
        2 * s.q.funcs.length ≤ more.countP Action.isWork →
          ∀ c ∈ s.q.funcs, c ∈ s'.taken := by
  obtain ⟨w, hinv, hkept⟩ := run_keeps (inv_new capacity) hopen hrun
  have hnew : Kept (System.new capacity : System α) [] := by
    intro c hc
    cases hc
  refine ⟨?_, ?_, ?_⟩
  · rw [nothingLost_iff hinv, hkept]
    exact and_iff_right hnew
  · rintro ⟨c, hc, hnot⟩
    apply work_enabled hinv
    rintro rfl
    have hmem := busy_mem hinv hc
    rw [List.append_nil] at hmem
    exact hnot hmem
  · intro more s' hopen' hclear hmore hcareful hcount c hc
    have hlen := waiting_length hinv
    have hdelay := delay_le s
    have hprefix := run_takes (j := w.length) hinv hopen' hclear hmore hcareful (Nat.le_refl _)
      (by omega)
    rw [List.take_length] at hprefix
    exact hprefix.subset (busy_mem hinv hc)

/-- A clear while a function runs, and a call queued after that function has returned. -/
theorem exec_queue_keeps_iff_later :
    (System.new 4).run [.queue 1, .queue 2, .work, .clear, .work, .work, .queue 3, .work] =
        some ⟨⟨[⟨2, 3⟩], 4, false⟩, .running ⟨2, 3⟩,
          [⟨0, 1⟩, ⟨1, 2⟩, ⟨2, 3⟩], [⟨0, 1⟩, ⟨2, 3⟩],
          [⟨0, 1⟩, ⟨1, 2⟩]⟩ ∧
      Careful (System.new 4)
        [.queue 1, .queue 2, .work, .clear, .work, .work, .queue 3, .work] := by
  have hrun : (System.new 4).run [.queue 1, .queue 2, .work, .clear, .work,
    .work, .queue 3, .work] =
      some ⟨⟨[⟨2, 3⟩], 4, false⟩, .running ⟨2, 3⟩,
        [⟨0, 1⟩, ⟨1, 2⟩, ⟨2, 3⟩], [⟨0, 1⟩, ⟨2, 3⟩],
        [⟨0, 1⟩, ⟨1, 2⟩]⟩ := rfl
  refine ⟨hrun, (exec_queue_keeps_iff 4 _ _ (by decide) hrun).1.mp ⟨?_, ?_, ?_⟩⟩
  · decide
  · decide
  · decide

/-- The function 1 runs, `clear` is called, the function 2 is queued, and 1 returns:
2 was accepted and never cleared, but it was not taken and is gone from the queue. -/
theorem queued_after_clear_lost :
    ∃ s : System Nat, (System.new 4).run [.queue 1, .work, .clear, .queue 2, .work, .work] =
      some s ∧
      (⟨1, 2⟩ : Call Nat) ∈ s.accepted ∧ (⟨1, 2⟩ : Call Nat) ∉ s.cleared ∧
      (⟨1, 2⟩ : Call Nat) ∉ s.taken ∧ s.q.funcs = [] ∧ ¬ NothingLost s := by
  refine ⟨_, rfl, by decide, by decide, by decide, rfl, ?_⟩
  intro h
  have hkept := h.kept ⟨1, 2⟩ (by decide) (by decide)
  revert hkept
  decide

end MiniOpera.QueuedCalls
