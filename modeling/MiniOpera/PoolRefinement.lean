import MiniOpera.Roster
import MiniOpera.SelectionMap

/-!
# The pool refines the roster

`Refines trusted p v`: the objects, the map and the counters of the pool are those
of the roster, its queues hold the tables, and its selections hold entries of
the tables only. `handle_refines`: every message to the pool is then a step of
the roster. The handlers that dial nothing always return; those that dial
are followed as far as they return.
-/

namespace MiniOpera.PoolRefinement
open GoRuntime RandSelect SelectionMap EntryQueue Pool PoolRoster Roster

/-! ## Selections -/

/-- A well-formed selection of entries of `S`, with any weights. -/
def Stocked (w : WeightedRandomSelect Ref) (S : Finset Ref) : Prop :=
  Indexed w ∧ ∀ r, w.idx r ≠ none → r ∈ S

section Stocked

variable {w w' : WeightedRandomSelect Ref} {S S' : Finset Ref} {r : Ref}

theorem stocked_new (S : Finset Ref) : Stocked .new S :=
  ⟨represents_new.indexed, fun _ hr => absurd rfl hr⟩

theorem Stocked.mono (h : Stocked w S) (hsub : S ⊆ S') : Stocked w S' :=
  ⟨h.1, fun r hr => hsub (h.2 r hr)⟩

theorem Stocked.setWeight (h : Stocked w S) (hr : r ∈ S) (v : Int) :
    ∃ w', w.setWeight r v = .ok w' ∧ Stocked w' S := by
  obtain ⟨w', hcall, hw', -, hothers⟩ := setWeight_indexed h.1 r v
  refine ⟨w', hcall, hw', ?_⟩
  intro x hx
  by_cases hxr : x = r
  · rw [hxr]
    exact hr
  · rw [hothers x hxr] at hx
    exact h.2 x hx

/-- An entry that is removed is not selected any more, whether or not it was. -/
theorem Stocked.remove (h : Stocked w S) (r : Ref) :
    ∃ w', w.remove r = .ok w' ∧ Stocked w' (S.erase r) := by
  obtain ⟨w', hcall, hw', hnone, hothers⟩ := setWeight_indexed h.1 r 0
  refine ⟨w', hcall, hw', ?_⟩
  intro x hx
  by_cases hxr : x = r
  · rw [hxr, hnone rfl] at hx
    exact absurd rfl hx
  · rw [hothers x hxr] at hx
    exact Finset.mem_erase.mpr ⟨hxr, h.2 x hx⟩

theorem Stocked.choose (h : Stocked w S) {random coin : Nat → Nat} {weight : Nat → Ref → Int}
    {fuel t : Nat} {o : Option Ref} (hok : w.choose random coin weight fuel t = .ok (o, w')) :
    Stocked w' S ∧ ∀ r, o = some r → r ∈ S := by
  obtain ⟨hw', hkept, hpick⟩ := choose_indexed h.1 hok
  exact ⟨⟨hw', fun r hr => h.2 r (hkept r hr)⟩, fun r hr => h.2 r (hpick r hr)⟩

end Stocked

variable {ι K F : Type}

/-! ## The relation -/

def memberOf (e : PoolEntry ι K F) : Member ι :=
  ⟨e.node.id, e.state, e.known, e.knownSelected, e.removed⟩

/-- The entries of both tables, and the entry `o`. -/
def places (v : Roster ι) (o : Option Ref) : Finset Ref :=
  (v.table true ++ v.table false).toFinset ∪ o.toFinset

theorem mem_places {v : Roster ι} {o : Option Ref} {r : Ref} :
    r ∈ places v o ↔ o = some r ∨ ∃ k, r ∈ v.table k := by
  simp [places, or_comm, or_assoc]

/-- The pool and the roster agree; the entry `o` may be out of its queue for now. -/
structure RefinesBut (trusted : ι → Bool) (p : ServerPool ι K F)
    (v : Roster ι) (o : Option Ref) :
    Prop where
  trusts : p.trustedNodes = trusted
  member : ∀ r, memberOf (p.heap r) = v.member r
  next : p.next = v.next
  entries : p.entries = v.entries
  selected : ∀ k, p.selected k = v.selected k
  queue : ∀ k, Queued (p.queue k) p.queueIdx (v.table k)
  maxCnt : ∀ k, (p.queue k).maxCnt = maxEntries k
  select : ∀ k, Stocked (p.select k) (places v o)
  timers : ∀ r, r ∈ p.dialTimers ∨ r ∈ p.retryTimers → r < v.next ∧
    trusted (v.member r).id = false
  sound : SoundBut trusted v o

def Refines (trusted : ι → Bool) (p : ServerPool ι K F) (v : Roster ι) : Prop :=
  RefinesBut trusted p v none

section Refines

variable {trusted : ι → Bool} {p p' : ServerPool ι K F} {v v' : Roster ι}
  {o : Option Ref} {r : Ref}

theorem RefinesBut.member_id (h : RefinesBut trusted p v o) (r : Ref) :
    (p.heap r).node.id = (v.member r).id := congrArg Member.id (h.member r)

theorem RefinesBut.member_state (h : RefinesBut trusted p v o) (r : Ref) :
    (p.heap r).state = (v.member r).state := congrArg Member.state (h.member r)

theorem RefinesBut.member_known (h : RefinesBut trusted p v o) (r : Ref) :
    (p.heap r).known = (v.member r).known := congrArg Member.known (h.member r)

theorem RefinesBut.member_knownSelected (h : RefinesBut trusted p v o) (r : Ref) :
    (p.heap r).knownSelected = (v.member r).knownSelected :=
      congrArg Member.knownSelected (h.member r)

theorem RefinesBut.member_removed (h : RefinesBut trusted p v o) (r : Ref) :
    (p.heap r).removed = (v.member r).removed := congrArg Member.removed (h.member r)

theorem RefinesBut.handed_iff (h : RefinesBut trusted p v o) (r : Ref) :
    (p.heap r).handed = true ↔ v.Handed r := by
  rw [PoolEntry.handed, decide_eq_true_iff, h.member_state]
  exact Iff.rfl

theorem queueIdx_put {e : PoolEntry ι K F} (h : e.queueIdx = (p.heap r).queueIdx) :
    (p.put r e).queueIdx = p.queueIdx := by
  funext x
  by_cases hx : x = r
  · subst hx
    simp [ServerPool.queueIdx, ServerPool.put, h]
  · simp [ServerPool.queueIdx, ServerPool.put, hx]

/-- An entry changes in what the roster has of it. -/
theorem RefinesBut.put (h : RefinesBut trusted p v o) {e : PoolEntry ι K F}
    (hidx : e.queueIdx = (p.heap r).queueIdx) (hid : e.node.id = (p.heap r).node.id)
    {m : Member ι} (hm : memberOf e = m) (hsound : SoundBut trusted (v.put r m) o) :
    RefinesBut trusted (p.put r e) (v.put r m) o where
  trusts := h.trusts
  member x := by
    by_cases hx : x = r
    · subst hx
      rw [put_self, ← hm, p.heap_put_self]
    · rw [put_of_ne hx, ← h.member x, p.heap_put_of_ne e hx]
  next := h.next
  entries := h.entries
  selected := h.selected
  queue k := by
    rw [queueIdx_put hidx]
    exact h.queue k
  maxCnt := h.maxCnt
  select := h.select
  timers x hx := by
    obtain ⟨hlt, htrust⟩ := h.timers x hx
    refine ⟨hlt, ?_⟩
    by_cases hxr : x = r
    · subst hxr
      rw [put_self, ← hm]
      show trusted e.node.id = false
      rw [hid, h.member_id]
      exact htrust
    · rw [put_of_ne hxr]
      exact htrust
  sound := hsound

/-- An entry changes in what the roster does not have. -/
theorem RefinesBut.put_same (h : RefinesBut trusted p v o) {e : PoolEntry ι K F}
    (hidx : e.queueIdx = (p.heap r).queueIdx) (hm : memberOf e = memberOf (p.heap r)) :
    RefinesBut trusted (p.put r e) v o := by
  have hv : v.put r (memberOf e) = v := by
    rw [hm, h.member]
    unfold Roster.put
    rw [Function.update_eq_self]
  have hput := h.put hidx (congrArg Member.id hm) rfl (hv.symm ▸ h.sound)
  rw [hv] at hput
  exact hput

theorem RefinesBut.addSelected (h : RefinesBut trusted p v o) (k : Bool) (d : Int) :
    RefinesBut trusted (p.addSelected k d) (v.addSelected k d) o := by
  have hsel : ∀ j, (p.addSelected k d).selected j = (v.addSelected k d).selected j := by
    intro j
    have hj := h.selected j
    cases k <;> cases j <;>
      simp_all [ServerPool.selected, ServerPool.addSelected, Roster.addSelected, Function.update]
  cases k with
  | true =>
    exact ⟨h.trusts, h.member, h.next, h.entries, hsel, h.queue, h.maxCnt, h.select, h.timers,
      h.sound.addSelected true d⟩
  | false =>
    exact ⟨h.trusts, h.member, h.next, h.entries, hsel, h.queue, h.maxCnt, h.select, h.timers,
      h.sound.addSelected false d⟩

theorem RefinesBut.setSelect (h : RefinesBut trusted p v o) {k : Bool}
    {w : WeightedRandomSelect Ref}
    (hw : Stocked w (places v o)) : RefinesBut trusted (p.setSelect k w) v o := by
  cases k with
  | true =>
    refine ⟨h.trusts, h.member, h.next, h.entries, h.selected, h.queue, h.maxCnt,
      fun j => ?_, h.timers,
      h.sound⟩
    cases j with
    | true => exact hw
    | false => exact h.select false
  | false =>
    refine ⟨h.trusts, h.member, h.next, h.entries, h.selected, h.queue, h.maxCnt,
      fun j => ?_, h.timers,
      h.sound⟩
    cases j with
    | true => exact h.select true
    | false => exact hw

/-- New timers are for entries of the pool. -/
theorem RefinesBut.timed (h : RefinesBut trusted p v o) (dialTimers retryTimers : List Ref)
    (ht : ∀ x, x ∈ dialTimers ∨ x ∈ retryTimers →
      (x ∈ p.dialTimers ∨ x ∈ p.retryTimers) ∨ x < v.next ∧
        trusted (v.member x).id = false) :
    RefinesBut trusted { p with dialTimers := dialTimers, retryTimers := retryTimers } v o :=
  ⟨h.trusts, h.member, h.next, h.entries, h.selected, h.queue, h.maxCnt, h.select,
    fun x hx => (ht x hx).elim (h.timers x) id, h.sound⟩

/-! ## Dialing -/

section Dial

variable {env : Env ι K F} {call : Nat}

/-- An entry that is not idle is left alone. -/
theorem dial_refines (h : Refines trusted p v) (hr : v.Listed r) {known : Bool}
    (hok : p.dial env call r known = .ok p') :
    Refines trusted p' v ∨ v.Idle r ∧ Refines trusted p' (v.dial r known) := by
  unfold ServerPool.dial at hok
  split at hok
  · cases hok
    exact .inl h
  · next hdial =>
    have hidle : v.Idle r := by
      rw [Roster.Idle, ← h.member_state]
      by_contra hne
      exact hdial (.inr hne)
    obtain ⟨hlt, -, hid⟩ := h.sound.listed _ r hr
    obtain ⟨⟨a, addrSelect⟩, -, hret⟩ := bind_eq_ok hok
    cases hret
    refine .inr ⟨hidle, ?_⟩
    have hsound : Sound trusted
      (v.put r { v.member r with state := .dialed, knownSelected := known }) :=
      SoundBut.put h.sound rfl rfl rfl fun _ => ⟨hlt, hid⟩
    have hput := h.put (r := r) (e := { p.heap r with
      state := .dialed
      knownSelected := known
      addrSelect := addrSelect
      dialed := some a }) rfl rfl
      (by rw [← h.member]; rfl) hsound
    refine (hput.addSelected known 1).timed _ _ fun x hx => ?_
    have htimers : ∀ q : ServerPool ι K F, (q.addSelected known 1).dialTimers = q.dialTimers ∧
        (q.addSelected known 1).retryTimers = q.retryTimers := by
      intro q
      cases known <;> exact ⟨rfl, rfl⟩
    rw [List.mem_cons, or_assoc] at hx
    rcases hx with rfl | hx
    · refine .inr ⟨hlt, ?_⟩
      show trusted ((v.put x _).member x).id = false
      rw [put_self]
      exact hid
    · refine .inl ?_
      rw [(htimers _).1, (htimers _).2]
      rw [(htimers _).2] at hx
      exact hx

theorem dialNext_refines (h : Refines trusted p v) {v0 : Roster ι} (hd : Dials v0 v)
    {known found : Bool}
    (hok : p.dialNext env known call = .ok (found, p')) :
    ∃ v', Refines trusted p' v' ∧ Dials v0 v' := by
  obtain ⟨⟨choice, w⟩, hchoose, hok⟩ := bind_eq_ok hok
  obtain ⟨hstock, hpick⟩ := (h.select known).choose hchoose
  have hset := h.setSelect (k := known) hstock
  cases choice with
  | none =>
    cases hok
    exact ⟨v, hset, hd⟩
  | some r =>
    obtain ⟨p1, hdial, hret⟩ := bind_eq_ok hok
    cases hret
    obtain ⟨k, hk⟩ := (mem_places.mp (hpick r rfl)).resolve_left nofun
    have hlisted : v.Listed r := by
      rw [Roster.Listed, (h.sound.listed k r hk).2.1]
      exact hk
    rcases dial_refines hset hlisted hdial with hp | ⟨hidle, hp⟩
    · exact ⟨v, hp, hd⟩
    · exact ⟨_, hp, hd.dial hlisted hidle known⟩

/-- By the number of iterations. -/
theorem dialWhile_refines (h : Refines trusted p v) {v0 : Roster ι}
    (hd : Dials v0 v) {known : Bool}
    {more : ServerPool ι K F → Bool} {fuel : Nat} {out : Bool × Nat × ServerPool ι K F}
    (hok : ServerPool.dialWhile env known more fuel call p = .ok out) :
    ∃ v', Refines trusted out.2.2 v' ∧ Dials v0 v' := by
  induction fuel generalizing p v call with
  | zero => cases hok
  | succ fuel ih =>
    rw [ServerPool.dialWhile] at hok
    split at hok
    · obtain ⟨⟨found, p1⟩, hnext, hrest⟩ := bind_eq_ok hok
      obtain ⟨v1, hp1, hd1⟩ := dialNext_refines h hd hnext
      cases found with
      | true => exact ih hp1 hd1 hrest
      | false =>
        cases hrest
        exact ⟨v1, hp1, hd1⟩
    · cases hok
      exact ⟨v, h, hd⟩

theorem checkDial_refines (h : Refines trusted p v) (hok : p.checkDial env = .ok p') :
    ∃ v', Refines trusted p' v' ∧ Dials v v' := by
  obtain ⟨⟨noneKnown, call1, p1⟩, h1, hrest⟩ := bind_eq_ok hok
  obtain ⟨⟨b, call2, p2⟩, h2, hrest⟩ := bind_eq_ok hrest
  obtain ⟨v1, hp1, hd1⟩ := dialWhile_refines h (.refl v) h1
  obtain ⟨v2, hp2, hd2⟩ := dialWhile_refines hp1 hd1 h2
  dsimp only at hrest
  split at hrest
  · obtain ⟨⟨b', call3, p3⟩, h3, hret⟩ := bind_eq_ok hrest
    cases hret
    exact dialWhile_refines hp2 hd2 h3
  · cases hrest
    exact ⟨v2, hp2, hd2⟩

theorem updateCheckDial_refines (h : Refines trusted p v) (hr : v.Listed r)
    (hok : p.updateCheckDial env r = .ok p') : ∃ v', Refines trusted p' v' ∧ Dials v v' := by
  have hplace : r ∈ places v none := mem_places.mpr (.inr ⟨_, hr⟩)
  obtain ⟨newSelect, hnew, hcall⟩ := bind_eq_ok hok
  obtain ⟨knownSelect, hknown, hcheck⟩ := bind_eq_ok hcall
  obtain ⟨w, hw, hstock⟩ := (h.select false).setWeight hplace
    (discoveredWeight env 0 0 (p.heap r))
  obtain ⟨w', hw', hstock'⟩ := (h.select true).setWeight hplace (knownWeight env 1 0 (p.heap r))
  obtain rfl : newSelect = w := Except.ok.inj (hnew.symm.trans hw)
  obtain rfl : knownSelect = w' := Except.ok.inj (hknown.symm.trans hw')
  exact checkDial_refines ((h.setSelect (k := false) hstock).setSelect (k := true) hstock') hcheck

end Dial

theorem release_refines (h : Refines trusted p v) (hlt : r < v.next)
    (hid : trusted (v.member r).id = false) : Refines trusted (p.release r) (v.release r) := by
  have hsound : Sound trusted (v.put r { v.member r with state := .notConnected }) :=
    SoundBut.put h.sound rfl rfl rfl fun hne => absurd rfl hne
  have hput := (h.put (r := r) (e := { p.heap r with state := .notConnected }) rfl rfl
    (by rw [← h.member]; rfl) hsound).addSelected (p.heap r).knownSelected (-1)
  rw [h.member_knownSelected] at hput
  unfold ServerPool.release
  rw [h.member_knownSelected]
  have hdelay := hput.put_same (r := r) (e := PoolEntry.delayed _) rfl rfl
  refine hdelay.timed _ _ fun x hx => ?_
  rcases hx with hx | hx
  · exact .inl (.inl hx)
  · rcases List.mem_cons.mp hx with rfl | hx
    · refine .inr ⟨hlt, ?_⟩
      show trusted ((v.put x _).member x).id = false
      rw [put_self]
      exact hid
    · exact .inl (.inr hx)

/-! ## Queues -/

variable [DecidableEq ι]

/-- `removeFromPool` returns, and the entry is not selected any more. -/
theorem removeFromPool_spec (h : RefinesBut trusted p v o) (e : Option Ref) :
    ∃ w : Bool → WeightedRandomSelect Ref, p.removeFromPool e =
      .ok { p with
        heap := fun x => if e = some x then { p.heap x with removed := true } else p.heap x
        knownSelect := w true
        newSelect := w false
        entries := (v.evict e).entries } ∧
      ∀ k S, (∀ x ∈ places v o, e ≠ some x → x ∈ S) → Stocked (w k) S := by
  cases e with
  | none =>
    refine ⟨p.select, ?_, fun k S hS => (h.select k).mono fun x hx => hS x hx nofun⟩
    simp only [ServerPool.removeFromPool, Roster.evict, ← h.entries]
    rfl
  | some r =>
    obtain ⟨newSelect, hnew, hstock⟩ := (h.select false).remove r
    obtain ⟨knownSelect, hknown, hstock'⟩ := (h.select true).remove r
    have hnew' : p.newSelect.remove r = .ok newSelect := hnew
    have hknown' : p.knownSelect.remove r = .ok knownSelect := hknown
    refine ⟨fun k => if k then knownSelect else newSelect, ?_, fun k S hS => ?_⟩
    · simp only [ServerPool.removeFromPool, ServerPool.removeEntry, hnew', hknown',
        ok_bind, pure_eq_ok,
        Roster.evict, ← h.entries, h.member_id, ServerPool.put]
      congr 2
      funext x
      by_cases hx : x = r
      · subst hx
        rw [Function.update_self, if_pos rfl]
      · rw [Function.update_of_ne hx, if_neg fun heq => hx (Option.some.inj heq).symm]
    · have hsub : (places v o).erase r ⊆ S := by
        intro x hx
        obtain ⟨hne, hx⟩ := Finset.mem_erase.mp hx
        exact hS x hx fun heq => hne (Option.some.inj heq).symm
      cases k with
      | true => exact hstock'.mono hsub
      | false => exact hstock.mono hsub

omit [DecidableEq ι] in
theorem queue_setQueue (p : ServerPool ι K F) (known k : Bool) (q : PoolEntryQueue) :
    (p.setQueue known q).queue k = if k = known then q else p.queue k := by
  cases known <;> cases k <;> rfl

/-- The pool after `setLatest` of an entry that drove `e` out of the queue. -/
structure Latest (p p' : ServerPool ι K F) (known : Bool) (r : Ref) (e : Option Ref)
    (q : PoolEntryQueue) (w : Bool → WeightedRandomSelect Ref)
    (entries : ι → Option Ref) : Prop where
  member : ∀ x, memberOf (p'.heap x) =
    if e = some x then { memberOf (p.heap x) with removed := true } else memberOf (p.heap x)
  queueIdx : p'.queueIdx = Function.update p.queueIdx r (p.queue known).newPtr
  queue : ∀ k, p'.queue k = if k = known then q else p.queue k
  select : ∀ k, p'.select k = w k
  entries : p'.entries = entries
  trusts : p'.trustedNodes = p.trustedNodes
  next : p'.next = p.next
  selected : ∀ k, p'.selected k = p.selected k
  timers : p'.dialTimers = p.dialTimers ∧ p'.retryTimers = p.retryTimers

omit [DecidableEq ι] in
theorem put_setQueue_heap (p : ServerPool ι K F) (known : Bool) (q : PoolEntryQueue) (r : Ref)
    (e : PoolEntry ι K F) : ((p.setQueue known q).put r e).heap = Function.update p.heap r e := by
  cases known <;> rfl

theorem setLatest_latest {known : Bool} {e : Option Ref} {q : PoolEntryQueue}
    {w : Bool → WeightedRandomSelect Ref} {entries : ι → Option Ref}
    (hq : (p.queue known).setLatest p.queueIdx r = .ok (e, q))
    (hremove : p.removeFromPool e = .ok { p with
      heap := fun x => if e = some x then { p.heap x with removed := true } else p.heap x
      knownSelect := w true
      newSelect := w false
      entries := entries }) :
    ∃ p', p.setLatest known r = .ok p' ∧ Latest p p' known r e q w entries := by
  generalize hp1 : ({ p with
    heap := fun x => if e = some x then { p.heap x with removed := true } else p.heap x
    knownSelect := w true
    newSelect := w false
    entries := entries } : ServerPool ι K F) = p1 at hremove
  have hheap1 : ∀ x, p1.heap x =
      if e = some x then { p.heap x with removed := true } else p.heap x := by
    intro x
    rw [← hp1]
  refine ⟨(p1.setQueue known q).put r { p1.heap r with queueIdx := (p.queue known).newPtr },
    ?_, ?_⟩
  · rw [ServerPool.setLatest, hq]
    simp only [ok_bind, hremove, pure_eq_ok]
  constructor
  · intro x
    have hsame : memberOf (((p1.setQueue known q).put r
        { p1.heap r with queueIdx := (p.queue known).newPtr }).heap x) = memberOf (p1.heap x) := by
      rw [put_setQueue_heap]
      by_cases hx : x = r
      · rw [hx, Function.update_self]
        rfl
      · rw [Function.update_of_ne hx]
    rw [hsame, hheap1]
    split <;> rfl
  · funext x
    rw [ServerPool.queueIdx, put_setQueue_heap]
    by_cases hx : x = r
    · rw [hx, Function.update_self, Function.update_self]
    · rw [Function.update_of_ne hx, Function.update_of_ne hx, hheap1, ServerPool.queueIdx]
      split <;> rfl
  · intro k
    rw [← queue_setQueue, ← hp1]
    cases known <;> cases k <;> rfl
  · intro k
    rw [← hp1]
    cases known <;> cases k <;> rfl
  · rw [← hp1]
    cases known <;> rfl
  · rw [← hp1]
    cases known <;> rfl
  · rw [← hp1]
    cases known <;> rfl
  · intro k
    rw [← hp1]
    cases known <;> cases k <;> rfl
  · rw [← hp1]
    cases known <;> exact ⟨rfl, rfl⟩

/-- `setLatest` of a queue is `touch` of its table. -/
theorem setLatest_refines (h : RefinesBut trusted p v o) (ho : ∀ x, o = some x → x = r)
    (hlt : r < v.next) (hid : trusted (v.member r).id = false) {known : Bool}
    (hknown : (v.member r).known = known) :
    ∃ p', p.setLatest known r = .ok p' ∧ Refines trusted p' (v.touch known r) := by
  have hcap : 0 < (p.queue known).maxCnt := by
    rw [h.maxCnt]
    cases known <;> decide
  obtain ⟨q, hq, hqueued, hmax⟩ := setLatest_spec (h.queue known) hcap r
  rw [h.maxCnt] at hq hqueued hmax
  rw [show (Recency.touch (maxEntries known) r (v.table known)).1 =
    v.evicted known r from rfl] at hq
  obtain ⟨w, hremove, hstock⟩ := removeFromPool_spec h (v.evicted known r)
  obtain ⟨p', hcall, hp'⟩ := setLatest_latest hq hremove
  refine ⟨p', hcall, hp'.trusts.trans h.trusts, fun x => ?_, ?_, ?_, fun k =>
    ?_, fun k => ?_, fun k => ?_,
    fun k => ?_, fun x hx => ?_, h.sound.touch ho hlt hid hknown⟩
  · rw [hp'.member, touch_member, h.member]
  · rw [touch_next, hp'.next, h.next]
  · rw [touch_entries, hp'.entries]
  · rw [touch_selected, hp'.selected, h.selected]
  · rw [hp'.queue, hp'.queueIdx, touch_table]
    by_cases hk : k = known
    · rw [if_pos hk, hk, Function.update_self]
      exact hqueued
    · rw [if_neg hk, Function.update_of_ne hk]
      refine (h.queue k).congr fun x hx => Function.update_of_ne ?_ ..
      rintro rfl
      exact hk ((h.sound.listed k x hx).2.1.symm.trans hknown)
  · rw [hp'.queue]
    split
    · next hk => rw [hk, hmax]
    · exact h.maxCnt k
  · rw [hp'.select]
    refine hstock k _ fun x hx hne => ?_
    rcases mem_places.mp hx with hx | ⟨j, hj⟩
    · exact mem_places.mpr
        (.inr ⟨known, (mem_touch (h.sound.nodup known)).mpr (.inl ⟨rfl, ho x hx⟩)⟩)
    · exact mem_places.mpr
        (.inr ⟨j, (mem_touch (h.sound.nodup known)).mpr (.inr ⟨hj, fun _ => hne⟩)⟩)
  · rw [touch_next, touch_id]
    rw [hp'.timers.1, hp'.timers.2] at hx
    exact h.timers x hx

theorem alloc_refines (h : Refines trusted p v) {e : PoolEntry ι K F}
    (hidle : e.state = .notConnected) :
    RefinesBut trusted (p.alloc e) (v.enter (memberOf e)) (some v.next) := by
  have hsound := Sound.enter h.sound (m := memberOf e) hidle
  have hold : ∀ x, x < v.next → (p.alloc e).heap x = p.heap x := by
    intro x hx
    refine p.heap_alloc_of_ne e ?_
    rw [h.next]
    exact Nat.ne_of_lt hx
  have hselect : ∀ k, Stocked (p.select k) (places (v.enter (memberOf e)) (some v.next)) := by
    intro k
    refine (h.select k).mono fun x hx => mem_places.mpr (.inr ?_)
    exact (mem_places.mp hx).resolve_left nofun
  refine ⟨h.trusts, fun x => ?_, ?_, ?_, h.selected, fun k =>
    ?_, h.maxCnt, hselect, fun x hx => ?_, hsound⟩
  · by_cases hx : x = v.next
    · subst hx
      rw [enter_self, ← h.next, p.heap_alloc_self]
    · rw [Roster.enter, put_of_ne hx, ← h.member, p.heap_alloc_of_ne e]
      rw [h.next]
      exact hx
  · exact congrArg (· + 1) h.next
  · show Function.update p.entries e.node.id (some p.next) = _
    rw [h.entries, h.next]
    rfl
  · refine (h.queue k).congr fun x hx => ?_
    rw [ServerPool.queueIdx, hold x (h.sound.listed k x hx).1]
    rfl
  · obtain ⟨hlt, hid⟩ := h.timers x hx
    refine ⟨Nat.lt_succ_of_lt hlt, ?_⟩
    rw [Roster.enter, put_of_ne (Nat.ne_of_lt hlt)]
    exact hid

/-! ## Discovery -/

omit [DecidableEq ι] in
/-- A set with one item. -/
theorem new_setWeight (x : Nat) {weight : Int} (h : weight ≠ 0) :
    ∃ w, WeightedRandomSelect.new.setWeight x weight = .ok w := by
  simp only [WeightedRandomSelect.setWeight, WeightedRandomSelect.new, ne_eq, h,
    not_false_eq_true, if_true]
  exact ⟨_, rfl⟩

omit [DecidableEq ι] in
theorem addressWeight_ne (env : Env ι K F) (call t : Nat) (a : PoolEntryAddress) :
    addressWeight env call t a ≠ 0 := by
  unfold addressWeight
  omega

section Entries

variable {env : Env ι K F} {node : Node ι K} {e e' : PoolEntry ι K F}

omit [DecidableEq ι] in
theorem findAddr_same (e : PoolEntry ι K F) (node : Node ι K) :
    memberOf (e.findAddr node).2 = memberOf e ∧ (e.findAddr node).2.queueIdx = e.queueIdx := by
  unfold PoolEntry.findAddr
  split <;> exact ⟨rfl, rfl⟩

omit [DecidableEq ι] in
theorem seen_same (h : e.seen env node = .ok e') :
    memberOf e' = memberOf e ∧ e'.queueIdx = e.queueIdx := by
  obtain ⟨addrSelect, -, hret⟩ := bind_eq_ok h
  cases hret
  exact findAddr_same e node

omit [DecidableEq ι] in
/-- An entry without addresses. -/
theorem seen_new (env : Env ι K F) (node : Node ι K) (h : e.addrSelect = .new)
    (haddr : ∀ k, e.addr k = none) : ∃ e', e.seen env node = .ok e' := by
  obtain ⟨a, e1, hfind⟩ : ∃ a e1, e.findAddr node = (a, e1) := ⟨_, _, rfl⟩
  have hselect : e1.addrSelect = .new := by
    rw [PoolEntry.findAddr, haddr] at hfind
    cases hfind
    exact h
  obtain ⟨w, hw⟩ := new_setWeight a
    (addressWeight_ne env 0 0 { e1.addrHeap a with lastSeen := env.now })
  simp only [PoolEntry.seen, hfind, hselect, WeightedRandomSelect.update, hw, ok_bind, pure_eq_ok]
  exact ⟨_, rfl⟩

omit [DecidableEq ι] in
theorem atAddress_spec (env : Env ι K F) (e : PoolEntry ι K F) (address : PoolEntryAddress) :
    ∃ e', e.atAddress env address = .ok e' ∧ memberOf e' = memberOf e ∧
      e'.queueIdx = e.queueIdx := by
  obtain ⟨w, hw⟩ := new_setWeight e.addrNext (addressWeight_ne env 0 0 address)
  have hok : ∃ e', e.atAddress env address = .ok e' := by
    simp only [PoolEntry.atAddress, WeightedRandomSelect.update, hw, ok_bind, pure_eq_ok]
    exact ⟨_, rfl⟩
  obtain ⟨e', he'⟩ := hok
  obtain ⟨_, -, hret⟩ := bind_eq_ok he'
  cases hret
  exact ⟨_, he', rfl, rfl⟩

end Entries

section Find

variable {env : Env ι K F} {node : Node ι K}

theorem rediscover_refines (h : RefinesBut trusted p v o) (ho : ∀ x, o = some x → x = r)
    (hlt : r < v.next) (hid : trusted (v.member r).id = false) {e : PoolEntry ι K F}
    (hseen : (p.heap r).seen env node = .ok e) :
    ∃ p', p.rediscover env r node = .ok p' ∧
      ((v.member r).known = true ∧ RefinesBut trusted p' v o ∨
        (v.member r).known = false ∧ Refines trusted p' (v.touch false r)) := by
  obtain ⟨hm, hidx⟩ := seen_same hseen
  have hput := h.put_same hidx hm
  have hknown : e.known = (v.member r).known := (congrArg Member.known hm).trans (h.member_known r)
  unfold ServerPool.rediscover
  rw [hseen, ok_bind, hknown]
  cases hk : (v.member r).known with
  | true => exact ⟨_, rfl, .inl ⟨rfl, hput⟩⟩
  | false =>
    obtain ⟨p', hcall, hp'⟩ := setLatest_refines hput ho hlt hid hk
    exact ⟨p', hcall, .inr ⟨rfl, hp'⟩⟩

variable [Zero F] [One F] [Add F] [Mul F]

/-- A node without an entry. -/
theorem findOrNewNode_new (env : Env ι K F) (h : Refines trusted p v)
    (hid : trusted node.id = false)
    (hnone : v.entries node.id = none) :
    ∃ p', p.findOrNewNode env node = .ok (v.next, p') ∧ Refines trusted p' (v.add node.id) := by
  have halloc := alloc_refines h (e := PoolEntry.discovered node) rfl
  have hheap : (p.alloc (PoolEntry.discovered node)).heap v.next = PoolEntry.discovered node := by
    rw [← h.next, p.heap_alloc_self]
  obtain ⟨e, he⟩ := seen_new env node (e := (p.alloc (PoolEntry.discovered node)).heap v.next)
    (by rw [hheap]; rfl) (by rw [hheap]; exact fun _ => rfl)
  have hmember := enter_self (v := v) (memberOf (PoolEntry.discovered node : PoolEntry ι K F))
  obtain ⟨p', hcall, ⟨hk, -⟩ | ⟨-, hp'⟩⟩ :=
    rediscover_refines halloc (fun x hx => (Option.some.inj hx).symm)
    (Nat.lt_succ_self _) (by rw [hmember]; exact hid) he
  · rw [hmember] at hk
    cases hk
  · refine ⟨p', ?_, hp'⟩
    simp only [ServerPool.findOrNewNode, h.entries, hnone, h.next, hcall, ok_bind, pure_eq_ok]

theorem findOrNewNode_refines (h : Refines trusted p v) (hid : trusted node.id = false)
    (hok : p.findOrNewNode env node = .ok (r, p')) :
    ∃ v', Find v node.id r v' ∧ Refines trusted p' v' := by
  cases hentry : v.entries node.id with
  | none =>
    obtain ⟨p1, hcall, hp1⟩ := findOrNewNode_new env h hid hentry
    rw [hcall] at hok
    cases hok
    exact ⟨_, .unknown hentry, hp1⟩
  | some x =>
    simp only [ServerPool.findOrNewNode, h.entries, hentry] at hok
    obtain ⟨p1, hcall, hret⟩ := bind_eq_ok hok
    cases hret
    obtain ⟨hlt, hxid, -⟩ := Sound.entry_cases h.sound hid hentry
    obtain ⟨e, he, -⟩ := bind_eq_ok hcall
    obtain ⟨p2, hcall', hp2⟩ := rediscover_refines h (fun x hx => nomatch hx) hlt
      (by rw [hxid]; exact hid) he
    rw [hcall] at hcall'
    cases hcall'
    rcases hp2 with ⟨hk, hp2⟩ | ⟨hk, hp2⟩
    · exact ⟨v, .known hentry hk, hp2⟩
    · exact ⟨_, .new hentry hk, hp2⟩

end Find

/-! ## Messages -/

section Messages

variable {env : Env ι K F} {node : Node ι K}

omit [DecidableEq ι] in
theorem accepted_refines (env : Env ι K F) (node : Node ι K)
    (h : Refines trusted p v) (hr : v.Listed r) :
    ∃ e, (p.heap r).accepted env node = .ok e ∧ Refines trusted (p.put r e) (v.accept r) := by
  obtain ⟨hlt, -, hid⟩ := h.sound.listed _ r hr
  obtain ⟨e, he, hm, hidx⟩ := atAddress_spec env { p.heap r with state := .connected }
    ⟨node.ip, node.tcp, env.now, 0⟩
  have hsound : Sound trusted (v.put r { v.member r with state := .connected }) :=
    SoundBut.put h.sound rfl rfl rfl fun _ => ⟨hlt, hid⟩
  refine ⟨e, he, h.put hidx (congrArg Member.id hm) ?_ hsound⟩
  rw [hm, ← h.member]
  rfl

/-- A connecting peer always gets an answer. -/
theorem connect_refines [Zero F] [One F] [Add F] [Mul F] (env : Env ι K F) (node : Node ι K)
    (h : Refines trusted p v) :
    ∃ a p' v', p.connect env node = .ok (a, p') ∧ Step trusted v (.connect node.id a) v' ∧
      Refines trusted p' v' := by
  unfold ServerPool.connect
  rw [h.trusts]
  cases hid : trusted node.id with
  | true => exact ⟨none, p, v, rfl, .trusted hid, h⟩
  | false =>
    rw [if_neg (by simp)]
    unfold ServerPool.entryOf
    rw [h.entries]
    cases hentry : v.entries node.id with
    | some r =>
      simp only [ok_bind]
      by_cases hh : v.Handed r
      · rw [if_pos ((h.handed_iff r).mpr hh)]
        exact ⟨none, p, v, rfl, .refused hentry hh, h⟩
      · rw [if_neg fun hhanded => hh ((h.handed_iff r).mp hhanded)]
        obtain ⟨e, he, hp⟩ := accepted_refines env node h
          (Sound.entry_cases h.sound hid hentry).2.2
        exact ⟨some r, _, _, by rw [he]; rfl, .accepted hid hentry hh, hp⟩
    | none =>
      obtain ⟨p1, hfind, hp1⟩ := findOrNewNode_new env h hid hentry
      obtain ⟨-, hlisted⟩ := Sound.find h.sound hid (.unknown hentry)
      have hidle : ¬(v.add node.id).Handed v.next := by
        rw [Roster.Handed, Roster.add, touch_state, enter_self]
        simp
      simp only [hfind, ok_bind]
      rw [if_neg fun hhanded => hidle ((hp1.handed_iff _).mp hhanded)]
      obtain ⟨e, he, hp⟩ := accepted_refines env node hp1 hlisted
      exact ⟨some v.next, _, _, by rw [he]; rfl, .acceptedNew hid hentry, hp⟩

omit [DecidableEq ι] in
theorem becomeKnown_eq (env : Env ι K F) (p : ServerPool ι K F) (r : Ref) :
    p.becomeKnown env r =
      { p.put r { p.heap r with state := .registered, regTime := env.now, known := true } with
        newQueue := if (p.heap r).known then p.newQueue else p.newQueue.remove p.queueIdx r } := by
  unfold ServerPool.becomeKnown
  dsimp only
  split
  · next hk =>
    have he : ({ p.heap r with state := .registered, regTime := env.now } : PoolEntry ι K F) =
        { p.heap r with state := .registered, regTime := env.now, known := true } := by
      rw [← hk]
    rw [he]
    rfl
  · rfl

omit [DecidableEq ι] in
theorem becomeKnown_member (env : Env ι K F) (h : Refines trusted p v) (x : Ref) :
    memberOf ((p.becomeKnown env r).heap x) = (v.promote r).member x := by
  rw [becomeKnown_eq]
  by_cases hx : x = r
  · subst hx
    rw [promote_self, ← h.member]
    show memberOf (Function.update p.heap x _ x) = _
    rw [Function.update_self]
    rfl
  · rw [Roster.promote, put_of_ne hx, ← h.member]
    exact congrArg memberOf (Function.update_of_ne hx ..)

omit [DecidableEq ι] in
/-- A new entry leaves the queue of the new ones. -/
theorem becomeKnown_queue (env : Env ι K F) (h : Refines trusted p v) (k : Bool) :
    Queued ((p.becomeKnown env r).queue k) (p.becomeKnown env r).queueIdx
      ((v.promote r).table k) := by
  have hidx : (p.becomeKnown env r).queueIdx = p.queueIdx := by
    rw [becomeKnown_eq]
    exact queueIdx_put rfl
  rw [hidx, becomeKnown_eq, h.member_known]
  show Queued _ _ ((if (v.member r).known then v.table
    else Function.update v.table false ((v.table false).erase r)) k)
  cases hk : (v.member r).known with
  | true => exact h.queue k
  | false =>
    cases k with
    | true => exact h.queue true
    | false => exact remove_spec (h.queue false) r

omit [DecidableEq ι] in
theorem becomeKnown_maxCnt (env : Env ι K F) (p : ServerPool ι K F) (r : Ref) (k : Bool) :
    ((p.becomeKnown env r).queue k).maxCnt = (p.queue k).maxCnt := by
  rw [becomeKnown_eq]
  cases k with
  | true => rfl
  | false =>
    show (if (p.heap r).known then p.newQueue else p.newQueue.remove p.queueIdx r).maxCnt = _
    unfold PoolEntryQueue.remove
    split
    · rfl
    · split <;> rfl

omit [DecidableEq ι] in
theorem becomeKnown_refines (env : Env ι K F) (h : Refines trusted p v) (hr : ¬v.Idle r) :
    RefinesBut trusted (p.becomeKnown env r) (v.promote r) (some r) := by
  -- nothing else changes
  have hframe : (p.becomeKnown env r).trustedNodes = p.trustedNodes ∧
      (p.becomeKnown env r).next = p.next ∧ (p.becomeKnown env r).entries = p.entries ∧
      (p.becomeKnown env r).selected = p.selected ∧ (p.becomeKnown env r).select = p.select ∧
      (p.becomeKnown env r).dialTimers = p.dialTimers ∧
      (p.becomeKnown env r).retryTimers = p.retryTimers := by
    rw [becomeKnown_eq]
    exact ⟨rfl, rfl, rfl, rfl, rfl, rfl, rfl⟩
  obtain ⟨htrusts, hnext, hentries, hselected, hselect, hdial, hretry⟩ := hframe
  refine ⟨htrusts.trans h.trusts, becomeKnown_member env h, hnext.trans h.next,
    hentries.trans h.entries, ?_, becomeKnown_queue env h, ?_, ?_, ?_, Sound.promote h.sound hr⟩
  · intro k
    rw [hselected]
    exact h.selected k
  · intro k
    rw [becomeKnown_maxCnt]
    exact h.maxCnt k
  · intro k
    rw [hselect]
    refine (h.select k).mono fun x hx => ?_
    obtain ⟨j, hj⟩ := (mem_places.mp hx).resolve_left nofun
    by_cases hxr : x = r
    · exact mem_places.mpr (.inl (congrArg some hxr.symm))
    · exact mem_places.mpr
        (.inr ⟨j, (mem_promote h.sound).mpr ⟨hj, fun heq => absurd heq hxr⟩⟩)
  · intro x hx
    rw [hdial, hretry] at hx
    obtain ⟨hlt, hid⟩ := h.timers x hx
    refine ⟨hlt, ?_⟩
    by_cases hxr : x = r
    · subst hxr
      rw [promote_self]
      exact hid
    · rw [Roster.promote, put_of_ne hxr]
      exact hid

/-- A registration always returns. -/
theorem register_refines (env : Env ι K F) (h : Refines trusted p v) (hr : v.Handed r) :
    ∃ p', p.register env r = .ok p' ∧ Refines trusted p' (v.register r) := by
  have hbusy := not_idle_of_handed hr
  obtain ⟨hlt, hid⟩ := h.sound.busy r hbusy
  obtain ⟨p1, hset, hp1⟩ := setLatest_refines (becomeKnown_refines env h hbusy)
    (fun x hx => (Option.some.inj hx).symm) hlt (by rw [promote_self]; exact hid)
    (congrArg Member.known promote_self)
  refine ⟨p1.put r { p1.heap r with shortRetry := shortRetryCnt }, ?_, hp1.put_same rfl rfl⟩
  simp only [ServerPool.register, hset, ok_bind, pure_eq_ok]

omit [DecidableEq ι] in
theorem disconnect_refines [One F] [Add F] [Mul F] (env : Env ι K F) (h : Refines trusted p v)
    (hr : v.Handed r) (stopped : Bool) : Refines trusted (p.disconnect env r stopped)
    (v.release r) := by
  obtain ⟨hlt, hid⟩ := h.sound.busy r (not_idle_of_handed hr)
  have hclosed : memberOf ((p.heap r).closed env stopped) = memberOf (p.heap r) ∧
      ((p.heap r).closed env stopped).queueIdx = (p.heap r).queueIdx := by
    unfold PoolEntry.closed
    split <;> exact ⟨rfl, rfl⟩
  exact release_refines (h.put_same hclosed.2 hclosed.1) hlt hid

theorem dialTimeout_refines [Zero F] [One F] [Add F] [Mul F] (h : Refines trusted p v)
    (hr : r ∈ p.dialTimers) (hok : p.dialTimeout r = .ok p') :
    ∃ v', Step trusted v (.timeout r) v' ∧ Refines trusted p' v' := by
  obtain ⟨hlt, hid⟩ := h.timers r (.inl hr)
  have h1 := h.timed (p.dialTimers.erase r) p.retryTimers
    fun x hx => .inl (hx.imp_left List.mem_of_mem_erase)
  unfold ServerPool.dialTimeout at hok
  dsimp only at hok
  split at hok
  · next hremoved =>
    cases hok
    exact ⟨v, .lateTimeout (.inl ((h.member_removed r).symm.trans hremoved)), h1⟩
  · next hremoved =>
    unfold ServerPool.checkDialTimeout at hok
    split at hok
    · next hstate =>
      cases hok
      exact ⟨v, .lateTimeout (.inr (by rw [← h.member_state]; exact hstate)), h1⟩
    · next hstate =>
      rw [not_not] at hstate
      obtain ⟨e, he, hret⟩ := bind_eq_ok hok
      cases hret
      have hfailed : memberOf e = memberOf (p.heap r) ∧ e.queueIdx = (p.heap r).queueIdx := by
        unfold PoolEntry.failed at he
        split at he
        · cases he
        · cases he
          exact ⟨rfl, rfl⟩
      refine ⟨v.release r, .timeout ?_ ?_, release_refines
        (h1.put_same hfailed.2 hfailed.1) hlt hid⟩
      · rw [← h.member_state]
        exact hstate
      · rw [← h.member_removed]
        exact Bool.eq_false_iff.mpr hremoved

theorem retryEnabled_refines (h : Refines trusted p v) (hr : r ∈ p.retryTimers)
    (hok : p.retryEnabled env r = .ok p') :
    ∃ v', Step trusted v (.retry r) v' ∧ Refines trusted p' v' := by
  obtain ⟨hlt, hid⟩ := h.timers r (.inr hr)
  have h1 := h.timed p.dialTimers (p.retryTimers.erase r)
    fun x hx => .inl (hx.imp_right List.mem_of_mem_erase)
  unfold ServerPool.retryEnabled at hok
  dsimp only at hok
  split at hok
  · next hremoved =>
    cases hok
    exact ⟨v, .noRetry ((h.member_removed r).symm.trans hremoved), h1⟩
  · next hremoved =>
    have hlisted : v.Listed r := Sound.listed_of_alive h.sound hlt hid
      ((h.member_removed r).symm.trans (Bool.eq_false_iff.mpr hremoved))
    have hput := h1.put_same (r := r) (e := { p.heap r with delayedRetry := false }) rfl rfl
    obtain ⟨v', hp', hd⟩ := updateCheckDial_refines hput hlisted hok
    exact ⟨v', .retry hd, hp'⟩

theorem nodeDiscovered_refines [Zero F] [One F] [Add F] [Mul F] (h : Refines trusted p v)
    (hok : p.nodeDiscovered env node = .ok p') :
    ∃ v', Step trusted v (.discover node.id) v' ∧ Refines trusted p' v' := by
  unfold ServerPool.nodeDiscovered at hok
  rw [h.trusts] at hok
  cases hid : trusted node.id with
  | true =>
    rw [hid] at hok
    cases hok
    exact ⟨v, .ignored hid, h⟩
  | false =>
    rw [hid, if_neg (by simp)] at hok
    obtain ⟨⟨r, p1⟩, hfind, hdial⟩ := bind_eq_ok hok
    obtain ⟨v1, hf, hp1⟩ := findOrNewNode_refines h hid hfind
    obtain ⟨v', hp', hd⟩ := updateCheckDial_refines hp1 (Sound.find h.sound hid hf).2 hdial
    exact ⟨v', .discover hid hf hd, hp'⟩

omit [DecidableEq ι] in
theorem lookupDone_refines (env : Env ι K F) (h : Refines trusted p v) (conv : Bool) :
    Refines trusted (p.lookupDone env conv) v := by
  unfold ServerPool.lookupDone
  split
  · exact ⟨h.trusts, h.member, h.next, h.entries, h.selected, h.queue, h.maxCnt,
      h.select, h.timers, h.sound⟩
  · exact h

omit [DecidableEq ι] in
theorem adjustStats_refines [Zero F] [One F] [Add F] [Mul F] (h : Refines trusted p v) (r : Ref)
    (timeout : Bool) (time : F) : Refines trusted (p.adjustStats r timeout time) v := by
  unfold ServerPool.adjustStats
  dsimp only
  split <;> exact h.put_same rfl rfl

end Messages

/-- The messages that can arrive: a timer sends the entry it was started for, and
only a peer that holds an entry registers or disconnects it. -/
def Allowed (p : ServerPool ι K F) : ServerPool.Msg ι K F → Prop
  | .timeout r => r ∈ p.dialTimers
  | .enableRetry r => r ∈ p.retryTimers
  | .register r => (p.heap r).handed = true
  | .disconnect r _ => (p.heap r).handed = true
  | _ => True

instance (p : ServerPool ι K F) : DecidablePred (Allowed p) := fun msg =>
  match msg with
  | .timeout r => inferInstanceAs (Decidable (r ∈ p.dialTimers))
  | .enableRetry r => inferInstanceAs (Decidable (r ∈ p.retryTimers))
  | .register r => inferInstanceAs (Decidable ((p.heap r).handed = true))
  | .disconnect r _ => inferInstanceAs (Decidable ((p.heap r).handed = true))
  | .adjustStats _ _ _ => .isTrue trivial
  | .discNode _ => .isTrue trivial
  | .discLookup _ => .isTrue trivial
  | .connect _ => .isTrue trivial

/-- The event of a message with its answer. -/
def eventOf (a : Option Ref) : ServerPool.Msg ι K F → Event ι
  | .timeout r => .timeout r
  | .enableRetry r => .retry r
  | .adjustStats _ _ _ => .quiet
  | .discNode node => .discover node.id
  | .discLookup _ => .quiet
  | .connect node => .connect node.id a
  | .register r => .register r
  | .disconnect r _ => .disconnect r

/-- **A message to the pool is a step of the roster.** -/
theorem handle_refines [Zero F] [One F] [Add F] [Mul F] {env : Env ι K F}
    {msg : ServerPool.Msg ι K F}
    {a : Option Ref} (h : Refines trusted p v) (hallow : Allowed p msg)
    (hok : p.handle env msg = .ok (a, p')) :
    ∃ v', Step trusted v (eventOf a msg) v' ∧ Refines trusted p' v' := by
  cases msg with
  | timeout r =>
    obtain ⟨p1, hp1, hret⟩ := bind_eq_ok hok
    cases hret
    exact dialTimeout_refines h hallow hp1
  | enableRetry r =>
    obtain ⟨p1, hp1, hret⟩ := bind_eq_ok hok
    cases hret
    exact retryEnabled_refines h hallow hp1
  | adjustStats r timeout time =>
    cases hok
    exact ⟨v, .quiet, adjustStats_refines h r timeout time⟩
  | discNode node =>
    obtain ⟨p1, hp1, hret⟩ := bind_eq_ok hok
    cases hret
    exact nodeDiscovered_refines h hp1
  | discLookup conv =>
    cases hok
    exact ⟨v, .quiet, lookupDone_refines env h conv⟩
  | connect node =>
    obtain ⟨a', p1, v', hcall, hstep, hp1⟩ := connect_refines env node h
    cases hcall.symm.trans hok
    exact ⟨v', hstep, hp1⟩
  | register r =>
    have hr := (h.handed_iff r).mp hallow
    obtain ⟨p1, hp1, hret⟩ := bind_eq_ok hok
    cases hret
    obtain ⟨p2, hcall, hp2⟩ := register_refines env h hr
    cases hcall.symm.trans hp1
    exact ⟨_, .register hr, hp2⟩
  | disconnect r stopped =>
    have hr := (h.handed_iff r).mp hallow
    cases hok
    exact ⟨_, .disconnect hr, disconnect_refines env h hr stopped⟩

end Refines

end MiniOpera.PoolRefinement
