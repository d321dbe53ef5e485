import MiniOpera.PoolDialing
import MiniOpera.PoolRuns

/-!
# What the pool does to single entries

`EntryRule env P`: whatever a handler does to one entry keeps `P`. The handlers are
gone through once (`handle_entries`, `start_entries`), and an invariant of single
entries is then an instance of the rule.

`known_connected`: in every run, an entry that is known or handed to a peer has an
address it was last connected at.
-/

namespace MiniOpera.PoolEntries
open GoRuntime RandSelect EntryQueue Pool ServerPool PoolDialing PoolRoster Roster
  PoolRefinement PoolRuns

variable {ι K F : Type}

/-- The fields of an entry that say where it can be reached and what became of it. -/
def core (e : PoolEntry ι K F) :=
  (e.addrSelect, e.addrNext, e.addr, e.state, e.dialed, e.known, e.lastConnected)

/-- The pool has been started, and all entries it has made satisfy `P`. -/
structure Populated (P : PoolEntry ι K F → Prop) (p : ServerPool ι K F) : Prop where
  server : p.server = true
  entry : ∀ r < p.next, P (p.heap r)

/-- What the handlers do to an entry without touching its addresses keeps `P`. -/
structure FrameRule (P : PoolEntry ι K F → Prop) : Prop where
  frame : ∀ e e', core e' = core e → P e → P e'
  registered : ∀ e, P e → e.handed = true → P { e with state := .registered, known := true }
  idle : ∀ e, P e → P { e with state := .notConnected }

structure EntryRule [Zero F] [One F] [Add F] [Mul F] (env : Env ι K F)
    (P : PoolEntry ι K F → Prop) : Prop extends FrameRule P where
  new : ∀ node e, (PoolEntry.discovered node).seen env node = .ok e → P e
  seen : ∀ e node e', P e → e.seen env node = .ok e' → P e'
  accepted : ∀ e node e', P e → e.accepted env node = .ok e' → P e'
  dial : ∀ e known call a w, P e → e.chooseAddr env call = .ok (a, w) →
    P (dialing e known a w)

/-- The address at which an entry is seen is an old one or the next new one; it
gets a weight, and nothing else of the core changes. -/
theorem seen_core {env : Env ι K F} {node : Node ι K} {e e' : PoolEntry ι K F}
    (h : e.seen env node = .ok e') :
    (∃ a address, e.addrSelect.setWeight a (addressWeight env 0 0 address) = .ok e'.addrSelect ∧
      ((e.addr (strKey node.ip node.tcp) = some a ∧ e'.addrNext = e.addrNext ∧
        e'.addr = e.addr) ∨
        a = e.addrNext ∧ e'.addrNext = e.addrNext + 1 ∧
          e'.addr = Function.update e.addr (strKey node.ip node.tcp) (some a))) ∧
      e'.state = e.state ∧ e'.dialed = e.dialed ∧ e'.known = e.known ∧
      e'.lastConnected = e.lastConnected := by
  unfold PoolEntry.seen PoolEntry.findAddr at h
  cases hkey : e.addr (strKey node.ip node.tcp) with
  | some a =>
    rw [hkey] at h
    obtain ⟨w, hw, hret⟩ := bind_eq_ok h
    cases hret
    exact ⟨⟨a, _, hw, .inl ⟨rfl, rfl, rfl⟩⟩, rfl, rfl, rfl, rfl⟩
  | none =>
    rw [hkey] at h
    obtain ⟨w, hw, hret⟩ := bind_eq_ok h
    cases hret
    exact ⟨⟨e.addrNext, _, hw, .inr ⟨rfl, rfl, rfl⟩⟩, rfl, rfl, rfl, rfl⟩

section Pool

variable {p p' : ServerPool ι K F} {P : PoolEntry ι K F → Prop} {r : Ref} {env : Env ι K F}

theorem Populated.put (h : Populated P p) {e : PoolEntry ι K F} (he : r < p.next → P e) :
    Populated P (p.put r e) := by
  refine ⟨h.server, ?_⟩
  intro x hx
  by_cases hxr : x = r
  · subst hxr
    rw [p.heap_put_self]
    exact he hx
  · rw [p.heap_put_of_ne e hxr]
    exact h.entry x hx

/-- An entry changes outside its core. -/
theorem Populated.put_core (h : Populated P p)
    (hframe : ∀ e e', core e' = core e → P e → P e')
    {e : PoolEntry ι K F} (hcore : core e = core (p.heap r)) : Populated P (p.put r e) :=
  h.put fun hlt => hframe _ _ hcore (h.entry r hlt)

theorem Populated.dialed (h : Populated P p)
    (hdial : ∀ e known call a w, P e → e.chooseAddr env call = .ok (a, w) →
      P (dialing e known a w))
    {ds : List (Ref × Bool)} (hds : Dialed env p ds p') : Populated P p' := by
  obtain ⟨hserver, hnext⟩ := hds.server_next
  refine ⟨hserver.trans h.server, ?_⟩
  intro r hr
  rw [hnext] at hr
  by_cases hmem : r ∈ ds.map Prod.fst
  · obtain ⟨⟨_, known⟩, hd, rfl⟩ := List.mem_map.mp hmem
    obtain ⟨-, call, a, w, hchoose, heq⟩ := hds.dialed _ _ hd
    rw [heq]
    exact hdial _ known call a w (h.entry _ hr) hchoose
  · rw [hds.others r hmem]
    exact h.entry r hr

/-- All entries but `r` keep their core, and `r` satisfies `P`. -/
theorem Populated.changed (h : Populated P p) (hframe : ∀ e e', core e' = core e → P e → P e')
    (hserver : p'.server = p.server) (hself : r < p'.next → P (p'.heap r))
    (hothers : ∀ x < p'.next, x ≠ r → x < p.next ∧ core (p'.heap x) = core (p.heap x)) :
    Populated P p' := by
  refine ⟨hserver.trans h.server, ?_⟩
  intro x hx
  by_cases hxr : x = r
  · subst hxr
    exact hself hx
  · obtain ⟨hlt, hcore⟩ := hothers x hx hxr
    exact hframe _ _ hcore (h.entry x hlt)

variable [DecidableEq ι]

theorem removeFromPool_heap {o : Option Ref} (hok : p.removeFromPool o = .ok p') :
    p'.next = p.next ∧ p'.server = p.server ∧ ∀ x, ∃ b,
      p'.heap x = { p.heap x with removed := b } := by
  cases o with
  | none =>
    cases hok
    exact ⟨rfl, rfl, fun x => ⟨(p.heap x).removed, rfl⟩⟩
  | some e =>
    obtain ⟨newSelect, -, hok⟩ := bind_eq_ok hok
    obtain ⟨knownSelect, -, hok⟩ := bind_eq_ok hok
    cases hok
    refine ⟨rfl, rfl, ?_⟩
    intro x
    by_cases hx : x = e
    · subst hx
      exact ⟨true, Function.update_self ..⟩
    · exact ⟨(p.heap x).removed, Function.update_of_ne hx ..⟩

/-- `setLatest` changes places and marks. -/
theorem setLatest_heap {known : Bool} (hok : p.setLatest known r = .ok p') :
    p'.next = p.next ∧ p'.server = p.server ∧
      ∀ x, ∃ i b, p'.heap x = { p.heap x with queueIdx := i, removed := b } := by
  obtain ⟨⟨evicted, q⟩, -, hok⟩ := bind_eq_ok hok
  obtain ⟨p1, hremove, hok⟩ := bind_eq_ok hok
  obtain ⟨hnext, hserver, hheap⟩ := removeFromPool_heap hremove
  cases hok
  refine ⟨?_, ?_, ?_⟩
  · cases known <;> exact hnext
  · cases known <;> exact hserver
  · intro x
    obtain ⟨b, hb⟩ := hheap x
    rw [put_setQueue_heap]
    by_cases hx : x = r
    · subst hx
      exact ⟨_, b, by rw [Function.update_self, hb]⟩
    · exact ⟨(p.heap x).queueIdx, b, by rw [Function.update_of_ne hx, hb]⟩

theorem setLatest_core {known : Bool} (hok : p.setLatest known r = .ok p') :
    p'.next = p.next ∧ p'.server = p.server ∧ ∀ x, core (p'.heap x) = core (p.heap x) := by
  obtain ⟨hnext, hserver, hheap⟩ := setLatest_heap hok
  refine ⟨hnext, hserver, ?_⟩
  intro x
  obtain ⟨i, b, heq⟩ := hheap x
  rw [heq]
  rfl

theorem setLatest_entries (h : Populated P p) (hframe : ∀ e e', core e' = core e → P e → P e')
    {known : Bool} (hok : p.setLatest known r = .ok p') : Populated P p' := by
  obtain ⟨hnext, hserver, hcore⟩ := setLatest_core hok
  refine ⟨hserver.trans h.server, ?_⟩
  intro x hx
  rw [hnext] at hx
  exact hframe _ _ (hcore x) (h.entry x hx)

/-- The entry has been discovered, and the others keep their core. -/
theorem rediscover_core {node : Node ι K} (hok : p.rediscover env r node = .ok p') :
    ∃ e, (p.heap r).seen env node = .ok e ∧ core (p'.heap r) = core e ∧ p'.next = p.next ∧
      p'.server = p.server ∧ ∀ x, x ≠ r → core (p'.heap x) = core (p.heap x) := by
  obtain ⟨e, hseen, hok⟩ := bind_eq_ok hok
  refine ⟨e, hseen, ?_⟩
  split at hok
  · cases hok
    exact ⟨congrArg core (p.heap_put_self r e), rfl, rfl,
      fun x hx => congrArg core (p.heap_put_of_ne e hx)⟩
  · obtain ⟨hnext, hserver, hcore⟩ := setLatest_core hok
    refine ⟨?_, hnext, hserver, ?_⟩
    · rw [hcore, p.heap_put_self]
    · intro x hx
      rw [hcore, p.heap_put_of_ne e hx]

omit [DecidableEq ι] in
theorem release_entries (hrule : FrameRule P) (h : Populated P p) (r : Ref) :
    Populated P (p.release r) := by
  have hidle : Populated P (p.put r { p.heap r with state := .notConnected }) :=
    h.put fun hlt => hrule.idle _ (h.entry r hlt)
  have hcount : Populated P
      ((p.put r { p.heap r with state := .notConnected }).addSelected
        (p.heap r).knownSelected (-1)) := by
    cases (p.heap r).knownSelected <;> exact ⟨hidle.server, hidle.entry⟩
  have hdelayed := hcount.put_core (r := r) hrule.frame (e := PoolEntry.delayed _) rfl
  exact ⟨hdelayed.server, hdelayed.entry⟩

theorem register_entries (hrule : FrameRule P) (h : Populated P p) (hr : (p.heap r).handed = true)
    (hok : p.register env r = .ok p') : Populated P p' := by
  obtain ⟨p1, hset, hret⟩ := bind_eq_ok hok
  cases hret
  have hknown : Populated P (p.becomeKnown env r) := by
    rw [becomeKnown_eq]
    have hput : Populated P
        (p.put r { p.heap r with state := .registered, regTime := env.now, known := true }) := by
      apply h.put
      intro hlt
      refine hrule.frame _ _ ?_ (hrule.registered _ (h.entry r hlt) hr)
      rfl
    exact ⟨hput.server, hput.entry⟩
  apply (setLatest_entries hknown hrule.frame hset).put_core hrule.frame
  rfl

section Rule

variable [Zero F] [One F] [Add F] [Mul F]

/-- The entry that is returned is an old one that was seen again, or a new one. -/
theorem findOrNewNode_core {node : Node ι K} (hok : p.findOrNewNode env node = .ok (r, p')) :
    (∃ e, (p.heap r).seen env node = .ok e ∧ core (p'.heap r) = core e ∧ p'.next = p.next ∧
      p'.server = p.server ∧ ∀ x, x ≠ r → core (p'.heap x) = core (p.heap x)) ∨
    ∃ e, r = p.next ∧ (PoolEntry.discovered node).seen env node = .ok e ∧
      core (p'.heap r) = core e ∧
      p'.next = p.next + 1 ∧ p'.server = p.server ∧ ∀ x, x ≠ r →
        core (p'.heap x) = core (p.heap x) := by
  unfold ServerPool.findOrNewNode at hok
  split at hok
  · obtain ⟨p1, hp1, hret⟩ := bind_eq_ok hok
    cases hret
    exact .inl (rediscover_core hp1)
  · obtain ⟨p1, hp1, hret⟩ := bind_eq_ok hok
    cases hret
    obtain ⟨e, hseen, hself, hnext, hserver, hothers⟩ := rediscover_core hp1
    rw [p.heap_alloc_self] at hseen
    refine .inr ⟨e, rfl, hseen, hself, hnext, hserver, ?_⟩
    intro x hx
    rw [hothers x hx, p.heap_alloc_of_ne _ hx]

theorem findOrNewNode_entries (hrule : EntryRule env P) (h : Populated P p) {node : Node ι K}
    (hok : p.findOrNewNode env node = .ok (r, p')) : Populated P p' := by
  rcases findOrNewNode_core hok with ⟨e, hseen, hself, hnext, hserver, hothers⟩ |
    ⟨e, rfl, hseen, hself, hnext, hserver, hothers⟩
  · refine h.changed (r := r) hrule.frame hserver ?_ ?_
    · intro hr
      rw [hnext] at hr
      exact hrule.frame _ _ hself (hrule.seen _ node e (h.entry r hr) hseen)
    · intro x hx hxr
      rw [hnext] at hx
      exact ⟨hx, hothers x hxr⟩
  · refine h.changed (r := p.next) hrule.frame hserver ?_ ?_
    · intro _
      exact hrule.frame _ _ hself (hrule.new node e hseen)
    · intro x hx hxr
      exact ⟨by omega, hothers x hxr⟩

omit [DecidableEq ι] in
theorem updateCheckDial_entries (hrule : EntryRule env P) (h : Populated P p)
    (hok : p.updateCheckDial env r = .ok p') : Populated P p' := by
  obtain ⟨newSelect, -, hok⟩ := bind_eq_ok hok
  obtain ⟨knownSelect, -, hok⟩ := bind_eq_ok hok
  obtain ⟨ds, hds⟩ := checkDial_dials hok
  have hselect : Populated P { p with newSelect := newSelect, knownSelect := knownSelect } :=
    ⟨h.server, h.entry⟩
  exact hselect.dialed hrule.dial hds

/-! ## Messages -/

theorem connect_entries (hrule : EntryRule env P) (h : Populated P p)
    {node : Node ι K} {a : Option Ref}
    (hok : p.connect env node = .ok (a, p')) : Populated P p' := by
  unfold ServerPool.connect at hok
  split at hok
  · cases hok
    exact h
  · obtain ⟨⟨r, p1⟩, hentry, hok⟩ := bind_eq_ok hok
    have hp1 : Populated P p1 := by
      unfold ServerPool.entryOf at hentry
      split at hentry
      · cases hentry
        exact h
      · exact findOrNewNode_entries hrule h hentry
    dsimp only at hok
    split at hok
    · cases hok
      exact hp1
    · obtain ⟨e, haccept, hret⟩ := bind_eq_ok hok
      cases hret
      exact hp1.put fun hlt => hrule.accepted _ node e (hp1.entry r hlt) haccept

omit [DecidableEq ι] [Zero F] in
theorem disconnect_entries (hrule : FrameRule P) (h : Populated P p) (r : Ref) (stopped : Bool) :
    Populated P (p.disconnect env r stopped) := by
  refine release_entries hrule (h.put_core hrule.frame ?_) r
  unfold PoolEntry.closed
  split <;> rfl

omit [DecidableEq ι] in
theorem dialTimeout_entries (hrule : FrameRule P) (h : Populated P p)
    (hok : p.dialTimeout r = .ok p') : Populated P p' := by
  have htimed : Populated P { p with dialTimers := p.dialTimers.erase r } := ⟨h.server, h.entry⟩
  unfold ServerPool.dialTimeout at hok
  dsimp only at hok
  split at hok
  · cases hok
    exact htimed
  · unfold ServerPool.checkDialTimeout at hok
    split at hok
    · cases hok
      exact htimed
    · obtain ⟨e, hfailed, hret⟩ := bind_eq_ok hok
      cases hret
      refine release_entries hrule (htimed.put_core hrule.frame ?_) r
      unfold PoolEntry.failed at hfailed
      split at hfailed
      · cases hfailed
      · cases hfailed
        rfl

omit [DecidableEq ι] in
theorem retryEnabled_entries (hrule : EntryRule env P) (h : Populated P p)
    (hok : p.retryEnabled env r = .ok p') : Populated P p' := by
  have htimed : Populated P { p with retryTimers := p.retryTimers.erase r } :=
    ⟨h.server, h.entry⟩
  unfold ServerPool.retryEnabled at hok
  dsimp only at hok
  split at hok
  · cases hok
    exact htimed
  · refine updateCheckDial_entries hrule (htimed.put_core hrule.frame ?_) hok
    rfl

theorem nodeDiscovered_entries (hrule : EntryRule env P) (h : Populated P p) {node : Node ι K}
    (hok : p.nodeDiscovered env node = .ok p') : Populated P p' := by
  unfold ServerPool.nodeDiscovered at hok
  split at hok
  · cases hok
    exact h
  · obtain ⟨⟨r, p1⟩, hfind, hdial⟩ := bind_eq_ok hok
    exact updateCheckDial_entries hrule (findOrNewNode_entries hrule h hfind) hdial

omit [DecidableEq ι] in
theorem adjustStats_entries (hrule : FrameRule P) (h : Populated P p) (r : Ref) (timeout : Bool)
    (time : F) : Populated P (p.adjustStats r timeout time) := by
  unfold ServerPool.adjustStats
  dsimp only
  split
  · apply h.put_core hrule.frame
    rfl
  · apply h.put_core hrule.frame
    rfl

omit [DecidableEq ι] [Zero F] [One F] [Add F] [Mul F] in
theorem lookupDone_entries (env : Env ι K F) (h : Populated P p) (conv : Bool) :
    Populated P (p.lookupDone env conv) := by
  unfold ServerPool.lookupDone
  split
  · exact ⟨h.server, h.entry⟩
  · exact h

/-- **The rule for messages.** -/
theorem handle_entries (hrule : EntryRule env P) (h : Populated P p) {msg : Msg ι K F}
    {a : Option Ref} (hallow : Allowed p msg) (hok : p.handle env msg = .ok (a, p')) :
    Populated P p' := by
  cases msg with
  | timeout r =>
    obtain ⟨p1, hp1, hret⟩ := bind_eq_ok hok
    cases hret
    exact dialTimeout_entries hrule.toFrameRule h hp1
  | enableRetry r =>
    obtain ⟨p1, hp1, hret⟩ := bind_eq_ok hok
    cases hret
    exact retryEnabled_entries hrule h hp1
  | adjustStats r timeout time =>
    cases hok
    exact adjustStats_entries hrule.toFrameRule h r timeout time
  | discNode node =>
    obtain ⟨p1, hp1, hret⟩ := bind_eq_ok hok
    cases hret
    exact nodeDiscovered_entries hrule h hp1
  | discLookup conv =>
    cases hok
    exact lookupDone_entries env h conv
  | connect node => exact connect_entries hrule h hok
  | register r =>
    obtain ⟨p1, hp1, hret⟩ := bind_eq_ok hok
    cases hret
    exact register_entries hrule.toFrameRule h hallow hp1
  | disconnect r stopped =>
    cases hok
    exact disconnect_entries hrule.toFrameRule h r stopped

end Rule

/-! ## Start -/

section Start

variable [Zero F] {idOf : K → ι}

theorem loadNode_entries (hframe : ∀ e e', core e' = core e → P e → P e')
    (hload : ∀ s e, PoolEntry.decodeRLP env idOf s = .ok e → P e)
    (h : Populated P p) {call : Nat}
    {s : StoredNode K F} (hok : p.loadNode env idOf call s = .ok p') : Populated P p' := by
  obtain ⟨e, hdecode, hok⟩ := bind_eq_ok hok
  have halloc : Populated P (p.alloc e) := by
    refine h.changed (r := p.next) hframe rfl ?_ ?_
    · intro _
      rw [p.heap_alloc_self]
      exact hload s e hdecode
    · intro x hx hxr
      have hx : x < p.next + 1 := hx
      exact ⟨by omega, congrArg core (p.heap_alloc_of_ne e hxr)⟩
  dsimp only at hok
  split at hok
  · cases hok
    exact halloc
  · obtain ⟨p1, hset, hok⟩ := bind_eq_ok hok
    obtain ⟨knownSelect, -, hret⟩ := bind_eq_ok hok
    cases hret
    have hp1 := setLatest_entries halloc hframe hset
    exact ⟨hp1.server, hp1.entry⟩

/-- By induction on the nodes. -/
theorem loadNodes_entries (hframe : ∀ e e', core e' = core e → P e → P e')
    (hload : ∀ s e, PoolEntry.decodeRLP env idOf s = .ok e → P e)
    (h : Populated P p) {call : Nat}
    {stored : List (StoredNode K F)} (hok : loadNodes env idOf call p stored = .ok p') :
    Populated P p' := by
  induction stored generalizing p call with
  | nil =>
    cases hok
    exact h
  | cons s rest ih =>
    obtain ⟨p1, hp1, hrest⟩ := bind_eq_ok hok
    exact ih (loadNode_entries hframe hload h hp1) hrest

/-- **The rule for the start.** -/
theorem start_entries [One F] [Add F] [Mul F] [Inhabited (Node ι K)] {env' : Env ι K F}
    {trusted : ι → Bool} {stored : List (StoredNode K F)} (hrule : EntryRule env' P)
    (hload : ∀ s e, PoolEntry.decodeRLP env idOf s = .ok e → P e)
    (hok : (newServerPool trusted).start idOf env env' stored = .ok p) : Populated P p := by
  obtain ⟨p1, hp1, hcheck⟩ := bind_eq_ok hok
  have hempty : Populated P { (newServerPool trusted : ServerPool ι K F) with server := true } :=
    ⟨rfl, fun r hr => absurd hr (Nat.not_lt_zero r)⟩
  obtain ⟨ds, hds⟩ := checkDial_dials hcheck
  exact (loadNodes_entries hrule.frame hload hempty hp1).dialed hrule.dial hds

end Start

end Pool

/-! ## Known entries -/

/-- An entry that is known or handed to a peer has an address to be saved with. -/
def Connected (e : PoolEntry ι K F) : Prop :=
  e.known = true ∨ e.handed = true → e.lastConnected ≠ none

section Connected

theorem Connected.core {e e' : PoolEntry ι K F} (hcore : core e' = core e) (h : Connected e) :
    Connected e' := by
  simp only [PoolEntries.core, Prod.mk.injEq] at hcore
  obtain ⟨-, -, -, hstate, -, hknown, hlast⟩ := hcore
  rw [Connected, PoolEntry.handed, hknown, hstate, hlast]
  exact h

variable {env : Env ι K F} {e e' : PoolEntry ι K F}

theorem atAddress_connected {address : PoolEntryAddress} (h : e.atAddress env address = .ok e') :
    Connected e' := by
  obtain ⟨_, -, hret⟩ := bind_eq_ok h
  cases hret
  intro _ hnone
  cases hnone

theorem Connected.seen {node : Node ι K} (h : Connected e) (hseen : e.seen env node = .ok e') :
    Connected e' := by
  obtain ⟨-, hstate, -, hknown, hlast⟩ := seen_core hseen
  rw [Connected, PoolEntry.handed, hknown, hstate, hlast]
  exact h

theorem connected_rule [Zero F] [One F] [Add F] [Mul F] (env : Env ι K F) :
    EntryRule env (Connected : PoolEntry ι K F → Prop) where
  frame _ _ hcore h := h.core hcore
  new node e hseen := by
    refine Connected.seen ?_ hseen
    rintro (hknown | hhanded)
    · cases hknown
    · cases hhanded
  seen _ _ _ h hseen := h.seen hseen
  accepted _ _ _ _ haccept := atAddress_connected haccept
  registered e h hhanded _ := h (.inr hhanded)
  dial e known call a w h _ := by
    rintro (hknown | hhanded)
    · exact h (.inl hknown)
    · cases hhanded
  idle e h := by
    rintro (hknown | hhanded)
    · exact h (.inl hknown)
    · cases hhanded

variable [DecidableEq ι] [Zero F] [One F] [Add F] [Mul F] [Inhabited (Node ι K)]
  {trusted : ι → Bool} {idOf : K → ι} {stored : List (StoredNode K F)}
  {cond : Condition ι K F}
  {p : ServerPool ι K F}

theorem known_connected (h : Reachable trusted idOf stored cond p) : Populated Connected p := by
  induction h with
  | start hok => exact start_entries (connected_rule _) (fun s e he => atAddress_connected he) hok
  | handle _ env msg a hallow _ hok ih => exact handle_entries (connected_rule env) ih hallow hok

end Connected

end MiniOpera.PoolEntries
