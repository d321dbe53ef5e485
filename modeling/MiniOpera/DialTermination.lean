import MiniOpera.PoolEntries
import MiniOpera.PoolSums

/-!
# `checkDial` ends

The loops of `checkDial` wait for counters that only `dial` changes, and `dial`
returns without a word for an entry that is not idle. They end because an entry
that is chosen has a weight at that moment, so it is idle and not delayed, and
because every entry has an address to dial (`Sturdy`): whatever is drawn, `choose`
does not return nil from its `addrSelect`.

`checkDial_terminates`: this holds in every run, with any weights of entries, and
any of addresses that are at least one, as long as the sums that are stored are
below `2^63`. The event loop then handles every message that can arrive.
`wrapped_sum_panics`: two addresses of weight `2^62` take the sum to `-2^63`, and
`checkDial` panics.
-/

namespace MiniOpera.DialTermination
open GoRuntime RandSelect SelectionMap EntryQueue Pool ServerPool PoolRoster Roster PoolDialing
  PoolRefinement PoolRuns PoolEntries PoolSums

variable {ι K F : Type}

/-! ## Entries -/

theorem addressWeight_pos (env : Env ι K F) (call t : Nat) (a : PoolEntryAddress) :
    0 < addressWeight env call t a := by
  unfold addressWeight
  omega

/-- An entry can be dialed, and a dialed one has been dialed somewhere. -/
structure Sturdy (e : PoolEntry ι K F) : Prop where
  range : InRange e.addrSelect
  stored : 0 < e.addrSelect.root.sumWeight
  dialed : e.state = .dialed → e.dialed ≠ none

section Sturdy

variable {env : Env ι K F} {e e' : PoolEntry ι K F} {node : Node ι K}

theorem sturdy_frame : FrameRule (Sturdy : PoolEntry ι K F → Prop) where
  frame e e' hcore h := by
    simp only [core, Prod.mk.injEq] at hcore
    obtain ⟨hselect, -, -, hstate, hdialed, -, -⟩ := hcore
    refine ⟨?_, ?_, ?_⟩
    · rw [hselect]
      exact h.range
    · rw [hselect]
      exact h.stored
    · rw [hstate, hdialed]
      exact h.dialed
  registered e h _ := by
    refine ⟨h.range, h.stored, ?_⟩
    intro hdialed
    cases hdialed
  idle e h := by
    refine ⟨h.range, h.stored, ?_⟩
    intro hdialed
    cases hdialed

/-- The address that was seen has a weight afterwards, whatever was there before. -/
theorem seen_sturdy (hrange : InRange e.addrSelect)
    (hdialed : e.state = .dialed → e.dialed ≠ none)
    (hfits : seenFits env e node = true) : ∃ e', e.seen env node = .ok e' ∧ Sturdy e' := by
  have hsame : (e.findAddr node).2.addrSelect = e.addrSelect ∧
      (e.findAddr node).2.state = e.state ∧ (e.findAddr node).2.dialed = e.dialed := by
    unfold PoolEntry.findAddr
    split <;> exact ⟨rfl, rfl, rfl⟩
  unfold seenFits at hfits
  unfold PoolEntry.seen
  generalize e.findAddr node = found at hsame hfits ⊢
  obtain ⟨a, e1⟩ := found
  obtain ⟨haddr, hstate, hdial⟩ := hsame
  dsimp only at haddr hstate hdial hfits ⊢
  rw [← haddr] at hrange
  rw [← hstate, ← hdial] at hdialed
  obtain ⟨w, hw, hrange', hpos⟩ := hrange.update hfits
  rw [hw]
  exact ⟨_, rfl, hrange', hpos (addressWeight_pos ..), hdialed⟩

theorem atAddress_sturdy {address : PoolEntryAddress} (hstate : e.state ≠ .dialed)
    (hfits : atAddressFits env e address = true) :
    ∃ e', e.atAddress env address = .ok e' ∧ Sturdy e' := by
  obtain ⟨w, hw, hrange, hpos⟩ := inRange_new.update hfits
  unfold PoolEntry.atAddress
  rw [hw]
  refine ⟨_, rfl, hrange, hpos (addressWeight_pos ..), ?_⟩
  intro hdialed
  exact absurd hdialed hstate

/-- `choose` of a sturdy entry's addresses is not nil. -/
theorem Sturdy.choose (h : Sturdy e) {call : Nat} (hfits : chooseAddrFits env call e = true) :
    ∃ a w, e.chooseAddr env call = .ok (a, w) ∧ InRange w ∧ 0 < w.root.sumWeight := by
  obtain ⟨choice, w, hcall, hrange, -, hpick⟩ := h.range.choose hfits
  obtain ⟨hsome, hpos⟩ := hpick h.stored fun t a => (addressWeight_pos env call t _).ne'
  obtain ⟨a, rfl⟩ := Option.ne_none_iff_exists'.mp hsome
  refine ⟨a, w, ?_, hrange, hpos⟩
  simp only [PoolEntry.chooseAddr, hcall, ok_bind, pure_eq_ok]

end Sturdy

/-! ## Pools -/

/-- A started pool whose sums are in range, with entries that can be dialed. -/
structure Steady (p : ServerPool ι K F) : Prop where
  entries : Populated Sturdy p
  select : ∀ k, InRange (p.select k)

section Steady

variable {p p' : ServerPool ι K F} {r : Ref} {env : Env ι K F}

theorem Steady.put (h : Steady p) {e : PoolEntry ι K F} (he : r < p.next → Sturdy e) :
    Steady (p.put r e) :=
  ⟨h.entries.put he, h.select⟩

theorem Steady.put_core (h : Steady p) {e : PoolEntry ι K F} (hcore : core e = core (p.heap r)) :
    Steady (p.put r e) :=
  ⟨h.entries.put_core sturdy_frame.frame hcore, h.select⟩

theorem Steady.setSelect (h : Steady p) (k : Bool) {w : WeightedRandomSelect Ref} (hw : InRange w) :
    Steady (p.setSelect k w) := by
  refine ⟨?_, ?_⟩
  · cases k <;> exact ⟨h.entries.server, h.entries.entry⟩
  · intro k'
    cases k <;> cases k'
    · exact hw
    · exact h.select true
    · exact h.select false
    · exact hw

theorem Steady.addSelected (h : Steady p) (k : Bool) (d : Int) : Steady (p.addSelected k d) := by
  cases k <;> exact ⟨⟨h.entries.server, h.entries.entry⟩, h.select⟩

theorem Steady.timed (h : Steady p) (dialTimers retryTimers : List Ref) :
    Steady { p with dialTimers := dialTimers, retryTimers := retryTimers } :=
  ⟨⟨h.entries.server, h.entries.entry⟩, h.select⟩

theorem Steady.release (h : Steady p) (r : Ref) : Steady (p.release r) := by
  have hidle : Steady (p.put r { p.heap r with state := .notConnected }) :=
    h.put fun hlt => sturdy_frame.idle _ (h.entries.entry r hlt)
  have hfree := hidle.addSelected (p.heap r).knownSelected (-1)
  have hdelayed := hfree.put_core (r := r) (e := PoolEntry.delayed _) rfl
  exact hdelayed.timed _ _

variable [DecidableEq ι]

theorem removeFromPool_steady {o : Option Ref} (h : Steady p) (hok : p.removeFromPool o = .ok p') :
    ∀ k, InRange (p'.select k) := by
  cases o with
  | none =>
    cases hok
    exact h.select
  | some e =>
    obtain ⟨w, hnew, hok⟩ := bind_eq_ok hok
    obtain ⟨w', hknown, hok⟩ := bind_eq_ok hok
    cases hok
    obtain ⟨w1, hw1, hrange⟩ := (h.select false).remove e
    obtain ⟨w2, hw2, hrange'⟩ := (h.select true).remove e
    cases hw1.symm.trans hnew
    cases hw2.symm.trans hknown
    intro k
    cases k
    · exact hrange
    · exact hrange'

theorem setLatest_steady {known : Bool} (h : Steady p) (hok : p.setLatest known r = .ok p') :
    Steady p' := by
  refine ⟨setLatest_entries h.entries sturdy_frame.frame hok, ?_⟩
  obtain ⟨⟨evicted, q⟩, -, hok⟩ := bind_eq_ok hok
  obtain ⟨p1, hremove, hok⟩ := bind_eq_ok hok
  have hselect := removeFromPool_steady h hremove
  cases hok
  intro k
  cases known <;> exact hselect k

end Steady

/-! ## The loops -/

/-- None of the dialed entries was delayed. -/
def Due (p : ServerPool ι K F) (ds : List (Ref × Bool)) : Prop :=
  ∀ d ∈ ds, (p.heap d.1).delayedRetry = false

/-- The pool agrees with a roster, and whatever idle entry is chosen can be dialed. -/
def Ready (trusted : ι → Bool) (p : ServerPool ι K F) : Prop :=
  (∃ v, Refines trusted p v) ∧ Steady p

section Loops

variable {trusted : ι → Bool} {env : Env ι K F} {p p' : ServerPool ι K F} {r : Ref}
  {ds ds' : List (Ref × Bool)} {known : Bool} {call : Nat}

theorem due_nil (p : ServerPool ι K F) : Due p [] := List.forall_mem_nil _

theorem Due.append (h : Due p ds) (h' : Due p' ds') (hds : Dialed env p ds p') :
    Due p (ds ++ ds') := by
  intro d hd
  rcases List.mem_append.mp hd with hd | hd
  · exact h d hd
  · rw [← hds.delayed]
    exact h' d hd

theorem entryWeight_idle {t : Nat} {e : PoolEntry ι K F} (h : 0 < entryWeight env known call t e) :
    e.state = .notConnected ∧ e.delayedRetry = false := by
  by_contra hbusy
  have hzero : entryWeight env known call t e = 0 := by
    unfold entryWeight knownWeight discoveredWeight
    by_cases hstate : e.state = .notConnected
    · have hdelayed : e.delayedRetry = true := by
        by_contra hno
        exact hbusy ⟨hstate, Bool.eq_false_iff.mpr hno⟩
      simp [hdelayed]
    · simp [hstate]
  rw [hzero] at h
  exact absurd h (lt_irrefl _)

theorem dial_returns (h : Steady p) (hr : r < p.next) (hidle : (p.heap r).state = .notConnected)
    (hfits : chooseAddrFits env call (p.heap r) = true) (known : Bool) :
    ∃ p', p.dial env call r known = .ok p' ∧ Dialed env p [(r, known)] p' ∧ Steady p' := by
  have hserver := h.entries.server
  obtain ⟨a, w, hchoose, hrange, hpos⟩ := (h.entries.entry r hr).choose hfits
  have hok : p.dial env call r known = .ok
      { (p.put r (dialing (p.heap r) known a w)).addSelected known 1 with
        dialTimers := r :: p.dialTimers } := by
    rw [ServerPool.dial, if_neg (by simp [hserver, hidle]), hchoose]
    rfl
  refine ⟨_, hok, ?_, ?_⟩
  · rcases dial_cases hok with ⟨-, hno | hno⟩ | hone
    · rw [hserver] at hno
      cases hno
    · exact absurd hidle hno
    · exact hone
  · have hput : Steady (p.put r (dialing (p.heap r) known a w)) := by
      refine h.put fun _ => ⟨hrange, hpos, ?_⟩
      intro _ hnone
      cases hnone
    exact (hput.addSelected known 1).timed _ _

/-- An iteration dials one entry, or there is none to dial. -/
theorem dialNext_returns (h : Ready trusted p) (hfits : dialNextFits env known call p = true) :
    ∃ found ds p', p.dialNext env known call = .ok (found, p') ∧
      Dialed env p ds p' ∧ Due p ds ∧
      (found = true → ∃ r, ds = [(r, known)]) ∧ Ready trusted p' := by
  obtain ⟨⟨v, hv⟩, hsteady⟩ := h
  obtain ⟨hchosen, hrest⟩ := Bool.and_eq_true_iff.mp hfits
  obtain ⟨choice, w, hchoose, hrange, hpick, -⟩ := (hsteady.select known).choose hchosen
  have hrest := after_ok hchoose hrest
  obtain ⟨hstock, hplaced⟩ := (hv.select known).choose hchoose
  have hset := hsteady.setSelect known hrange
  have hnone := Dialed.none env p known w
  suffices hcall : ∃ found ds p', p.dialNext env known call = .ok (found, p') ∧
      Dialed env p ds p' ∧ Due p ds ∧ (found = true → ∃ r, ds = [(r, known)]) ∧
        Steady p' by
    obtain ⟨found, ds, p', hok, hds, hdue, hone, hp'⟩ := hcall
    obtain ⟨v', hv', -⟩ := dialNext_refines hv (.refl v) hok
    exact ⟨found, ds, p', hok, hds, hdue, hone, ⟨v', hv'⟩, hp'⟩
  unfold ServerPool.dialNext
  simp only [hchoose, ok_bind]
  cases choice with
  | none =>
    refine ⟨false, [], _, rfl, hnone, due_nil p, ?_, hset⟩
    intro hfound
    cases hfound
  | some r =>
    obtain ⟨t, hpos⟩ := hpick r rfl
    obtain ⟨hidle, hdelayed⟩ := entryWeight_idle hpos
    have hlt : r < p.next := by
      rw [hv.next]
      rcases mem_places.mp (hplaced r rfl) with hno | ⟨k, hk⟩
      · cases hno
      · exact (hv.sound.listed k r hk).1
    have hheap : (p.setSelect known w).heap = p.heap := by cases known <;> rfl
    have hnext : (p.setSelect known w).next = p.next := by cases known <;> rfl
    obtain ⟨p', hdial, hone, hp'⟩ := dial_returns (r := r) hset (by rw [hnext]; exact hlt)
      (by rw [hheap]; exact hidle) (by rw [hheap]; exact hrest) known
    refine ⟨true, [(r, known)], p', ?_, hnone.append hone, ?_, fun _ => ⟨r, rfl⟩, hp'⟩
    · simp only [hdial, ok_bind, pure_eq_ok]
    · intro d hd
      cases List.mem_singleton.mp hd
      exact hdelayed

/-- A loop ends because every iteration brings it closer to its target. -/
theorem dialWhile_returns (known : Bool) (target : Int) {fuel : Nat} (h : Ready trusted p)
    (hfits : dialWhileFits env known (fun p => load known p < target) fuel call p = true)
    (hfuel : (target - load known p).toNat < fuel) :
    ∃ out ds, ServerPool.dialWhile env known (fun p => load known p < target) fuel call p =
      .ok out ∧
      Dialed env p ds out.2.2 ∧ Due p ds ∧ Ready trusted out.2.2 := by
  induction fuel generalizing p call with
  | zero => cases hfuel
  | succ fuel ih =>
    rw [dialWhileFits] at hfits
    rw [ServerPool.dialWhile]
    by_cases hmore : load known p < target
    · rw [decide_eq_true hmore, Bool.not_true, Bool.false_or, Bool.and_eq_true] at hfits
      rw [if_pos (decide_eq_true hmore)]
      obtain ⟨hnextFits, hrest⟩ := hfits
      obtain ⟨found, ds, p1, hnext, hds, hdue, hone, hp1⟩ := dialNext_returns h hnextFits
      have hrest := after_ok hnext hrest
      simp only [hnext, ok_bind]
      cases found with
      | false => exact ⟨_, ds, rfl, hds, hdue, hp1⟩
      | true =>
        obtain ⟨r, rfl⟩ := hone rfl
        have hload := hds.load_one
        obtain ⟨out, ds', hloop, hds', hdue', hready⟩ := ih hp1 hrest (by omega)
        exact ⟨out, _, hloop, hds.append hds', hdue.append hdue' hds, hready⟩
    · rw [if_neg (by simpa using hmore)]
      exact ⟨_, [], rfl, Dialed.none env p true p.knownSelect, due_nil p, h⟩

/-- **`checkDial` returns.** -/
theorem checkDial_returns (h : Ready trusted p) (hfits : checkDialFits env p = true) :
    ∃ ds p', p.checkDial env = .ok p' ∧ Dialed env p ds p' ∧ Due p ds ∧
      Ready trusted p' := by
  obtain ⟨hfits1, hrest⟩ := Bool.and_eq_true_iff.mp hfits
  obtain ⟨⟨noneKnown, call1, p1⟩, ds1, h1, hds1, hdue1, hp1⟩ :=
    dialWhile_returns true targetKnownSelect h hfits1 (Nat.lt_succ_self _)
  have hfirst : p.dialKnown env targetKnownSelect 2 = .ok (noneKnown, call1, p1) := h1
  have hrest := after_ok hfirst hrest
  obtain ⟨hfits2, hrest⟩ := Bool.and_eq_true_iff.mp hrest
  obtain ⟨⟨b, call2, p2⟩, ds2, h2, hds2, hdue2, hp2⟩ :=
    dialWhile_returns false targetServerCount hp1 hfits2 (Nat.lt_succ_self _)
  have hsecond : p1.dialNew env call1 = .ok (b, call2, p2) := h2
  have hlast := after_ok hsecond hrest
  have hds := hds1.append hds2
  have hdue := hdue1.append hdue2 hds1
  unfold ServerPool.checkDial
  simp only [hfirst, hsecond, ok_bind]
  split
  · next hmore =>
    have hfits3 : dialKnownFits env targetServerCount call2 p2 = true := by
      simp only [Bool.not_eq_true'] at hmore
      simpa only [hmore, Bool.false_or] using hlast
    obtain ⟨⟨b', call3, p3⟩, ds3, h3, hds3, hdue3, hp3⟩ :=
      dialWhile_returns true targetServerCount hp2 hfits3 (Nat.lt_succ_self _)
    have hthird : p2.dialKnown env targetServerCount call2 = .ok (b', call3, p3) := h3
    refine ⟨_, p3, ?_, hds.append hds3, hdue.append hdue3 hds, hp3⟩
    simp only [hthird, ok_bind, pure_eq_ok]
  · exact ⟨_, p2, rfl, hds, hdue, hp2⟩

theorem updateCheckDial_returns {v : Roster ι} (hv : Refines trusted p v) (h : Steady p)
    (hr : v.Listed r) (hfits : updateCheckDialFits env p r = true) :
    ∃ p', p.updateCheckDial env r = .ok p' ∧ Steady p' := by
  obtain ⟨hboth, hrest⟩ := Bool.and_eq_true_iff.mp hfits
  obtain ⟨hnewFits, hknownFits⟩ := Bool.and_eq_true_iff.mp hboth
  have hselect : InRange p.newSelect ∧ InRange p.knownSelect :=
    ⟨h.select false, h.select true⟩
  obtain ⟨w, hnew, hrange, -⟩ := hselect.1.update hnewFits
  obtain ⟨w', hknown, hrange', -⟩ := hselect.2.update hknownFits
  have hrest := after_ok hnew hrest
  have hcheck := after_ok hknown hrest
  have hplace : r ∈ places v none := mem_places.mpr (.inr ⟨_, hr⟩)
  obtain ⟨w1, hw1, hstock⟩ := (hv.select false).setWeight hplace
    (discoveredWeight env 0 0 (p.heap r))
  obtain ⟨w2, hw2, hstock'⟩ := (hv.select true).setWeight hplace
    (knownWeight env 1 0 (p.heap r))
  cases hw1.symm.trans hnew
  cases hw2.symm.trans hknown
  have hready : Ready trusted { p with newSelect := w, knownSelect := w' } :=
    ⟨⟨v, (hv.setSelect (k := false) hstock).setSelect (k := true) hstock'⟩,
      (h.setSelect false hrange).setSelect true hrange'⟩
  obtain ⟨-, p', hok, -, -, -, hp'⟩ := checkDial_returns hready hcheck
  refine ⟨p', ?_, hp'⟩
  unfold ServerPool.updateCheckDial
  rw [hnew, ok_bind, hknown, ok_bind]
  exact hok

end Loops

/-! ## Messages -/

section Messages

variable {trusted : ι → Bool} {env : Env ι K F} {p p' : ServerPool ι K F}
  {v : Roster ι} {r : Ref}
  {node : Node ι K}

/-- There is one more entry, and it can be dialed. -/
theorem Steady.grown (h : Steady p) (hserver : p'.server = p.server) (hnext : p'.next = p.next + 1)
    (hself : Sturdy (p'.heap p.next)) (hothers : ∀ x, x ≠ p.next → p'.heap x = p.heap x)
    (hselect : ∀ k, p'.select k = p.select k) : Steady p' := by
  refine ⟨h.entries.changed (r := p.next) sturdy_frame.frame hserver (fun _ => hself) ?_, ?_⟩
  · intro x hx hxr
    exact ⟨by omega, congrArg core (hothers x hxr)⟩
  · intro k
    rw [hselect]
    exact h.select k

theorem lookupDone_steady (env : Env ι K F) (h : Steady p) (conv : Bool) :
    Steady (p.lookupDone env conv) := by
  refine ⟨lookupDone_entries env h.entries conv, ?_⟩
  intro k
  unfold ServerPool.lookupDone
  split <;> exact h.select k

variable [DecidableEq ι]

theorem rediscover_steady (hput : ∀ e, (p.heap r).seen env node = .ok e → Steady (p.put r e))
    (hok : p.rediscover env r node = .ok p') : Steady p' := by
  obtain ⟨e, hseen, hok⟩ := bind_eq_ok hok
  split at hok
  · cases hok
    exact hput e hseen
  · exact setLatest_steady (hput e hseen) hok

theorem register_steady (h : Steady p) (hr : (p.heap r).handed = true)
    (hok : p.register env r = .ok p') : Steady p' := by
  refine ⟨register_entries sturdy_frame h.entries hr hok, ?_⟩
  obtain ⟨p1, hset, hret⟩ := bind_eq_ok hok
  cases hret
  have hknown : Steady (p.becomeKnown env r) := by
    rw [becomeKnown_eq]
    have hput : Steady
        (p.put r { p.heap r with state := .registered, regTime := env.now, known := true }) := by
      apply h.put
      intro hlt
      refine sturdy_frame.frame _ _ ?_ (sturdy_frame.registered _ (h.entries.entry r hlt) hr)
      rfl
    exact ⟨⟨hput.entries.server, hput.entries.entry⟩, hput.select⟩
  exact (setLatest_steady hknown hset).select

variable [Zero F] [One F] [Add F] [Mul F]

theorem findOrNewNode_returns (hv : Refines trusted p v) (h : Steady p)
    (hid : trusted node.id = false) (hfits : findOrNewNodeFits env p node = true) :
    ∃ r p', p.findOrNewNode env node = .ok (r, p') ∧ Steady p' := by
  unfold findOrNewNodeFits at hfits
  rw [hv.entries] at hfits
  cases hentry : v.entries node.id with
  | none =>
    rw [hentry] at hfits
    obtain ⟨p', hcall, -⟩ := findOrNewNode_new env hv hid hentry
    rw [← hv.next] at hcall
    refine ⟨_, p', hcall, ?_⟩
    simp only [ServerPool.findOrNewNode, hv.entries, hentry] at hcall
    obtain ⟨p1, hseen, hret⟩ := bind_eq_ok hcall
    cases hret
    refine rediscover_steady ?_ hseen
    intro e he
    rw [p.heap_alloc_self] at he
    have hblank : (PoolEntry.discovered node : PoolEntry ι K F).state = .dialed →
        (PoolEntry.discovered node : PoolEntry ι K F).dialed ≠ none := by
      intro hdialed
      cases hdialed
    obtain ⟨e', he', hsturdy⟩ := seen_sturdy inRange_new hblank hfits
    cases he.symm.trans he'
    refine h.grown rfl rfl ?_ ?_ fun _ => rfl
    · rw [heap_put_self]
      exact hsturdy
    · intro x hx
      rw [heap_put_of_ne _ _ hx, p.heap_alloc_of_ne _ hx]
  | some r =>
    rw [hentry] at hfits
    obtain ⟨hlt, hrid, -⟩ := Sound.entry_cases hv.sound hid hentry
    have hr : r < p.next := by rw [hv.next]; exact hlt
    obtain ⟨e, he, hsturdy⟩ :=
      seen_sturdy (h.entries.entry r hr).range (h.entries.entry r hr).dialed hfits
    obtain ⟨p', hcall, -⟩ := rediscover_refines hv (fun x hx => by cases hx) hlt
      (by rw [hrid]; exact hid) he
    refine ⟨r, p', ?_, rediscover_steady ?_ hcall⟩
    · simp only [ServerPool.findOrNewNode, hv.entries, hentry, hcall, ok_bind, pure_eq_ok]
    · intro e' he'
      cases he.symm.trans he'
      exact h.put fun _ => hsturdy

theorem nodeDiscovered_returns (hv : Refines trusted p v) (h : Steady p)
    (hfits : nodeDiscoveredFits env p node = true) :
    ∃ p', p.nodeDiscovered env node = .ok p' ∧ Steady p' := by
  unfold nodeDiscoveredFits at hfits
  unfold ServerPool.nodeDiscovered
  rw [hv.trusts] at hfits ⊢
  cases hid : trusted node.id with
  | true => exact ⟨p, rfl, h⟩
  | false =>
    rw [hid, Bool.false_or, Bool.and_eq_true] at hfits
    obtain ⟨hfind, hrest⟩ := hfits
    obtain ⟨r, p1, hcall, hp1⟩ := findOrNewNode_returns hv h hid hfind
    obtain ⟨v1, hf, hv1⟩ := findOrNewNode_refines hv hid hcall
    have hdials := after_ok hcall hrest
    obtain ⟨p', hok, hp'⟩ := updateCheckDial_returns hv1 hp1
      (Sound.find hv.sound hid hf).2 hdials
    refine ⟨p', ?_, hp'⟩
    rw [if_neg (by simp), hcall, ok_bind]
    exact hok

omit [DecidableEq ι] [Zero F] [One F] [Add F] [Mul F] in
theorem retryEnabled_returns (hv : Refines trusted p v) (h : Steady p) (hr : r ∈ p.retryTimers)
    (hfits : retryEnabledFits env p r = true) : ∃ p', p.retryEnabled env r = .ok p' ∧
      Steady p' := by
  obtain ⟨hlt, hid⟩ := hv.timers r (.inr hr)
  have hvtimed := hv.timed p.dialTimers (p.retryTimers.erase r)
    fun x hx => .inl (hx.imp_right List.mem_of_mem_erase)
  have htimed := h.timed p.dialTimers (p.retryTimers.erase r)
  unfold ServerPool.retryEnabled
  dsimp only
  split
  · exact ⟨_, rfl, htimed⟩
  · next hremoved =>
    have halive : (p.heap r).removed = false := Bool.eq_false_iff.mpr hremoved
    have hlisted : v.Listed r :=
      Sound.listed_of_alive hv.sound hlt hid ((hv.member_removed r).symm.trans halive)
    have hdials := (Bool.or_eq_true_iff.mp hfits).resolve_left hremoved
    have hput := hvtimed.put_same (r := r) (e := { p.heap r with delayedRetry := false }) rfl rfl
    exact updateCheckDial_returns hput (htimed.put_core rfl) hlisted hdials

omit [DecidableEq ι] in
theorem dialTimeout_returns (hv : Refines trusted p v) (h : Steady p) (hr : r ∈ p.dialTimers) :
    ∃ p', p.dialTimeout r = .ok p' ∧ Steady p' := by
  have hlt : r < p.next := by
    rw [hv.next]
    exact (hv.timers r (.inl hr)).1
  have htimed := h.timed (p.dialTimers.erase r) p.retryTimers
  unfold ServerPool.dialTimeout ServerPool.checkDialTimeout
  dsimp only
  split
  · exact ⟨_, rfl, htimed⟩
  · split
    · exact ⟨_, rfl, htimed⟩
    · next hstate =>
      rw [not_not] at hstate
      have hdialed := (h.entries.entry r hlt).dialed hstate
      unfold PoolEntry.failed
      cases haddr : (p.heap r).dialed with
      | none => exact absurd haddr hdialed
      | some a =>
        refine ⟨_, rfl, (htimed.put_core (r := r) ?_).release r⟩
        simp only [core, haddr]

theorem connect_returns (hv : Refines trusted p v) (h : Steady p)
    (hfits : connectFits env p node = true) :
    ∃ a p', p.connect env node = .ok (a, p') ∧ Steady p' := by
  unfold connectFits at hfits
  unfold ServerPool.connect
  rw [hv.trusts] at hfits ⊢
  cases hid : trusted node.id with
  | true => exact ⟨none, p, rfl, h⟩
  | false =>
    rw [hid, Bool.false_or, Bool.and_eq_true] at hfits
    obtain ⟨hfind, hrest⟩ := hfits
    have hentry : ∃ r p1, p.entryOf env node = .ok (r, p1) ∧ Steady p1 := by
      unfold ServerPool.entryOf
      cases hsome : p.entries node.id with
      | some r => exact ⟨r, p, rfl, h⟩
      | none =>
        rw [hsome] at hfind
        exact findOrNewNode_returns hv h hid hfind
    obtain ⟨r, p1, hcall, hp1⟩ := hentry
    have haccept := after_ok hcall hrest
    rw [if_neg (by simp), hcall, ok_bind]
    dsimp only at haccept ⊢
    cases hhanded : (p1.heap r).handed with
    | true => exact ⟨none, p1, rfl, hp1⟩
    | false =>
      rw [hhanded, Bool.false_or] at haccept
      obtain ⟨e, he, hsturdy⟩ := atAddress_sturdy
        (e := { p1.heap r with state := .connected }) (by intro hdialed; cases hdialed) haccept
      have hok : (p1.heap r).accepted env node = .ok e := he
      refine ⟨some r, p1.put r e, ?_, hp1.put fun _ => hsturdy⟩
      rw [if_neg (by simp), hok]
      rfl

/-- **Every message that can arrive is handled.** -/
theorem handle_returns (hv : Refines trusted p v) (h : Steady p) {msg : Msg ι K F}
    (hallow : Allowed p msg) (hfits : handleFits env p msg = true) :
    ∃ a p', p.handle env msg = .ok (a, p') ∧ Steady p' := by
  cases msg with
  | timeout r =>
    obtain ⟨p', hcall, hp'⟩ := dialTimeout_returns hv h hallow
    exact ⟨none, p', by rw [ServerPool.handle, hcall]; rfl, hp'⟩
  | enableRetry r =>
    obtain ⟨p', hcall, hp'⟩ := retryEnabled_returns hv h hallow hfits
    exact ⟨none, p', by rw [ServerPool.handle, hcall]; rfl, hp'⟩
  | adjustStats r timeout time =>
    refine ⟨none, _, rfl, adjustStats_entries sturdy_frame h.entries r timeout time, ?_⟩
    intro k
    cases timeout <;> exact h.select k
  | discNode node =>
    obtain ⟨p', hcall, hp'⟩ := nodeDiscovered_returns hv h hfits
    exact ⟨none, p', by rw [ServerPool.handle, hcall]; rfl, hp'⟩
  | discLookup conv => exact ⟨none, _, rfl, lookupDone_steady env h conv⟩
  | connect node => exact connect_returns hv h hfits
  | register r =>
    obtain ⟨p', hcall, -⟩ := register_refines env hv ((hv.handed_iff r).mp hallow)
    exact ⟨none, p', by rw [ServerPool.handle, hcall]; rfl, register_steady h hallow hcall⟩
  | disconnect r stopped =>
    refine ⟨none, _, rfl, (h.put_core ?_).release r⟩
    unfold PoolEntry.closed
    split <;> rfl

end Messages

/-! ## Runs -/

section Runs

variable [DecidableEq ι] [Zero F] {trusted : ι → Bool} {idOf : K → ι} {env env' : Env ι K F}
  {p p' : ServerPool ι K F}

theorem loadNode_steady (h : Steady p) {call : Nat} {s : StoredNode K F}
    (hfits : loadNodeFits env idOf call p s = true) (hok : p.loadNode env idOf call s = .ok p') :
    Steady p' := by
  obtain ⟨haddress, hrest⟩ := Bool.and_eq_true_iff.mp hfits
  obtain ⟨e, hdecode, hok⟩ := bind_eq_ok hok
  have hrest := after_ok hdecode hrest
  have hsturdy : Sturdy e := by
    obtain ⟨e', he', hsturdy⟩ := atAddress_sturdy
      (e := { (PoolEntry.blank ⟨idOf s.pubkey, s.pubkey, s.ip, s.port⟩ : PoolEntry ι K F) with
        connectStats := s.cStat
        delayStats := s.dStat
        responseStats := s.rStat
        timeoutStats := s.tStat
        known := true }) (by intro hdialed; cases hdialed) haddress
    cases he'.symm.trans hdecode
    exact hsturdy
  have halloc : Steady (p.alloc e) := by
    refine h.grown rfl rfl ?_ (fun x hx => p.heap_alloc_of_ne e hx) fun _ => rfl
    rw [p.heap_alloc_self]
    exact hsturdy
  dsimp only at hok hrest
  split at hok
  · cases hok
    exact halloc
  · next hno =>
    have hno : p.trustedNodes e.node.id = false := Bool.eq_false_iff.mpr hno
    obtain ⟨p1, hset, hok⟩ := bind_eq_ok hok
    obtain ⟨w, hw, hret⟩ := bind_eq_ok hok
    cases hret
    rw [hno, Bool.false_or] at hrest
    have hp1 := setLatest_steady halloc hset
    have hrange : InRange p1.knownSelect := hp1.select true
    have hlast := after_ok hset hrest
    obtain ⟨w', hw', hrange', -⟩ := hrange.update hlast
    cases hw'.symm.trans hw
    exact hp1.setSelect true hrange'

/-- By induction on the nodes. -/
theorem loadNodes_steady (h : Steady p) {call : Nat} {stored : List (StoredNode K F)}
    (hfits : loadNodesFits env idOf call p stored = true)
    (hok : loadNodes env idOf call p stored = .ok p') : Steady p' := by
  induction stored generalizing p call with
  | nil =>
    cases hok
    exact h
  | cons s rest ih =>
    obtain ⟨hfirst, hrest⟩ := Bool.and_eq_true_iff.mp hfits
    obtain ⟨p1, hp1, hok⟩ := bind_eq_ok hok
    have hrest := after_ok hp1 hrest
    exact ih (loadNode_steady h hfirst hp1) hrest hok

theorem start_returns [Inhabited (Node ι K)] {stored : List (StoredNode K F)}
    (hfits : startFits idOf env env' (newServerPool trusted) stored = true) :
    ∃ p, (newServerPool trusted).start idOf env env' stored = .ok p ∧ Steady p := by
  obtain ⟨hloads, hrest⟩ := Bool.and_eq_true_iff.mp hfits
  obtain ⟨p1, hload, hv1⟩ :=
    loadNodes_refines env idOf 0 (newServerPool_refines trusted : Refines trusted _ _) stored
  have hempty : Steady { (newServerPool trusted : ServerPool ι K F) with server := true } := by
    refine ⟨⟨rfl, fun r hr => absurd hr (Nat.not_lt_zero r)⟩, ?_⟩
    intro k
    cases k <;> exact inRange_new
  have hp1 := loadNodes_steady hempty hloads hload
  obtain ⟨ds, p, hcheck, -, -, -, hp⟩ := checkDial_returns ⟨⟨_, hv1⟩, hp1⟩
    (after_ok hload hrest)
  refine ⟨p, ?_, hp⟩
  rw [ServerPool.start, hload]
  exact hcheck

variable [One F] [Add F] [Mul F] [Inhabited (Node ι K)] {stored : List (StoredNode K F)}

theorem reached_steady (h : Reached trusted idOf stored p) : Steady p := by
  induction h with
  | start hfits hok =>
    obtain ⟨p, hcall, hp⟩ := start_returns hfits
    cases hcall.symm.trans hok
    exact hp
  | handle hreached hfits hallow hok ih =>
    obtain ⟨v, hv⟩ := hreached.reachable.refines
    obtain ⟨a, p', hcall, hp'⟩ := handle_returns hv ih hallow hfits
    cases hcall.symm.trans hok
    exact hp'

/-- **`checkDial` ends without a panic** as long as the sums that are stored are below
`2^63`. The pool starts, and in every pool that is reached `checkDial` returns, having
dialed idle entries that were not delayed; every entry has an address with a weight and
gets one when it is dialed, a known entry has the address that its weight is read from,
and every message is handled. -/
theorem checkDial_terminates (trusted : ι → Bool) (idOf : K → ι)
    (stored : List (StoredNode K F)) :
    (∀ env env' : Env ι K F, startFits idOf env env' (newServerPool trusted) stored = true →
      ∃ p, (newServerPool trusted).start idOf env env' stored = .ok p) ∧
    ∀ p, Reached trusted idOf stored p → ∀ env,
      (checkDialFits env p = true →
        ∃ ds p', p.checkDial env = .ok p' ∧ Dialed env p ds p' ∧ Due p ds) ∧
      (∀ r < p.next, (∃ a, 0 < storedWeight (p.heap r).addrSelect a) ∧
        (∀ call, chooseAddrFits env call (p.heap r) = true →
          ∃ a w, (p.heap r).chooseAddr env call = .ok (a, w)) ∧
        ((p.heap r).known = true → (p.heap r).lastConnected ≠ none)) ∧
      ∀ msg, Allowed p msg → handleFits env p msg = true →
        ∃ a p', p.handle env msg = .ok (a, p') := by
  refine ⟨?_, ?_⟩
  · intro env env' hfits
    obtain ⟨p, hcall, -⟩ := start_returns hfits
    exact ⟨p, hcall⟩
  intro p h env
  obtain ⟨v, hv⟩ := h.reachable.refines
  have hsteady := reached_steady h
  refine ⟨?_, ?_, ?_⟩
  · intro hfits
    obtain ⟨ds, p', hcheck, hds, hdue, -⟩ := checkDial_returns ⟨⟨v, hv⟩, hsteady⟩ hfits
    exact ⟨ds, p', hcheck, hds, hdue⟩
  · intro r hr
    have hsturdy := hsteady.entries.entry r hr
    refine ⟨hsturdy.range.stored hsturdy.stored, ?_, ?_⟩
    · intro call hfits
      obtain ⟨a, w, hcall, -⟩ := hsturdy.choose hfits
      exact ⟨a, w, hcall⟩
    · intro hknown
      exact (known_connected h.reachable).entry r hr (.inl hknown)
  · intro msg hallow hfits
    obtain ⟨a, p', hcall, -⟩ := handle_returns hv hsteady hallow hfits
    exact ⟨a, p', hcall⟩

end Runs

/-! ## A node with two addresses -/

/-- Addresses of a given weight. -/
def weighing (weight : Nat) : Env Nat Nat Int :=
  { plainEnv 0 with freshness := fun _ _ _ => weight - 1 }

/-- Five nodes are discovered and dialed, a sixth one is discovered at two addresses
while no more are dialed, and a dial times out. -/
def sixthWaits (weight : Nat) : List (Env Nat Nat Int × Msg Nat Nat Int) :=
  (List.range 5).map (fun i => (weighing weight, .discNode (plainNode i))) ++
    [(weighing weight, .discNode (plainNode 5)),
      (weighing weight, .discNode { plainNode 5 with tcp := 5051 }),
      (weighing weight, .timeout 0)]

def started (weight : Nat) : Go Empty (ServerPool Nat Nat Int) :=
  (newServerPool fun _ => false).start id (weighing weight) (weighing weight) []

theorem checkDial_terminates_sixth :
    ∃ p ds p', Reached (fun _ => false) id [] p ∧ p.checkDial (weighing 1000001) = .ok p' ∧
      Dialed (weighing 1000001) p ds p' ∧ Due p ds ∧ 5 ∈ ds.map Prod.fst := by
  have hrun : ∃ p0 ∈ (started 1000001).toOption, msgsFit p0 (sixthWaits 1000001) = true ∧
      ∃ p ∈ runMsgs (fun _ _ => True) p0 (sixthWaits 1000001),
        checkDialFits (weighing 1000001) p = true ∧ (p.heap 5).state = .notConnected ∧
        ∃ p' ∈ (p.checkDial (weighing 1000001)).toOption, (p'.heap 5).state = .dialed := by
    decide +kernel
  obtain ⟨p0, hp0, hmsgs, p, hp, hfits, hidle, p', hp', hdialed⟩ := hrun
  have hstart : Reached (fun _ => false) id [] p0 := .start (by decide +kernel)
    (toOption_eq_some hp0)
  have hreached := runMsgs_reached hstart hmsgs hp
  obtain ⟨-, hall⟩ := checkDial_terminates (fun _ => false) id ([] : List (StoredNode Nat Int))
  obtain ⟨ds, p1, hcheck, hds, hdue⟩ := (hall p hreached (weighing 1000001)).1 hfits
  cases hcheck.symm.trans (toOption_eq_some hp')
  refine ⟨p, ds, p', hreached, hcheck, hds, hdue, ?_⟩
  by_contra hno
  rw [hds.others 5 hno, hidle] at hdialed
  cases hdialed

/-- Two addresses of weight `2^62` take the sum to `-2^63`. -/
theorem wrapped_sum_panics :
    ∃ p : ServerPool Nat Nat Int, Reachable (fun _ => false) id [] (fun _ _ => True) p ∧
      p.server = true ∧ (p.heap 5).addrSelect.root.sumWeight = -2 ^ 63 ∧
      p.checkDial (weighing (2 ^ 62)) = .error
        (.panic (.message "invalid argument to Int63n")) := by
  have hrun : ∃ p0 ∈ (started (2 ^ 62)).toOption,
      ∃ p ∈ runMsgs (fun _ _ => True) p0 (sixthWaits (2 ^ 62)),
        p.server = true ∧ (p.heap 5).addrSelect.root.sumWeight = -2 ^ 63 ∧
        fault? (p.checkDial (weighing (2 ^ 62))) =
          some (.panic (.message "invalid argument to Int63n")) := by
    decide +kernel
  obtain ⟨p0, hp0, p, hp, hserver, hsum, hfault⟩ := hrun
  exact ⟨p, runMsgs_reachable (.start (toOption_eq_some hp0)) hp, hserver, hsum,
    fault?_eq_some hfault⟩

end MiniOpera.DialTermination
