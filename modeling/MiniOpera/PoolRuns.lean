import MiniOpera.PoolRefinement

/-!
# Runs of the pool

A run starts with the nodes of the database and goes on with messages that can
arrive and meet a condition. `reachable_refines`: what the steps of the roster
keep under the condition holds of every pool that is reached.
-/

namespace MiniOpera.PoolRuns
open GoRuntime RandSelect EntryQueue Pool PoolRoster Roster PoolRefinement

variable {ι K F : Type} [DecidableEq ι]

/-- The roster of the nodes of the database. -/
def loaded (trusted : ι → Bool) : Roster ι → List ι → Roster ι
  | v, [] => v
  | v, id :: rest => loaded trusted (v.load trusted id) rest

/-- Nothing has been dialed. -/
def Resting (v : Roster ι) : Prop := (∀ x, v.Idle x) ∧ ∀ k, v.selected k = 0

section Loaded

variable {trusted : ι → Bool} {v : Roster ι}

theorem Resting.load (h : Resting v) (id : ι) : Resting (v.load trusted id) := by
  have henter : Resting (v.enter ⟨id, .notConnected, true, false, false⟩) := by
    refine ⟨fun x => ?_, h.2⟩
    by_cases hx : x = v.next
    · rw [hx, Roster.Idle, enter_self]
    · rw [Roster.Idle, Roster.enter, put_of_ne hx]
      exact h.1 x
  unfold Roster.load
  split
  · exact henter
  · refine ⟨fun x => ?_, fun k => ?_⟩
    · rw [Roster.Idle, touch_state]
      exact henter.1 x
    · rw [touch_selected]
      exact henter.2 k

/-- By induction on the nodes. -/
theorem loaded_sound (h : Sound trusted v) (hrest : Resting v) (ids : List ι) :
    Sound trusted (loaded trusted v ids) ∧ Resting (loaded trusted v ids) := by
  induction ids generalizing v with
  | nil => exact ⟨h, hrest⟩
  | cons id rest ih => exact ih (h.load id) (hrest.load id)

end Loaded

section Start

variable {trusted : ι → Bool} {p p' : ServerPool ι K F} {v : Roster ι} [Zero F]

omit [DecidableEq ι] in
theorem newServerPool_refines [Inhabited (Node ι K)] (trusted : ι → Bool) :
    Refines trusted { (ServerPool.newServerPool trusted : ServerPool ι K F) with server := true }
      (.empty (default : Node ι K).id) where
  trusts := rfl
  member _ := rfl
  next := rfl
  entries := rfl
  selected k := by cases k <;> rfl
  queue k := by cases k <;> exact queued_new _ _
  maxCnt k := by cases k <;> rfl
  select k := by cases k <;> exact stocked_new _
  timers r hr := by rcases hr with hr | hr <;> cases hr
  sound := sound_empty _

/-- A stored node always loads. -/
theorem loadNode_refines (env : Env ι K F) (idOf : K → ι) (call : Nat) (h : Refines trusted p v)
    (s : StoredNode K F) :
    ∃ p', p.loadNode env idOf call s = .ok p' ∧
      Refines trusted p' (v.load trusted (idOf s.pubkey)) := by
  obtain ⟨e, he, hm, -⟩ := atAddress_spec env
    { (PoolEntry.blank ⟨idOf s.pubkey, s.pubkey, s.ip, s.port⟩ : PoolEntry ι K F) with
      connectStats := s.cStat
      delayStats := s.dStat
      responseStats := s.rStat
      timeoutStats := s.tStat
      known := true } ⟨s.ip, s.port, env.now, s.fails⟩
  have hdecode : PoolEntry.decodeRLP env idOf s = .ok e := he
  have hm' : memberOf e = ⟨idOf s.pubkey, .notConnected, true, false, false⟩ := hm
  have halloc := alloc_refines h (e := e) (congrArg Member.state hm')
  rw [hm'] at halloc
  have hid : e.node.id = idOf s.pubkey := congrArg Member.id hm'
  have hnext := h.next
  unfold ServerPool.loadNode Roster.load
  rw [hdecode]
  simp only [ok_bind, hid, halloc.trusts, h.next]
  cases ht : trusted (idOf s.pubkey) with
  | true =>
    -- in the map only
    exact ⟨_, rfl, halloc.trusts, halloc.member, halloc.next, halloc.entries,
      halloc.selected, halloc.queue,
      halloc.maxCnt, h.select, halloc.timers,
      halloc.sound.of_trusted (by rw [enter_self]; exact ht)⟩
  | false =>
    have hself := enter_self (v := v) ⟨idOf s.pubkey, .notConnected, true, false, false⟩
    obtain ⟨p1, hset, hp1⟩ := setLatest_refines halloc (fun x hx => (Option.some.inj hx).symm)
      (Nat.lt_succ_self _) (by rw [hself]; exact ht) (congrArg Member.known hself)
    have hlisted := touch_listed (halloc.sound.nodup true) (congrArg Member.known hself)
    obtain ⟨w, hw, hstock⟩ := (hp1.select true).setWeight
      (mem_places.mpr (.inr ⟨_, hlisted⟩))
      (knownWeight env call 0 (p1.heap v.next))
    have hw' : p1.knownSelect.update (fun r => knownWeight env call 0 (p1.heap r)) v.next =
      .ok w := hw
    refine ⟨{ p1 with knownSelect := w }, ?_, hp1.setSelect (k := true) hstock⟩
    simp only [Bool.false_eq_true, if_false, hset, ok_bind, hw', pure_eq_ok]

/-- The whole list, by induction on it. -/
theorem loadNodes_refines (env : Env ι K F) (idOf : K → ι) (call : Nat)
    (h : Refines trusted p v)
    (stored : List (StoredNode K F)) :
    ∃ p', ServerPool.loadNodes env idOf call p stored = .ok p' ∧
      Refines trusted p' (loaded trusted v (stored.map fun s => idOf s.pubkey)) := by
  induction stored generalizing p v call with
  | nil => exact ⟨p, rfl, h⟩
  | cons s rest ih =>
    obtain ⟨p1, hload, hp1⟩ := loadNode_refines env idOf call h s
    obtain ⟨p', hrest, hp'⟩ := ih (call + 1) hp1
    refine ⟨p', ?_, hp'⟩
    rw [ServerPool.loadNodes, hload]
    exact hrest

theorem start_refines {env env' : Env ι K F} {idOf : K → ι} {stored : List (StoredNode K F)}
    (h : Refines trusted { p with server := true } v)
    (hok : p.start idOf env env' stored = .ok p') :
    ∃ v', Dials (loaded trusted v (stored.map fun s => idOf s.pubkey)) v' ∧
      Refines trusted p' v' := by
  obtain ⟨p1, hload, hcheck⟩ := bind_eq_ok hok
  obtain ⟨p2, hcall, hp2⟩ := loadNodes_refines env idOf 0 h stored
  cases hcall.symm.trans hload
  obtain ⟨v', hp', hd⟩ := checkDial_refines hp2 hcheck
  exact ⟨v', hd, hp'⟩

end Start

/-! ## Runs -/

/-- What is asked of the messages of a run. -/
abbrev Condition (ι K F : Type) := ServerPool ι K F → ServerPool.Msg ι K F → Prop

section Runs

variable [Zero F] [One F] [Add F] [Mul F] [Inhabited (Node ι K)]

/-- A pool that has been started with the stored nodes and has handled messages
that meet the condition. -/
inductive Reachable (trusted : ι → Bool) (idOf : K → ι) (stored : List (StoredNode K F))
    (cond : Condition ι K F) : ServerPool ι K F → Prop
  | start {env env' : Env ι K F} {p : ServerPool ι K F}
      (h : (ServerPool.newServerPool trusted).start idOf env env' stored = .ok p) :
      Reachable trusted idOf stored cond p
  | handle {p p' : ServerPool ι K F} (h : Reachable trusted idOf stored cond p) (env : Env ι K F)
      (msg : ServerPool.Msg ι K F) (a : Option Ref) (hallow : Allowed p msg) (hcond : cond p msg)
      (hok : p.handle env msg = .ok (a, p')) : Reachable trusted idOf stored cond p'

/-- The roster at the start. -/
def stored (trusted : ι → Bool) (idOf : K → ι) (nodes : List (StoredNode K F)) : Roster ι :=
  loaded trusted (.empty (default : Node ι K).id) (nodes.map fun s => idOf s.pubkey)

omit [Zero F] [One F] [Add F] [Mul F] in
theorem stored_sound (trusted : ι → Bool) (idOf : K → ι) (nodes : List (StoredNode K F)) :
    Sound trusted (stored trusted idOf nodes) ∧ Resting (stored trusted idOf nodes) :=
  loaded_sound (sound_empty _) ⟨fun _ => rfl, fun _ => rfl⟩ _

variable {trusted : ι → Bool} {idOf : K → ι} {nodes : List (StoredNode K F)}
  {cond : Condition ι K F}
  {p : ServerPool ι K F}

/-- **The rule for runs.** -/
theorem reachable_refines {I : Roster ι → Prop}
    (hstart : ∀ v, Dials (stored trusted idOf nodes) v → I v)
    (hstep : ∀ (p : ServerPool ι K F) v msg a v', Refines trusted p v → I v →
      Allowed p msg → cond p msg →
      Step trusted v (eventOf a msg) v' → I v')
    (h : Reachable trusted idOf nodes cond p) : ∃ v, Refines trusted p v ∧ I v := by
  induction h with
  | start hok =>
    obtain ⟨v, hd, hp⟩ := start_refines (newServerPool_refines trusted) hok
    exact ⟨v, hp, hstart v hd⟩
  | handle _ env msg a hallow hcond hok ih =>
    obtain ⟨v, hp, hI⟩ := ih
    obtain ⟨v', hs, hp'⟩ := handle_refines hp hallow hok
    exact ⟨v', hp', hstep _ v _ _ v' hp hI hallow hcond hs⟩

/-- A reached pool refines some roster. -/
theorem Reachable.refines (h : Reachable trusted idOf nodes cond p) : ∃ v,
    Refines trusted p v := by
  obtain ⟨v, hv, -⟩ := reachable_refines (I := fun _ => True) (fun _ _ => trivial)
    (fun _ _ _ _ _ _ _ _ _ _ => trivial) h
  exact ⟨v, hv⟩

/-- Messages are handled one after the other, as long as they can arrive and meet
the condition. -/
def runMsgs (cond : Condition ι K F) [∀ p, DecidablePred (cond p)] :
    ServerPool ι K F → List (Env ι K F × ServerPool.Msg ι K F) → Option (ServerPool ι K F)
  | p, [] => some p
  | p, (env, msg) :: rest =>
    if Allowed p msg ∧ cond p msg then
      match p.handle env msg with
      | .ok (_, p') => runMsgs cond p' rest
      | .error _ => none
    else none

theorem runMsgs_reachable [∀ p, DecidablePred (cond p)] {p' : ServerPool ι K F}
    {msgs : List (Env ι K F × ServerPool.Msg ι K F)} (h : Reachable trusted idOf nodes cond p)
    (hrun : runMsgs cond p msgs = some p') : Reachable trusted idOf nodes cond p' := by
  induction msgs generalizing p with
  | nil =>
    cases hrun
    exact h
  | cons x rest ih =>
    obtain ⟨env, msg⟩ := x
    rw [runMsgs] at hrun
    split at hrun
    · next hok =>
      split at hrun
      · next a p1 hhandle => exact ih (.handle h env msg a hok.1 hok.2 hhandle) hrun
      · cases hrun
    · cases hrun

/-- A run from the start. -/
def runStarted (trusted : ι → Bool) (idOf : K → ι) (nodes : List (StoredNode K F))
    (env : Env ι K F)
    (cond : Condition ι K F) [∀ p, DecidablePred (cond p)]
    (msgs : List (Env ι K F × ServerPool.Msg ι K F)) : Option (ServerPool ι K F) :=
  match (ServerPool.newServerPool trusted).start idOf env env nodes with
  | .ok p => runMsgs cond p msgs
  | .error _ => none

theorem runStarted_reachable [∀ p, DecidablePred (cond p)] {env : Env ι K F}
    {msgs : List (Env ι K F × ServerPool.Msg ι K F)}
    (hrun : runStarted trusted idOf nodes env cond msgs = some p) :
    Reachable trusted idOf nodes cond p := by
  unfold runStarted at hrun
  split at hrun
  · next p0 hstart => exact runMsgs_reachable (.start hstart) hrun
  · cases hrun

end Runs

/-- Weights and random numbers that never change. -/
def plainEnv (now : Int) : Env Nat Nat Int where
  now := now
  decay _ _ _ := 1
  quality _ _ _ := 1000000
  freshness _ _ _ := 1000000
  random _ _ := 7
  coin _ _ := 7
  addrRandom _ _ := 7
  addrCoin _ _ := 7
  connAdjust := 1

def plainNode (id : Nat) : Node Nat Nat := ⟨id, id, [10, 0, 0, 1], 5050⟩

def plainStored (id : Nat) : StoredNode Nat Int :=
  ⟨id, [10, 0, 0, 1], 5050, 0, ⟨1, 1⟩, ⟨0, 1⟩, ⟨0, 1⟩, ⟨0, 1⟩⟩

end MiniOpera.PoolRuns
