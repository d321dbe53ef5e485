import MiniOpera.Lib.Threads

/-!
# The sessions of the protocol manager

A connection runs `makeProtocol.Run`: it is announced to `syncer`, counted in
`pm.wg`, and `handle` shakes hands, registers the peer in the peer set, handles its
messages and removes it again. `removePeer` is called by every session at its end,
and by the fetcher, the ordering buffer and the downloader for a peer that
misbehaves. `Stop` ends `syncer`, closes the peer set and waits for `pm.wg`.

Every access to the peer set holds its lock and is one step here; between any two
steps of one goroutine the others may take steps. A peer is the index of its
session, a session's `id` is what the peer set knows it by: a node that connects
again has the ID of its earlier session.
-/

namespace MiniOpera.PeerSessions
open Threads

/-! ## The peer set -/

inductive PeerSetError
  | closed
  | alreadyRegistered
  | notRegistered
  deriving DecidableEq

/-- `peerSet`; a map has one entry for a key. -/
structure PeerSet where
  peers : List (String × Nat)
  closed : Bool
  keys : (peers.map Prod.fst).Nodup

namespace PeerSet

def newPeerSet : PeerSet := ⟨[], false, List.nodup_nil⟩

/-- Retrieves the registered peer with the given id. -/
def peer (ps : PeerSet) (id : String) : Option Nat := ps.peers.lookup id

def len (ps : PeerSet) : Nat := ps.peers.length

theorem peer_eq_none {ps : PeerSet} {id : String} :
    ps.peer id = none ↔ id ∉ ps.peers.map Prod.fst := by
  rw [peer, List.lookup_eq_none_iff, List.mem_map]
  constructor
  · rintro h ⟨p, hp, rfl⟩
    simpa using h p hp
  · intro h p hp
    simpa using fun heq => h ⟨p, hp, heq.symm⟩

theorem peer_eq_some {ps : PeerSet} {id : String} {p : Nat} :
    ps.peer id = some p ↔ (id, p) ∈ ps.peers := by
  rw [peer, List.lookup_eq_some_iff]
  constructor
  · rintro ⟨before, after, h, -⟩
    rw [h]
    simp
  · intro h
    obtain ⟨before, after, heq⟩ := List.append_of_mem h
    refine ⟨before, after, heq, fun q hq => ?_⟩
    have hnodup := ps.keys
    rw [heq, List.map_append, List.map_cons, List.nodup_append] at hnodup
    simpa using (hnodup.2.2 q.1 (List.mem_map_of_mem hq) id List.mem_cons_self).symm

/-- Injects a new peer, or returns an error if the peer is already known. -/
def register (ps : PeerSet) (id : String) (p : Nat) : Except PeerSetError PeerSet :=
  if ps.closed then .error .closed
  else
    match h : ps.peer id with
    | some _ => .error .alreadyRegistered
    | none =>
      .ok ⟨(id, p) :: ps.peers, ps.closed, List.nodup_cons.mpr ⟨peer_eq_none.mp h, ps.keys⟩⟩

/-- Removes a peer from the active set; its `term` is to be closed. -/
def unregister (ps : PeerSet) (id : String) : Except PeerSetError (Nat × PeerSet) :=
  match ps.peer id with
  | none => .error .notRegistered
  | some p =>
    .ok (p, ⟨ps.peers.filter fun q => q.1 ≠ id, ps.closed,
      (List.filter_sublist.map Prod.fst).nodup ps.keys⟩)

/-- No new peers can be registered after `Close` has returned. -/
def close (ps : PeerSet) : PeerSet := { ps with closed := true }

theorem register_ok {ps ps' : PeerSet} {id : String} {p : Nat} (h : ps.register id p = .ok ps') :
    ps.closed = false ∧ id ∉ ps.peers.map Prod.fst ∧ ps'.closed = false ∧
      ps'.peers = (id, p) :: ps.peers := by
  unfold register at h
  split at h
  · cases h
  · next hopen =>
    have hopen := Bool.eq_false_iff.mpr hopen
    split at h
    · cases h
    · next hnone =>
      cases h
      exact ⟨hopen, peer_eq_none.mp hnone, hopen, rfl⟩

theorem unregister_ok {ps ps' : PeerSet} {id : String} {p : Nat}
    (h : ps.unregister id = .ok (p, ps')) :
    (id, p) ∈ ps.peers ∧ ps'.closed = ps.closed ∧ ps'.peers = ps.peers.filter fun q =>
      q.1 ≠ id := by
  unfold unregister at h
  split at h
  · cases h
  · next hsome =>
    cases h
    exact ⟨peer_eq_some.mp hsome, rfl, rfl⟩

theorem unregister_error {ps : PeerSet} {id : String} {err : PeerSetError}
    (h : ps.unregister id = .error err) : id ∉ ps.peers.map Prod.fst := by
  unfold unregister at h
  split at h
  · next hnone => exact peer_eq_none.mp hnone
  · cases h

end PeerSet

/-! ## Goroutines -/

/-- A call of `removePeer`: at `peers.Peer(id)`, before `peers.Unregister(id)` and before
the `Disconnect` of the peer that was found, and at its end. -/
inductive Removal
  | lookup (id : String)
  | unregister (id : String) (found : Nat)
  | disconnect (found : Nat)
  | finished
  deriving DecidableEq

/-- Where a session is in `Run` and `handle`. -/
inductive Pc
  /-- at the `select` with `newPeerCh` and `quitSync` -/
  | announcing
  /-- received by `syncer`, before `wg.Add(1)` -/
  | accepted
  /-- before the number of peers is tested -/
  | entering
  | shaking
  /-- before `peers.Register` -/
  | registering
  /-- in the loop of `handleMsg` -/
  | serving
  /-- in the deferred `removePeer` -/
  | removing (r : Removal)
  /-- before the deferred `wg.Done` -/
  | leaving
  | gone
  deriving DecidableEq

namespace Pc

/-- Before the session has tried to register. -/
def early : Pc → Bool
  | announcing | accepted | entering | shaking | registering => true
  | _ => false

/-- Between `wg.Add(1)` and `wg.Done()`. -/
def counted : Pc → Bool
  | announcing | accepted | gone => false
  | _ => true

/-- Registered, and not through `Unregister` of its own `removePeer`. -/
def active : Pc → Bool
  | serving | removing (.lookup _) | removing (.unregister _ _) => true
  | _ => false

/-- Handling messages, or removing its peer. -/
def busy : Pc → Bool
  | serving | removing _ => true
  | _ => false

/-- Past the test of the number of peers, and not registered yet. -/
def pending : Pc → Bool
  | shaking | registering => true
  | _ => false

end Pc

/-- The goroutine of `broadcast`. -/
inductive Broadcast
  | absent
  | running
  | ended
  deriving DecidableEq

structure Session where
  id : String
  trusted : Bool
  pc : Pc
  /-- `term` is closed. -/
  term : Bool
  broadcast : Broadcast
  /-- `Disconnect` has been called. -/
  disconnected : Bool
  deriving DecidableEq

/-- A connection for which `Run` is called. -/
def newSession (id : String) (trusted : Bool) : Session :=
  ⟨id, trusted, .announcing, false, .absent, false⟩

/-- `Start` and the steps of `Stop`. -/
inductive Phase
  | created
  | started
  /-- the loops are down, before the send on `noMorePeers` -/
  | stopping
  /-- before `quitSync` is closed -/
  | noMorePeers
  /-- before `peers.Close()` -/
  | quitting
  /-- in `wg.Wait()` -/
  | waiting
  | returned
  deriving DecidableEq

structure System where
  phase : Phase
  maxPeers : Nat
  /-- `syncer` receives. -/
  syncer : Bool
  quitSync : Bool
  set : PeerSet
  sessions : List Session
  /-- The calls of `removePeer` by others than the sessions. -/
  removals : List Removal
  wg : Int
  panicked : Bool

inductive Action
  | start (maxPeers : Nat)
  | arrive (id : String) (trusted : Bool)
  | announce (i : Nat)
  | seeQuit (i : Nat)
  | count (i : Nat)
  | check (i : Nat)
  | shaken (i : Nat) (ok : Bool)
  | register (i : Nat)
  | message (i : Nat) (ok : Bool)
  | remove (i : Nat)
  | done (i : Nat)
  | misbehave (id : String)
  | proceed (k : Nat)
  | endBroadcast (i : Nat)
  | stop
  | refusePeers
  | closeQuit
  | closePeers
  | wait

namespace System

def init : System := ⟨.created, 0, false, false, .newPeerSet, [], [], 0, false⟩

def update (s : System) (i : Nat) (f : Session → Session) : System :=
  { s with sessions := s.sessions.modify i f }

def goto (s : System) (i : Nat) (pc : Pc) : System := s.update i fun ses => { ses with pc := pc }

/-- The session `i`, if it is at `pc`. -/
def sessionAt (s : System) (i : Nat) (pc : Pc) : Option Session :=
  s.sessions[i]?.filter fun ses => ses.pc = pc

def termOf (s : System) (i : Nat) : Bool := (s.sessions[i]?.map Session.term).getD false

/-- One step of `removePeer`. A peer that is found is disconnected even if it is not
the one that is removed from the set. Closing `term` twice panics. -/
def advance (s : System) : Removal → Option (System × Removal)
  | .lookup id =>
    match s.set.peer id with
    | none => some (s, .finished)
    | some p => some (s, .unregister id p)
  | .unregister id found =>
    match s.set.unregister id with
    | .error _ => some (s, .disconnect found)
    | .ok (p, set) =>
      some ({ s.update p fun ses => { ses with term := true } with
        set := set
        panicked := s.termOf p }, .disconnect found)
  | .disconnect found =>
    some (s.update found fun ses => { ses with disconnected := true }, .finished)
  | .finished => none

/-- `Disconnect` for every peer of the set. -/
def disconnectPeers (s : System) : List Session :=
  s.sessions.mapIdx fun i ses =>
    if (ses.id, i) ∈ s.set.peers then { ses with disconnected := true } else ses

/-- What a goroutine does in one step, or two of them that meet. -/
def move (s : System) : Action → Option System
  | .start maxPeers =>
    if s.phase = .created then
      some { s with phase := .started, maxPeers := maxPeers, syncer := true }
    else none
  | .arrive id trusted => some { s with sessions := s.sessions ++ [newSession id trusted] }
  | .announce i =>
    if s.syncer then (s.sessionAt i .announcing).map fun _ => s.goto i .accepted else none
  | .seeQuit i =>
    if s.quitSync then (s.sessionAt i .announcing).map fun _ => s.goto i .gone else none
  | .count i => (s.sessionAt i .accepted).map fun _ => { s.goto i .entering with wg := s.wg + 1 }
  | .check i =>
    (s.sessionAt i .entering).map fun ses =>
      -- maxPeers is ignored for a trusted peer
      if s.set.len ≥ s.maxPeers ∧ !ses.trusted then s.goto i .leaving else s.goto i .shaking
  | .shaken i ok =>
    (s.sessionAt i .shaking).map fun _ => s.goto i (if ok then .registering else .leaving)
  | .register i =>
    (s.sessionAt i .registering).map fun ses =>
      match s.set.register ses.id i with
      | .error _ => s.goto i .leaving
      | .ok set =>
        { s.update i fun ses => { ses with pc := .serving, broadcast := .running } with set := set }
  | .message i ok =>
    (s.sessionAt i .serving).map fun ses =>
      if ok then s else s.goto i (.removing (.lookup ses.id))
  | .remove i =>
    match s.sessions[i]? with
    | none => none
    | some ses =>
      match ses.pc with
      | .removing r =>
        (s.advance r).map fun (s', r') =>
          s'.goto i (if r' = .finished then .leaving else .removing r')
      | _ => none
  | .done i => (s.sessionAt i .leaving).map fun _ =>
      { s.goto i .gone with wg := s.wg - 1, panicked := s.wg - 1 < 0 }
  | .misbehave id => some { s with removals := s.removals ++ [.lookup id] }
  | .proceed k =>
    match s.removals[k]? with
    | none => none
    | some r => (s.advance r).map fun (s', r') => { s' with removals := s'.removals.set k r' }
  | .endBroadcast i =>
    -- `term` is closed, or a message could not be sent
    match s.sessions[i]? with
    | none => none
    | some ses =>
      if ses.broadcast = .running then some (s.update i fun ses => { ses with broadcast := .ended })
      else none
  | .stop => if s.phase = .started then some { s with phase := .stopping } else none
  | .refusePeers =>
    if s.phase = .stopping ∧ s.syncer then some { s with phase := .noMorePeers, syncer := false }
    else none
  | .closeQuit =>
    if s.phase = .noMorePeers then some { s with phase := .quitting, quitSync := true } else none
  | .closePeers =>
    if s.phase = .quitting then
      some { s with
        phase := .waiting
        set := s.set.close
        sessions := s.disconnectPeers }
    else none
  | .wait => if s.phase = .waiting ∧ s.wg = 0 then some { s with phase := .returned } else none

/-- There is no step after a panic. -/
def step (s : System) (action : Action) : Option System :=
  if s.panicked then none else s.move action

end System

/-! ## What a step can do -/

section Moves

variable {s s' : System} {i : Nat} {ses : Session}

theorem disconnectPeers_get (s : System) (i : Nat) :
    s.disconnectPeers[i]? = s.sessions[i]?.map fun ses =>
      if (ses.id, i) ∈ s.set.peers then { ses with disconnected := true } else ses :=
  List.getElem?_mapIdx

/-- What a session has besides the flag stays. -/
theorem disconnectPeers_map {β : Type} {g : Session → β}
    (hg : ∀ ses : Session, g { ses with disconnected := true } = g ses) :
    s.disconnectPeers.map g = s.sessions.map g := by
  refine List.ext_getElem? fun j => ?_
  rw [List.getElem?_map, List.getElem?_map, disconnectPeers_get, Option.map_map]
  refine congrArg (Option.map · s.sessions[j]?) (funext fun ses => ?_)
  dsimp only [Function.comp]
  split
  · exact hg ses
  · rfl

theorem sessionAt_eq {s : System} {i : Nat} {pc : Pc} {ses : Session}
    (h : s.sessionAt i pc = some ses) : s.sessions[i]? = some ses ∧ ses.pc = pc := by
  obtain ⟨hget, hpc⟩ := Option.filter_eq_some_iff.mp h
  exact ⟨hget, of_decide_eq_true hpc⟩

theorem sessionAt_of {s : System} {i : Nat} {pc : Pc} {ses : Session}
    (hi : s.sessions[i]? = some ses) (hpc : ses.pc = pc) : s.sessionAt i pc = some ses :=
  Option.filter_eq_some_iff.mpr ⟨hi, decide_eq_true hpc⟩

/-- What a step of `removePeer` can do. -/
inductive Advances (s : System) : Removal → System → Removal → Prop
  | absent {id : String} (h : id ∉ s.set.peers.map Prod.fst) : Advances s (.lookup id) s .finished
  | found {id : String} {p : Nat} (h : (id, p) ∈ s.set.peers) :
      Advances s (.lookup id) s (.unregister id p)
  | free {id : String} {found : Nat} (h : id ∉ s.set.peers.map Prod.fst) :
      Advances s (.unregister id found) s (.disconnect found)
  | removed {id : String} {found p : Nat} {set : PeerSet} (h : s.set.unregister id = .ok (p, set)) :
      Advances s (.unregister id found)
        { s.update p fun ses => { ses with term := true } with set := set, panicked := s.termOf p }
        (.disconnect found)
  | disconnected {found : Nat} :
      Advances s (.disconnect found) (s.update found fun ses =>
        { ses with disconnected := true }) .finished

theorem advance_advances {r r' : Removal} (h : s.advance r = some (s', r')) :
    Advances s r s' r' := by
  cases r with
  | lookup id =>
    simp only [System.advance] at h
    split at h
    · next hnone =>
      cases h
      exact .absent (PeerSet.peer_eq_none.mp hnone)
    · next p hsome =>
      cases h
      exact .found (PeerSet.peer_eq_some.mp hsome)
  | unregister id found =>
    simp only [System.advance] at h
    split at h
    · next hnone =>
      cases h
      exact .free (PeerSet.unregister_error hnone)
    · next p set hset =>
      cases h
      exact .removed hset
  | disconnect found =>
    cases h
    exact .disconnected
  | finished => cases h

/-- A flag of one session changes, if any. -/
theorem Advances.same {r r' : Removal} (hadv : Advances s r s' r')
    (hi : s.sessions[i]? = some ses) :
    ∃ ses', s'.sessions[i]? = some ses' ∧ ses'.pc = ses.pc ∧ ses'.id = ses.id := by
  have hmodify : ∀ {p : Nat} {f : Session → Session}, (∀ ses, (f ses).pc = ses.pc) →
      (∀ ses, (f ses).id = ses.id) →
        ∃ ses', (s.sessions.modify p f)[i]? = some ses' ∧ ses'.pc = ses.pc ∧
          ses'.id = ses.id := by
    intro p f hpc hid
    by_cases hp : i = p
    · subst hp
      exact ⟨_, modify_self hi, hpc ses, hid ses⟩
    · exact ⟨ses, (modify_of_ne hp).trans hi, rfl, rfl⟩
  cases hadv with
  | absent => exact ⟨ses, hi, rfl, rfl⟩
  | found => exact ⟨ses, hi, rfl, rfl⟩
  | free => exact ⟨ses, hi, rfl, rfl⟩
  | removed => exact hmodify (fun _ => rfl) fun _ => rfl
  | disconnected => exact hmodify (fun _ => rfl) fun _ => rfl

/-- A session `i` goes from one point of `Run` and `handle` to another, outside the peer set;
the last argument is `wg` afterwards. -/
inductive Passes (s : System) (i : Nat) (ses : Session) : Action → Pc → Pc → Int → Prop
  | announce (h : s.syncer = true) : Passes s i ses (.announce i) .announcing .accepted s.wg
  | seeQuit (h : s.quitSync = true) : Passes s i ses (.seeQuit i) .announcing .gone s.wg
  | count : Passes s i ses (.count i) .accepted .entering (s.wg + 1)
  | full (h : s.maxPeers ≤ s.set.len) (htrusted : ses.trusted = false) :
      Passes s i ses (.check i) .entering .leaving s.wg
  | enter (h : s.set.len < s.maxPeers ∨ ses.trusted = true) :
      Passes s i ses (.check i) .entering .shaking s.wg
  | shaken : Passes s i ses (.shaken i true) .shaking .registering s.wg
  | refused : Passes s i ses (.shaken i false) .shaking .leaving s.wg
  | turnedAway {err : PeerSetError} (h : s.set.register ses.id i = .error err) :
      Passes s i ses (.register i) .registering .leaving s.wg

section Passes

variable {action : Action} {pc₀ pc : Pc} {wg : Int}

theorem Passes.early (h : Passes s i ses action pc₀ pc wg) : pc₀.early = true := by
  cases h <;> rfl

theorem Passes.idle (h : Passes s i ses action pc₀ pc wg) : pc.busy = false := by
  cases h <;> rfl

theorem Passes.wg_eq (h : Passes s i ses action pc₀ pc wg) :
    wg + pc₀.counted.toNat = s.wg + pc.counted.toNat := by
  cases h with
  | count => exact Int.add_zero _
  | _ => rfl

end Passes

/-- `Start` and `Stop` go on: `phase`, `maxPeers`, `syncer` and `quitSync` afterwards. -/
inductive Turns (s : System) : Action → Phase → Nat → Bool → Bool → Prop
  | start {maxPeers : Nat} (h : s.phase = .created) :
      Turns s (.start maxPeers) .started maxPeers true s.quitSync
  | stop (h : s.phase = .started) : Turns s .stop .stopping s.maxPeers s.syncer s.quitSync
  | refusePeers (h : s.phase = .stopping) :
      Turns s .refusePeers .noMorePeers s.maxPeers false s.quitSync
  | closeQuit (h : s.phase = .noMorePeers) : Turns s .closeQuit .quitting s.maxPeers s.syncer true
  | wait (h : s.phase = .waiting) (hwg : s.wg = 0) :
      Turns s .wait .returned s.maxPeers s.syncer s.quitSync

/-- What a step can do, with the guards it needs. -/
inductive Moves (s : System) : Action → System → Prop
  | turn {action : Action} {phase : Phase} {maxPeers : Nat} {syncer quitSync : Bool}
      (h : Turns s action phase maxPeers syncer quitSync) :
      Moves s action
        { s with phase := phase, maxPeers := maxPeers, syncer := syncer, quitSync := quitSync }
  | arrive {id : String} {trusted : Bool} :
      Moves s (.arrive id trusted) { s with sessions := s.sessions ++ [newSession id trusted] }
  | pass {action : Action} {i : Nat} {ses : Session} {pc₀ pc : Pc} {wg : Int}
      (hi : s.sessionAt i pc₀ = some ses) (h : Passes s i ses action pc₀ pc wg) :
      Moves s action { s.goto i pc with wg := wg }
  | registered {i : Nat} {ses : Session} {set : PeerSet}
      (hi : s.sessionAt i .registering = some ses) (h : s.set.register ses.id i = .ok set) :
      Moves s (.register i)
        { s.update i fun ses => { ses with pc := .serving, broadcast := .running } with set := set }
  | handled {i : Nat} {ses : Session} (hi : s.sessionAt i .serving = some ses) :
      Moves s (.message i true) s
  | failed {i : Nat} {ses : Session} (hi : s.sessionAt i .serving = some ses) :
      Moves s (.message i false) (s.goto i (.removing (.lookup ses.id)))
  | remove {i : Nat} {ses : Session} {r r' : Removal} {t : System}
      (hi : s.sessionAt i (.removing r) = some ses) (h : Advances s r t r') :
      Moves s (.remove i) (t.goto i (if r' = .finished then .leaving else .removing r'))
  | done {i : Nat} {ses : Session} (hi : s.sessionAt i .leaving = some ses) :
      Moves s (.done i) { s.goto i .gone with wg := s.wg - 1, panicked := s.wg - 1 < 0 }
  | misbehave {id : String} : Moves s (.misbehave id)
  { s with removals := s.removals ++ [.lookup id] }
  | proceed {k : Nat} {r r' : Removal} {t : System} (hk : s.removals[k]? = some r)
      (h : Advances s r t r') : Moves s (.proceed k) { t with removals := t.removals.set k r' }
  | endBroadcast {i : Nat} {ses : Session} (hi : s.sessions[i]? = some ses)
      (h : ses.broadcast = .running) :
      Moves s (.endBroadcast i) (s.update i fun ses => { ses with broadcast := .ended })
  | closePeers (h : s.phase = .quitting) :
      Moves s .closePeers
        { s with phase := .waiting, set := s.set.close, sessions := s.disconnectPeers }

theorem step_moves {action : Action} (h : s.step action = some s') : Moves s action s' := by
  obtain ⟨-, hmove⟩ := Option.ite_none_left_eq_some.mp h
  cases action with
  | start maxPeers =>
    obtain ⟨hphase, heq⟩ := Option.ite_none_right_eq_some.mp hmove
    cases heq
    exact .turn (.start hphase)
  | arrive id trusted =>
    cases hmove
    exact .arrive
  | announce i =>
    obtain ⟨hsyncer, heq⟩ := Option.ite_none_right_eq_some.mp hmove
    obtain ⟨ses, hat, rfl⟩ := Option.map_eq_some_iff.mp heq
    exact .pass hat (.announce hsyncer)
  | seeQuit i =>
    obtain ⟨hquit, heq⟩ := Option.ite_none_right_eq_some.mp hmove
    obtain ⟨ses, hat, rfl⟩ := Option.map_eq_some_iff.mp heq
    exact .pass hat (.seeQuit hquit)
  | count i =>
    obtain ⟨ses, hat, rfl⟩ := Option.map_eq_some_iff.mp hmove
    exact .pass hat .count
  | check i =>
    obtain ⟨ses, hat, rfl⟩ := Option.map_eq_some_iff.mp hmove
    split
    · next hfull => exact .pass hat (.full hfull.1 (by simpa using hfull.2))
    · next hfree =>
      refine .pass hat (.enter ?_)
      rw [not_and_or] at hfree
      exact hfree.imp Nat.lt_of_not_le (by simp)
  | shaken i ok =>
    obtain ⟨ses, hat, rfl⟩ := Option.map_eq_some_iff.mp hmove
    cases ok with
    | true => exact .pass hat .shaken
    | false => exact .pass hat .refused
  | register i =>
    obtain ⟨ses, hat, rfl⟩ := Option.map_eq_some_iff.mp hmove
    split
    · next err herr => exact .pass hat (.turnedAway herr)
    · next set hset => exact .registered hat hset
  | message i ok =>
    obtain ⟨ses, hat, rfl⟩ := Option.map_eq_some_iff.mp hmove
    cases ok with
    | true => exact .handled hat
    | false => exact .failed hat
  | remove i =>
    simp only [System.move] at hmove
    split at hmove
    · cases hmove
    · next ses hi =>
      split at hmove
      · next r hpc =>
        obtain ⟨⟨t, r'⟩, hadv, rfl⟩ := Option.map_eq_some_iff.mp hmove
        exact .remove (sessionAt_of hi hpc) (advance_advances hadv)
      · cases hmove
  | done i =>
    obtain ⟨ses, hat, rfl⟩ := Option.map_eq_some_iff.mp hmove
    exact .done hat
  | misbehave id =>
    cases hmove
    exact .misbehave
  | proceed k =>
    simp only [System.move] at hmove
    split at hmove
    · cases hmove
    · next r hk =>
      obtain ⟨⟨t, r'⟩, hadv, rfl⟩ := Option.map_eq_some_iff.mp hmove
      exact .proceed hk (advance_advances hadv)
  | endBroadcast i =>
    simp only [System.move] at hmove
    split at hmove
    · cases hmove
    · next ses hi =>
      obtain ⟨hrunning, heq⟩ := Option.ite_none_right_eq_some.mp hmove
      cases heq
      exact .endBroadcast hi hrunning
  | stop =>
    obtain ⟨hphase, heq⟩ := Option.ite_none_right_eq_some.mp hmove
    cases heq
    exact .turn (.stop hphase)
  | refusePeers =>
    obtain ⟨⟨hphase, -⟩, heq⟩ := Option.ite_none_right_eq_some.mp hmove
    cases heq
    exact .turn (.refusePeers hphase)
  | closeQuit =>
    obtain ⟨hphase, heq⟩ := Option.ite_none_right_eq_some.mp hmove
    cases heq
    exact .turn (.closeQuit hphase)
  | closePeers =>
    obtain ⟨hphase, heq⟩ := Option.ite_none_right_eq_some.mp hmove
    cases heq
    exact .closePeers hphase
  | wait =>
    obtain ⟨⟨hphase, hzero⟩, heq⟩ := Option.ite_none_right_eq_some.mp hmove
    cases heq
    exact .turn (.wait hphase hzero)

end Moves

end MiniOpera.PeerSessions
