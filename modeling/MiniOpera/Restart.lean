import MiniOpera.BlockCounters
import MiniOpera.GenesisDigest
import MiniOpera.Startup

/-!
# Crashes and restarts

All tables live in one pool of databases that keeps what is written in memory until
`Flush`. `processEvent` flushes when the epoch has changed or the pool is large,
`Service.Stop` flushes once more, and `MakeEngine` flushes the genesis. A flush is
all or nothing. What was not flushed is lost with the process, and the next process
finds on the disk what the last flush has left there.

A `Machine` is a disk, and the process that runs on it, if there is one; every panic
ends the process. A call of `processEvent` or `Stop` is two steps, because a crash may
come between its writes and its `Commit`. `Running` is what holds of a process, `Image`
what holds of a disk: a flush leaves an image of the running service (`Running.image`),
and from an image the service always comes up again, with the tables of the image and
nothing else (`boot_booted`). `step_moves` says once what a step of the machine can do.
-/

namespace MiniOpera.Restart
open GoRuntime InterEvent EventCheck EventCodec GossipStore Caching Consensus Service Genesis Ledger
  Refinement Runs Emitting BlockCounters GenesisDigest CacheTransparency

/-! ## The machine -/

/-- What a flush writes: which epoch database is open is known to the process only. -/
def closed (d : Data) : Data := { d with epochStore := none }

/-- A call under `engineMu` that has changed the tables and has yet to commit. -/
structure Call where
  /-- The process when the call began. -/
  began : Sys
  immediately : Bool
  needed : Bool
  /-- The error of the flush, if there is one and it fails. -/
  failure : Option Nat

structure Machine where
  disk : Data
  /-- The connected events that the disk holds. -/
  saved : List Event
  /-- The process, and the events that are connected in it. -/
  service : Option Sys
  call : Option Call
  /-- Every event that was ever connected on the machine. -/
  ever : List Event

/-- Before the first start. -/
def Machine.new : Machine := ⟨closed .empty, [], none, none, []⟩

/-- There is nothing to say of a process that does not run. -/
theorem off_service {p : Sys → Prop} {m : Machine} (hoff : m.service = none) :
    ∀ s, m.service = some s → p s := by
  intro s hs
  rw [hoff] at hs
  cases hs

inductive Action
  | boot (cfg : CacheConfig) (em : Emitter) (flush : Option Nat)
  | process (e : Event) (o : Outcome)
  | emit (x : Emission)
  | stop (flush : Option Nat)
  /-- `Commit` of the call in progress, which returns then. -/
  | commit
  | readEvent (id : EventID)
  | readBlock (i : Nat)
  | readPackInfo (epoch idx : Nat)
  | crash

/-- The process is gone, and with it what it had in memory. -/
def Machine.die (m : Machine) : Machine := { m with service := none, call := none }

/-- The process goes on, with the events that it has connected meanwhile. -/
def Machine.goOn (m : Machine) (s s' : Sys) : Machine :=
  { m with service := some s', ever := m.ever ++ s'.connected.drop s.connected.length }

/-- `SyncedPool.Flush`. -/
def Machine.flush (m : Machine) : Machine :=
  match m.service with
  | none => m
  | some s => { m with disk := closed s.node.store.data, saved := s.connected }

/-- `Store.Commit`: the data is written unless the flush is put off or fails. -/
def Machine.commit (m : Machine) : Machine :=
  match m.call with
  | none => m
  | some c =>
    let m := { m with call := none }
    if !c.immediately && !c.needed then m
    else
      match c.failure with
      | some _ => m
      | none => m.flush

def epochOf (n : Node) : Option Nat := n.store.data.epochState.map (·.epoch)

/-- `NewService` and `Start` on a store. -/
def startService (w : World) (em : Emitter) (store : Store) : Go ServiceError Node := do
  let n ← Startup.newService w store
  let p ← Startup.run w em (Startup.launch n) (Startup.body.map fun _ => .start)
  return p.node

/-- `MakeEngine` on a disk and then the service. A genesis that does not match, a
flush that fails and a panic end the process. -/
def Machine.boot (w : World) (m : Machine) (cfg : CacheConfig) (em : Emitter)
    (failure : Option Nat) : Machine :=
  match GenesisDigest.applyGenesis w (openStore m.disk cfg) with
  | .error _ => m
  | .ok (_, store) =>
    match failure with
    | some _ => m
    | none =>
      let m := { m with disk := closed store.data }
      match startService w em store with
      | .error _ => m
      | .ok n => { m with service := some ⟨n, m.saved⟩, call := none }

section

variable (w : World)

/-- A call that takes `engineMu`, up to its `Commit`. -/
def enter (m : Machine) (s : Sys) : Action → Machine
  | .process e o =>
    match processEvent w s.node e o with
    | .error _ => m.die
    | .ok (n, r) =>
      let m := m.goOn s ⟨n, history s.connected e r⟩
      if isConnected r then
        { m with call := some ⟨s, epochOf n ≠ epochOf s.node, o.flushNeeded, o.flush⟩ }
      else m
  | .emit x =>
    match emitEvent w s.node x with
    | .error _ => m.die
    | .ok (none, n) => m.goOn s ⟨n, s.connected⟩
    | .ok (some e, n) =>
      { m.goOn s ⟨n, s.connected ++ [e]⟩ with
        call := some ⟨s, epochOf n ≠ epochOf s.node, x.outcome.flushNeeded, x.outcome.flush⟩ }
  | .stop failure =>
    { m.goOn s ⟨{ s.node with stopped := true }, s.connected⟩ with
      call := some ⟨s, true, false, failure⟩ }
  | .boot _ _ _ | .commit | .readEvent _ | .readBlock _ | .readPackInfo _ _ | .crash => m

/-- The steps of a process. While a call is in progress, the others wait for `engineMu`;
the reads do not. -/
def serve (m : Machine) (s : Sys) : Action → Machine
  | .boot _ _ _ => m
  | .process e o => if m.call.isSome then m else enter w m s (.process e o)
  | .emit x => if m.call.isSome then m else enter w m s (.emit x)
  | .stop failure => if m.call.isSome then m else enter w m s (.stop failure)
  | .commit => m.commit
  | .readEvent id =>
    match (s.node.store.getEvent w.sha256 w.rlp id : Go ServiceError _) with
    | .error _ => m.die
    | .ok (_, store) => m.goOn s ⟨{ s.node with store := store }, s.connected⟩
  | .readBlock i => m.goOn s ⟨{ s.node with store := (s.node.store.getBlock i).2 }, s.connected⟩
  | .readPackInfo epoch idx =>
    m.goOn s ⟨{ s.node with store := (s.node.store.getPackInfo epoch idx).2 }, s.connected⟩
  | .crash => m.die

def step (m : Machine) (a : Action) : Machine :=
  match m.service with
  | some s => serve w m s a
  | none =>
    match a with
    | .boot cfg em failure => m.boot w cfg em failure
    | _ => m

def run (m : Machine) (acts : List Action) : Machine := acts.foldl (step w) m

end

/-- The process as it was when the call in progress began. -/
def Machine.began (m : Machine) (s : Sys) : Sys :=
  match m.call with
  | some c => c.began
  | none => s

/-! ## What is known of the actions -/

/-- A peer's event was decoded, so its version is 0. -/
def Action.decoded : Action → Prop
  | .process e _ => e.version = 0
  | _ => True

/-- The flush of the action, if there is one, succeeds. -/
def Action.writes : Action → Prop
  | .boot _ _ failure => failure = none
  | .process _ o => o.flush = none
  | .emit x => x.outcome.flush = none
  | .stop failure => failure = none
  | _ => True

/-- Every process belongs to the same validator, and if a peer's event is one of the
validator's, it continues its events. -/
def Owned (v : ValidatorID) (m : Machine) : Action → Prop
  | .boot _ em _ => em.validator = v
  | .process e _ => ∀ s, m.service = some s → Extends v s e
  | _ => True

/-- The steps of a machine, by actions for which `P` holds. -/
inductive Step (w : World) (P : Machine → Action → Prop) : Machine → Machine → Prop
  | act {m : Machine} (a : Action) (hdecoded : a.decoded) (hP : P m a) : Step w P m (step w m a)

def Reachable (w : World) (P : Machine → Action → Prop) (m : Machine) : Prop :=
  Relation.ReflTransGen (Step w P) .new m

/-- A run of actions for which `P` holds in any state. -/
theorem run_steps {w : World} {P : Machine → Action → Prop} (m : Machine) (acts : List Action)
    (h : ∀ a ∈ acts, a.decoded ∧ ∀ m, P m a) :
    Relation.ReflTransGen (Step w P) m (run w m acts) := by
  induction acts generalizing m with
  | nil => exact .refl
  | cons a acts ih =>
    obtain ⟨hdecoded, hP⟩ := h a List.mem_cons_self
    exact .head (.act a hdecoded (hP m))
      (ih (step w m a) fun b hb => h b (List.mem_cons_of_mem _ hb))

/-! ## A process -/

/-- What holds of a running service that refines `l` and whose calls of `EndBlock` have
returned `vs`. -/
structure Running (w : World) (s : Sys) (l : State) (vs : List (Option (List Validator))) :
    Prop where
  refines : Refines w s.node l
  log : l.log = s.connected
  counted : Counted w s.node vs
  genesis : StoredGenesis w s.node.store
  configured : ∃ v, Configured v s.node
  versions : ∀ e ∈ l.log, e.version = 0

/-- What a step of the process does to the ledger; an event of a validator for which
`own` holds has the next number. -/
def Grows (own : ValidatorID → Prop) (l l' : State) : Prop :=
  l' = l ∨ ∃ e newEpoch, l' = connect l e newEpoch ∧ e.epoch.toNat = l.epoch ∧
    ∀ v, own v → e.creator = v → e.seq.toNat = nextSeq l.log v l.epoch

section Steps

variable {w : World} {v : ValidatorID} {s s' : Sys} {l : State}
  {vs : List (Option (List Validator))}

theorem Running.epoch (h : Running w s l vs) : epochOf s.node = some l.epoch :=
  h.refines.holds.epoch

/-- A block that is stored stays, the genesis block in particular. -/
theorem storedGenesis_keep {n n' : Node} (h : StoredGenesis w n.store)
    (hrow : n'.store.data.blocks 0 = n.store.data.blocks 0) : StoredGenesis w n'.store := by
  obtain ⟨b, hb, hid⟩ := h
  exact ⟨b, hrow.trans hb, hid⟩

/-- A step that leaves the ledger where it is. -/
theorem Running.still (h : Running w s l vs) {n : Node} (href : Refines w n l)
    {vs' : List (Option (List Validator))} (hcount : Counted w n vs')
    (hrow : n.store.data.blocks 0 = s.node.store.data.blocks 0)
    (hem : ∃ v, Configured v n) : Running w ⟨n, s.connected⟩ l vs' :=
  ⟨href, h.log, hcount, storedGenesis_keep h.genesis hrow, hem, h.versions⟩

/-- A step that connects an event. -/
theorem Running.connects (h : Running w s l vs) {e : Event} {newEpoch : Nat} {n : Node}
    (href : Refines w n (connect l e newEpoch)) {vs' : List (Option (List Validator))}
    (hcount : Counted w n vs') (hrow : n.store.data.blocks 0 = s.node.store.data.blocks 0)
    (hem : ∃ v, Configured v n) (hver : e.version = 0) :
    Running w ⟨n, s.connected ++ [e]⟩ (connect l e newEpoch) vs' := by
  refine ⟨href, ?_, hcount, storedGenesis_keep h.genesis hrow, hem, ?_⟩
  · rw [connect_log, h.log]
  · intro x hx
    rw [connect_log, List.mem_append, List.mem_singleton] at hx
    rcases hx with hx | rfl
    · exact h.versions x hx
    · exact hver

/-- `processEvent` leaves the settings of the emitter alone. -/
theorem process_configured (h : Refines w s.node l) {e : Event} {o : Outcome} {n : Node}
    {r : Option ServiceError} (hp : processEvent w s.node e o = .ok (n, r))
    (hconf : Configured v s.node) : Configured v n := by
  obtain ⟨em, hem, hv⟩ := hconf
  have hstep : Runs.Step w (fun _ _ => True) s ⟨n, history s.connected e r⟩ :=
    .process trivial hp
  exact ⟨em, (step_emitter h hstep).trans hem, hv⟩

theorem process_running (hmax : 1 ≤ w.net.maxEpochBlocks) (h : Running w s l vs) {e : Event}
    {o : Outcome} {n : Node} {r : Option ServiceError} (hver : e.version = 0)
    (hp : processEvent w s.node e o = .ok (n, r)) :
    ∃ l' vs', Running w ⟨n, history s.connected e r⟩ l' vs' ∧
      Grows (fun v => Extends v s e) l l' ∧ (isConnected r = false → l' = l) := by
  obtain ⟨vs', hchain⟩ := processEvent_chain vs hp
  obtain ⟨hcount, -, hrows⟩ := run_counted h.counted hmax hchain
  have hrow := hrows 0 (Nat.zero_le _)
  have hem : ∃ v, Configured v n := h.configured.imp fun _ => process_configured h.refines hp
  rcases process_ledger h.refines hp with ⟨href, hsame⟩ | ⟨newEpoch, hfresh,
    hepoch, -, href, hcon⟩
  · rw [hsame]
    exact ⟨l, _, h.still href hcount hrow hem, .inl rfl, fun _ => rfl⟩
  · have hseq : ∀ v, Extends v s e → e.creator = v →
        e.seq.toNat = nextSeq l.log v l.epoch := by
      intro v hextends hv
      rw [h.log, ← hepoch]
      apply hextends hv
      · rw [Store.hasEvent, Std.ExtTreeMap.contains_eq_isSome_getElem?, hfresh]
        rfl
      · rw [h.refines.holds.epoch, hepoch]
    rw [hcon]
    refine ⟨_, _, h.connects href hcount hrow hem hver,
      .inr ⟨e, newEpoch, rfl, hepoch, hseq⟩, ?_⟩
    intro hr
    have := hcon []
    rw [history, hr] at this
    cases this

/-- A stopped service connects nothing. -/
theorem process_stopped (hc : Coherent s.node.store) {e : Event} {o : Outcome} {n : Node}
    {r : Option ServiceError} (hp : processEvent w s.node e o = .ok (n, r)) :
    n.stopped = s.node.stopped ∧ (s.node.stopped = true → isConnected r = false) := by
  rcases processEvent_cases hc hp with hrej | ⟨old, new, buf, hcon⟩
  · obtain ⟨err, rfl, herr⟩ := hrej.error
    exact ⟨hrej.stopped, fun _ => herr⟩
  · refine ⟨hcon.stopped, fun hstop => ?_⟩
    rw [hcon.running] at hstop
    cases hstop

/-! ### Emission -/

theorem readParents_frame {store store' : Store} (hc : Coherent store) {ids : List EventID}
    {parents : List Event} (h : readParents w store ids = .ok (parents, store')) :
    store'.data = store.data ∧ Coherent store' := by
  induction ids generalizing store parents with
  | nil =>
    cases h
    exact ⟨rfl, hc⟩
  | cons id ids ih =>
    obtain ⟨⟨r, s1⟩, hget, h⟩ := bind_eq_ok h
    obtain ⟨hd, hcoh, -⟩ := getEvent_spec (R := fun _ _ => True) (fun _ _ _ => trivial)
      (fun _ _ _ _ => trivial) hget
    cases r with
    | none => cases h
    | some parent =>
      obtain ⟨⟨rest, s2⟩, hrest, h⟩ := bind_eq_ok h
      cases h
      obtain ⟨hd2, hc2⟩ := ih (hcoh hc) hrest
      exact ⟨hd2.trans hd, hc2⟩

theorem finishEvent_version {n : Node} {store store' : Store} {em : Emitter} {x : Emission}
    {draft : MutableEvent} {parentEvents : List Event} {e : Event} (hsize : draft.sizeCache = 0)
    (hhash : draft.hashToSignCache = none) (hver : draft.version = 0)
    (h : finishEvent w n store em x draft parentEvents = .ok (some e, store')) : e.version = 0 := by
  unfold finishEvent at h
  split at h
  · cases h
  · next frame isRoot id _ =>
    dsimp only at h
    split at h
    · cases h
    · obtain ⟨hash, -, h⟩ := bind_eq_ok h
      split at h
      · cases h
      · next sig _ =>
        obtain ⟨event, hbuild, h⟩ := bind_eq_ok h
        obtain ⟨⟨es, s1⟩, -, h⟩ := bind_eq_ok h
        have hver' : draft.version.toNat < 16 := by rw [hver]; decide
        rw [build_uncached w.sha256
          ((((draft.setFrame frame).setIsRoot isRoot).setID id).setSig sig)
          hsize hhash hver'] at hbuild
        dsimp only at h
        split at h
        · cases h
        · cases h
        · cases h
          cases hbuild
          exact hver

/-- Creating an event writes nothing, and the event is of version 0. -/
theorem createEvent_frame {n : Node} {em : Emitter} {x : Emission}
    {r : Option Event} {store : Store}
    (hc : Coherent n.store) (h : createEvent w n em x = .ok (r, store)) :
    store.data = n.store.data ∧ Coherent store ∧ ∀ e, r = some e → e.version = 0 := by
  unfold createEvent at h
  split at h
  · cases h
    exact ⟨rfl, hc, nofun⟩
  · split at h
    · cases h
      exact ⟨rfl, hc, nofun⟩
    · obtain ⟨⟨parentEvents, s1⟩, hread, h⟩ := bind_eq_ok h
      obtain ⟨⟨seq, time⟩, -, h⟩ := bind_eq_ok h
      obtain ⟨⟨epoch, s2⟩, hep, h⟩ := bind_eq_ok h
      obtain ⟨hd1, hc1⟩ := readParents_frame hc hread
      obtain ⟨-, hun2⟩ := getEpoch_spec hc1 hep
      obtain ⟨hun3, -⟩ := finishEvent_spec hun2.coherent rfl rfl rfl h
      refine ⟨hun3.data.trans (hun2.data.trans hd1), hun3.coherent, ?_⟩
      rintro e rfl
      exact finishEvent_version rfl rfl rfl h

/-- What a call of `EmitEvent` leaves of the chain. -/
structure Emitted (w : World) (n : Node) (vs : List (Option (List Validator))) (n' : Node)
    (r : Option Event) : Prop where
  counted : ∃ vs', Counted w n' vs'
  genesis : n'.store.data.blocks 0 = n.store.data.blocks 0
  version : ∀ e, r = some e → e.version = 0
  stopped : n'.stopped = n.stopped
  running : ∀ e, r = some e → n.stopped = false

theorem emitEvent_emitted (hmax : 1 ≤ w.net.maxEpochBlocks) {n n' : Node} {x : Emission}
    {r : Option Event} (h : Counted w n vs) (hemit : emitEvent w n x = .ok (r, n')) :
    Emitted w n vs n' r := by
  unfold emitEvent at hemit
  split at hemit
  · cases hemit
  · next em _ =>
    split at hemit
    · cases hemit
      exact ⟨⟨vs, h⟩, rfl, nofun, rfl, nofun⟩
    · obtain ⟨⟨created, store⟩, hcr, hemit⟩ := bind_eq_ok hemit
      obtain ⟨hd, hc, hver⟩ := createEvent_frame h.coherent hcr
      cases created with
      | none =>
        cases hemit
        exact ⟨⟨vs, h.frame hc (by rw [hd]) (by rw [hd]) (by rw [hd]) rfl⟩,
          by rw [hd], nofun, rfl, nofun⟩
      | some e =>
        obtain ⟨⟨n1, r1⟩, hp, hemit⟩ := bind_eq_ok hemit
        cases r1 with
        | some err => cases hemit
        | none =>
          cases hemit
          -- `processEvent` starts where the reads of `createEvent` have ended
          have hread : Counted w
            { n with store := store, emitter := some { em with prevLocalEmittedID := e.id } } vs :=
            h.frame hc (by rw [hd]) (by rw [hd]) (by rw [hd]) rfl
          obtain ⟨vs', hchain⟩ := processEvent_chain vs hp
          obtain ⟨hcount, -, hrows⟩ := run_counted hread hmax hchain
          obtain ⟨hstop, hrun⟩ := process_stopped
            (s := ⟨{ n with
              store := store
              emitter := some { em with prevLocalEmittedID := e.id } }, []⟩) hc hp
          refine ⟨⟨_, hcount.frame hcount.coherent rfl rfl rfl rfl⟩, ?_, ?_, hstop, ?_⟩
          · rw [← hd]
            exact hrows 0 (Nat.zero_le _)
          · intro e' he
            cases he
            exact hver e rfl
          · intro _ _
            by_contra hne
            have := hrun (by simpa using hne)
            cases this

theorem emit_running (hmax : 1 ≤ w.net.maxEpochBlocks) (h : Running w s l vs) {x : Emission}
    {r : Option Event} {n : Node} (hemit : emitEvent w s.node x = .ok (r, n)) :
    (∃ l' vs', Running w ⟨n, s.connected ++ r.toList⟩ l' vs' ∧
      Grows (fun v => Configured v s.node) l l' ∧ (r = none → l' = l)) ∧
    ∀ v, Configured v s.node → Configured v n := by
  refine ⟨?_, fun v hconf => (emitEvent_cases h.refines hconf hemit).1⟩
  obtain ⟨v, hv⟩ := h.configured
  have hem := emitEvent_emitted hmax h.counted hemit
  obtain ⟨vs', hcount⟩ := hem.counted
  obtain ⟨hconf, ⟨rfl, href⟩ | ⟨e, newEpoch, rfl, hcr, -, -, href⟩⟩ :=
    emitEvent_cases h.refines hv hemit
  · rw [Option.toList_none, List.append_nil]
    exact ⟨l, vs', h.still href hcount hem.genesis ⟨v, hconf⟩, .inl rfl, fun _ => rfl⟩
  · have hseq : ∀ v', Configured v' s.node → e.creator = v' →
        e.seq.toNat = nextSeq l.log v' l.epoch := by
      -- there is one emitter
      intro v' hv' _
      obtain ⟨em, hem, rfl⟩ := hv
      obtain ⟨em', hem', rfl⟩ := hv'
      cases hem.symm.trans hem'
      exact hcr.seq
    refine ⟨_, vs', h.connects href hcount hem.genesis ⟨v, hconf⟩ (hem.version e rfl),
      .inr ⟨e, newEpoch, rfl, hcr.epoch, hseq⟩, ?_⟩
    intro hnone
    cases hnone

/-- A read changes no more than the caches. -/
theorem read_running (h : Running w s l vs) {store : Store}
    (href : Refines w { s.node with store := store } l) (hd : store.data = s.node.store.data) :
    Running w ⟨{ s.node with store := store }, s.connected⟩ l vs :=
  h.still href (h.counted.frame href.coherent (by rw [hd]) (by rw [hd]) (by rw [hd]) rfl)
    (by rw [hd]) h.configured

theorem stop_running (h : Running w s l vs) :
    Running w ⟨{ s.node with stopped := true }, s.connected⟩ l vs :=
  h.still (n := { s.node with stopped := true })
    ⟨h.refines.coherent, h.refines.sound, h.refines.holds, h.refines.readable, h.refines.keys⟩
    (h.counted.frame h.counted.coherent rfl rfl rfl rfl) rfl h.configured

end Steps

/-! ## A disk -/

/-- The tables that a process finds, without caches and with no epoch database open. -/
structure Image (w : World) (d : Data) (l : State) (vs : List (Option (List Validator))) :
    Prop where
  unloaded : d.epochStore = none
  sound : Sound l
  holds : Holds w (d.createEpochStore l.epoch) l
  rows : ∀ id buf x, d.events[id]? = some buf → decodeRLP w.sha256 w.rlp buf = .ok x →
    Readable w l.log id x
  blockState : d.blockState = some ⟨vs.length, sinceSeal vs⟩
  epochState : d.epochState = some ⟨firstEpoch + sealCount vs, w.net.validators⟩
  dense : ∀ i ≤ vs.length, d.blocks i ≠ none
  below : sinceSeal vs < w.net.maxEpochBlocks
  genesis : ∃ b, d.blocks 0 = some b ∧ b.atropos = genesisID w
  versions : ∀ e ∈ l.log, e.version = 0

section Boot

variable {w : World} {s : Sys} {l : State} {vs : List (Option (List Validator))} {d : Data}

/-- A flush leaves an image of the running service. -/
theorem Running.image (h : Running w s l vs) : Image w (closed s.node.store.data) l vs := by
  refine ⟨rfl, h.refines.sound, ?_, h.refines.readable.2, h.counted.blockState,
    h.counted.epochState, h.counted.dense, h.counted.below, h.genesis, h.versions⟩
  have hopen : (closed s.node.store.data).createEpochStore l.epoch = s.node.store.data := by
    rw [Data.createEpochStore, ← h.refines.holds.loaded]
    rfl
  rw [hopen]
  exact h.refines.holds

/-- Every row decodes: the events are of version 0. -/
theorem row_decodes (hholds : Holds w d l) (hver : ∀ e ∈ l.log, e.version = 0) {id : EventID}
    {buf : List UInt8} (hrow : d.events[id]? = some buf) :
    ∃ x, decodeRLP w.sha256 w.rlp buf = .ok x := by
  obtain ⟨e, he, rfl⟩ := hholds.known id buf hrow
  obtain ⟨buf', hrow', henc⟩ := hholds.row e he
  rw [hrow] at hrow'
  cases hrow'
  obtain ⟨bytes, x, henc', hdec, -⟩ := decodeRLP_encodeRLP w.sha256 w.rlp e (hver e he)
  obtain ⟨-, rfl⟩ := encodeRLP_ok henc
  obtain ⟨-, rfl⟩ := encodeRLP_ok henc'
  exact ⟨x, hdec⟩

theorem getEvent_returns {n : Node} (h : Refines w n l) (hver : ∀ e ∈ l.log, e.version = 0)
    (id : EventID) : ∃ r store, (n.store.getEvent w.sha256 w.rlp id : Go ServiceError _) =
      .ok (r, store) := by
  unfold Store.getEvent
  split
  · exact ⟨_, _, rfl⟩
  · split
    · exact ⟨_, _, rfl⟩
    · next buf hrow =>
      obtain ⟨x, hdec⟩ := row_decodes h.holds hver hrow
      rw [hdec]
      exact ⟨_, _, rfl⟩

/-- The emitter finds the time of the last event of its validator. -/
theorem loadPrevEmitTime_running {n : Node} (h : Refines w n l)
    (hver : ∀ e ∈ l.log, e.version = 0)
    (em : Emitter) :
    ∃ time store, Startup.loadPrevEmitTime w n.store em = .ok (time, store) ∧
      Refines w { n with store := store } l ∧ store.data = n.store.data := by
  unfold Startup.loadPrevEmitTime
  split
  · exact ⟨_, _, rfl, h, rfl⟩
  · split
    · exact ⟨_, _, rfl, h, rfl⟩
    · next id _ =>
      obtain ⟨r, store, hget⟩ := getEvent_returns h hver id
      obtain ⟨hd, -⟩ := getEvent_spec (R := fun _ _ => True) (fun _ _ _ => trivial)
        (fun _ _ _ _ => trivial) hget
      rw [hget, ok_bind]
      cases r with
      | none => exact ⟨_, _, rfl, (getEvent_refines h hget).1, hd⟩
      | some x => exact ⟨_, _, rfl, (getEvent_refines h hget).1, hd⟩

/-- A store over an image whose caches hold no event. -/
structure Opened (store : Store) (d : Data) : Prop where
  data : store.data = d
  coherent : Coherent store
  noEvents : ∀ R, Agrees R store.cache.events

theorem Opened.untouched {store store' : Store} (h : Opened store d)
    (hun : Untouched store store') :
    Opened store' d :=
  ⟨hun.data.trans h.data, hun.coherent, fun R => by rw [hun.events]; exact h.noEvents R⟩

theorem openStore_opened (d : Data) (cfg : CacheConfig) : Opened (openStore d cfg) d := by
  refine ⟨rfl, ⟨agrees_newCache _ _, agrees_newCache _ _, ?_, ?_⟩, fun R =>
    agrees_newCache R _⟩
  · intro b hb
    cases hb
  · intro e he
    cases he

theorem Image.epoch_eq (h : Image w d l vs) : firstEpoch + sealCount vs = l.epoch := by
  have hepoch : d.epochState.map (·.epoch) = some l.epoch := h.holds.epoch
  rw [h.epochState] at hepoch
  exact Option.some.inj hepoch

/-- Once the epoch database is open, the service refines the ledger of the image. -/
theorem Image.loaded (h : Image w d l vs) {store : Store} (hopen : Opened store d) :
    (store.loadEpochStore l.epoch).data = d.createEpochStore l.epoch ∧
      Refines w ⟨store.loadEpochStore l.epoch, newEpochPubKeys l.epoch w.net.validators,
        none, false⟩
        l := by
  have heq : store.loadEpochStore l.epoch = { store with data := d.createEpochStore l.epoch } := by
    unfold Store.loadEpochStore
    rw [hopen.data, h.unloaded]
  have hc := (Startup.loadEpochStore_spec hopen.coherent l.epoch).1
  rw [heq] at hc ⊢
  exact ⟨rfl, hc, h.sound, h.holds, ⟨hopen.noEvents _, h.rows⟩, ⟨_, rfl⟩⟩

/-- **The service comes up on an image**, with the tables of the image. -/
theorem startService_running (em : Emitter) (h : Image w d l vs) {store : Store}
    (hopen : Opened store d) :
    ∃ n, startService w em store = .ok n ∧ Running w ⟨n, l.log⟩ l vs ∧
      n.stopped = false ∧
      n.store.data = d.createEpochStore l.epoch ∧ Configured em.validator n := by
  have hrow : ∀ {s : Store}, Opened s d →
      ∃ s', (s.getEpoch : Go ServiceError _) = .ok (l.epoch, s') ∧ Opened s' d := by
    intro s hs
    obtain ⟨s', hget⟩ := getEpochState_returns (ε := ServiceError) hs.coherent
      (by rw [hs.data]; exact h.epochState)
    have hepoch : (s.getEpoch : Go ServiceError _) = .ok (l.epoch, s') := by
      rw [Store.getEpoch, hget, ok_bind, ← h.epoch_eq]
      rfl
    exact ⟨s', hepoch, hs.untouched (getEpoch_spec hs.coherent hepoch).2⟩
  obtain ⟨s1, hget1, hopen1⟩ := hrow hopen
  obtain ⟨s2, hget2, hopen2⟩ := hrow hopen1
  obtain ⟨hdata, href⟩ := h.loaded hopen2
  -- the genesis block is there
  obtain ⟨b, hb, hid⟩ := h.genesis
  obtain ⟨hread, hun⟩ := getBlock_spec href.coherent 0
  obtain ⟨s3, hget3⟩ : ∃ s3, (s2.loadEpochStore l.epoch).getBlock 0 = (some b, s3) := by
    refine ⟨_, Prod.ext ?_ rfl⟩
    rw [hread]
    exact (congrArg (fun d => d.blocks 0) hdata).trans hb
  rw [hget3] at hun
  have href3 := emitter_refines (untouched_refines href hun) (some em)
  have hdata3 : s3.data = d.createEpochStore l.epoch := hun.data.trans hdata
  obtain ⟨s4, hget4⟩ := getEpochState_returns (ε := ServiceError) hun.coherent
    (by rw [hdata3]; exact h.epochState)
  have hun4 := (getEpochState_spec hun.coherent hget4).2
  have href4 := untouched_refines href3 hun4
  obtain ⟨time, s5, htime, href5, hdata5⟩ := loadPrevEmitTime_running href4 h.versions em
  have hd : s5.data = d.createEpochStore l.epoch := hdata5.trans (hun4.data.trans hdata3)
  have hstart : startService w em store = .ok ⟨s5, newEpochPubKeys l.epoch w.net.validators,
      some { em with prevEmittedTime := time }, false⟩ := by
    simp only [startService, Startup.newService, Startup.body, Startup.launch, Startup.run,
      Startup.step, Startup.exec, Startup.startEventEmission, List.map, hget1, hget2, hget3, hget4,
      htime, ok_bind, pure_eq_ok]
  have hconf : Configured em.validator ⟨s5, newEpochPubKeys l.epoch w.net.validators,
      some { em with prevEmittedTime := time }, false⟩ := ⟨_, rfl, rfl⟩
  refine ⟨_, hstart, ⟨emitter_refines href5 _, rfl,
    ⟨href5.coherent, ?_, ?_, ?_, ?_, h.below⟩, ?_,
    ⟨_, hconf⟩, h.versions⟩, rfl, hd, hconf⟩
  · rw [hd]
    exact h.blockState
  · rw [hd]
    exact h.epochState
  · rw [h.epoch_eq]
  · rw [hd]
    exact h.dense
  · refine ⟨b, ?_, hid⟩
    rw [hd]
    exact hb

/-- `ApplyGenesis` on an image finds the genesis there. -/
theorem applyGenesis_image (h : Image w d l vs) (cfg : CacheConfig) :
    ∃ r store, GenesisDigest.applyGenesis w (openStore d cfg) = .ok (r, store) ∧
      Opened store d := by
  have hopen := openStore_opened d cfg
  have happ := (@applyGenesis_stored w w _ hopen.coherent h.genesis).2 rfl
  exact ⟨_, _, happ, hopen.untouched (getBlock_spec hopen.coherent 0).2⟩

/-- What the first `ApplyGenesis` writes. -/
def genesisData (w : World) : Data :=
  { Data.empty with
    blocks := Function.update (fun _ => none) 0
      (some ⟨w.net.genesisTime, genesisID w, [genesisID w]⟩)
    blockState := some ⟨0, 0⟩
    epochState := some ⟨firstEpoch, w.net.validators⟩ }

theorem genesis_image (hmax : 1 ≤ w.net.maxEpochBlocks) : Image w (genesisData w) initial [] := by
  have hno : ∀ (id : EventID) buf, (genesisData w).events[id]? ≠ some buf := by
    intro id buf
    simp [genesisData, Data.empty]
  refine ⟨rfl, sound_initial, ?_, fun id buf _ hrow =>
    absurd hrow (hno id buf), rfl, rfl, ?_, hmax,
    ⟨⟨w.net.genesisTime, genesisID w, [genesisID w]⟩, by simp [genesisData], rfl⟩,
    List.forall_mem_nil _⟩
  · exact ⟨rfl, rfl, rfl, fun _ => rfl, fun _ _ => rfl, List.forall_mem_nil _,
      fun id buf hrow => absurd hrow (hno id buf),
      fun ep => packsMatch_empty ep rfl (fun _ => rfl) fun _ => rfl⟩
  · intro i hi
    obtain rfl := Nat.le_zero.mp hi
    simp [genesisData]

/-- `ApplyGenesis` on a new disk. -/
theorem applyGenesis_new (w : World) (cfg : CacheConfig) :
    ∃ r store, GenesisDigest.applyGenesis w (openStore (closed .empty) cfg) = .ok (r, store) ∧
      Opened store (genesisData w) := by
  have hopen := openStore_opened (closed .empty) cfg
  obtain ⟨hread, hun⟩ := getBlock_spec hopen.coherent 0
  obtain ⟨s0, hget⟩ : ∃ s0, (openStore (closed .empty) cfg).getBlock 0 = (none, s0) :=
    ⟨_, Prod.ext hread rfl⟩
  rw [hget] at hun
  have hs0 : Opened s0 (closed .empty) := hopen.untouched hun
  obtain ⟨e, he, hid⟩ := genesis_build (ε := GenesisMismatchError) w
  simp only [GenesisDigest.applyGenesis, hget, Genesis.applyGenesis, he, ok_bind, pure_eq_ok, hid]
  refine ⟨_, _, rfl, ?_, ((hs0.coherent.setBlock 0 _).setEpochState _).setBlockState _,
    hs0.noEvents⟩
  simp only [Store.setBlockState, Store.setEpochState, Store.setBlock, hs0.data]
  rfl

end Boot

/-! ## What a step does to the machine -/

/-- The disk is new or an image of the saved events, and the process has these and more. -/
structure Kept (w : World) (m : Machine) : Prop where
  disk : (m.disk = closed .empty ∧ m.saved = []) ∨ ∃ l vs,
    Image w m.disk l vs ∧ l.log = m.saved
  service : ∀ s, m.service = some s → ∃ l vs, Running w s l vs ∧ m.saved <+: l.log

/-- The service has come up: on the tables of the disk, or on the genesis if the disk is new. -/
structure Booted (w : World) (m : Machine) (em : Emitter) (d : Data) (n : Node) (l : State)
    (vs : List (Option (List Validator))) : Prop where
  image : Image w d l vs
  log : l.log = m.saved
  running : Running w ⟨n, m.saved⟩ l vs
  started : n.stopped = false
  data : n.store.data = d.createEpochStore l.epoch
  emitter : Configured em.validator n
  disk : d = m.disk ∨ m.disk = closed .empty ∧ m.saved = [] ∧ d = genesisData w

/-- A step of the process, from the ledger `l` to `l'`. -/
structure Served (w : World) (a : Action) (m : Machine) (s s' : Sys) (l l' : State) : Prop where
  service : m.service = some s
  before : ∃ vs, Running w s l vs
  after : ∃ vs, Running w s' l' vs
  grows : Grows (fun v => Owned v m a ∧ Configured v s.node) l l'
  emitter : ∀ v, Configured v s.node → Configured v s'.node

inductive Moves (w : World) (a : Action) (m : Machine) : Machine → Prop
  | same : Moves w a m m
  | dies : Moves w a m m.die
  | boots {em : Emitter} {d : Data} {n : Node} {l : State} {vs : List (Option (List Validator))}
      (h : Booted w m em d n l vs) (hown : ∀ v, Owned v m a → em.validator = v) :
      Moves w a m { m with disk := d, service := some ⟨n, m.saved⟩, call := none }
  /-- Nothing but caches and settings changes. -/
  | reads {s s' : Sys} {l : State} (h : Served w a m s s' l l)
      (hstop : s'.node.stopped = s.node.stopped) : Moves w a m (m.goOn s s')
  /-- The writes of a call. Unless it is to be flushed at once, the epoch is the same and
  the service is not stopped. -/
  | calls {s s' : Sys} {l l' : State} {c : Call} (h : Served w a m s s' l l')
      (hfree : m.call = none) (hbegan : c.began = s)
      (hlater : c.immediately = false → s'.node.stopped = false ∧ l'.epoch = l.epoch)
      (hwrites : a.writes → c.failure = none) : Moves w a m { m.goOn s s' with call := some c }
  /-- A call returns without a flush. -/
  | skips {c : Call} (hcall : m.call = some c)
      (hskip : c.immediately = false ∨ c.failure ≠ none) : Moves w a m { m with call := none }
  | flushes {s : Sys} (hs : m.service = some s) :
      Moves w a m { m with disk := closed s.node.store.data, saved := s.connected, call := none }

section Moves

variable {w : World} {m : Machine} {a : Action} {s s' : Sys} {l l' : State}

/-- **The service always comes up again.** -/
theorem boot_booted (hmax : 1 ≤ w.net.maxEpochBlocks) (hkept : Kept w m) (cfg : CacheConfig)
    (em : Emitter) :
    ∃ d n l vs, m.boot w cfg em none =
        { m with disk := d, service := some ⟨n, m.saved⟩, call := none } ∧
      Booted w m em d n l vs := by
  -- the disk is an image, or becomes one when the genesis is written
  obtain ⟨r, store, d, l, vs, happ, hopen, himage, hlog, hdisk⟩ : ∃ r store d l vs,
      GenesisDigest.applyGenesis w (openStore m.disk cfg) = .ok (r, store) ∧ Opened store d ∧
        Image w d l vs ∧ l.log = m.saved ∧
        (d = m.disk ∨ m.disk = closed .empty ∧ m.saved = [] ∧ d = genesisData w) := by
    rcases hkept.disk with ⟨hnew, hsaved⟩ | ⟨l, vs, himage, hlog⟩
    · obtain ⟨r, store, happ, hopen⟩ := applyGenesis_new w cfg
      exact ⟨r, store, _, initial, [], by rw [hnew]; exact happ, hopen, genesis_image hmax,
        hsaved.symm, .inr ⟨hnew, hsaved, rfl⟩⟩
    · obtain ⟨r, store, happ, hopen⟩ := applyGenesis_image himage cfg
      exact ⟨r, store, _, l, vs, happ, hopen, himage, hlog, .inl rfl⟩
  obtain ⟨n, hstart, hrun, hstop, hdata, hconf⟩ := startService_running em himage hopen
  have hclosed : closed store.data = d := by
    rw [hopen.data, closed, ← himage.unloaded]
  rw [hlog] at hrun
  refine ⟨d, n, l, vs, ?_, himage, hlog, hrun, hstop, hdata, hconf, hdisk⟩
  simp only [Machine.boot, happ, hstart, hclosed]

theorem commit_moves (hs : m.service = some s) : Moves w a m m.commit := by
  unfold Machine.commit
  split
  · exact .same
  · next c hcall =>
    dsimp only
    split
    · next hoff =>
      simp only [Bool.and_eq_true, Bool.not_eq_true'] at hoff
      exact .skips hcall (.inl hoff.1)
    · split
      · next code hfailure =>
        refine .skips hcall (.inr ?_)
        rw [hfailure]
        exact Option.some_ne_none code
      · have hflush : Machine.flush { m with call := none } = { m with
            disk := closed s.node.store.data, saved := s.connected, call := none } := by
          simp only [Machine.flush, hs]
        rw [hflush]
        exact .flushes hs

/-- The epoch of the ledger is that of the tables. -/
theorem Served.epoch_eq (h : Served w a m s s' l l') (heq : epochOf s'.node = epochOf s.node) :
    l'.epoch = l.epoch := by
  obtain ⟨vs, hrun⟩ := h.before
  obtain ⟨vs', hrun'⟩ := h.after
  rw [hrun'.epoch, hrun.epoch] at heq
  exact Option.some.inj heq

theorem enter_moves (hmax : 1 ≤ w.net.maxEpochBlocks) (hs : m.service = some s)
    (hfree : m.call = none) {vs : List (Option (List Validator))} (hrun : Running w s l vs)
    (hdecoded : a.decoded) : Moves w a m (enter w m s a) := by
  cases a with
  | process e o =>
    simp only [enter]
    split
    · exact .dies
    · next n r hp =>
      obtain ⟨l', vs', hrun', hgrows, hsame⟩ := process_running hmax hrun hdecoded hp
      obtain ⟨hstop, hnone⟩ := process_stopped hrun.refines.coherent hp
      have hserved : Served w (.process e o) m s ⟨n, history s.connected e r⟩ l l' := by
        refine ⟨hs, ⟨vs, hrun⟩, ⟨vs', hrun'⟩, hgrows.imp_right ?_, ?_⟩
        · rintro ⟨x, newEpoch, heq, hepoch, hseq⟩
          exact ⟨x, newEpoch, heq, hepoch, fun v hv => hseq v (hv.1 s hs)⟩
        · exact fun v => process_configured hrun.refines hp
      split
      · next hr =>
        refine .calls hserved hfree rfl ?_ fun hw => hw
        intro heq
        simp only [ne_eq, decide_eq_false_iff_not, not_not] at heq
        refine ⟨?_, hserved.epoch_eq heq⟩
        by_contra hstopped
        have hoff := hnone (hstop ▸ Bool.of_not_eq_false hstopped)
        rw [hr] at hoff
        cases hoff
      · next hr =>
        have heq := hsame (Bool.eq_false_iff.mpr hr)
        rw [heq] at hserved
        exact .reads hserved hstop
  | emit x =>
    simp only [enter]
    split
    · exact .dies
    · next n hemit =>
      obtain ⟨⟨l', vs', hrun', hgrows, hsame⟩, hconf⟩ := emit_running hmax hrun hemit
      rw [Option.toList_none, List.append_nil, hsame rfl] at hrun'
      exact .reads ⟨hs, ⟨vs, hrun⟩, ⟨vs', hrun'⟩, .inl rfl, hconf⟩
        (emitEvent_emitted hmax hrun.counted hemit).stopped
    · next e n hemit =>
      obtain ⟨⟨l', vs', hrun', hgrows, -⟩, hconf⟩ := emit_running hmax hrun hemit
      have hem := emitEvent_emitted hmax hrun.counted hemit
      have hserved : Served w (.emit x) m s ⟨n, s.connected ++ [e]⟩ l l' := by
        refine ⟨hs, ⟨vs, hrun⟩, ⟨vs', hrun'⟩, hgrows.imp_right ?_, hconf⟩
        rintro ⟨y, newEpoch, heq, hepoch, hseq⟩
        exact ⟨y, newEpoch, heq, hepoch, fun v hv => hseq v hv.2⟩
      refine .calls hserved hfree rfl ?_ fun hw => hw
      intro heq
      simp only [ne_eq, decide_eq_false_iff_not, not_not] at heq
      exact ⟨hem.stopped.trans (hem.running e rfl), hserved.epoch_eq heq⟩
  | stop failure =>
    refine .calls ⟨hs, ⟨vs, hrun⟩, ⟨vs, stop_running hrun⟩, .inl rfl, fun _ hconf =>
      hconf⟩ hfree rfl
      ?_ fun hw => hw
    intro heq
    cases heq
  | boot _ _ _ | commit | readEvent _ | readBlock _ | readPackInfo _ _ | crash => exact .same

theorem serve_moves (hmax : 1 ≤ w.net.maxEpochBlocks) (hs : m.service = some s)
    {vs : List (Option (List Validator))} (hrun : Running w s l vs) (hdecoded : a.decoded) :
    Moves w a m (serve w m s a) := by
  have hread : ∀ {store : Store}, Refines w { s.node with store := store } l →
      store.data = s.node.store.data →
      Moves w a m (m.goOn s ⟨{ s.node with store := store }, s.connected⟩) := by
    intro store href hd
    exact .reads ⟨hs, ⟨vs, hrun⟩, ⟨vs, read_running hrun href hd⟩, .inl rfl,
      fun _ hconf => hconf⟩ rfl
  have henter : Moves w a m (if m.call.isSome then m else enter w m s a) := by
    split
    · exact .same
    · next hcall =>
      exact enter_moves hmax hs (Option.not_isSome_iff_eq_none.mp hcall) hrun hdecoded
  cases a with
  | boot cfg em failure => exact .same
  | process e o => exact henter
  | emit x => exact henter
  | stop failure => exact henter
  | commit => exact commit_moves hs
  | readEvent id =>
    simp only [serve]
    split
    · exact .dies
    · next r store hget =>
      obtain ⟨hd, -⟩ := getEvent_spec (R := fun _ _ => True) (fun _ _ _ => trivial)
        (fun _ _ _ _ => trivial) hget
      exact hread (getEvent_refines hrun.refines hget).1 hd
  | readBlock i =>
    have hun := (getBlock_spec hrun.refines.coherent i).2
    exact hread (untouched_refines hrun.refines hun) hun.data
  | readPackInfo epoch idx =>
    have hun := (getPackInfo_spec hrun.refines.coherent epoch idx).2
    exact hread (untouched_refines hrun.refines hun) hun.data
  | crash => exact .dies

/-- **What a step of the machine can do.** -/
theorem step_moves (hmax : 1 ≤ w.net.maxEpochBlocks) (hkept : Kept w m) (hdecoded : a.decoded) :
    Moves w a m (step w m a) := by
  unfold step
  split
  · next s hs =>
    obtain ⟨l, vs, hrun, -⟩ := hkept.service s hs
    exact serve_moves hmax hs hrun hdecoded
  · split
    · next cfg em failure =>
      cases failure with
      | none =>
        obtain ⟨d, n, l, vs, hboot, hbooted⟩ := boot_booted hmax hkept cfg em
        rw [hboot]
        exact .boots hbooted fun v hv => hv
      | some code =>
        simp only [Machine.boot]
        split
        · exact .same
        · exact .same
    · exact .same

end Moves

end MiniOpera.Restart
