import MiniOpera.CacheTransparency
import MiniOpera.Emitting

/-!
# `Service.Start`

`Start` runs in a goroutine of its own and the p2p server is up before it. A peer
waits for the event loop of the server pool (`connect`) and for `syncer`
(`newPeerCh`); from then on its events may reach `processEvent`, under `engineMu`
but without regard to the rest of `Start`. Here the statements of `Start` and the
two halves of `processEvent`, up to `OnNewEvent` and from it on, are the actions of
a schedule.

`startup_safe_iff`: the epoch store is loaded whenever `processEvent` runs. The
emitter is made last, so it is nil for an event that arrives when peers are already
handled and `makeEmitter` has not run: the schedules without such an event are
exactly the safe ones.
-/

namespace MiniOpera.Startup
open GoRuntime InterEvent EventCheck GossipStore Caching Consensus Service Genesis CacheTransparency
  Emitting Runs

/-! ## The statements -/

/-- `NewService`: there is no emitter yet. -/
def newService (w : World) (store : Store) : Go ServiceError Node := do
  let (epoch, store) ← store.getEpoch
  return ⟨store, newEpochPubKeys epoch w.net.validators, none, false⟩

inductive Statement
  | loadEpochStore
  /-- The topic is made of the ID of the genesis block. -/
  | readGenesis
  | pmStart
  | serverPoolStart
  | makeEmitter
  | startEventEmission
  deriving DecidableEq

/-- `Start`, in the order of the source. -/
def body : List Statement :=
  [.loadEpochStore, .readGenesis, .pmStart, .serverPoolStart, .makeEmitter, .startEventEmission]

structure Process where
  node : Node
  /-- What `Start` has still to do. -/
  rest : List Statement
  /-- `syncer` receives the new peers. -/
  syncing : Bool
  /-- The event loop of the server pool answers `connect`. -/
  pooling : Bool
  /-- The event that the engine has accepted in a call of `processEvent` that has not
  come to `OnNewEvent`, the epoch before the call, and what others decide in it. -/
  call : Option (Event × Nat × Outcome)

/-- Peers get through `Run` to the handling of their messages. -/
def Process.handlesPeers (p : Process) : Bool := p.pooling && p.syncing

/-- The service is built and `Start` is going to be called. -/
def launch (n : Node) : Process := ⟨n, body, false, false, none⟩

section Start

variable (w : World) (em : Emitter)

def loadPrevEmitTime (s : Store) (em : Emitter) : Go ServiceError (Int × Store) :=
  if em.validator = 0 then .ok (em.prevEmittedTime, s)
  else
    match s.getLastEvent em.validator with
    | none => .ok (em.prevEmittedTime, s)
    | some prevEventID => do
      let (prevEvent, s) ← s.getEvent w.sha256 w.rlp prevEventID
      match prevEvent with
      | none => return (em.prevEmittedTime, s)
      | some e => return (timeOf e.rawTime, s)

/-- `StartEventEmission` up to its goroutine. -/
def startEventEmission (n : Node) : Go ServiceError Node :=
  match n.emitter with
  | none => .error (.panic .nilDereference)
  | some em => do
    let (_, store) ← n.store.getEpochState
    let (time, store) ← loadPrevEmitTime w store em
    return { n with store := store, emitter := some { em with prevEmittedTime := time } }

def exec (p : Process) : Statement → Go ServiceError Process
  | .loadEpochStore => do
    let (epoch, store) ← p.node.store.getEpoch
    return { p with node := { p.node with store := store.loadEpochStore epoch } }
  | .readGenesis =>
    match p.node.store.getBlock 0 with
    | (none, _) => .error (.panic .nilDereference)
    | (some _, store) => .ok { p with node := { p.node with store := store } }
  | .pmStart => .ok { p with syncing := true }
  | .serverPoolStart => .ok { p with pooling := true }
  | .makeEmitter => .ok { p with node := { p.node with emitter := some em } }
  | .startEventEmission => do
    let node ← startEventEmission w p.node
    return { p with node := node }

/-! ## Schedules -/

/-- `processEvent` up to `OnNewEvent`: its error, or the epoch before the call. -/
def acceptEvent (n : Node) (e : Event) (o : Outcome) :
    Go ServiceError (Node × Except ServiceError Nat) := do
  let (n, r) ← admitEvent w n e
  match r with
  | .error err => .ok (n, .error err)
  | .ok oldEpoch => do
    let store ← readEvents w n.store o.reads
    match o.engine with
    | .error code => .ok ({ n with store := store.delEvent e.id }, .error (.engine code))
    | .ok blocks => do
      let n ← processBlocks w { n with store := store } blocks
      return (n, .ok oldEpoch)

inductive Action
  /-- The next statement of `Start`. -/
  | start
  /-- An event of a peer, up to `OnNewEvent`. -/
  | receive (e : Event) (o : Outcome)
  /-- The rest of the call. -/
  | finish

/-- An action that has to wait changes nothing. -/
def step (p : Process) : Action → Go ServiceError Process
  | .start =>
    match p.rest with
    | [] => .ok p
    | s :: rest => exec w em { p with rest := rest } s
  | .receive e o =>
    -- `engineMu` is locked during a call
    if p.call = none ∧ p.handlesPeers then do
      let (n, r) ← acceptEvent w p.node e o
      match r with
      | .error _ => return { p with node := n }
      | .ok oldEpoch => return { p with node := n, call := some (e, oldEpoch, o) }
    else .ok p
  | .finish =>
    match p.call with
    | none => .ok p
    | some (e, oldEpoch, o) => do
      let (n, _) ← connectEvent p.node e oldEpoch o
      return { p with node := n, call := none }

def run (p : Process) : List Action → Go ServiceError Process
  | [] => .ok p
  | a :: rest => do
    let p ← step w em p a
    run p rest

end Start

/-- The two halves together. -/
theorem processEvent_halves (w : World) (n : Node) (e : Event) (o : Outcome) :
    processEvent w n e o = (do
      let (n, r) ← acceptEvent w n e o
      match r with
      | .error err => .ok (n, some err)
      | .ok oldEpoch => connectEvent n e oldEpoch o) := by
  rw [processEvent_eq, acceptEvent]
  cases admitEvent w n e with
  | error f => rfl
  | ok p =>
    obtain ⟨n1, r⟩ := p
    cases r with
    | error err => rfl
    | ok oldEpoch =>
      simp only [ok_bind, engineEvent]
      cases readEvents w n1.store o.reads with
      | error f => rfl
      | ok store =>
        simp only [ok_bind]
        cases o.engine with
        | error code => rfl
        | ok blocks =>
          dsimp only
          cases processBlocks w { n1 with store := store } blocks <;> rfl

/-! ## When `processEvent` runs -/

/-- The action is a part of `processEvent`. -/
def Runs (p : Process) : Action → Prop
  | .start => False
  | .receive _ _ => p.call = none ∧ p.handlesPeers = true
  | .finish => p.call ≠ none

/-- Whenever `processEvent` runs, `R` holds before. -/
def AtCalls (R : Process → Prop) (w : World) (em : Emitter) (p : Process)
    (acts : List Action) : Prop :=
  ∀ before a after p', acts = before ++ a :: after → run w em p before = .ok p' →
    Runs p' a → R p'

def Loaded (p : Process) : Prop := p.node.store.data.epochStore ≠ none

def HasEmitter (p : Process) : Prop := p.node.emitter ≠ none

def Action.isStart : Action → Bool
  | .start => true
  | _ => false

/-- The statements of `Start` that a schedule has executed. -/
def executed (acts : List Action) : List Statement := body.take (acts.countP Action.isStart)

/-- Peers are handled and there is no emitter. -/
def Exposed (done : List Statement) : Prop :=
  .pmStart ∈ done ∧ .serverPoolStart ∈ done ∧ .makeEmitter ∉ done

instance (done : List Statement) : Decidable (Exposed done) := inferInstanceAs (Decidable (_ ∧ _))

/-! ## What the actions keep -/

section Steps

variable {w : World} {em : Emitter} {p p' : Process} {done : List Statement}

/-- The state after some statements. -/
structure After (done : List Statement) (p : Process) : Prop where
  coherent : Coherent p.node.store
  loaded : .loadEpochStore ∈ done → Loaded p
  syncing : p.syncing = true ↔ .pmStart ∈ done
  pooling : p.pooling = true ↔ .serverPoolStart ∈ done
  emitter : HasEmitter p ↔ .makeEmitter ∈ done

/-- A call leaves the emitter and the epoch store where they are, and the store coherent. -/
structure Keeps (n n' : Node) : Prop where
  coherent : Coherent n'.store
  loaded : n.store.data.epochStore ≠ none → n'.store.data.epochStore ≠ none
  emitter : n'.emitter = n.emitter

theorem acceptEvent_keeps {n n' : Node} {e : Event} {o : Outcome} {r : Except ServiceError Nat}
    (hc : Coherent n.store) (h : acceptEvent w n e o = .ok (n', r)) : Keeps n n' := by
  obtain ⟨⟨n1, r1⟩, hadmit, h⟩ := bind_eq_ok h
  rcases admitEvent_cases hc hadmit with ⟨err, rfl, hrej⟩ | ⟨es, buf, rfl, hadm⟩
  · cases h
    exact ⟨hrej.coherent, fun hl => by rw [hrej.data]; exact hl, hrej.emitter⟩
  · obtain ⟨store, hreads, h⟩ := bind_eq_ok h
    obtain ⟨hd, hcoh, -⟩ := readEvents_spec (eventsRule_true _) hreads
    split at h
    · next code _ =>
      cases h
      have hrej : Rejected w n _ (some (.engine code)) := rejected_by_engine hadm hreads
      exact ⟨hrej.coherent, fun hl => by rw [hrej.data]; exact hl, hrej.emitter⟩
    · obtain ⟨n2, hblocks, h⟩ := bind_eq_ok h
      cases h
      have heff := processBlocks_spec (n := { n1 with store := store }) (hcoh hadm.coherent) hblocks
      obtain ⟨bl, bs, es', hdata⟩ := heff.data
      refine ⟨heff.coherent, ?_, heff.emitter.trans hadm.emitter⟩
      intro hl
      rw [hdata]
      show store.data.epochStore ≠ none
      rw [hd, hadm.data]
      exact hl

theorem settle_loaded {d : Data} (h : d.epochStore ≠ none) (e : Event) (old new : Nat)
    (closed : Bool) : (settle d e old new closed).epochStore ≠ none := by
  obtain ⟨i, hi⟩ := Option.ne_none_iff_exists'.mp h
  unfold settle
  split
  · simp [Data.updateEpochDB, hi]
  · simp only [Data.resetEpochStore, pinLastPack, hi]
    split <;> simp [Data.createEpochStore]

theorem connectEvent_keeps {n n' : Node} {e : Event} {oldEpoch : Nat} {o : Outcome}
    {r : Option ServiceError} (hc : Coherent n.store)
    (h : connectEvent n e oldEpoch o = .ok (n', r)) : Keeps n n' := by
  obtain ⟨es, hes⟩ := connectEvent_state hc h
  obtain ⟨hdata, -, hcoh, -, hem, -⟩ := connectEvent_spec hc hes h
  refine ⟨hcoh, ?_, hem⟩
  intro hl
  rw [hdata]
  apply settle_loaded
  rw [(recordInPack_frame _ _ _).2.2]
  exact hl

theorem After.call (h : After done p) {n : Node} (hn : Keeps p.node n)
    (c : Option (Event × Nat × Outcome)) : After done { p with node := n, call := c } where
  coherent := hn.coherent
  loaded hk := hn.loaded (h.loaded hk)
  syncing := h.syncing
  pooling := h.pooling
  emitter := by
    show n.emitter ≠ none ↔ _
    rw [hn.emitter]
    exact h.emitter

theorem loadPrevEmitTime_data {s s' : Store} {time : Int} (hc : Coherent s)
    (h : loadPrevEmitTime w s em = .ok (time, s')) : Coherent s' ∧ s'.data = s.data := by
  unfold loadPrevEmitTime at h
  split at h
  · cases h
    exact ⟨hc, rfl⟩
  · split at h
    · cases h
      exact ⟨hc, rfl⟩
    · obtain ⟨⟨prevEvent, s1⟩, hget, h⟩ := bind_eq_ok h
      obtain ⟨hd, hcoh, -⟩ := getEvent_spec (R := fun _ _ => True) (fun _ _ _ => trivial)
        (fun _ _ _ _ => trivial) hget
      cases prevEvent with
      | none =>
        cases h
        exact ⟨hcoh hc, hd⟩
      | some x =>
        cases h
        exact ⟨hcoh hc, hd⟩

theorem startEventEmission_spec {n n' : Node} (hc : Coherent n.store)
    (h : startEventEmission w n = .ok n') :
    Coherent n'.store ∧ n'.store.data = n.store.data ∧ n.emitter ≠ none ∧
      n'.emitter ≠ none := by
  unfold startEventEmission at h
  split at h
  · cases h
  · next em' hem =>
    obtain ⟨⟨es, s1⟩, hes, h⟩ := bind_eq_ok h
    obtain ⟨⟨time, s2⟩, htime, h⟩ := bind_eq_ok h
    cases h
    obtain ⟨-, hun⟩ := getEpochState_spec hc hes
    obtain ⟨hc2, hd2⟩ := loadPrevEmitTime_data hun.coherent htime
    refine ⟨hc2, hd2.trans hun.data, ?_, ?_⟩
    · rw [hem]
      exact Option.some_ne_none _
    · exact Option.some_ne_none _

theorem loadEpochStore_spec {s : Store} (hc : Coherent s) (epoch : Nat) :
    Coherent (s.loadEpochStore epoch) ∧ (s.loadEpochStore epoch).data.epochStore ≠ none := by
  unfold Store.loadEpochStore
  split
  · next i hi => exact ⟨hc, by rw [hi]; exact Option.some_ne_none _⟩
  · exact ⟨⟨hc.blocks, hc.packInfos, hc.blockState, hc.epochState⟩, Option.some_ne_none _⟩

/-- One more statement: what it says of each part is what it has added. -/
theorem After.snoc (h : After done p) {s : Statement} (hc : Coherent p'.node.store)
    (hloaded : s = .loadEpochStore ∨ Loaded p → Loaded p')
    (hsyncing : p'.syncing = true ↔ p.syncing = true ∨ s = .pmStart)
    (hpooling : p'.pooling = true ↔ p.pooling = true ∨ s = .serverPoolStart)
    (hemitter : HasEmitter p' ↔ HasEmitter p ∨ s = .makeEmitter) : After (done ++ [s]) p' := by
  have hmem : ∀ t : Statement, t ∈ done ++ [s] ↔ t ∈ done ∨ s = t := by
    intro t
    rw [List.mem_append, List.mem_singleton, eq_comm]
  refine ⟨hc, ?_, ?_, ?_, ?_⟩
  · intro ht
    exact hloaded (((hmem _).mp ht).symm.imp_right h.loaded)
  · rw [hsyncing, h.syncing, hmem]
  · rw [hpooling, h.pooling, hmem]
  · rw [hemitter, h.emitter, hmem]

/-- One statement. -/
theorem After.exec (h : After done p) {s : Statement} (hexec : exec w em p s = .ok p') :
    After (done ++ [s]) p' := by
  cases s with
  | loadEpochStore =>
    obtain ⟨⟨epoch, store⟩, hget, hexec⟩ := bind_eq_ok hexec
    obtain ⟨-, hun⟩ := getEpoch_spec h.coherent hget
    obtain ⟨hc, hl⟩ := loadEpochStore_spec hun.coherent epoch
    cases hexec
    exact h.snoc hc (fun _ => hl) (by simp) (by simp) (by simp [HasEmitter])
  | readGenesis =>
    obtain ⟨-, hun⟩ := getBlock_spec h.coherent 0
    simp only [Startup.exec] at hexec
    split at hexec
    · cases hexec
    · next b store hget =>
      cases hexec
      rw [hget] at hun
      have hdata : store.data = p.node.store.data := hun.data
      exact h.snoc hun.coherent (by simp [Loaded, hdata]) (by simp) (by simp) (by simp [HasEmitter])
  | pmStart =>
    cases hexec
    exact h.snoc h.coherent (by simp [Loaded]) (by simp) (by simp) (by simp [HasEmitter])
  | serverPoolStart =>
    cases hexec
    exact h.snoc h.coherent (by simp [Loaded]) (by simp) (by simp) (by simp [HasEmitter])
  | makeEmitter =>
    cases hexec
    exact h.snoc h.coherent (by simp [Loaded]) (by simp) (by simp) (by simp [HasEmitter])
  | startEventEmission =>
    obtain ⟨n, hn, hexec⟩ := bind_eq_ok hexec
    obtain ⟨hc, hd, hem, hem'⟩ := startEventEmission_spec h.coherent hn
    cases hexec
    exact h.snoc hc (by simp [Loaded, hd]) (by simp) (by simp) (by simp [HasEmitter, hem, hem'])

theorem exec_frame {s : Statement} (h : Startup.exec w em p s = .ok p') :
    p'.rest = p.rest ∧ p'.call = p.call := by
  cases s with
  | loadEpochStore =>
    obtain ⟨_, -, h⟩ := bind_eq_ok h
    cases h
    exact ⟨rfl, rfl⟩
  | readGenesis =>
    simp only [Startup.exec] at h
    split at h
    · cases h
    · cases h
      exact ⟨rfl, rfl⟩
  | pmStart | serverPoolStart | makeEmitter =>
    cases h
    exact ⟨rfl, rfl⟩
  | startEventEmission =>
    obtain ⟨_, -, h⟩ := bind_eq_ok h
    cases h
    exact ⟨rfl, rfl⟩

end Steps

/-! ## Along a schedule -/

section Schedules

variable {w : World} {em : Emitter} {p p' : Process} {acts : List Action}

/-- After a schedule: what was executed and what is left. -/
structure Reached (acts : List Action) (p : Process) : Prop where
  after : After (executed acts) p
  rest : p.rest = body.drop (acts.countP Action.isStart)

theorem drop_cons {k : Nat} {s : Statement} {rest : List Statement} (h : body.drop k = s :: rest) :
    body.take (k + 1) = body.take k ++ [s] ∧ body.drop (k + 1) = rest := by
  have hget : body[k]? = some s := by
    rw [← List.head?_drop, h, List.head?_cons]
  refine ⟨?_, ?_⟩
  · rw [List.take_add_one, hget, Option.toList_some]
  · rw [← List.tail_drop, h, List.tail_cons]

theorem countP_start (acts : List Action) :
    (acts ++ [Action.start]).countP Action.isStart = acts.countP Action.isStart + 1 := by
  rw [List.countP_append]
  rfl

theorem countP_other {a : Action} (h : a.isStart = false) (acts : List Action) :
    (acts ++ [a]).countP Action.isStart = acts.countP Action.isStart := by
  rw [List.countP_append, List.countP_singleton, h]
  rfl

theorem Reached.other {a : Action} (h : a.isStart = false) (hafter : After (executed acts) p')
    (hrest : p'.rest = body.drop (acts.countP Action.isStart)) : Reached (acts ++ [a]) p' := by
  refine ⟨?_, ?_⟩
  · rw [executed, countP_other h]
    exact hafter
  · rw [countP_other h]
    exact hrest

theorem Reached.step (h : Reached acts p) {a : Action} (hstep : step w em p a = .ok p') :
    Reached (acts ++ [a]) p' := by
  cases a with
  | start =>
    simp only [Startup.step, h.rest] at hstep
    split at hstep
    · next hnil =>
      cases hstep
      have hle := List.drop_eq_nil_iff.mp hnil
      refine ⟨?_, ?_⟩
      · have hall := h.after
        rw [executed, List.take_of_length_le hle] at hall
        rw [executed, countP_start, List.take_of_length_le (by omega)]
        exact hall
      · rw [h.rest, hnil, countP_start, List.drop_of_length_le (by omega)]
    · next s rest hcons =>
      have hafter : After (executed acts) { p with rest := rest } :=
        ⟨h.after.coherent, h.after.loaded, h.after.syncing, h.after.pooling, h.after.emitter⟩
      refine ⟨?_, ?_⟩
      · rw [executed, countP_start, (drop_cons hcons).1]
        exact hafter.exec hstep
      · rw [countP_start, (drop_cons hcons).2]
        exact (exec_frame hstep).1
  | receive e o =>
    simp only [Startup.step] at hstep
    split at hstep
    · obtain ⟨⟨n, r⟩, hacc, hstep⟩ := bind_eq_ok hstep
      have hkeeps := acceptEvent_keeps h.after.coherent hacc
      cases r with
      | error err =>
        cases hstep
        exact .other rfl (h.after.call hkeeps p.call) h.rest
      | ok oldEpoch =>
        cases hstep
        exact .other rfl (h.after.call hkeeps _) h.rest
    · cases hstep
      exact .other rfl h.after h.rest
  | finish =>
    simp only [Startup.step] at hstep
    split at hstep
    · cases hstep
      exact .other rfl h.after h.rest
    · obtain ⟨⟨n, r⟩, hcon, hstep⟩ := bind_eq_ok hstep
      cases hstep
      exact .other rfl (h.after.call (connectEvent_keeps h.after.coherent hcon) none) h.rest

theorem run_snoc (p : Process) (acts : List Action) (a : Action) :
    run w em p (acts ++ [a]) = (do
      let p ← run w em p acts
      step w em p a) := by
  induction acts generalizing p with
  | nil =>
    simp only [List.nil_append, run, ok_bind]
    cases step w em p a <;> rfl
  | cons b acts ih =>
    simp only [List.cons_append, run]
    cases step w em p b with
    | error f => rfl
    | ok p1 => exact ih p1

theorem reached_run {n : Node} (hc : Coherent n.store) (hem : n.emitter = none)
    (h : run w em (launch n) acts = .ok p) : Reached acts p := by
  induction acts using List.reverseRecOn generalizing p with
  | nil =>
    cases h
    refine ⟨⟨hc, fun hmem => ?_, ?_, ?_, ?_⟩, rfl⟩
    · cases hmem
    · simp [launch, executed]
    · simp [launch, executed]
    · simp [launch, executed, HasEmitter, hem]
  | append_singleton acts a ih =>
    rw [run_snoc] at h
    obtain ⟨p1, hrun, hstep⟩ := bind_eq_ok h
    exact (ih hrun).step hstep

theorem Reached.handlesPeers_iff (h : Reached acts p) :
    p.handlesPeers = true ↔ .pmStart ∈ executed acts ∧
      .serverPoolStart ∈ executed acts := by
  rw [Process.handlesPeers, Bool.and_eq_true, h.after.syncing, h.after.pooling]
  exact And.comm

theorem executed_mono (acts more : List Action) {s : Statement} (h : s ∈ executed acts) :
    s ∈ executed (acts ++ more) := by
  refine List.take_subset_take_left body ?_ h
  rw [List.countP_append]
  exact Nat.le_add_right _ _

/-- At every event of a peer that is handled, the statement is executed. -/
def BeforeEvents (s : Statement) (acts : List Action) : Prop :=
  ∀ before e o after, acts = before ++ .receive e o :: after →
    .pmStart ∈ executed before → .serverPoolStart ∈ executed before → s ∈ executed before

theorem BeforeEvents.init {s : Statement} {more : List Action} (h : BeforeEvents s (acts ++ more)) :
    BeforeEvents s acts := by
  intro before e o after heq
  apply h before e o (after ++ more)
  rw [heq, List.append_assoc]
  rfl

/-- Then it is also executed when a call goes on. -/
theorem BeforeEvents.called {s : Statement} {n : Node} (hc : Coherent n.store)
    (hem : n.emitter = none)
    (h : BeforeEvents s acts) (hrun : run w em (launch n) acts = .ok p) (hcall : p.call ≠ none) :
    s ∈ executed acts := by
  induction acts using List.reverseRecOn generalizing p with
  | nil =>
    cases hrun
    exact absurd rfl hcall
  | append_singleton acts a ih =>
    rw [run_snoc] at hrun
    obtain ⟨p1, hrun1, hstep⟩ := bind_eq_ok hrun
    by_cases hcall1 : p1.call = none
    · -- the call began in this step
      cases a with
      | start =>
        simp only [Startup.step] at hstep
        split at hstep
        · cases hstep
          exact absurd hcall1 hcall
        · rw [(exec_frame hstep).2] at hcall
          exact absurd hcall1 hcall
      | receive e o =>
        by_cases hpeers : p1.handlesPeers = true
        · obtain ⟨hpm, hpool⟩ := (reached_run hc hem hrun1).handlesPeers_iff.mp hpeers
          exact executed_mono _ _ (h acts e o [] rfl hpm hpool)
        · rw [Startup.step, if_neg (fun hboth => hpeers hboth.2)] at hstep
          cases hstep
          exact absurd hcall1 hcall
      | finish =>
        simp only [Startup.step, hcall1] at hstep
        cases hstep
        exact absurd hcall1 hcall
    · exact executed_mono _ _ (ih h.init hrun1 hcall1)

theorem BeforeEvents.atCalls {s : Statement} {n : Node} (hc : Coherent n.store)
    (hem : n.emitter = none) (h : BeforeEvents s acts) {before after : List Action} {a : Action}
    (heq : acts = before ++ a :: after) (hrun : run w em (launch n) before = .ok p)
    (ha : Runs p a) :
    s ∈ executed before := by
  cases a with
  | start => exact absurd ha id
  | receive e o =>
    obtain ⟨hpm, hpool⟩ := (reached_run hc hem hrun).handlesPeers_iff.mp ha.2
    exact h before e o after heq hpm hpool
  | finish =>
    have hbefore : BeforeEvents s before := by
      rw [heq] at h
      exact h.init
    exact hbefore.called hc hem hrun ha

/-- `pm.Start` comes after `loadEpochStore`. -/
theorem loadEpochStore_first (acts : List Action) : BeforeEvents .loadEpochStore acts := by
  intro before e o after _ hpm _
  unfold executed at hpm ⊢
  generalize before.countP Action.isStart = k at hpm ⊢
  cases k with
  | zero => cases hpm
  | succ k => exact List.mem_cons_self

/-! ## Schedules without calls -/

/-- No call yet, and the rows that `Start` reads. -/
structure Fresh (p : Process) : Prop where
  call : p.call = none
  epochState : p.node.store.data.epochState ≠ none
  genesis : p.node.store.data.blocks 0 ≠ none

theorem getEpoch_returns {s : Store} (h : s.data.epochState ≠ none) :
    ∃ epoch s', (s.getEpoch : Go ServiceError _) = .ok (epoch, s') := by
  obtain ⟨es, hes⟩ := Option.ne_none_iff_exists'.mp h
  unfold Store.getEpoch Store.getEpochState
  cases s.cache.epochState with
  | none =>
    simp only [hes, ok_bind]
    exact ⟨_, _, rfl⟩
  | some es' => exact ⟨_, _, rfl⟩

/-- The statements up to `serverPool.start` return. -/
theorem Fresh.exec (h : Fresh p) (hc : Coherent p.node.store) {s : Statement}
    (hmake : s ≠ .makeEmitter) (hemit : s ≠ .startEventEmission) :
    ∃ p', exec w em p s = .ok p' ∧ Fresh p' := by
  cases s with
  | loadEpochStore =>
    obtain ⟨epoch, store, hget⟩ := getEpoch_returns h.epochState
    obtain ⟨-, hun⟩ := getEpoch_spec hc hget
    simp only [Startup.exec, hget, ok_bind, pure_eq_ok]
    refine ⟨_, rfl, h.call, ?_, ?_⟩
    all_goals
      unfold Store.loadEpochStore
      split
    · rw [hun.data]
      exact h.epochState
    · show store.data.epochState ≠ none
      rw [hun.data]
      exact h.epochState
    · rw [hun.data]
      exact h.genesis
    · show store.data.blocks 0 ≠ none
      rw [hun.data]
      exact h.genesis
  | readGenesis =>
    obtain ⟨hrow, hun⟩ := getBlock_spec hc 0
    obtain ⟨b, hb⟩ := Option.ne_none_iff_exists'.mp h.genesis
    rw [hb] at hrow
    generalize hget : p.node.store.getBlock 0 = r at hrow hun
    obtain ⟨found, store⟩ := r
    cases hrow
    simp only [Startup.exec, hget]
    refine ⟨_, rfl, h.call, ?_, ?_⟩
    · show store.data.epochState ≠ none
      rw [show store.data = p.node.store.data from hun.data]
      exact h.epochState
    · show store.data.blocks 0 ≠ none
      rw [show store.data = p.node.store.data from hun.data]
      exact h.genesis
  | pmStart => exact ⟨_, rfl, h.call, h.epochState, h.genesis⟩
  | serverPoolStart => exact ⟨_, rfl, h.call, h.epochState, h.genesis⟩
  | makeEmitter => exact absurd rfl hmake
  | startEventEmission => exact absurd rfl hemit

/-- The emission starts after the emitter is made. -/
theorem makeEmitter_executed {k : Nat} {rest : List Statement}
    (h : body.drop k = .startEventEmission :: rest) : .makeEmitter ∈ body.take k := by
  match k with
  | 0 | 1 | 2 | 3 | 4 => cases h
  | 5 => decide
  | k + 6 => simp [body] at h

/-- Without an exposed event, `Start` gets to `makeEmitter`. -/
theorem quiet_run {n : Node} (hc : Coherent n.store) (hem : n.emitter = none)
    (hfresh : Fresh (launch n)) (hmake : .makeEmitter ∉ executed acts)
    (hquiet : ∀ before e o after, acts = before ++ .receive e o :: after →
      ¬ Exposed (executed before)) :
    ∃ p, run w em (launch n) acts = .ok p ∧ Fresh p := by
  induction acts using List.reverseRecOn with
  | nil => exact ⟨_, rfl, hfresh⟩
  | append_singleton acts a ih =>
    have hmake1 : .makeEmitter ∉ executed acts := fun hmem => hmake (executed_mono _ _ hmem)
    obtain ⟨p, hrun, hp⟩ := ih hmake1 (by
      intro before e o after heq
      apply hquiet before e o (after ++ [a])
      rw [heq, List.append_assoc]
      rfl)
    have hreached := reached_run hc hem hrun
    rw [run_snoc, hrun, ok_bind]
    cases a with
    | start =>
      rw [Startup.step, hreached.rest]
      split
      · exact ⟨p, rfl, hp⟩
      · next s rest hcons =>
        rw [executed, countP_start, (drop_cons hcons).1] at hmake
        apply Fresh.exec (p := { p with rest := rest }) ⟨hp.call, hp.epochState, hp.genesis⟩
          hreached.after.coherent
        · rintro rfl
          exact hmake (List.mem_append_right _ List.mem_cons_self)
        · rintro rfl
          exact hmake1 (makeEmitter_executed hcons)
    | receive e o =>
      have hpeers : ¬ p.handlesPeers = true := by
        intro hpeers
        obtain ⟨hpm, hpool⟩ := hreached.handlesPeers_iff.mp hpeers
        exact hquiet acts e o [] rfl ⟨hpm, hpool, hmake1⟩
      rw [Startup.step, if_neg (fun hboth => hpeers hboth.2)]
      exact ⟨p, rfl, hp⟩
    | finish =>
      simp only [Startup.step, hp.call]
      exact ⟨p, rfl, hp⟩

/-- An exposed event finds no emitter. -/
theorem exposed_call {n : Node} (hc : Coherent n.store) (hem : n.emitter = none)
    (hfresh : Fresh (launch n)) {before after : List Action} {e : Event} {o : Outcome}
    (heq : acts = before ++ .receive e o :: after) (hexposed : Exposed (executed before)) :
    ¬ AtCalls HasEmitter w em (launch n) acts := by
  intro hsafe
  -- on the length of the schedule before it: the first such event is processed at once
  induction hlen : before.length using Nat.strong_induction_on generalizing before e o after with
  | _ len ih =>
    by_cases hquiet : ∀ b e' o' c, before = b ++ .receive e' o' :: c → ¬ Exposed (executed b)
    · obtain ⟨p, hrun, hp⟩ := quiet_run hc hem hfresh hexposed.2.2 hquiet
      have hreached := reached_run hc hem hrun
      have hpeers := hreached.handlesPeers_iff.mpr ⟨hexposed.1, hexposed.2.1⟩
      have hemitter := hsafe before (.receive e o) after p heq hrun ⟨hp.call, hpeers⟩
      exact hexposed.2.2 (hreached.after.emitter.mp hemitter)
    · push Not at hquiet
      obtain ⟨b, e', o', c, hb, hearlier⟩ := hquiet
      have hshorter : b.length < len := by
        rw [← hlen, hb, List.length_append, List.length_cons]
        omega
      have hsplit : acts = b ++ .receive e' o' :: (c ++ .receive e o :: after) := by
        rw [heq, hb, List.append_assoc]
        rfl
      exact ih b.length hshorter hsplit hearlier rfl

end Schedules

theorem newService_spec {w : World} {store : Store} {n : Node} (hc : Coherent store)
    (h : newService w store = .ok n) :
    Coherent n.store ∧ n.store.data = store.data ∧ n.emitter = none ∧
      store.data.epochState ≠ none := by
  obtain ⟨⟨epoch, s⟩, hget, h⟩ := bind_eq_ok h
  obtain ⟨hrow, hun⟩ := getEpoch_spec hc hget
  cases h
  refine ⟨hun.coherent, hun.data, rfl, ?_⟩
  intro hnone
  rw [hnone] at hrow
  cases hrow

theorem openStore_coherent (d : Data) (cfg : CacheConfig) : Coherent (openStore d cfg) := by
  refine ⟨agrees_newCache _ _, agrees_newCache _ _, ?_, ?_⟩
  · intro v hv
    cases hv
  · intro v hv
    cases hv

/-- **Startup.** From a service built on a database with a genesis: whenever
`processEvent` runs the epoch store is loaded, and the emitter is there in exactly the
schedules in which no event of a peer arrives between `serverPool.start` and
`makeEmitter`. -/
theorem startup_safe_iff (w : World) (em : Emitter) (d : Data) (cfg : CacheConfig) (n : Node)
    (hnew : newService w (openStore d cfg) = .ok n) (hgenesis : d.blocks 0 ≠ none)
    (acts : List Action) :
    AtCalls Loaded w em (launch n) acts ∧
    (AtCalls (fun p => Loaded p ∧ HasEmitter p) w em (launch n) acts ↔
      ∀ before e o after, acts = before ++ .receive e o :: after →
        ¬ Exposed (executed before)) := by
  obtain ⟨hc, hdata, hem, hstate⟩ := newService_spec (openStore_coherent d cfg) hnew
  have hfresh : Fresh (launch n) := by
    refine ⟨rfl, ?_, ?_⟩
    · show n.store.data.epochState ≠ none
      rw [hdata]
      exact hstate
    · show n.store.data.blocks 0 ≠ none
      rw [hdata]
      exact hgenesis
  have hloaded : AtCalls Loaded w em (launch n) acts := by
    intro before a after p heq hrun ha
    exact (reached_run hc hem hrun).after.loaded
      ((loadEpochStore_first acts).atCalls hc hem heq hrun ha)
  refine ⟨hloaded, ?_, ?_⟩
  · intro hsafe before e o after heq hexposed
    have hemitter : AtCalls HasEmitter w em (launch n) acts := by
      intro b a c p hsplit hrun ha
      exact (hsafe b a c p hsplit hrun ha).2
    exact exposed_call hc hem hfresh heq hexposed hemitter
  · intro hnever before a after p heq hrun ha
    have hmade : BeforeEvents .makeEmitter acts := by
      intro b e o c hsplit hpm hpool
      by_contra hmake
      exact hnever b e o c hsplit ⟨hpm, hpool, hmake⟩
    exact ⟨hloaded before a after p heq hrun ha,
      (reached_run hc hem hrun).after.emitter.mpr (hmade.atCalls hc hem heq hrun ha)⟩

/-- The tables after `ApplyGenesis`. -/
def genesisData : Data :=
  { Data.empty with
    blocks := Function.update (fun _ => none) 0 (some ⟨1, genesisID, [genesisID]⟩)
    blockState := some ⟨0, 0⟩
    epochState := some ⟨firstEpoch, (sampleWorld 1).net.validators⟩ }
where
  genesisID := (((MutableEvent.zero.setEpoch 0).setLamport 1).setID (Bytes.zero 24)).id

/-- The first event of the validator arrives when `Start` has returned. -/
def afterStart : List Action :=
  [.start, .start, .start, .start, .start, .start, .receive (chainEvent 1) (deciding []), .finish]

/-- It arrives before the emitter is made. -/
def beforeEmitter : List Action :=
  [.start, .start, .start, .start, .receive (chainEvent 1) (deciding []), .finish]

theorem startup_safe_iff_afterStart :
    ∃ n, newService (sampleWorld 1) (openStore genesisData sampleConfig) = .ok n ∧
      AtCalls (fun p => Loaded p ∧ HasEmitter p) (sampleWorld 1) idleEmitter (launch n)
        afterStart := by
  refine ⟨_, rfl, (startup_safe_iff (sampleWorld 1) idleEmitter genesisData sampleConfig _ rfl
    (by decide) afterStart).2.mpr ?_⟩
  intro before e o after heq
  have hbefore : before = [.start, .start, .start, .start, .start, .start] := by
    simp [afterStart, List.cons_eq_append_iff] at heq
    exact heq.1
  rw [hbefore]
  decide

theorem early_event_panics :
    ∃ n, newService (sampleWorld 1) (openStore genesisData sampleConfig) = .ok n ∧
      run (sampleWorld 1) idleEmitter (launch n) beforeEmitter = .error (.panic .nilDereference) :=
  ⟨_, rfl, fault?_eq_some (by decide +kernel)⟩

end MiniOpera.Startup
