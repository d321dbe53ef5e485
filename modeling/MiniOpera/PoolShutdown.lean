import MiniOpera.Lib.Holdings
import MiniOpera.PoolRuns

/-!
# The end of the pool

The goroutines that meet at the channels of the pool: the peers of
`makeProtocol`, `eventLoop`, and the one that `eventLoop` starts when `quit` is
closed, to close `disconnCh` once all connections are disconnected. A rendezvous
at a channel is one step; a step that a `select` may take is enabled whether or
not another one is.

`Orderly` is kept by every step (`moves_orderly`): the connected entries of the
pool are those the peers hold, each by one peer, and `connWg` is their number.
So `disconnCh` is closed when no peer can send on it any more
(`shutdown_protocol`).
-/

namespace MiniOpera.PoolShutdown
open GoRuntime EntryQueue Pool PoolRoster Roster PoolRefinement PoolRuns Holdings

variable {ι K F : Type}

/-! ## Goroutines -/

/-- A peer, at its calls of the pool. -/
inductive Peer (ι K : Type)
  /-- at the `select` of `connect` -/
  | connecting (node : Node ι K)
  /-- the answer is in `req.result` -/
  | answered (entry : Option Ref)
  | holding (r : Ref)
  /-- at the `select` of `registered` -/
  | registering (r : Ref)
  /-- sends on `disconnCh` -/
  | disconnecting (r : Ref) (stopped : Bool)
  /-- without an entry, or disconnected -/
  | gone

namespace Peer

/-- The entry that was handed to the peer and is not disconnected. -/
def held : Peer ι K → Option Ref
  | .connecting _ => none
  | .answered entry => entry
  | .holding r => some r
  | .registering r => some r
  | .disconnecting r _ => some r
  | .gone => none

end Peer

/-- What a peer does without the event loop. -/
inductive Call
  | seeQuit
  | receive
  | registered
  | disconnect

/-- `disconnect` reads `quit` before it sends. -/
def Peer.proceed (quit : Bool) : Peer ι K → Call → Option (Peer ι K)
  | .connecting _, .seeQuit => if quit then some .gone else none
  | .answered (some r), .receive => some (.holding r)
  | .answered none, .receive => some .gone
  | .holding r, .registered => some (.registering r)
  | .registering r, .seeQuit => if quit then some (.holding r) else none
  | .holding r, .disconnect => some (.disconnecting r quit)
  | _, _ => none

/-- `eventLoop`: in its `select`, in the `range` over `disconnCh`, before and
after `saveNodes`. -/
inductive Loop
  | running
  | draining
  | saving
  | stopped
  deriving DecidableEq

/-- The goroutine that closes `disconnCh`: not started, in `connWg.Wait()`,
after it, and at its end. -/
inductive Closer
  | absent
  | waiting
  | woken
  | closed
  deriving DecidableEq

/-- What a peer sends and the event loop receives. -/
def Peer.request (loop : Loop) (disconnClosed : Bool) : Peer ι K → Option (ServerPool.Msg ι K F)
  | .connecting node => if loop = .running then some (.connect node) else none
  | .registering r => if loop = .running then some (.register r) else none
  | .disconnecting r stopped =>
    if disconnClosed then none
    else match loop with
      | .running => some (.disconnect r stopped)
      | .draining => some (.disconnect r true)
      | _ => none
  | _ => none

/-- The peer when its request has been handled. -/
def Peer.served (answer : Option Ref) : Peer ι K → Peer ι K
  | .connecting _ => .answered answer
  | .registering r => .holding r
  | .disconnecting _ _ => .gone
  | a => a

/-- `connWg.Add(1)` and `connWg.Done()`. -/
def wgChange (answer : Option Ref) : ServerPool.Msg ι K F → Int
  | .connect _ => if answer.isSome then 1 else 0
  | .disconnect _ _ => -1
  | _ => 0

/-- The messages of peers; the others come from timers and the discovery. -/
def ofPeer : ServerPool.Msg ι K F → Bool
  | .connect _ | .register _ | .disconnect _ _ => true
  | _ => false

structure System (ι K F : Type) where
  pool : ServerPool ι K F
  peers : List (Peer ι K)
  connWg : Int
  quit : Bool
  loop : Loop
  closer : Closer
  saved : Option (List (StoredNode K F))
  panicked : Bool

inductive Action (ι K F : Type)
  | arrive (node : Node ι K)
  | proceed (i : Nat) (c : Call)
  | serve (env : Env ι K F) (i : Nat)
  | receive (env : Env ι K F) (msg : ServerPool.Msg ι K F)
  | closeQuit
  | drain
  | wake
  | close
  | exit
  | save
  | sendClosed (i : Nat)

namespace System

/-- The entries that have been handed out and not been disconnected. -/
def held (s : System ι K F) : List Ref := holdings Peer.held s.peers

def disconnClosed (s : System ι K F) : Bool := s.closer = .closed

/-- After `start`. -/
def started (p : ServerPool ι K F) : System ι K F :=
  ⟨p, [], 0, false, .running, .absent, none, false⟩

variable [DecidableEq ι] [Zero F] [One F] [Add F] [Mul F]

/-- One step of a goroutine, or of two that meet; there is none after a panic. -/
def step (s : System ι K F) (action : Action ι K F) : Option (System ι K F) :=
  if s.panicked then none else
  match action with
  | .arrive node => some { s with peers := s.peers ++ [.connecting node] }
  | .proceed i c =>
    match s.peers[i]? with
    | none => none
    | some a => (a.proceed s.quit c).map fun b => { s with peers := s.peers.set i b }
  | .serve env i =>
    match s.peers[i]? with
    | none => none
    | some a =>
      match a.request s.loop s.disconnClosed with
      | none => none
      | some msg =>
        match s.pool.handle env msg with
        | .error _ => none
        | .ok (answer, p) =>
          some { s with
            pool := p
            peers := s.peers.set i (a.served answer)
            connWg := s.connWg + wgChange answer msg
            panicked := s.connWg + wgChange answer msg < 0 }
  | .receive env msg =>
    if s.loop = .running ∧ ofPeer msg = false ∧ Allowed s.pool msg then
      match s.pool.handle env msg with
      | .error _ => none
      | .ok (_, p) => some { s with pool := p }
    else none
  | .closeQuit => some { s with quit := true }
  | .drain =>
    if s.loop = .running ∧ s.quit then some
      { s with loop := .draining, closer := .waiting } else none
  | .wake => if s.closer = .waiting ∧ s.connWg = 0 then some { s with closer := .woken } else none
  | .close => if s.closer = .woken then some { s with closer := .closed } else none
  | .exit =>
    if s.loop = .draining ∧ s.disconnClosed then some { s with loop := .saving } else none
  | .save =>
    if s.loop = .saving then
      match s.pool.saveNodes with
      | .error _ => none
      | .ok (stored, p) => some { s with pool := p, loop := .stopped, saved := some stored }
    else none
  | .sendClosed i =>
    match s.peers[i]? with
    | some (.disconnecting _ _) =>
      if s.disconnClosed then some { s with panicked := true } else none
    | _ => none

/-- Step after step. -/
def run : System ι K F → List (Action ι K F) → Option (System ι K F)
  | s, [] => some s
  | s, action :: rest =>
    match s.step action with
    | none => none
    | some s' => run s' rest

end System

variable [DecidableEq ι] [Zero F] [One F] [Add F] [Mul F]

/-- What a step can do. -/
inductive Moves (s : System ι K F) : System ι K F → Prop
  | arrive (node : Node ι K) : Moves s { s with peers := s.peers ++ [.connecting node] }
  | proceed {i : Nat} {a b : Peer ι K} (ha : s.peers[i]? = some a) (hb : b.held = a.held) :
      Moves s { s with peers := s.peers.set i b }
  | serve {env : Env ι K F} {i : Nat} {a : Peer ι K} {msg : ServerPool.Msg ι K F}
  {answer : Option Ref}
      {p : ServerPool ι K F} (ha : s.peers[i]? = some a)
      (hmsg : a.request s.loop s.disconnClosed = some msg)
      (hok : s.pool.handle env msg = .ok (answer, p)) :
      Moves s { s with
        pool := p
        peers := s.peers.set i (a.served answer)
        connWg := s.connWg + wgChange answer msg
        panicked := s.connWg + wgChange answer msg < 0 }
  | receive {env : Env ι K F} {msg : ServerPool.Msg ι K F} {answer : Option Ref}
  {p : ServerPool ι K F}
      (hloop : s.loop = .running) (hmsg : ofPeer msg = false) (hallow : Allowed s.pool msg)
      (hok : s.pool.handle env msg = .ok (answer, p)) : Moves s { s with pool := p }
  | closeQuit : Moves s { s with quit := true }
  | drain (hloop : s.loop = .running) (hquit : s.quit = true) :
      Moves s { s with loop := .draining, closer := .waiting }
  | wake (hcloser : s.closer = .waiting) (hzero : s.connWg = 0) :
  Moves s { s with closer := .woken }
  | close (hcloser : s.closer = .woken) : Moves s { s with closer := .closed }
  | exit (hloop : s.loop = .draining) (hclosed : s.closer = .closed) :
  Moves s { s with loop := .saving }
  | save {stored : List (StoredNode K F)} {p : ServerPool ι K F} (hloop : s.loop = .saving)
      (hok : s.pool.saveNodes = .ok (stored, p)) :
      Moves s { s with pool := p, loop := .stopped, saved := some stored }
  | sendClosed {i : Nat} {r : Ref} {stopped : Bool}
  (ha : s.peers[i]? = some (.disconnecting r stopped))
      (hclosed : s.closer = .closed) : Moves s { s with panicked := true }

omit [DecidableEq ι] [Zero F] [One F] [Add F] [Mul F] in
theorem proceed_held {quit : Bool} {a b : Peer ι K} {c : Call} (h : a.proceed quit c = some b) :
    b.held = a.held := by
  unfold Peer.proceed at h
  split at h
  · split at h <;> cases h
    rfl
  · cases h
    rfl
  · cases h
    rfl
  · cases h
    rfl
  · split at h <;> cases h
    rfl
  · cases h
    rfl
  · cases h

theorem step_moves {s s' : System ι K F} {action : Action ι K F} (h : s.step action = some s') :
    s.panicked = false ∧ Moves s s' := by
  unfold System.step at h
  split at h
  · cases h
  next hpanic =>
  refine ⟨Bool.eq_false_iff.mpr hpanic, ?_⟩
  cases action with
  | arrive node =>
    cases h
    exact .arrive node
  | proceed i c =>
    dsimp only at h
    split at h
    · cases h
    · next a ha =>
      obtain ⟨b, hb, rfl⟩ := Option.map_eq_some_iff.mp h
      exact .proceed ha (proceed_held hb)
  | serve env i =>
    dsimp only at h
    split at h
    · cases h
    · next a ha =>
      split at h
      · cases h
      · next msg hmsg =>
        split at h
        · cases h
        · next answer p hok =>
          cases h
          exact .serve ha hmsg hok
  | receive env msg =>
    obtain ⟨⟨hloop, hmsg, hallow⟩, h⟩ := Option.ite_none_right_eq_some.mp h
    split at h
    · cases h
    · next answer p hok =>
      cases h
      exact .receive hloop hmsg hallow hok
  | closeQuit =>
    cases h
    exact .closeQuit
  | drain =>
    obtain ⟨⟨hloop, hquit⟩, heq⟩ := Option.ite_none_right_eq_some.mp h
    cases heq
    exact .drain hloop hquit
  | wake =>
    obtain ⟨⟨hcloser, hzero⟩, heq⟩ := Option.ite_none_right_eq_some.mp h
    cases heq
    exact .wake hcloser hzero
  | close =>
    obtain ⟨hcloser, heq⟩ := Option.ite_none_right_eq_some.mp h
    cases heq
    exact .close hcloser
  | exit =>
    obtain ⟨⟨hloop, hclosed⟩, heq⟩ := Option.ite_none_right_eq_some.mp h
    cases heq
    exact .exit hloop (of_decide_eq_true hclosed)
  | save =>
    obtain ⟨hloop, h⟩ := Option.ite_none_right_eq_some.mp h
    split at h
    · cases h
    · next stored p hok =>
      cases h
      exact .save hloop hok
  | sendClosed i =>
    dsimp only at h
    split at h
    · next r stopped ha =>
      obtain ⟨hclosed, heq⟩ := Option.ite_none_right_eq_some.mp h
      cases heq
      exact .sendClosed ha (of_decide_eq_true hclosed)
    · cases h

/-! ## Entries that are handed out -/

/-- The entry that an event hands out. -/
def hands : Event ι → Option Ref
  | .connect _ answer => answer
  | _ => none

/-- The entry whose connection an event ends. -/
def ends : Event ι → Option Ref
  | .disconnect r => some r
  | _ => none

section Handed

variable {trusted : ι → Bool} {v v' : Roster ι} {r x : Ref}

omit [DecidableEq ι] in
theorem handed_congr (h : (v'.member x).state = (v.member x).state) : v'.Handed x ↔
    v.Handed x := by
  rw [Roster.Handed, Roster.Handed, h]

omit [DecidableEq ι] in
theorem handed_accept : (v.accept r).Handed x ↔ v.Handed x ∨ x = r := by
  by_cases hx : x = r
  · rw [hx, Roster.Handed, Roster.accept, put_self]
    simp
  · rw [handed_congr (v := v) (by rw [Roster.accept, put_of_ne hx])]
    exact (or_iff_left hx).symm

omit [DecidableEq ι] in
theorem handed_release : (v.release r).Handed x ↔ v.Handed x ∧ x ≠ r := by
  by_cases hx : x = r
  · subst hx
    have hself : ((v.release x).member x).state = .notConnected :=
      congrArg Member.state (put_self _)
    rw [Roster.Handed, hself]
    simp
  · have hother : (v.release r).member x = v.member x := put_of_ne hx
    rw [handed_congr (congrArg Member.state hother)]
    exact (and_iff_left hx).symm

omit [DecidableEq ι] in
/-- Dialed entries are idle before and not connected after it. -/
theorem handed_dials (hd : Dials v v') : v'.Handed x ↔ v.Handed x := by
  induction hd with
  | refl => exact Iff.rfl
  | @dial v' _ r _ hidle known ih =>
    rw [← ih]
    by_cases hx : x = r
    · subst hx
      have hself : ((v'.dial x known).member x).state = .dialed :=
        congrArg Member.state (put_self _)
      rw [Roster.Handed, Roster.Handed, hself, show (v'.member x).state = .notConnected from hidle]
      simp
    · have hother : (v'.dial r known).member x = v'.member x := put_of_ne hx
      exact handed_congr (congrArg Member.state hother)

theorem handed_add (hs : Sound trusted v) (id : ι) : (v.add id).Handed x ↔ v.Handed x := by
  rw [Roster.add, handed_congr (touch_state false x)]
  by_cases hx : x = v.next
  · rw [hx, Roster.Handed, enter_self]
    refine iff_of_false (by simp) fun hh => ?_
    exact Nat.lt_irrefl _ (hs.busy _ (not_idle_of_handed hh)).1
  · exact handed_congr (by rw [Roster.enter, put_of_ne hx])

theorem handed_find (hs : Sound trusted v) {id : ι} (hf : Find v id r v') : v'.Handed x ↔
    v.Handed x := by
  cases hf with
  | known => exact Iff.rfl
  | new => exact handed_congr (touch_state false x)
  | unknown => exact handed_add hs id

theorem handed_register (hr : v.Handed r) : (v.register r).Handed x ↔ v.Handed x := by
  rw [Roster.register, handed_congr (touch_state true x)]
  by_cases hx : x = r
  · rw [hx, Roster.Handed, promote_self]
    exact iff_of_true (.inr rfl) hr
  · exact handed_congr (by rw [Roster.promote, put_of_ne hx])

/-- **What a message changes**: an answer hands out, a disconnection takes back. -/
theorem step_handed (hs : Sound trusted v) {e : Event ι} (hstep : Step trusted v e v') :
    v'.Handed x ↔ (v.Handed x ∨ hands e = some x) ∧ ends e ≠ some x := by
  have hsame : (v'.Handed x ↔ v.Handed x) → hands e = none → ends e = none →
      (v'.Handed x ↔ (v.Handed x ∨ hands e = some x) ∧ ends e ≠ some x) := by
    intro hiff hhands hends
    rw [hiff, hhands, hends]
    simp
  have hanswer : ∀ {r : Ref} {id : ι}, (v'.Handed x ↔ v.Handed x ∨ x = r) →
    e = .connect id (some r) →
      (v'.Handed x ↔ (v.Handed x ∨ hands e = some x) ∧ ends e ≠ some x) := by
    intro r id hiff he
    rw [hiff, he]
    simp [hands, ends, eq_comm]
  cases hstep with
  | quiet | lateTimeout | noRetry | ignored | trusted | refused => exact hsame Iff.rfl rfl rfl
  | @timeout r hstate =>
    refine hsame (handed_release.trans (and_iff_left_of_imp fun hx heq => ?_)) rfl rfl
    rw [heq, Roster.Handed, hstate] at hx
    rcases hx with hx | hx <;> cases hx
  | retry hd => exact hsame (handed_dials hd) rfl rfl
  | discover _ hf hd => exact hsame ((handed_dials hd).trans (handed_find hs hf)) rfl rfl
  | accepted => exact hanswer handed_accept rfl
  | @acceptedNew id =>
    refine hanswer ?_ rfl
    rw [handed_accept, handed_add hs id]
  | register hr => exact hsame (handed_register hr) rfl rfl
  | disconnect =>
    rw [handed_release]
    simp [hands, ends, eq_comm]

/-- Only an entry that is free is handed out. -/
theorem step_hands (hs : Sound trusted v) {e : Event ι} (hstep : Step trusted v e v')
    (hx : hands e = some x) : ¬v.Handed x := by
  cases hstep with
  | quiet | lateTimeout | noRetry | ignored | trusted | refused | timeout | retry | discover
  | register | disconnect => cases hx
  | accepted _ _ hh =>
    cases hx
    exact hh
  | acceptedNew =>
    cases hx
    exact fun hh => Nat.lt_irrefl _ (hs.busy _ (not_idle_of_handed hh)).1

end Handed

omit [DecidableEq ι] [Zero F] [One F] [Add F] [Mul F] in
/-- `saveNodes` takes the entries out of the queue and changes none. -/
theorem saveNodes_heap {p p' : ServerPool ι K F} {stored : List (StoredNode K F)}
    (h : p.saveNodes = .ok (stored, p')) : p'.heap = p.heap := by
  obtain ⟨⟨list, q⟩, -, h⟩ := bind_eq_ok h
  obtain ⟨_, -, h⟩ := bind_eq_ok h
  cases h
  rfl

/-! ## The invariant -/

variable [Inhabited (Node ι K)]

/-- The systems that are reached from the start of the pool. -/
inductive Reached (trusted : ι → Bool) (idOf : K → ι) (nodes : List (StoredNode K F)) :
    System ι K F → Prop
  | start {env env' : Env ι K F} {p : ServerPool ι K F}
      (h : (ServerPool.newServerPool trusted).start idOf env env' nodes = .ok p) :
      Reached trusted idOf nodes (.started p)
  | step {s s' : System ι K F} (h : Reached trusted idOf nodes s) (action : Action ι K F)
      (hstep : s.step action = some s') : Reached trusted idOf nodes s'

/-- The messages of a run of the pool alone. -/
abbrev PoolReached (trusted : ι → Bool) (idOf : K → ι) (nodes : List (StoredNode K F)) :
    ServerPool ι K F → Prop :=
  Reachable trusted idOf nodes fun _ _ => True

/-- What holds between the steps of the goroutines. -/
structure Orderly (trusted : ι → Bool) (idOf : K → ι) (nodes : List (StoredNode K F))
    (s : System ι K F) : Prop where
  pool : s.loop ≠ .stopped → PoolReached trusted idOf nodes s.pool
  handed : ∀ r, (s.pool.heap r).handed = true ↔ r ∈ s.held
  nodup : s.held.Nodup
  counter : s.connWg = s.held.length
  healthy : s.panicked = false
  closing : s.loop = .running → s.closer = .absent
  drained : s.closer = .woken ∨ s.closer = .closed → s.held = []
  finished : s.loop = .saving ∨ s.loop = .stopped → s.closer = .closed

section Orderly

variable {trusted : ι → Bool} {idOf : K → ι} {nodes : List (StoredNode K F)}
  {s s' : System ι K F}
  {env : Env ι K F} {i : Nat} {a b : Peer ι K} {p p' : ServerPool ι K F}
  {msg : ServerPool.Msg ι K F}
  {answer : Option Ref} {r : Ref}

/-- What a message to a pool of a run changes. -/
theorem handle_handed (h : PoolReached trusted idOf nodes p) (hallow : Allowed p msg)
    (hok : p.handle env msg = .ok (answer, p')) :
    (∀ x, (p'.heap x).handed = true ↔ ((p.heap x).handed = true ∨
      hands (eventOf answer msg) = some x) ∧
      ends (eventOf answer msg) ≠ some x) ∧
    ∀ x, hands (eventOf answer msg) = some x → ¬(p.heap x).handed = true := by
  obtain ⟨v, hp⟩ := Reachable.refines h
  obtain ⟨v', hstep, hp'⟩ := handle_refines hp hallow hok
  constructor
  · intro x
    rw [hp'.handed_iff, hp.handed_iff]
    exact step_handed hp.sound hstep
  · intro x hx
    rw [hp.handed_iff]
    exact step_hands hp.sound hstep hx

theorem orderly_started {env' : Env ι K F}
    (h : (ServerPool.newServerPool trusted).start idOf env env' nodes = .ok p) :
    Orderly trusted idOf nodes (.started p) where
  pool _ := .start h
  handed r := by
    obtain ⟨v, hd, hp⟩ := start_refines (newServerPool_refines trusted) h
    have hrest := (stored_sound trusted idOf nodes).2
    refine iff_of_false (fun hr => ?_) nofun
    exact not_idle_of_handed ((handed_dials hd).mp ((hp.handed_iff r).mp hr)) (hrest.1 r)
  nodup := .nil
  counter := rfl
  healthy := rfl
  closing _ := rfl
  drained hc := by rcases hc with hc | hc <;> cases hc
  finished hc := by rcases hc with hc | hc <;> cases hc

/-- The peers change in what does not matter to the pool. -/
theorem Orderly.peers (h : Orderly trusted idOf nodes s) {peers : List (Peer ι K)}
    (hperm : (holdings Peer.held peers).Perm s.held) :
    Orderly trusted idOf nodes { s with peers := peers } where
  pool := h.pool
  handed r := (h.handed r).trans hperm.mem_iff.symm
  nodup := hperm.nodup_iff.mpr h.nodup
  counter := h.counter.trans (congrArg Nat.cast hperm.length_eq.symm)
  healthy := h.healthy
  closing := h.closing
  drained hc := List.perm_nil.mp ((h.drained hc) ▸ hperm)
  finished := h.finished

omit [DecidableEq ι] [Zero F] [One F] [Add F] [Mul F] [Inhabited (Node ι K)] in
theorem request_cases {loop : Loop} {closed : Bool} (h : a.request loop closed = some msg) :
    (∃ node, a = .connecting node ∧ msg = .connect node ∧ loop = .running) ∨
    (∃ r, a = .registering r ∧ msg = .register r ∧ loop = .running) ∨
    ∃ r stopped stopped', a = .disconnecting r stopped ∧ msg = .disconnect r stopped' ∧
      (loop = .running ∨ loop = .draining) := by
  cases a with
  | connecting node =>
    obtain ⟨hloop, hmsg⟩ := Option.ite_none_right_eq_some.mp h
    exact .inl ⟨node, rfl, (Option.some.inj hmsg).symm, hloop⟩
  | registering r =>
    obtain ⟨hloop, hmsg⟩ := Option.ite_none_right_eq_some.mp h
    exact .inr (.inl ⟨r, rfl, (Option.some.inj hmsg).symm, hloop⟩)
  | disconnecting r stopped =>
    obtain ⟨-, hmsg⟩ := Option.ite_none_left_eq_some.mp h
    cases loop with
    | running =>
      exact .inr (.inr ⟨r, stopped, stopped, rfl, (Option.some.inj hmsg).symm, .inl rfl⟩)
    | draining =>
      exact .inr (.inr ⟨r, stopped, true, rfl, (Option.some.inj hmsg).symm, .inr rfl⟩)
    | saving => cases hmsg
    | stopped => cases hmsg
  | answered entry => cases h
  | holding r => cases h
  | gone => cases h

/-- The system when the loop has handled a request, which adds `d` to `connWg`. -/
def System.after (s : System ι K F) (p : ServerPool ι K F) (peers : List (Peer ι K)) (d : Int) :
    System ι K F :=
  { s with pool := p, peers := peers, connWg := s.connWg + d, panicked := s.connWg + d < 0 }

/-- The peers hold what the pool has handed out. -/
theorem Orderly.handled (h : Orderly trusted idOf nodes s)
    (hopen : ¬(s.closer = .woken ∨ s.closer = .closed))
    (hpool : PoolReached trusted idOf nodes p) {peers : List (Peer ι K)} {d : Int}
    (hhanded : ∀ r, (p.heap r).handed = true ↔ r ∈ holdings Peer.held peers)
    (hnodup : (holdings Peer.held peers).Nodup)
    (hcount : s.connWg + d = (holdings Peer.held peers).length) :
    Orderly trusted idOf nodes (s.after p peers d) where
  pool _ := hpool
  handed := hhanded
  nodup := hnodup
  counter := hcount
  healthy := decide_eq_false (by rw [hcount]; omega)
  closing := h.closing
  drained hc := absurd hc hopen
  finished := h.finished

theorem Orderly.serve_connect (h : Orderly trusted idOf nodes s)
    (hloop : s.loop = .running) {node : Node ι K}
    (ha : s.peers[i]? = some (.connecting node))
    (hok : s.pool.handle env (.connect node) = .ok (answer, p)) :
    Orderly trusted idOf nodes
      (s.after p (s.peers.set i (.answered answer)) (if answer.isSome then 1 else 0)) := by
  have hpool := h.pool (by rw [hloop]; nofun)
  have hopen : ¬(s.closer = .woken ∨ s.closer = .closed) := by
    rw [h.closing hloop]
    nofun
  have hallow : Allowed s.pool (.connect node) := trivial
  obtain ⟨hafter, hfree⟩ := handle_handed hpool hallow hok
  have hpool' : PoolReached trusted idOf nodes p := .handle hpool env _ answer hallow trivial hok
  cases answer with
  | none =>
    have hperm : (holdings Peer.held (s.peers.set i (.answered none))).Perm s.held :=
      holdings_keep ha rfl
    refine h.handled hopen hpool' (fun r => ?_) (hperm.nodup_iff.mpr h.nodup) ?_
    · rw [hafter, hperm.mem_iff, ← h.handed]
      simp [eventOf, hands, ends]
    · rw [hperm.length_eq, ← h.counter]
      exact Int.add_zero _
  | some x =>
    have hperm : (holdings Peer.held (s.peers.set i (.answered (some x)))).Perm (x :: s.held) :=
      holdings_take ha rfl rfl
    have hnew : x ∉ s.held := fun hx => hfree x rfl ((h.handed x).mpr hx)
    refine h.handled hopen hpool' (fun r => ?_)
      (hperm.nodup_iff.mpr (List.nodup_cons.mpr ⟨hnew, h.nodup⟩)) ?_
    · rw [hafter, hperm.mem_iff, List.mem_cons, ← h.handed]
      show (_ ∨ some x = some r) ∧ none ≠ some r ↔ _
      rw [and_iff_left nofun, Option.some.injEq, or_comm, @eq_comm _ x r]
    · rw [hperm.length_eq, h.counter]
      rfl

theorem Orderly.serve_register (h : Orderly trusted idOf nodes s) (hloop : s.loop = .running)
    (ha : s.peers[i]? = some (.registering r))
    (hok : s.pool.handle env (.register r) = .ok (answer, p)) :
    Orderly trusted idOf nodes (s.after p (s.peers.set i (.holding r)) 0) := by
  have hpool := h.pool (by rw [hloop]; nofun)
  have hopen : ¬(s.closer = .woken ∨ s.closer = .closed) := by
    rw [h.closing hloop]
    nofun
  have hallow : Allowed s.pool (.register r) := (h.handed r).mpr (mem_holdings ha rfl)
  obtain ⟨hafter, -⟩ := handle_handed hpool hallow hok
  have hperm : (holdings Peer.held (s.peers.set i (.holding r))).Perm s.held := holdings_keep ha rfl
  refine h.handled hopen (.handle hpool env _ answer hallow trivial hok) (fun x => ?_)
    (hperm.nodup_iff.mpr h.nodup) ?_
  · rw [hafter, hperm.mem_iff, ← h.handed]
    simp [eventOf, hands, ends]
  · rw [hperm.length_eq, ← h.counter]
    exact Int.add_zero _

/-- The peer that disconnects held its entry, so nobody has closed `disconnCh`. -/
theorem Orderly.serve_disconnect (h : Orderly trusted idOf nodes s)
    (hloop : s.loop = .running ∨ s.loop = .draining) {stopped stopped' : Bool}
    (ha : s.peers[i]? = some (.disconnecting r stopped))
    (hok : s.pool.handle env (.disconnect r stopped') = .ok (answer, p)) :
    Orderly trusted idOf nodes (s.after p (s.peers.set i .gone) (-1)) := by
  have hmem : r ∈ s.held := mem_holdings ha rfl
  have hpool := h.pool (by rcases hloop with hl | hl <;> rw [hl] <;> nofun)
  have hopen : ¬(s.closer = .woken ∨ s.closer = .closed) := by
    intro hc
    rw [h.drained hc] at hmem
    cases hmem
  have hallow : Allowed s.pool (.disconnect r stopped') := (h.handed r).mpr hmem
  obtain ⟨hafter, -⟩ := handle_handed hpool hallow hok
  have hperm : s.held.Perm (r :: holdings Peer.held (s.peers.set i .gone)) :=
    holdings_drop ha rfl rfl
  obtain ⟨hout, hnodup⟩ := List.nodup_cons.mp (hperm.nodup_iff.mp h.nodup)
  refine h.handled hopen (.handle hpool env _ answer hallow trivial hok) (fun x => ?_) hnodup ?_
  · rw [hafter, h.handed, hperm.mem_iff, List.mem_cons]
    simp only [eventOf, hands, ends, reduceCtorEq, or_false, ne_eq, Option.some.injEq]
    constructor
    · rintro ⟨rfl | hx, hne⟩
      · exact absurd rfl hne
      · exact hx
    · intro hx
      exact ⟨.inr hx, fun heq => hout (heq ▸ hx)⟩
  · rw [h.counter, hperm.length_eq, List.length_cons]
    show ((_ + 1 : Nat) : Int) + -1 = _
    omega

/-- **Every step keeps it.** -/
theorem moves_orderly (h : Orderly trusted idOf nodes s) (hmoves : Moves s s') :
    Orderly trusted idOf nodes s' := by
  cases hmoves with
  | arrive node => exact h.peers (.of_eq (holdings_snoc rfl))
  | proceed ha hb => exact h.peers (holdings_keep ha hb)
  | serve ha hmsg hok =>
    obtain ⟨node, rfl, rfl, hloop⟩ | ⟨r, rfl, rfl, hloop⟩ | ⟨r, stopped,
      stopped', rfl, rfl, hloop⟩ :=
      request_cases hmsg
    · exact h.serve_connect hloop ha hok
    · exact h.serve_register hloop ha hok
    · exact h.serve_disconnect hloop ha hok
  | @receive env msg answer p hloop hmsg hallow hok =>
    have hpool := h.pool (by rw [hloop]; nofun)
    obtain ⟨hafter, -⟩ := handle_handed hpool hallow hok
    have hquiet : hands (eventOf answer msg) = none ∧ ends (eventOf answer msg) = none := by
      cases msg <;> first | exact ⟨rfl, rfl⟩ | cases hmsg
    refine ⟨fun _ => .handle hpool env msg answer hallow trivial hok, fun r =>
      ?_, h.nodup, h.counter, h.healthy,
      h.closing, h.drained, h.finished⟩
    show (p.heap r).handed = true ↔ r ∈ s.held
    rw [hafter, hquiet.1, hquiet.2, ← h.handed]
    simp
  | closeQuit =>
    exact ⟨h.pool, h.handed, h.nodup, h.counter, h.healthy, h.closing, h.drained, h.finished⟩
  | drain hloop hquit =>
    refine ⟨fun _ => h.pool (by rw [hloop]; nofun), h.handed, h.nodup, h.counter,
      h.healthy, nofun, ?_, ?_⟩
    · rintro (hc | hc) <;> cases hc
    · rintro (hc | hc) <;> cases hc
  | wake hcloser hzero =>
    refine ⟨h.pool, h.handed, h.nodup, h.counter, h.healthy, fun hloop => ?_, fun _ =>
      ?_, fun hloop => ?_⟩
    · rw [h.closing hloop] at hcloser
      cases hcloser
    · -- nobody is waited for
      refine List.eq_nil_of_length_eq_zero ?_
      exact Int.ofNat_eq_zero.mp (h.counter.symm.trans hzero)
    · rw [h.finished hloop] at hcloser
      cases hcloser
  | close hcloser =>
    refine ⟨h.pool, h.handed, h.nodup, h.counter, h.healthy, fun hloop => ?_, fun _ =>
      h.drained (.inl hcloser),
      fun _ => rfl⟩
    rw [h.closing hloop] at hcloser
    cases hcloser
  | exit hloop hclosed =>
    exact ⟨fun _ => h.pool (by rw [hloop]; nofun), h.handed, h.nodup, h.counter,
      h.healthy, nofun, h.drained,
      fun _ => hclosed⟩
  | save hloop hok =>
    refine ⟨fun hne => absurd rfl hne, ?_, h.nodup, h.counter, h.healthy, nofun, h.drained,
      fun _ => h.finished (.inl hloop)⟩
    rw [saveNodes_heap hok]
    exact h.handed
  | sendClosed ha hclosed =>
    have hmem := mem_holdings (f := Peer.held) ha rfl
    rw [show holdings Peer.held s.peers = [] from h.drained (.inr hclosed)] at hmem
    cases hmem

theorem reached_orderly (h : Reached trusted idOf nodes s) : Orderly trusted idOf nodes s := by
  induction h with
  | start hok => exact orderly_started hok
  | step _ action hstep ih => exact moves_orderly ih (step_moves hstep).2

omit [Inhabited (Node ι K)] in
/-- `disconnCh` is not opened again. -/
theorem closed_stays (hclosed : s.closer = .closed)
    (horder : s.loop = .running → s.closer = .absent)
    (hmoves : Moves s s') : s'.closer = .closed := by
  cases hmoves with
  | arrive | proceed | serve | receive | closeQuit | exit | save | sendClosed => exact hclosed
  | drain hloop =>
    rw [horder hloop] at hclosed
    cases hclosed
  | wake hcloser =>
    rw [hcloser] at hclosed
    cases hclosed
  | close => rfl

theorem run_reached (h : Reached trusted idOf nodes s) {actions : List (Action ι K F)}
    (hrun : s.run actions = some s') : Reached trusted idOf nodes s' := by
  induction actions generalizing s with
  | nil =>
    cases hrun
    exact h
  | cons action rest ih =>
    rw [System.run] at hrun
    split at hrun
    · cases hrun
    · next s1 hstep => exact ih (.step h action hstep) hrun

theorem run_closed (h : Reached trusted idOf nodes s) (hclosed : s.closer = .closed)
    {actions : List (Action ι K F)} (hrun : s.run actions = some s') : s'.closer = .closed := by
  induction actions generalizing s with
  | nil =>
    cases hrun
    exact hclosed
  | cons action rest ih =>
    rw [System.run] at hrun
    split at hrun
    · cases hrun
    · next s1 hstep =>
      have hstays := closed_stays hclosed (reached_orderly h).closing (step_moves hstep).2
      exact ih (.step h action hstep) hstays hrun

end Orderly

/-- **The pool ends in order.** An entry is handed to one peer at a time, `connWg`
is the number of entries that are handed out, `disconnCh` is closed when there
are none and there will be none, nobody sends on it then, and `saveNodes` runs
after that. -/
theorem shutdown_protocol (trusted : ι → Bool) (idOf : K → ι) (nodes : List (StoredNode K F))
    {s : System ι K F} (h : Reached trusted idOf nodes s) :
    s.held.Nodup ∧ (∀ r, (s.pool.heap r).handed = true ↔ r ∈ s.held) ∧
      s.connWg = s.held.length ∧
      (s.disconnClosed = true →
        s.held = [] ∧ ∀ actions s', s.run actions = some s' → s'.held = []) ∧
      s.panicked = false ∧ (s.loop = .saving ∨ s.loop = .stopped → s.held = []) := by
  have horder := reached_orderly h
  refine ⟨horder.nodup, horder.handed, horder.counter, fun hclosed =>
    ?_, horder.healthy, fun hloop => ?_⟩
  · have hcloser : s.closer = .closed := of_decide_eq_true hclosed
    refine ⟨horder.drained (.inr hcloser), fun actions s' hrun => ?_⟩
    exact (reached_orderly (run_reached h hrun)).drained (.inr (run_closed h hcloser hrun))
  · exact horder.drained (.inr (horder.finished hloop))

omit [Inhabited (Node ι K)] [DecidableEq ι] [Zero F] [One F] [Add F] [Mul F]

/-- One peer registers; another one is accepted after `quit` has been closed. -/
def lastActions : List (Action Nat Nat Int) :=
  [.arrive (plainNode 1), .serve (plainEnv 1) 0, .proceed 0 .receive, .proceed 0 .registered,
    .serve (plainEnv 2) 0, .arrive (plainNode 2), .closeQuit, .serve (plainEnv 3) 1, .drain,
    .proceed 0 .disconnect, .proceed 1 .receive, .serve (plainEnv 4) 0, .proceed 1 .disconnect,
    .serve (plainEnv 5) 1, .wake, .close, .exit, .save]

theorem shutdown_protocol_saved : ∃ s : System Nat Nat Int,
    s.held = [] ∧ s.connWg = 0 ∧ s.panicked = false ∧ s.saved.map List.length = some 1 := by
  obtain ⟨p, hp⟩ := Option.isSome_iff_exists.mp
    (show ((ServerPool.newServerPool fun _ => false).start
    id (plainEnv 0) (plainEnv 0) ([] : List (StoredNode Nat Int))).toOption.isSome by
      decide +kernel)
  have hreads : ((ServerPool.newServerPool fun _ => false).start id (plainEnv 0) (plainEnv 0)
      ([] : List (StoredNode Nat Int))).toOption.bind (fun p =>
        ((System.started p).run lastActions).map
        fun s => (decide (s.loop = .stopped), s.saved.map List.length)) = some (true, some 1) := by
    decide +kernel
  rw [hp, Option.bind_some] at hreads
  obtain ⟨s, hrun, hs⟩ := Option.map_eq_some_iff.mp hreads
  obtain ⟨hloop, hsaved⟩ := Prod.mk.inj hs
  have hreached := run_reached (.start (toOption_eq_some hp)) hrun
  obtain ⟨-, -, hcount, -, hpanic, hend⟩ := shutdown_protocol (fun _ => false) id [] hreached
  have hnone := hend (.inr (of_decide_eq_true hloop))
  rw [hnone] at hcount
  exact ⟨s, hnone, hcount, hpanic, hsaved⟩

end MiniOpera.PoolShutdown
