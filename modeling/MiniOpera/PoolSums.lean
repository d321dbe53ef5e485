import MiniOpera.PoolRuns

/-!
# The sums of weights that the pool stores

The weights of entries and addresses are arbitrary here, but the sums of a
selection are `int64`s. For every function of the pool that stores a weight,
`..Fits` says that none of the weights it stores takes a sum to `2^63` or beyond; it
follows the function, call by call (`after`), and can be evaluated.

`Reached`: a pool that has been started and has handled messages in this way.
-/

namespace MiniOpera.PoolSums
open GoRuntime RandSelect SelectionMap EntryQueue Pool ServerPool PoolRoster PoolRefinement PoolRuns

/-- What is asked after a call, if it returns. -/
def after {α : Type} (call : Go Empty α) (rest : α → Bool) : Bool :=
  match call with
  | .ok a => rest a
  | .error _ => true

theorem after_ok {α : Type} {call : Go Empty α} {a : α} {rest : α → Bool}
    (hcall : call = .ok a)
    (h : after call rest = true) : rest a = true := by
  rw [hcall] at h
  exact h

variable {ι K F : Type} (env : Env ι K F)

/-! ## Addresses -/

def seenFits (e : PoolEntry ι K F) (node : Node ι K) : Bool :=
  let (a, e) := e.findAddr node
  fits e.addrSelect
    (.update a fun _ => addressWeight env 0 0 { e.addrHeap a with lastSeen := env.now })

/-- The one weight of a new `addrSelect`. -/
def atAddressFits (e : PoolEntry ι K F) (address : PoolEntryAddress) : Bool :=
  fits .new (.update e.addrNext fun _ => addressWeight env 0 0 address)

def chooseAddrFits (call : Nat) (e : PoolEntry ι K F) : Bool :=
  fits e.addrSelect (.choose (env.addrRandom call) (env.addrCoin call)
    fun t a => addressWeight env call t (e.addrHeap a))

/-! ## Dials -/

def dialNextFits (known : Bool) (call : Nat) (p : ServerPool ι K F) : Bool :=
  let w := p.select known
  let weight := fun t r => entryWeight env known call t (p.heap r)
  fits w (.choose (env.random call) (env.coin call) weight) &&
    after (w.choose (env.random call) (env.coin call) weight (w.root.sumWeight.toNat + 1) 0)
      fun (choice, _) =>
        match choice with
        | none => true
        | some r => chooseAddrFits env call (p.heap r)

def dialWhileFits (known : Bool) (more : ServerPool ι K F → Bool) :
    Nat → Nat → ServerPool ι K F → Bool
  | 0, _, _ => true
  | fuel + 1, call, p =>
    !more p || (dialNextFits env known call p &&
      after (p.dialNext env known call) fun (found, p) =>
        !found || dialWhileFits known more fuel (call + 1) p)

def dialKnownFits (target : Int) (call : Nat) (p : ServerPool ι K F) : Bool :=
  dialWhileFits env true (fun p => p.knownSelected < target)
    ((target - p.knownSelected).toNat + 1) call p

def dialNewFits (call : Nat) (p : ServerPool ι K F) : Bool :=
  dialWhileFits env false (fun p => p.knownSelected + p.newSelected < targetServerCount)
    ((targetServerCount - (p.knownSelected + p.newSelected)).toNat + 1) call p

def checkDialFits (p : ServerPool ι K F) : Bool :=
  dialKnownFits env targetKnownSelect 2 p &&
    after (p.dialKnown env targetKnownSelect 2) fun (noneKnown, call, p) =>
      dialNewFits env call p &&
        after (p.dialNew env call) fun (_, call, p) =>
          p.fastDiscover || noneKnown || dialKnownFits env targetServerCount call p

def updateCheckDialFits (p : ServerPool ι K F) (r : Ref) : Bool :=
  fits p.newSelect (.update r fun r => discoveredWeight env 0 0 (p.heap r)) &&
    fits p.knownSelect (.update r fun r => knownWeight env 1 0 (p.heap r)) &&
    after (p.newSelect.update (fun r => discoveredWeight env 0 0 (p.heap r)) r) fun newSelect =>
      after (p.knownSelect.update (fun r => knownWeight env 1 0 (p.heap r)) r) fun knownSelect =>
        checkDialFits env { p with newSelect := newSelect, knownSelect := knownSelect }

/-! ## Messages -/

def retryEnabledFits (p : ServerPool ι K F) (r : Ref) : Bool :=
  let p := { p with retryTimers := p.retryTimers.erase r }
  (p.heap r).removed || updateCheckDialFits env (p.put r { p.heap r with delayedRetry := false }) r

variable [DecidableEq ι]

section Messages

variable [Zero F] [One F] [Add F] [Mul F]

def findOrNewNodeFits (p : ServerPool ι K F) (node : Node ι K) : Bool :=
  match p.entries node.id with
  | some r => seenFits env (p.heap r) node
  | none => seenFits env (.discovered node) node

def connectFits (p : ServerPool ι K F) (node : Node ι K) : Bool :=
  p.trustedNodes node.id ||
    (((p.entries node.id).isSome || findOrNewNodeFits env p node) &&
      after (p.entryOf env node) fun (r, p) =>
        (p.heap r).handed || atAddressFits env (p.heap r) ⟨node.ip, node.tcp, env.now, 0⟩)

def nodeDiscoveredFits (p : ServerPool ι K F) (node : Node ι K) : Bool :=
  p.trustedNodes node.id ||
    (findOrNewNodeFits env p node &&
      after (p.findOrNewNode env node) fun (r, p) => updateCheckDialFits env p r)

/-- The messages that store weights are a retry, a discovered node and a connection. -/
def handleFits (p : ServerPool ι K F) : Msg ι K F → Bool
  | .timeout _ => true
  | .enableRetry r => retryEnabledFits env p r
  | .adjustStats _ _ _ => true
  | .discNode node => nodeDiscoveredFits env p node
  | .discLookup _ => true
  | .connect node => connectFits env p node
  | .register _ => true
  | .disconnect _ _ => true

def msgsFit : ServerPool ι K F → List (Env ι K F × Msg ι K F) → Bool
  | _, [] => true
  | p, (env, msg) :: rest =>
    handleFits env p msg && after (p.handle env msg) fun (_, p) => msgsFit p rest

end Messages

/-! ## Start -/

section Start

variable [Zero F]

def loadNodeFits (idOf : K → ι) (call : Nat) (p : ServerPool ι K F)
    (s : StoredNode K F) : Bool :=
  atAddressFits env (.blank ⟨idOf s.pubkey, s.pubkey, s.ip, s.port⟩)
      ⟨s.ip, s.port, env.now, s.fails⟩ &&
    after (PoolEntry.decodeRLP env idOf s) fun e =>
      p.trustedNodes e.node.id ||
        after ((p.alloc e).setLatest true p.next) fun p' =>
          fits p'.knownSelect (.update p.next fun r => knownWeight env call 0 (p'.heap r))

def loadNodesFits (idOf : K → ι) : Nat → ServerPool ι K F → List (StoredNode K F) → Bool
  | _, _, [] => true
  | call, p, s :: rest =>
    loadNodeFits env idOf call p s &&
      after (p.loadNode env idOf call s) fun p => loadNodesFits idOf (call + 1) p rest

def startFits (idOf : K → ι) (env env' : Env ι K F) (p : ServerPool ι K F)
    (stored : List (StoredNode K F)) : Bool :=
  loadNodesFits env idOf 0 { p with server := true } stored &&
    after (ServerPool.loadNodes env idOf 0 { p with server := true } stored) (checkDialFits env')

end Start

/-! ## Runs -/

variable [Zero F] [One F] [Add F] [Mul F] [Inhabited (Node ι K)]

/-- A pool that has been started with the stored nodes and has handled messages,
all sums below `2^63`. -/
inductive Reached (trusted : ι → Bool) (idOf : K → ι) (stored : List (StoredNode K F)) :
    ServerPool ι K F → Prop
  | start {env env' : Env ι K F} {p : ServerPool ι K F}
      (hfits : startFits idOf env env' (newServerPool trusted) stored = true)
      (h : (newServerPool trusted).start idOf env env' stored = .ok p) :
      Reached trusted idOf stored p
  | handle {p p' : ServerPool ι K F} {env : Env ι K F} {msg : Msg ι K F} {a : Option Ref}
      (h : Reached trusted idOf stored p) (hfits : handleFits env p msg = true)
      (hallow : Allowed p msg) (hok : p.handle env msg = .ok (a, p')) :
      Reached trusted idOf stored p'

variable {trusted : ι → Bool} {idOf : K → ι} {stored : List (StoredNode K F)}
  {p p' : ServerPool ι K F}

theorem Reached.reachable (h : Reached trusted idOf stored p) :
    Reachable trusted idOf stored (fun _ _ => True) p := by
  induction h with
  | start _ hok => exact .start hok
  | handle _ _ hallow hok ih => exact .handle ih _ _ _ hallow trivial hok

/-- By induction on the messages. -/
theorem runMsgs_reached {msgs : List (Env ι K F × Msg ι K F)} (h : Reached trusted idOf stored p)
    (hfits : msgsFit p msgs = true) (hrun : runMsgs (fun _ _ => True) p msgs = some p') :
    Reached trusted idOf stored p' := by
  induction msgs generalizing p with
  | nil =>
    cases hrun
    exact h
  | cons x rest ih =>
    obtain ⟨env, msg⟩ := x
    obtain ⟨hfirst, hrest⟩ := Bool.and_eq_true_iff.mp hfits
    rw [runMsgs] at hrun
    split at hrun
    · next hallow =>
      split at hrun
      · next a p1 hhandle =>
        have hrest := after_ok hhandle hrest
        exact ih (.handle h hfirst hallow.1 hhandle) hrest hrun
      · cases hrun
    · cases hrun

end MiniOpera.PoolSums
