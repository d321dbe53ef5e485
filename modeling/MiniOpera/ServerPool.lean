import MiniOpera.EntryQueue
import MiniOpera.RandSelect

/-!
# `serverpool.go`

The pool of known and newly discovered nodes. Entries and their addresses are
objects behind pointers: the pool holds the entries it has made in `heap`, an
entry its addresses in `addrHeap`. All of the pool is changed by the one
goroutine of `eventLoop`; a message it receives is a `Msg`, and `handle` is the
case of its `select`. Timers are lists of the entries they will send.

The floating-point part of a weight, the clock and the random numbers come from
an `Env`, one for each message. Of a statistic, the model has the sum and the weight
that are stored; the averages are read by the weights only. A node's public key
is an arbitrary `K`, its ID an `ι`, and a `float64` an `F`.
-/

namespace MiniOpera.Pool
open GoRuntime RandSelect EntryQueue

abbrev shortRetryCnt : Nat := 5

/-- Maximum number of newly discovered (never connected) nodes. -/
abbrev maxNewEntries : Nat := 1000

/-- Maximum number of known (already connected) nodes. -/
abbrev maxKnownEntries : Nat := 1000

/-- Target for simultaneously connected servers. -/
abbrev targetServerCount : Int := 5

/-- Target for servers selected from the known table. -/
abbrev targetKnownSelect : Int := 3

def minute : Int := 60 * 1000000000

def discoverExpireStart : Int := 20 * minute

/-- `psNotConnected`, `psDialed`, `psConnected`, `psRegistered`. -/
inductive ConnState
  | notConnected
  | dialed
  | connected
  | registered
  deriving DecidableEq

/-- An `enode.Node`. -/
structure Node (ι K : Type) where
  id : ι
  pubkey : K
  ip : List UInt8
  tcp : UInt16
  deriving Inhabited

structure PoolEntryAddress where
  ip : List UInt8
  port : UInt16
  lastSeen : Int
  fails : UInt64

/-- The IPv4 form of an address that has one; `net.IP.String` tells the others apart. -/
def to4 (ip : List UInt8) : List UInt8 :=
  if ip.length = 16 ∧ ip.take 12 = [0, 0, 0, 0, 0, 0, 0, 0, 0, 0, 255, 255] then ip.drop 12
  else ip

/-- The key of `entry.addr`; two addresses have the same text if and only if
they have the same key. -/
def strKey (ip : List UInt8) (port : UInt16) : List UInt8 × UInt16 := (to4 ip, port)

/-- Statistics for a certain quantity. -/
structure PoolStats (F : Type) where
  sum : F
  weight : F

def PoolStats.add {F : Type} [Add F] [Mul F] (s : PoolStats F) (value weight : F) : PoolStats F :=
  ⟨s.sum + value * weight, s.weight + weight⟩

/-- A server node, its current state and statistics. -/
structure PoolEntry (ι K F : Type) where
  node : Node ι K
  addrHeap : Nat → PoolEntryAddress
  addrNext : Nat
  addr : List UInt8 × UInt16 → Option Nat
  addrSelect : WeightedRandomSelect Nat
  lastConnected : Option Nat
  dialed : Option Nat
  lastDiscovered : Int
  known : Bool
  knownSelected : Bool
  connectStats : PoolStats F
  delayStats : PoolStats F
  responseStats : PoolStats F
  timeoutStats : PoolStats F
  state : ConnState
  regTime : Int
  queueIdx : Nat
  removed : Bool
  delayedRetry : Bool
  shortRetry : Nat

/-- What is stored of a known entry, `poolEntryEnc`. -/
structure StoredNode (K F : Type) where
  pubkey : K
  ip : List UInt8
  port : UInt16
  fails : UInt64
  cStat : PoolStats F
  dStat : PoolStats F
  rStat : PoolStats F
  tStat : PoolStats F

/-- What the pool reads from outside while it handles one message. The calls of
`update` and `choose` are numbered, so are the iterations of `choose`. -/
structure Env (ι K F : Type) where
  now : Int
  /-- `int64(1000000000 * math.Exp(..))` of a discovered entry -/
  decay : Nat → Nat → PoolEntry ι K F → Nat
  /-- the weight of a known entry that is idle -/
  quality : Nat → Nat → PoolEntry ι K F → Nat
  /-- `int64(1000000 * math.Exp(..))` of an address -/
  freshness : Nat → Nat → PoolEntryAddress → Nat
  random : Nat → Nat → Nat
  coin : Nat → Nat → Nat
  addrRandom : Nat → Nat → Nat
  addrCoin : Nat → Nat → Nat
  /-- connection time over `targetConnTime`, at most one -/
  connAdjust : F

variable {ι K F : Type}

/-- `Weight` of a `discoveredEntry`. -/
def discoveredWeight (env : Env ι K F) (call t : Nat) (e : PoolEntry ι K F) : Int :=
  if e.state ≠ .notConnected ∨ e.delayedRetry then 0
  else if env.now - e.lastDiscovered ≤ discoverExpireStart then 1000000000
  else env.decay call t e

/-- `Weight` of a `knownEntry`. -/
def knownWeight (env : Env ι K F) (call t : Nat) (e : PoolEntry ι K F) : Int :=
  if e.state ≠ .notConnected ∨ !e.known ∨ e.delayedRetry then 0 else env.quality call t e

/-- `Weight` of a `poolEntryAddress`. -/
def addressWeight (env : Env ι K F) (call t : Nat) (a : PoolEntryAddress) : Int :=
  env.freshness call t a + 1

/-- The weight in one of the two selections. -/
def entryWeight (env : Env ι K F) (known : Bool) (call t : Nat) (e : PoolEntry ι K F) : Int :=
  if known then knownWeight env call t e else discoveredWeight env call t e

structure ServerPool (ι K F : Type) where
  server : Bool
  trustedNodes : ι → Bool
  heap : Ref → PoolEntry ι K F
  next : Nat
  entries : ι → Option Ref
  knownQueue : PoolEntryQueue
  newQueue : PoolEntryQueue
  knownSelect : WeightedRandomSelect Ref
  newSelect : WeightedRandomSelect Ref
  knownSelected : Int
  newSelected : Int
  fastDiscover : Bool
  lookupCnt : Nat
  convTime : Int
  dialTimers : List Ref
  retryTimers : List Ref

/-! ## Entries -/

namespace PoolEntry

variable (env : Env ι K F)

/-- An entry that nothing has happened to. -/
def blank [Zero F] (node : Node ι K) : PoolEntry ι K F where
  node := node
  addrHeap _ := ⟨[], 0, 0, 0⟩
  addrNext := 0
  addr _ := none
  addrSelect := .new
  lastConnected := none
  dialed := none
  lastDiscovered := 0
  known := false
  knownSelected := false
  connectStats := ⟨0, 0⟩
  delayStats := ⟨0, 0⟩
  responseStats := ⟨0, 0⟩
  timeoutStats := ⟨0, 0⟩
  state := .notConnected
  regTime := 0
  queueIdx := 0
  removed := false
  delayedRetry := false
  shortRetry := shortRetryCnt

/-- A new entry of `findOrNewNode`; unknown peers start with good statistics. -/
def discovered [Zero F] [One F] [Add F] [Mul F] (node : Node ι K) : PoolEntry ι K F :=
  { (blank node : PoolEntry ι K F) with
    connectStats := PoolStats.add ⟨0, 0⟩ 1 1
    delayStats := PoolStats.add ⟨0, 0⟩ 0 1
    responseStats := PoolStats.add ⟨0, 0⟩ 0 1
    timeoutStats := PoolStats.add ⟨0, 0⟩ 0 1 }

/-- The address under the key of a node, and the entry in which it is. -/
def findAddr (e : PoolEntry ι K F) (node : Node ι K) : Nat × PoolEntry ι K F :=
  match e.addr (strKey node.ip node.tcp) with
  | some a => (a, e)
  | none =>
    (e.addrNext, { e with
      addrHeap := Function.update e.addrHeap e.addrNext ⟨node.ip, node.tcp, 0, 0⟩
      addrNext := e.addrNext + 1
      addr := Function.update e.addr (strKey node.ip node.tcp) (some e.addrNext) })

/-- The entry has been discovered now, at the address of the node. -/
def seen (e : PoolEntry ι K F) (node : Node ι K) : Go Empty (PoolEntry ι K F) := do
  let (a, e) := e.findAddr node
  let address := { e.addrHeap a with lastSeen := env.now }
  let addrSelect ← e.addrSelect.update (fun _ => addressWeight env 0 0 address) a
  return { e with
    lastDiscovered := env.now
    addrHeap := Function.update e.addrHeap a address
    addrSelect := addrSelect }

/-- `e.addr` with one new address, and a new `e.addrSelect` with it. -/
def atAddress (e : PoolEntry ι K F) (address : PoolEntryAddress) :
    Go Empty (PoolEntry ι K F) := do
  let addrSelect ← WeightedRandomSelect.new.update
    (fun _ => addressWeight env 0 0 address) e.addrNext
  return { e with
    addrHeap := Function.update e.addrHeap e.addrNext address
    addrNext := e.addrNext + 1
    lastConnected := some e.addrNext
    addr := Function.update (fun _ => none) (strKey address.ip address.port) (some e.addrNext)
    addrSelect := addrSelect }

/-- The connection of a peer is accepted. -/
def accepted (e : PoolEntry ι K F) (node : Node ι K) : Go Empty (PoolEntry ι K F) :=
  { e with state := .connected }.atAddress env ⟨node.ip, node.tcp, env.now, 0⟩

/-- `DecodeRLP`; a node's ID is that of its public key. -/
def decodeRLP [Zero F] (idOf : K → ι) (s : StoredNode K F) : Go Empty (PoolEntry ι K F) :=
  { (blank ⟨idOf s.pubkey, s.pubkey, s.ip, s.port⟩ : PoolEntry ι K F) with
    connectStats := s.cStat
    delayStats := s.dStat
    responseStats := s.rStat
    timeoutStats := s.tStat
    known := true }.atAddress env ⟨s.ip, s.port, env.now, s.fails⟩

/-- `EncodeRLP`, as far as the stored record. -/
def encodeRLP (e : PoolEntry ι K F) : Go Empty (StoredNode K F) :=
  match e.lastConnected with
  | none => .error (.panic .nilDereference)
  | some a =>
    let address := e.addrHeap a
    .ok ⟨e.node.pubkey, address.ip, address.port, address.fails, e.connectStats, e.delayStats,
      e.responseStats, e.timeoutStats⟩

/-- Handed to a peer that has not disconnected. -/
def handed (e : PoolEntry ι K F) : Bool := e.state = .connected ∨ e.state = .registered

/-- The address that is dialed next. -/
def chooseAddr (call : Nat) (e : PoolEntry ι K F) : Go Empty
    (Nat × WeightedRandomSelect Nat) := do
  let (choice, addrSelect) ← e.addrSelect.choose (env.addrRandom call) (env.addrCoin call)
    (fun t a => addressWeight env call t (e.addrHeap a)) (e.addrSelect.root.sumWeight.toNat + 1) 0
  match choice with
  | none => .error (.panic typeAssertion)
  | some a => return (a, addrSelect)

/-- The statistics of a connection that ends: `stopped` by ourselves, or by the server side. -/
def closed [One F] [Add F] [Mul F] (stopped : Bool) (e : PoolEntry ι K F) : PoolEntry ι K F :=
  if e.state = .registered then
    { e with connectStats := if stopped then e.connectStats.add 1 env.connAdjust
                             else e.connectStats.add env.connAdjust 1 }
  else e

/-- The dialed address has failed once more. -/
def failed [Zero F] [One F] [Add F] [Mul F] (e : PoolEntry ι K F) : Go Empty (PoolEntry ι K F) :=
  match e.dialed with
  | none => .error (.panic .nilDereference)
  | some a =>
    let address := e.addrHeap a
    .ok { e with
      connectStats := e.connectStats.add 0 1
      addrHeap := Function.update e.addrHeap a { address with fails := address.fails + 1 } }

/-- `setRetryDial`, but for its timer. -/
def delayed (e : PoolEntry ι K F) : PoolEntry ι K F :=
  { e with shortRetry := e.shortRetry - 1, delayedRetry := true }

end PoolEntry

/-! ## The pool -/

namespace ServerPool

def queueIdx (p : ServerPool ι K F) (r : Ref) : Nat := (p.heap r).queueIdx

/-- One entry is replaced. -/
def put (p : ServerPool ι K F) (r : Ref) (e : PoolEntry ι K F) : ServerPool ι K F :=
  { p with heap := Function.update p.heap r e }

/-- A new entry, under the ID of its node. -/
def alloc [DecidableEq ι] (p : ServerPool ι K F) (e : PoolEntry ι K F) : ServerPool ι K F :=
  { p.put p.next e with
    next := p.next + 1
    entries := Function.update p.entries e.node.id (some p.next) }

theorem heap_put_self (p : ServerPool ι K F) (r : Ref) (e : PoolEntry ι K F) :
    (p.put r e).heap r = e := Function.update_self ..

theorem heap_put_of_ne (p : ServerPool ι K F) {r x : Ref} (e : PoolEntry ι K F) (h : x ≠ r) :
    (p.put r e).heap x = p.heap x := Function.update_of_ne h ..

theorem heap_alloc_self [DecidableEq ι] (p : ServerPool ι K F) (e : PoolEntry ι K F) :
    (p.alloc e).heap p.next = e := p.heap_put_self p.next e

theorem heap_alloc_of_ne [DecidableEq ι] (p : ServerPool ι K F) {x : Ref} (e : PoolEntry ι K F)
    (h : x ≠ p.next) : (p.alloc e).heap x = p.heap x := p.heap_put_of_ne e h

/-- `pool.knownQueue` or `pool.newQueue`. -/
def queue (p : ServerPool ι K F) (known : Bool) : PoolEntryQueue :=
  if known then p.knownQueue else p.newQueue

def setQueue (p : ServerPool ι K F) (known : Bool) (q : PoolEntryQueue) : ServerPool ι K F :=
  if known then { p with knownQueue := q } else { p with newQueue := q }

/-- `pool.knownSelect` or `pool.newSelect`. -/
def select (p : ServerPool ι K F) (known : Bool) : WeightedRandomSelect Ref :=
  if known then p.knownSelect else p.newSelect

def setSelect (p : ServerPool ι K F) (known : Bool) (w : WeightedRandomSelect Ref) :
    ServerPool ι K F :=
  if known then { p with knownSelect := w } else { p with newSelect := w }

/-- `pool.knownSelected` or `pool.newSelected`. -/
def selected (p : ServerPool ι K F) (known : Bool) : Int :=
  if known then p.knownSelected else p.newSelected

def addSelected (p : ServerPool ι K F) (known : Bool) (d : Int) : ServerPool ι K F :=
  if known then { p with knownSelected := p.knownSelected + d }
  else { p with newSelected := p.newSelected + d }

variable [DecidableEq ι]

/-- Removes a pool entry when the entry count limit is reached. -/
def removeEntry (p : ServerPool ι K F) (r : Ref) : Go Empty (ServerPool ι K F) := do
  let newSelect ← p.newSelect.remove r
  let knownSelect ← p.knownSelect.remove r
  return { p.put r { p.heap r with removed := true } with
    newSelect := newSelect
    knownSelect := knownSelect
    entries := Function.update p.entries (p.heap r).node.id none }

/-- `removeFromPool`, if the queue calls it. -/
def removeFromPool (p : ServerPool ι K F) : Option Ref → Go Empty (ServerPool ι K F)
  | none => .ok p
  | some r => p.removeEntry r

/-- `setLatest` of one of the queues. -/
def setLatest (p : ServerPool ι K F) (known : Bool) (r : Ref) : Go Empty (ServerPool ι K F) := do
  let (evicted, q) ← (p.queue known).setLatest p.queueIdx r
  let p' ← p.removeFromPool evicted
  return (p'.setQueue known q).put r { p'.heap r with queueIdx := (p.queue known).newPtr }

section Messages

variable (env : Env ι K F)

/-- The end of `findOrNewNode`: the entry is in the queue unless it is known. -/
def rediscover (p : ServerPool ι K F) (r : Ref) (node : Node ι K) :
    Go Empty (ServerPool ι K F) := do
  let e ← (p.heap r).seen env node
  if e.known then return p.put r e else (p.put r e).setLatest false r

def findOrNewNode [Zero F] [One F] [Add F] [Mul F] (p : ServerPool ι K F) (node : Node ι K) :
    Go Empty (Ref × ServerPool ι K F) :=
  match p.entries node.id with
  | some r => do
    let p ← p.rediscover env r node
    return (r, p)
  | none => do
    let p' ← (p.alloc (.discovered node)).rediscover env p.next node
    return (p.next, p')

/-- Starts the timer which will enable dialing a certain node again. -/
def setRetryDial (p : ServerPool ι K F) (r : Ref) : ServerPool ι K F :=
  { p.put r (p.heap r).delayed with retryTimers := r :: p.retryTimers }

/-- Initiates a new connection. -/
def dial (call : Nat) (p : ServerPool ι K F) (r : Ref) (knownSelected : Bool) :
    Go Empty (ServerPool ι K F) :=
  if !p.server ∨ (p.heap r).state ≠ .notConnected then .ok p
  else do
    let (a, addrSelect) ← (p.heap r).chooseAddr env call
    let p := p.put r { p.heap r with
      state := .dialed
      knownSelected := knownSelected
      addrSelect := addrSelect
      dialed := some a }
    return { p.addSelected knownSelected 1 with dialTimers := r :: p.dialTimers }

/-- An iteration of a loop of `checkDial`: an entry is chosen and dialed, unless
there is none to choose. -/
def dialNext (known : Bool) (call : Nat) (p : ServerPool ι K F) :
    Go Empty (Bool × ServerPool ι K F) := do
  let w := p.select known
  let (choice, w) ← w.choose (env.random call) (env.coin call)
    (fun t r => entryWeight env known call t (p.heap r)) (w.root.sumWeight.toNat + 1) 0
  let p := p.setSelect known w
  match choice with
  | none => return (false, p)
  | some r => do
    let p ← p.dial env call r known
    return (true, p)

/-- A loop of `checkDial`: whether it ended for want of an entry, and the number
of the next call. -/
def dialWhile (known : Bool) (more : ServerPool ι K F → Bool) :
    Nat → Nat → ServerPool ι K F → Go Empty (Bool × Nat × ServerPool ι K F)
  | 0, _, _ => .error (.panic endless)
  | fuel + 1, call, p =>
    if more p then do
      let (found, p) ← p.dialNext env known call
      if found then dialWhile known more fuel (call + 1) p else return (true, call + 1, p)
    else .ok (false, call, p)

/-- A loop for as long as fewer than `target` known entries are selected. -/
def dialKnown (target : Int) (call : Nat) (p : ServerPool ι K F) :
    Go Empty (Bool × Nat × ServerPool ι K F) :=
  dialWhile env true (fun p => p.knownSelected < target)
    ((target - p.knownSelected).toNat + 1) call p

/-- The loop for as long as fewer than `targetServerCount` entries are selected. -/
def dialNew (call : Nat) (p : ServerPool ι K F) : Go Empty (Bool × Nat × ServerPool ι K F) :=
  dialWhile env false (fun p => p.knownSelected + p.newSelected < targetServerCount)
    ((targetServerCount - (p.knownSelected + p.newSelected)).toNat + 1) call p

/-- Checks if new dials can/should be made. -/
def checkDial (p : ServerPool ι K F) : Go Empty (ServerPool ι K F) := do
  let (noneKnown, call, p) ← p.dialKnown env targetKnownSelect 2
  let (_, call, p) ← p.dialNew env call
  if !p.fastDiscover ∧ !noneKnown then do
    let (_, _, p) ← p.dialKnown env targetServerCount call
    return p
  else return p

/-- Called when an entry can potentially be dialed again. -/
def updateCheckDial (p : ServerPool ι K F) (r : Ref) : Go Empty (ServerPool ι K F) := do
  let newSelect ← p.newSelect.update (fun r => discoveredWeight env 0 0 (p.heap r)) r
  let knownSelect ← p.knownSelect.update (fun r => knownWeight env 1 0 (p.heap r)) r
  checkDial env { p with newSelect := newSelect, knownSelect := knownSelect }

/-- The entry is idle again and gives its slot back. -/
def release (p : ServerPool ι K F) (r : Ref) : ServerPool ι K F :=
  ((p.put r { p.heap r with state := .notConnected }).addSelected (p.heap r).knownSelected
    (-1)).setRetryDial r

/-- If the node is still in dialed state, resets it and adjusts connection
statistics accordingly. -/
def checkDialTimeout [Zero F] [One F] [Add F] [Mul F] (p : ServerPool ι K F) (r : Ref) :
    Go Empty (ServerPool ι K F) :=
  if (p.heap r).state ≠ .dialed then .ok p
  else do
    let e ← (p.heap r).failed
    return (p.put r e).release r

/-! ## Messages -/

/-- The entry for a peer with this node. -/
def entryOf [Zero F] [One F] [Add F] [Mul F] (p : ServerPool ι K F) (node : Node ι K) :
    Go Empty (Ref × ServerPool ι K F) :=
  match p.entries node.id with
  | some r => .ok (r, p)
  | none => p.findOrNewNode env node

/-- `connCh`; a peer's ID is that of its node. -/
def connect [Zero F] [One F] [Add F] [Mul F] (p : ServerPool ι K F) (node : Node ι K) :
    Go Empty (Option Ref × ServerPool ι K F) :=
  if p.trustedNodes node.id then .ok (none, p)
  else do
    let (r, p) ← p.entryOf env node
    if (p.heap r).handed then return (none, p)
    let e ← (p.heap r).accepted env node
    return (some r, p.put r e)

/-- The entry is registered, and known from now on. -/
def becomeKnown (p : ServerPool ι K F) (r : Ref) : ServerPool ι K F :=
  let e := { p.heap r with state := .registered, regTime := env.now }
  if e.known then p.put r e
  else { p.put r { e with known := true } with newQueue := p.newQueue.remove p.queueIdx r }

/-- `registerCh`. -/
def register (p : ServerPool ι K F) (r : Ref) : Go Empty (ServerPool ι K F) := do
  let p ← (p.becomeKnown env r).setLatest true r
  return p.put r { p.heap r with shortRetry := shortRetryCnt }

/-- `disconnCh`. -/
def disconnect [One F] [Add F] [Mul F] (p : ServerPool ι K F) (r : Ref) (stopped : Bool) :
    ServerPool ι K F :=
  (p.put r ((p.heap r).closed env stopped)).release r

/-- `timeout`. -/
def dialTimeout [Zero F] [One F] [Add F] [Mul F] (p : ServerPool ι K F) (r : Ref) :
    Go Empty (ServerPool ι K F) :=
  let p := { p with dialTimers := p.dialTimers.erase r }
  if (p.heap r).removed then .ok p else p.checkDialTimeout r

/-- `enableRetry`. -/
def retryEnabled (p : ServerPool ι K F) (r : Ref) : Go Empty (ServerPool ι K F) :=
  let p := { p with retryTimers := p.retryTimers.erase r }
  if (p.heap r).removed then .ok p
  else (p.put r { p.heap r with delayedRetry := false }).updateCheckDial env r

/-- `adjustStats`, for a request that was answered or timed out. -/
def adjustStats [Zero F] [One F] [Add F] [Mul F] (p : ServerPool ι K F) (r : Ref) (timeout : Bool)
    (time : F) : ServerPool ι K F :=
  let e := p.heap r
  if timeout then p.put r { e with timeoutStats := e.timeoutStats.add 1 1 }
  else p.put r { e with
    responseStats := e.responseStats.add time 1
    timeoutStats := e.timeoutStats.add 0 1 }

/-- `discNodes`. -/
def nodeDiscovered [Zero F] [One F] [Add F] [Mul F] (p : ServerPool ι K F) (node : Node ι K) :
    Go Empty (ServerPool ι K F) :=
  if p.trustedNodes node.id then .ok p
  else do
    let (r, p) ← p.findOrNewNode env node
    p.updateCheckDial env r

/-- `discLookups`. -/
def lookupDone (p : ServerPool ι K F) (conv : Bool) : ServerPool ι K F :=
  if conv then
    let convTime := if p.lookupCnt = 0 then env.now else p.convTime
    let lookupCnt := p.lookupCnt + 1
    { p with
      convTime := convTime
      lookupCnt := lookupCnt
      fastDiscover := p.fastDiscover ∧ ¬(lookupCnt = 50 ∨ env.now - convTime > minute) }
  else p

end Messages

/-- What `eventLoop` receives. -/
inductive Msg (ι K F : Type)
  | timeout (r : Ref)
  | enableRetry (r : Ref)
  | adjustStats (r : Ref) (timeout : Bool) (time : F)
  | discNode (node : Node ι K)
  | discLookup (conv : Bool)
  | connect (node : Node ι K)
  | register (r : Ref)
  | disconnect (r : Ref) (stopped : Bool)

/-- The cases of the `select` of `eventLoop` but for `quit`, and the entry that
is sent back to a peer. -/
def handle [Zero F] [One F] [Add F] [Mul F] (env : Env ι K F) (p : ServerPool ι K F) :
    Msg ι K F → Go Empty (Option Ref × ServerPool ι K F)
  | .timeout r => do return (none, ← p.dialTimeout r)
  | .enableRetry r => do return (none, ← p.retryEnabled env r)
  | .adjustStats r timeout time => .ok (none, p.adjustStats r timeout time)
  | .discNode node => do return (none, ← p.nodeDiscovered env node)
  | .discLookup conv => .ok (none, p.lookupDone env conv)
  | .connect node => p.connect env node
  | .register r => do return (none, ← p.register env r)
  | .disconnect r stopped => .ok (none, p.disconnect env r stopped)

/-! ## Start and end -/

section Store

variable (env : Env ι K F)

def newServerPool [Zero F] [Inhabited (Node ι K)] (trustedNodes : ι → Bool) :
    ServerPool ι K F where
  server := false
  trustedNodes := trustedNodes
  heap _ := .blank default
  next := 0
  entries _ := none
  knownQueue := newPoolEntryQueue maxKnownEntries
  newQueue := newPoolEntryQueue maxNewEntries
  knownSelect := .new
  newSelect := .new
  knownSelected := 0
  newSelected := 0
  fastDiscover := true
  lookupCnt := 0
  convTime := 0
  dialTimers := []
  retryTimers := []

/-- An iteration of the loop of `loadNodes`. -/
def loadNode [Zero F] (idOf : K → ι) (call : Nat) (p : ServerPool ι K F) (s : StoredNode K F) :
    Go Empty (ServerPool ι K F) := do
  let e ← PoolEntry.decodeRLP env idOf s
  let r := p.next
  let p := p.alloc e
  if p.trustedNodes e.node.id then return p
  let p ← p.setLatest true r
  let knownSelect ← p.knownSelect.update (fun r => knownWeight env call 0 (p.heap r)) r
  return { p with knownSelect := knownSelect }

/-- Loads known nodes and their statistics; the list is empty if the database
has none or they do not decode. -/
def loadNodes [Zero F] (idOf : K → ι) : Nat → ServerPool ι K F → List (StoredNode K F) →
    Go Empty (ServerPool ι K F)
  | _, p, [] => .ok p
  | call, p, s :: rest => do
    let p ← p.loadNode env idOf call s
    loadNodes idOf (call + 1) p rest

/-- `start`, with the nodes stored in the database; `env'` is for `checkDial`. -/
def start [Zero F] (idOf : K → ι) (env env' : Env ι K F) (p : ServerPool ι K F)
    (stored : List (StoredNode K F)) : Go Empty (ServerPool ι K F) := do
  let p ← loadNodes env idOf 0 { p with server := true } stored
  p.checkDial env'

omit [DecidableEq ι] in
/-- The loop of `saveNodes`: the entries of the queue, oldest first. -/
def fetchAll : Nat → PoolEntryQueue → Go Empty (List Ref × PoolEntryQueue)
  | 0, q => .ok ([], q)
  | n + 1, q => do
    let (e, q) ← q.fetchOldest
    match e with
    | none => .error (.panic .nilDereference)
    | some r => do
      let (rest, q) ← fetchAll n q
      return (r :: rest, q)

/-- The stored form of the known nodes, from least to most recently connected. -/
def saveNodes (p : ServerPool ι K F) : Go Empty (List (StoredNode K F) × ServerPool ι K F) := do
  let (list, knownQueue) ← fetchAll p.knownQueue.queue.size p.knownQueue
  let stored ← list.mapM fun r => (p.heap r).encodeRLP
  return (stored, { p with knownQueue := knownQueue })

end Store

end ServerPool

end MiniOpera.Pool
