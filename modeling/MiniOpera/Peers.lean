import Mathlib.Data.Nat.Sqrt
import MiniOpera.InterEvent
import MiniOpera.Lib.EvictingSet
import MiniOpera.RandSelect

/-!
# `peer.go` and the broadcasting of events

What a node remembers of a peer: the events the peer is known to have, the queues
of its broadcast loop and its progress. The set of known events removes an
element of its own choice when it is full (`Picks`). `sent` is what was handed to
`p2p.Send`, whose errors change nothing else here.

`BroadcastEvent` gives the event itself to some of the peers that may want it and
its ID to the others. Durations are nanoseconds in an `int64`.
-/

namespace MiniOpera.Peers
open LittleEndian InterEvent EvictingSet RandSelect

/-- Maximum event hashes to keep in the known list (prevent DOS). -/
def maxKnownEvents : Nat := 16384

/-- Maximum cap on the size of a protocol message. -/
def protocolMaxMsgSize : Nat := 10 * 1024 * 1024

def maxQueuedProps : Nat := 128

def maxQueuedAnns : Nat := 128

/-- The messages that mark events as known. -/
inductive Message
  | newEventHashesMsg (ids : List EventID)
  | eventsMsg (events : List Event)
  | eventsMsgRLP (events : List (List UInt8))

structure Peer where
  id : String
  knownEvents : Evicting EventID
  queuedProps : List (List Event)
  queuedAnns : List (List EventID)
  /-- `progress.Epoch`. -/
  epoch : UInt32
  sent : List Message

/-- `hash.Event.Epoch`, the first four bytes. -/
def idEpoch (id : EventID) : UInt32 := UInt32.ofNat (leNat (id.data.take 4).reverse)

namespace Peer

def interestedIn (p : Peer) (h : EventID) : Bool :=
  let e := idEpoch h
  e ≠ 0 ∧ p.epoch ≠ 0 ∧ (e = p.epoch ∨ e = p.epoch + 1) ∧ h ∉ p.knownEvents.items

variable (pick : String → Picks EventID) (p : Peer)

/-- The events are added, then the set is cut to fewer than `maxKnownEvents`. -/
def markBatch (ids : List EventID) : Evicting EventID :=
  (p.knownEvents.addAll ids).shrink (pick p.id) maxKnownEvents

/-- The set is cut after each event that is added. -/
def markEach (ids : List EventID) : Evicting EventID :=
  p.knownEvents.addEach (pick p.id) maxKnownEvents ids

/-- Here the set is cut before the event is added. -/
def markEvent (hash : EventID) : Peer :=
  { p with knownEvents := (p.knownEvents.shrink (pick p.id) maxKnownEvents).add hash }

def sendNewEventHashes (hashes : List EventID) : Peer :=
  { p with knownEvents := p.markBatch pick hashes, sent := p.sent ++ [.newEventHashesMsg hashes] }

/-- Without room in the queue the announcement is dropped. -/
def asyncSendNewEventHashes (ids : List EventID) : Peer :=
  if p.queuedAnns.length < maxQueuedAnns then
    { p with knownEvents := p.markBatch pick ids, queuedAnns := p.queuedAnns ++ [ids] }
  else p

def sendEvents (events : List Event) : Peer :=
  { p with
    knownEvents := p.markEach pick (events.map fun e => e.id)
    sent := p.sent ++ [.eventsMsg events] }

def sendEventsRLP (events : List (List UInt8)) (ids : List EventID) : Peer :=
  { p with knownEvents := p.markEach pick ids, sent := p.sent ++ [.eventsMsgRLP events] }

/-- Without room in the queue the event is dropped. -/
def asyncSendEvents (events : List Event) : Peer :=
  if p.queuedProps.length < maxQueuedProps then
    { p with
      knownEvents := p.markBatch pick (events.map fun e => e.id)
      queuedProps := p.queuedProps ++ [events] }
  else p

end Peer

/-! ## Whom to send the event itself -/

/-- `config.Protocol`. -/
structure ProtocolConfig where
  latencyImportance : Int
  throughputImportance : Int

def millisecond : Int := 1000000

def percents : Int := 100

def maxPercents : Int := 1000000 * percents

def latencyVsThroughputTradeoff (cfg : ProtocolConfig) : Int :=
  if cfg.throughputImportance ≠ 0 then
    wrap64 ((wrap64 (cfg.latencyImportance * percents)).tdiv cfg.throughputImportance)
  else maxPercents

/-- The cost of a byte. -/
def byteCost : Int := millisecond / 2

def broadcastCost (size passed : Int) : Int := wrap64 (passed + wrap64 (size * byteCost))

def broadcastAllCostTarget (tradeoff : Int) : Int :=
  wrap64 ((wrap64 (tradeoff * (700 * millisecond))).tdiv percents)

def broadcastSqrtCostTarget (tradeoff : Int) : Int := wrap64 (broadcastAllCostTarget tradeoff * 20)

/-- A subset of the peers, of at least four. -/
def sqrtRecipients (peersNum : Int) : Int :=
  let fullRecipients : Int := Nat.sqrt peersNum.toNat
  if fullRecipients < 4 then 4 else fullRecipients

def decideBroadcastAggressiveness (cfg : ProtocolConfig) (size passed peersNum : Int) : Int :=
  let tradeoff := latencyVsThroughputTradeoff cfg
  let cost := broadcastCost size passed
  let fullRecipients :=
    -- edge cases
    if tradeoff ≥ maxPercents then peersNum
    else if tradeoff ≤ 0 then 0
    -- if event is small or was created recently, always send to everyone full event
    else if cost ≤ broadcastAllCostTarget tradeoff then peersNum
    -- if event is big but was created recently, send full event to subset of peers
    else if cost ≤ broadcastSqrtCostTarget tradeoff ∨ passed = 0 then sqrtRecipients peersNum
    else 0
  if fullRecipients > peersNum then peersNum else fullRecipients

/-- `now.Sub(e.CreationTime().Time())`: the time of an event is read as an `int64`,
and `Sub` saturates. -/
def passedSinceEvent (now : Int) (time : UInt64) : Int :=
  max (-2 ^ 63) (min (now - wrap64 time.toNat) (2 ^ 63 - 1))

/-- The two loops of `BroadcastEvent` over the interested peers; the first `full` of
them get the event. -/
def broadcastLoop (pick : String → Picks EventID) (event : Event) : Nat →
    List Peer → List Peer
  | _, [] => []
  | full, p :: rest =>
    if p.interestedIn event.id then
      match full with
      | 0 => p.asyncSendNewEventHashes pick [event.id] :: broadcastLoop pick event 0 rest
      | full + 1 => p.asyncSendEvents pick [event] :: broadcastLoop pick event full rest
    else p :: broadcastLoop pick event full rest

/-- `BroadcastEvent`, with the peers in the order the map gives them. -/
def broadcastEvent (cfg : ProtocolConfig) (pick : String → Picks EventID) (event : Event)
    (passed : Int) (peers : List Peer) : List Peer × Nat :=
  let passed := if passed < 0 then 0 else passed
  let withoutEvent := peers.filter fun p => p.interestedIn event.id
  if withoutEvent.length = 0 then (peers, 0)
  else
    let fullRecipients :=
      decideBroadcastAggressiveness cfg event.size passed withoutEvent.length
    (broadcastLoop pick event fullRecipients.toNat peers, withoutEvent.length)

end MiniOpera.Peers
