import MiniOpera.Lib.ByteOrder
import MiniOpera.Lib.Cache
import MiniOpera.EventCheck

/-!
# The gossip store

The tables of the main database, the databases of the epochs and the caches in
front of the tables. The `Events` table holds RLP bytes, because an event may
differ from what its row decodes to; the RLP of the other rows is taken to
round-trip. Epochs, pack indexes and block numbers are counters that do not
wrap here; the two `uint32` fields of a pack info do.

`Coherent` says that the caches other than that of the events agree with their
tables. Under it a read returns the row (`getPackInfo_spec`,
`getBlockState_spec`, `getEpochState_spec`) and leaves `Data` alone. The events
cache has its own rule, `getEvent_spec`, because it may hold an event that is
not the one its row decodes to.
-/

namespace MiniOpera.GossipStore
open GoRuntime InterEvent EventCheck Caching ByteOrder

instance : Std.TransOrd EventID := inferInstanceAs (Std.TransOrd (Bytes 32))

instance : Std.LawfulEqOrd EventID := inferInstanceAs (Std.LawfulEqOrd (Bytes 32))

structure Block where
  time : UInt64
  atropos : EventID
  events : List EventID
  deriving DecidableEq

structure BlockState where
  block : Nat
  epochBlocks : Nat
  deriving DecidableEq

structure EpochState where
  epoch : Nat
  validators : List Validator
  deriving DecidableEq

structure PackInfo where
  index : Nat
  size : UInt32
  numOfEvents : UInt32
  heads : List EventID
  deriving DecidableEq

/-- Keys without values, iterated in the order of their bytes. -/
abbrev EventSet := Std.ExtTreeSet EventID

/-- The database of one epoch. -/
structure EpochDB where
  tips : ValidatorID → Option EventID
  heads : EventSet

namespace EpochDB

def empty : EpochDB := ⟨fun _ => none, ∅⟩

def delHead (db : EpochDB) (id : EventID) : EpochDB := { db with heads := db.heads.erase id }

def addHead (db : EpochDB) (id : EventID) : EpochDB := { db with heads := db.heads.insert id }

def setLastEvent (db : EpochDB) (v : ValidatorID) (id : EventID) : EpochDB :=
  { db with tips := Function.update db.tips v (some id) }

end EpochDB

/-- What is stored. The rows of `Packs` are grouped by the prefix, epoch and
pack index, that `GetPack` iterates. -/
structure Data where
  events : Std.ExtTreeMap EventID (List UInt8)
  blocks : Nat → Option Block
  blockState : Option BlockState
  epochState : Option EpochState
  packInfos : Nat × Nat → Option PackInfo
  packs : Nat × Nat → EventSet
  packsNum : Nat → Option Nat
  epochDBs : Nat → EpochDB
  /-- The epoch whose database is loaded. -/
  epochStore : Option Nat

namespace Data

def empty : Data where
  events := ∅
  blocks := fun _ => none
  blockState := none
  epochState := none
  packInfos := fun _ => none
  packs := fun _ => ∅
  packsNum := fun _ => none
  epochDBs := fun _ => .empty
  epochStore := none

def updateEpochDB (d : Data) (f : EpochDB → EpochDB) : Data :=
  match d.epochStore with
  | none => d
  | some k => { d with epochDBs := Function.update d.epochDBs k (f (d.epochDBs k)) }

def createEpochStore (d : Data) (epoch : Nat) : Data := { d with epochStore := some epoch }

/-- The previous database is dropped only if it could be closed. -/
def resetEpochStore (d : Data) (newEpoch : Nat) (closed : Bool) : Data :=
  match d.epochStore with
  | none => d.createEpochStore newEpoch
  | some k =>
    if closed then
      { d.createEpochStore newEpoch with epochDBs := Function.update d.epochDBs k .empty }
    else d.createEpochStore newEpoch

def heads (d : Data) : List EventID :=
  match d.epochStore with
  | none => []
  | some k => (d.epochDBs k).heads.toList

end Data

/-- A state row, which `ApplyGenesis` must have written. -/
def rowOrCrit {ε α : Type} : Option α → Go ε α
  | some v => .ok v
  | none => .error (.panic (.message "Genesis not applied"))

structure Caches where
  events : OptCache EventID Event
  blocks : OptCache Nat Block
  packInfos : OptCache (Nat × Nat) PackInfo
  blockState : Option BlockState
  epochState : Option EpochState

structure Store where
  data : Data
  cache : Caches

namespace Store

variable {ε : Type}

/-! ## `store_event.go` -/

section Events

variable (sha256 : List UInt8 → Hash) (rlp : Rlp)

def delEvent (s : Store) (id : EventID) : Store where
  data := { s.data with events := s.data.events.erase id }
  cache := { s.cache with events := s.cache.events.remove id }

def setEvent (s : Store) (e : Event) : Go ε Store := do
  let buf ← e.encodeRLP rlp
  return {
    data := { s.data with events := s.data.events.insert e.id buf }
    cache := { s.cache with events := s.cache.events.add e.id e } }

def getEvent (s : Store) (id : EventID) : Go ε (Option Event × Store) :=
  match s.cache.events.get id with
  | some e => .ok (some e, s)
  | none =>
    match s.data.events[id]? with
    | none => .ok (none, s)
    | some buf =>
      match decodeRLP sha256 rlp buf with
      | .error _ => .error (.panic (.message "Failed to decode rlp"))
      | .ok e =>
        .ok (some e, { s with cache := { s.cache with events := s.cache.events.add id e } })

def getEventRLP (s : Store) (id : EventID) : Option (List UInt8) := s.data.events[id]?

def hasEvent (s : Store) (id : EventID) : Bool := s.data.events.contains id

end Events

/-! ## `store_block.go`, `store_decided_state.go` -/

def setBlock (s : Store) (n : Nat) (b : Block) : Store where
  data := { s.data with blocks := Function.update s.data.blocks n (some b) }
  cache := { s.cache with blocks := s.cache.blocks.add n b }

def getBlock (s : Store) (n : Nat) : Option Block × Store :=
  match s.cache.blocks.get n with
  | some b => (some b, s)
  | none =>
    match s.data.blocks n with
    | none => (none, s)
    | some b => (some b, { s with cache := { s.cache with blocks := s.cache.blocks.add n b } })

def setBlockState (s : Store) (v : BlockState) : Store where
  data := { s.data with blockState := some v }
  cache := { s.cache with blockState := some v }

def getBlockState (s : Store) : Go ε (BlockState × Store) :=
  match s.cache.blockState with
  | some v => .ok (v, s)
  | none =>
    match s.data.blockState with
    | none => .error (.panic (.message "Genesis not applied"))
    | some v => .ok (v, { s with cache := { s.cache with blockState := some v } })

def setEpochState (s : Store) (v : EpochState) : Store where
  data := { s.data with epochState := some v }
  cache := { s.cache with epochState := some v }

def getEpochState (s : Store) : Go ε (EpochState × Store) :=
  match s.cache.epochState with
  | some v => .ok (v, s)
  | none =>
    match s.data.epochState with
    | none => .error (.panic (.message "Genesis not applied"))
    | some v => .ok (v, { s with cache := { s.cache with epochState := some v } })

def getEpoch (s : Store) : Go ε (Nat × Store) := do
  let (es, s) ← s.getEpochState
  return (es.epoch, s)

/-! ## `store_pack.go` -/

def getPackInfo (s : Store) (epoch idx : Nat) : Option PackInfo × Store :=
  match s.cache.packInfos.get (epoch, idx) with
  | some v => (some v, s)
  | none =>
    match s.data.packInfos (epoch, idx) with
    | none => (none, s)
    | some v =>
      (some v, { s with cache := { s.cache with
        packInfos := s.cache.packInfos.add (epoch, idx) v } })

/-- Returns the default value if not found. -/
def getPackInfoOrDefault (s : Store) (epoch idx : Nat) : PackInfo × Store :=
  let (packInfo, s) := s.getPackInfo epoch idx
  (packInfo.getD ⟨idx, 0, 0, []⟩, s)

def setPackInfo (s : Store) (epoch idx : Nat) (v : PackInfo) : Store where
  data := { s.data with packInfos := Function.update s.data.packInfos (epoch, idx) (some v) }
  cache := { s.cache with packInfos := s.cache.packInfos.add (epoch, idx) v }

def addToPack (s : Store) (epoch idx : Nat) (id : EventID) : Store :=
  { s with data := { s.data with
      packs := Function.update s.data.packs (epoch, idx) ((s.data.packs (epoch, idx)).insert id) } }

def getPack (s : Store) (epoch idx : Nat) : List EventID := (s.data.packs (epoch, idx)).toList

def getPacksNum (s : Store) (epoch : Nat) : Option Nat := s.data.packsNum epoch

def getPacksNumOrDefault (s : Store) (epoch : Nat) : Nat := (s.getPacksNum epoch).getD 1

def setPacksNum (s : Store) (epoch num : Nat) : Store :=
  { s with data := { s.data with packsNum := Function.update s.data.packsNum epoch (some num) } }

/-! ## What a getter puts into a cache -/

def cacheBlock (n : Nat) (b : Block) (s : Store) : Store :=
  { s with cache := { s.cache with blocks := s.cache.blocks.add n b } }

def cacheBlockState (v : BlockState) (s : Store) : Store :=
  { s with cache := { s.cache with blockState := some v } }

def cacheEpochState (v : EpochState) (s : Store) : Store :=
  { s with cache := { s.cache with epochState := some v } }

def cachePackInfo (epoch idx : Nat) (v : PackInfo) (s : Store) : Store :=
  { s with cache := { s.cache with packInfos := s.cache.packInfos.add (epoch, idx) v } }

/-! ## `store_epoch.go`, `store_heads.go` -/

/-- Write to the loaded epoch database, if there is one. -/
def updateEpochDB (s : Store) (f : EpochDB → EpochDB) : Store :=
  { s with data := s.data.updateEpochDB f }

def loadEpochStore (s : Store) (epoch : Nat) : Store :=
  match s.data.epochStore with
  | some _ => s
  | none => { s with data := s.data.createEpochStore epoch }

def resetEpochStore (s : Store) (newEpoch : Nat) (closed : Bool) : Store :=
  { s with data := s.data.resetEpochStore newEpoch closed }

def delHead (s : Store) (id : EventID) : Store := s.updateEpochDB (·.delHead id)

def addHead (s : Store) (id : EventID) : Store := s.updateEpochDB (·.addHead id)

/-- IDs of all the epoch events with no descendants. -/
def getHeads (s : Store) : List EventID := s.data.heads

def setLastEvent (s : Store) (v : ValidatorID) (id : EventID) : Store :=
  s.updateEpochDB (·.setLastEvent v id)

def getLastEvent (s : Store) (v : ValidatorID) : Option EventID :=
  s.data.epochStore.bind fun k => (s.data.epochDBs k).tips v

end Store

/-! ## Caches and tables -/

/-- The caches other than that of the events agree with their tables. -/
structure Coherent (s : Store) : Prop where
  blocks : Agrees (fun n b => s.data.blocks n = some b) s.cache.blocks
  packInfos : Agrees (fun k v => s.data.packInfos k = some v) s.cache.packInfos
  blockState : ∀ v, s.cache.blockState = some v → s.data.blockState = some v
  epochState : ∀ v, s.cache.epochState = some v → s.data.epochState = some v

/-- What a read leaves behind: the data, the cache of the events, coherence. -/
structure Untouched (s s' : Store) : Prop where
  data : s'.data = s.data
  events : s'.cache.events = s.cache.events
  coherent : Coherent s'

theorem Untouched.refl {s : Store} (h : Coherent s) : Untouched s s := ⟨rfl, rfl, h⟩

theorem Untouched.trans {s s' s'' : Store} (h : Untouched s s') (h' : Untouched s' s'') :
    Untouched s s'' :=
  ⟨h'.data.trans h.data, h'.events.trans h.events, h'.coherent⟩

section Reads

variable {ε : Type} {s : Store}

theorem getBlock_spec (h : Coherent s) (n : Nat) :
    (s.getBlock n).1 = s.data.blocks n ∧ Untouched s (s.getBlock n).2 := by
  unfold Store.getBlock
  split
  · next b hb => exact ⟨(h.blocks n b hb).symm, .refl h⟩
  · split
    · next hd => exact ⟨hd.symm, .refl h⟩
    · next b hd =>
      exact ⟨hd.symm, rfl, rfl, ⟨h.blocks.add hd fun _ _ _ hx => hx, h.packInfos, h.blockState,
        h.epochState⟩⟩

theorem getPackInfo_spec (h : Coherent s) (epoch idx : Nat) :
    (s.getPackInfo epoch idx).1 = s.data.packInfos (epoch, idx) ∧
      Untouched s (s.getPackInfo epoch idx).2 := by
  unfold Store.getPackInfo
  split
  · next v hv => exact ⟨(h.packInfos _ v hv).symm, .refl h⟩
  · split
    · next hd => exact ⟨hd.symm, .refl h⟩
    · next v hd =>
      exact ⟨hd.symm, rfl, rfl, ⟨h.blocks, h.packInfos.add hd fun _ _ _ hx => hx, h.blockState,
        h.epochState⟩⟩

theorem getPackInfoOrDefault_spec (h : Coherent s) (epoch idx : Nat) :
    (s.getPackInfoOrDefault epoch idx).1 =
        (s.data.packInfos (epoch, idx)).getD ⟨idx, 0, 0, []⟩ ∧
      Untouched s (s.getPackInfoOrDefault epoch idx).2 := by
  obtain ⟨h1, h2⟩ := getPackInfo_spec h epoch idx
  exact ⟨by rw [← h1]; rfl, h2⟩

theorem getBlockState_spec (h : Coherent s) {v : BlockState} {s' : Store}
    (hg : (s.getBlockState : Go ε _) = .ok (v, s')) :
    s.data.blockState = some v ∧ Untouched s s' := by
  unfold Store.getBlockState at hg
  split at hg
  · next hv =>
    cases hg
    exact ⟨h.blockState v hv, .refl h⟩
  · split at hg
    · cases hg
    · next hd =>
      cases hg
      exact ⟨hd, rfl, rfl, ⟨h.blocks, h.packInfos, fun _ hx =>
        by cases hx; exact hd, h.epochState⟩⟩

theorem getEpochState_spec (h : Coherent s) {v : EpochState} {s' : Store}
    (hg : (s.getEpochState : Go ε _) = .ok (v, s')) :
    s.data.epochState = some v ∧ Untouched s s' := by
  unfold Store.getEpochState at hg
  split at hg
  · next hv =>
    cases hg
    exact ⟨h.epochState v hv, .refl h⟩
  · split at hg
    · cases hg
    · next hd =>
      cases hg
      exact ⟨hd, rfl, rfl, ⟨h.blocks, h.packInfos, h.blockState, fun _ hx =>
        by cases hx; exact hd⟩⟩

/-- A state row that is there is read, cached or not. -/
theorem getBlockState_returns (h : Coherent s) {v : BlockState}
    (hrow : s.data.blockState = some v) :
    ∃ s', (s.getBlockState : Go ε _) = .ok (v, s') := by
  unfold Store.getBlockState
  split
  · next v' hv =>
    have hv' := h.blockState v' hv
    rw [hrow] at hv'
    cases hv'
    exact ⟨s, rfl⟩
  · rw [hrow]
    exact ⟨_, rfl⟩

theorem getEpochState_returns (h : Coherent s) {v : EpochState}
    (hrow : s.data.epochState = some v) :
    ∃ s', (s.getEpochState : Go ε _) = .ok (v, s') := by
  unfold Store.getEpochState
  split
  · next v' hv =>
    have hv' := h.epochState v' hv
    rw [hrow] at hv'
    cases hv'
    exact ⟨s, rfl⟩
  · rw [hrow]
    exact ⟨_, rfl⟩

theorem getEpoch_spec (h : Coherent s) {n : Nat} {s' : Store}
    (hg : (s.getEpoch : Go ε _) = .ok (n, s')) :
    s.data.epochState.map (·.epoch) = some n ∧ Untouched s s' := by
  obtain ⟨⟨es, s1⟩, hes, hr⟩ := bind_eq_ok hg
  cases hr
  obtain ⟨h1, h2⟩ := getEpochState_spec h hes
  exact ⟨by rw [h1]; rfl, h2⟩

/-- A read of an event: the cached one, or the one its row decodes to. Any
relation that allows both for the key holds of the result and, afterwards, of
the whole cache. -/
theorem getEvent_spec {sha256 : List UInt8 → Hash} {rlp : Rlp} {id : EventID} {r : Option Event}
    {s' : Store} {R : EventID → Event → Prop} (hc : Agrees R s.cache.events)
    (hrow : ∀ buf e, s.data.events[id]? = some buf →
      decodeRLP sha256 rlp buf = .ok e → R id e)
    (hg : (s.getEvent sha256 rlp id : Go ε _) = .ok (r, s')) :
    s'.data = s.data ∧ (Coherent s → Coherent s') ∧ Agrees R s'.cache.events ∧
      (∀ e, r = some e → R id e) ∧ (r = none → s.data.events[id]? = none) := by
  unfold Store.getEvent at hg
  split at hg
  · next e he =>
    cases hg
    exact ⟨rfl, fun h => h, hc, fun _ hx => by cases hx; exact hc id e he, fun hx => nomatch hx⟩
  · split at hg
    · next hd =>
      cases hg
      exact ⟨rfl, fun h => h, hc, fun _ hx => (nomatch hx), fun _ => hd⟩
    · next buf hd =>
      split at hg
      · cases hg
      · next e he =>
        cases hg
        have hR := hrow buf e hd he
        exact ⟨rfl, fun h => ⟨h.blocks, h.packInfos, h.blockState, h.epochState⟩,
          hc.add hR fun _ _ _ hx => hx, fun _ hx => by cases hx; exact hR, fun hx => nomatch hx⟩

end Reads

section Writes

variable {s : Store}

theorem Coherent.setBlock (h : Coherent s) (n : Nat) (b : Block) : Coherent (s.setBlock n b) where
  blocks := h.blocks.add (by simp [Store.setBlock]) fun x y hx hy => by
    simp only [Store.setBlock, Function.update_of_ne hx]
    exact hy
  packInfos := h.packInfos
  blockState := h.blockState
  epochState := h.epochState

theorem Coherent.setPackInfo (h : Coherent s) (epoch idx : Nat) (v : PackInfo) :
    Coherent (s.setPackInfo epoch idx v) where
  blocks := h.blocks
  packInfos := h.packInfos.add (by simp [Store.setPackInfo]) fun x y hx hy => by
    simp only [Store.setPackInfo, Function.update_of_ne hx]
    exact hy
  blockState := h.blockState
  epochState := h.epochState

theorem Coherent.addToPack (h : Coherent s) (epoch idx : Nat) (id : EventID) :
    Coherent (s.addToPack epoch idx id) :=
  ⟨h.blocks, h.packInfos, h.blockState, h.epochState⟩

theorem Coherent.setPacksNum (h : Coherent s) (epoch num : Nat) :
    Coherent (s.setPacksNum epoch num) :=
  ⟨h.blocks, h.packInfos, h.blockState, h.epochState⟩

theorem Coherent.setBlockState (h : Coherent s) (v : BlockState) : Coherent (s.setBlockState v) :=
  ⟨h.blocks, h.packInfos, fun _ hx => hx, h.epochState⟩

theorem Coherent.setEpochState (h : Coherent s) (v : EpochState) : Coherent (s.setEpochState v) :=
  ⟨h.blocks, h.packInfos, h.blockState, fun _ hx => hx⟩

theorem Coherent.updateEpochDB (h : Coherent s) (f : EpochDB → EpochDB) :
    Coherent (s.updateEpochDB f) := by
  unfold Store.updateEpochDB Data.updateEpochDB
  split
  · exact h
  · exact ⟨h.blocks, h.packInfos, h.blockState, h.epochState⟩

theorem Coherent.resetEpochStore (h : Coherent s) (newEpoch : Nat) (closed : Bool) :
    Coherent (s.resetEpochStore newEpoch closed) := by
  unfold Store.resetEpochStore Data.resetEpochStore
  split
  · exact ⟨h.blocks, h.packInfos, h.blockState, h.epochState⟩
  · split <;> exact ⟨h.blocks, h.packInfos, h.blockState, h.epochState⟩

end Writes

end MiniOpera.GossipStore
