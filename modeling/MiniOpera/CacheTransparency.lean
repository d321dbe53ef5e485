import MiniOpera.BuiltEvents
import MiniOpera.PackMessages

/-!
# The caches of the store are transparent

The reads and writes of the store as operations with answers, run on a store
with caches and on its tables alone (`plainExec`). Caches of any size are
covered, with any evictions at insertions (`CacheConfig`) and before every
call (`Evictions`).

`caches_transparent`: the answers are the same, up to and including the
failure that ends the run, if the events that are written decode to themselves.
For that a self-described event needs version 0 and a number of parents that
fits its field; see `unchecked_events_differ` for events without.
-/

namespace MiniOpera.CacheTransparency
open GoRuntime InterEvent EventWire EventDecode EventCodec EventCheck
  BuiltEvents GossipStore Caching
  PackMessages Genesis

inductive Op
  | setEvent (e : Event)
  | delEvent (id : EventID)
  | getEvent (id : EventID)
  | hasEvent (id : EventID)
  | getEventRLP (id : EventID)
  | setBlock (n : Nat) (b : Block)
  | getBlock (n : Nat)
  | setPackInfo (epoch idx : Nat) (v : PackInfo)
  | getPackInfo (epoch idx : Nat)
  | getPackInfoRLP (epoch idx : Nat)
  | setBlockState (v : BlockState)
  | getBlockState
  | setEpochState (v : EpochState)
  | getEpochState

inductive Answer
  | done
  | event (e : Option Event)
  | has (found : Bool)
  | raw (bytes : Option (List UInt8))
  | block (b : Option Block)
  | packInfo (v : Option PackInfo)
  | blockState (v : BlockState)
  | epochState (v : EpochState)
  deriving DecidableEq

/-- What is forgotten between two calls. -/
structure Evictions where
  events : EventID → Bool
  blocks : Nat → Bool
  packInfos : Nat × Nat → Bool
  blockState : Bool
  epochState : Bool

def evict (s : Store) (v : Evictions) : Store :=
  { s with cache := {
      events := s.cache.events.evict v.events
      blocks := s.cache.blocks.evict v.blocks
      packInfos := s.cache.packInfos.evict v.packInfos
      blockState := if v.blockState then none else s.cache.blockState
      epochState := if v.epochState then none else s.cache.epochState } }

section Runs

variable (sha256 : List UInt8 → Hash) (rlp : Rlp) (codec : PackInfoCodec)

def exec (s : Store) : Op → Go DecodeError (Answer × Store)
  | .setEvent e => do
    let s ← s.setEvent rlp e
    return (.done, s)
  | .delEvent id => .ok (.done, s.delEvent id)
  | .getEvent id => do
    let (e, s) ← s.getEvent sha256 rlp id
    return (.event e, s)
  | .hasEvent id => .ok (.has (s.hasEvent id), s)
  | .getEventRLP id => .ok (.raw (s.getEventRLP id), s)
  | .setBlock n b => .ok (.done, s.setBlock n b)
  | .getBlock n => .ok (.block (s.getBlock n).1, (s.getBlock n).2)
  | .setPackInfo epoch idx v => .ok (.done, s.setPackInfo epoch idx v)
  | .getPackInfo epoch idx =>
    .ok (.packInfo (s.getPackInfo epoch idx).1, (s.getPackInfo epoch idx).2)
  | .getPackInfoRLP epoch idx => .ok (.raw (getPackInfoRLP codec s epoch idx), s)
  | .setBlockState v => .ok (.done, s.setBlockState v)
  | .getBlockState => do
    let (v, s) ← s.getBlockState
    return (.blockState v, s)
  | .setEpochState v => .ok (.done, s.setEpochState v)
  | .getEpochState => do
    let (v, s) ← s.getEpochState
    return (.epochState v, s)

/-- The answers in order; a failure ends the process. -/
def run : Store → List (Evictions × Op) → List (Go DecodeError Answer)
  | _, [] => []
  | s, (v, op) :: rest =>
    match exec sha256 rlp codec (evict s v) op with
    | .ok (a, s) => .ok a :: run s rest
    | .error f => [.error f]

/-! ## Without caches -/

/-- The row of an event, decoded. -/
def eventRow (d : Data) (id : EventID) : Go DecodeError (Option Event) :=
  match d.events[id]? with
  | none => .ok none
  | some buf =>
    match decodeRLP sha256 rlp buf with
    | .error _ => .error (.panic (.message "Failed to decode rlp"))
    | .ok e => .ok (some e)

/-- Every read looks at its row, every write replaces one. -/
def plainExec (d : Data) : Op → Go DecodeError (Answer × Data)
  | .setEvent e => do
    let buf ← e.encodeRLP rlp
    return (.done, { d with events := d.events.insert e.id buf })
  | .delEvent id => .ok (.done, { d with events := d.events.erase id })
  | .getEvent id => do
    let e ← eventRow sha256 rlp d id
    return (.event e, d)
  | .hasEvent id => .ok (.has (d.events.contains id), d)
  | .getEventRLP id => .ok (.raw d.events[id]?, d)
  | .setBlock n b => .ok (.done, { d with blocks := Function.update d.blocks n (some b) })
  | .getBlock n => .ok (.block (d.blocks n), d)
  | .setPackInfo epoch idx v =>
    .ok (.done, { d with packInfos := Function.update d.packInfos (epoch, idx) (some v) })
  | .getPackInfo epoch idx => .ok (.packInfo (d.packInfos (epoch, idx)), d)
  | .getPackInfoRLP epoch idx => .ok (.raw ((d.packInfos (epoch, idx)).map codec.encode), d)
  | .setBlockState v => .ok (.done, { d with blockState := some v })
  | .getBlockState => do
    let v ← rowOrCrit d.blockState
    return (.blockState v, d)
  | .setEpochState v => .ok (.done, { d with epochState := some v })
  | .getEpochState => do
    let v ← rowOrCrit d.epochState
    return (.epochState v, d)

def plainRun : Data → List Op → List (Go DecodeError Answer)
  | _, [] => []
  | d, op :: rest =>
    match plainExec sha256 rlp codec d op with
    | .ok (a, d) => .ok a :: plainRun d rest
    | .error f => [.error f]

/-! ## Simulation -/

/-- An event that was built and would pass the check of its version and of the
number of its parents. -/
structure Writable (e : Event) : Prop where
  selfDescribed : SelfDescribed sha256 e
  parents : ParentsOfEpoch e.epoch e.parents
  version : e.version = 0
  count : e.parents.length < 2 ^ 32

/-- The caches show nothing but these tables. -/
structure Shows (s : Store) (d : Data) : Prop where
  data : s.data = d
  coherent : Coherent s
  events : Agrees (fun id e => eventRow sha256 rlp d id = .ok (some e)) s.cache.events

/-- The same answer and tables, or the same failure. -/
def Matches : Go DecodeError (Answer × Store) → Go DecodeError (Answer × Data) → Prop
  | .ok (a, s), .ok (b, d) => a = b ∧ Shows sha256 rlp s d
  | .error f, .error g => f = g
  | _, _ => False

end Runs

section Simulation

variable {sha256 : List UInt8 → Hash} {rlp : Rlp} {codec : PackInfoCodec} {s : Store} {d : Data}

variable (rlp) in
/-- Such an event is what its row decodes to. -/
theorem Writable.decodes {e : Event} (h : Writable sha256 e) :
    ∃ buf, (e.encodeRLP rlp : Go DecodeError _) = .ok buf ∧
      decodeRLP sha256 rlp buf = .ok e := by
  obtain ⟨buf, e', henc, hdec, he'⟩ := decodeRLP_encodeRLP sha256 rlp e h.version
  have hv : e.version.toNat < 16 := by rw [h.version]; decide
  obtain ⟨hsize, hhash, hid⟩ := (selfDescribed_iff hv).mp h.selfDescribed
  refine ⟨buf, henc, hdec.trans (congrArg _ ?_)⟩
  rw [he', received_partsOf sha256 e h.version h.count h.parents]
  obtain ⟨digest, hdigest⟩ : ∃ x, x = sha256 (BuiltEvents.unsigned (wire e)) := ⟨_, rfl⟩
  rw [← hdigest] at hhash hid
  calc
    builtFrom sha256 _ (wire e) = { e with
        id := ((mutableFrom e).setID (calcEventID digest)).id
        sizeCache := (wire e).length
        hashToSignCache := some digest } := by rw [hdigest]; rfl
    _ = e := by rw [← hid, ← hsize, ← hhash]

theorem Shows.evict (h : Shows sha256 rlp s d) (v : Evictions) :
    Shows sha256 rlp (evict s v) d where
  data := h.data
  coherent := by
    refine ⟨h.coherent.blocks.evict v.blocks, h.coherent.packInfos.evict v.packInfos, ?_, ?_⟩
    · intro x hx
      unfold CacheTransparency.evict at hx
      dsimp only at hx
      split at hx
      · cases hx
      · exact h.coherent.blockState x hx
    · intro x hx
      unfold CacheTransparency.evict at hx
      dsimp only at hx
      split at hx
      · cases hx
      · exact h.coherent.epochState x hx
  events := h.events.evict v.events

/-- Other tables may change under the events. -/
theorem Shows.other (h : Shows sha256 rlp s d) {s' : Store} {d' : Data} (hdata : s'.data = d')
    (hc : Coherent s') (hcache : s'.cache.events = s.cache.events) (hrows : d'.events = d.events) :
    Shows sha256 rlp s' d' where
  data := hdata
  coherent := hc
  events := by
    rw [hcache]
    refine h.events.mono fun id e hrow => ?_
    rw [eventRow, hrows]
    exact hrow

/-- A read that leaves everything but its cache alone. -/
theorem Shows.untouched (h : Shows sha256 rlp s d) {s' : Store} (hs : Untouched s s') :
    Shows sha256 rlp s' d :=
  h.other (hs.data.trans h.data) hs.coherent hs.events rfl

theorem Shows.setEvent (h : Shows sha256 rlp s d) {e : Event} (he : Writable sha256 e) :
    Matches sha256 rlp (exec sha256 rlp codec s (.setEvent e))
      (plainExec sha256 rlp codec d (.setEvent e)) := by
  obtain ⟨buf, henc, hdec⟩ := he.decodes rlp
  simp only [exec, plainExec, Store.setEvent, henc, ok_bind, pure_eq_ok, Matches, true_and]
  refine ⟨by rw [h.data], ⟨h.coherent.blocks, h.coherent.packInfos, h.coherent.blockState,
    h.coherent.epochState⟩, h.events.add ?_ ?_⟩
  · simp only [eventRow, Std.ExtTreeMap.getElem?_insert_self, hdec]
  · intro id x hne hrow
    have hcmp : compare e.id id ≠ .eq := fun heq => hne (Std.LawfulEqOrd.eq_of_compare heq).symm
    rw [eventRow, Std.ExtTreeMap.getElem?_insert, if_neg hcmp]
    exact hrow

theorem Shows.delEvent (h : Shows sha256 rlp s d) (id : EventID) :
    Shows sha256 rlp (s.delEvent id) { d with events := d.events.erase id } where
  data := by rw [Store.delEvent, h.data]
  coherent := ⟨h.coherent.blocks, h.coherent.packInfos, h.coherent.blockState,
    h.coherent.epochState⟩
  events := by
    refine h.events.remove fun x e hne hrow => ?_
    have hcmp : compare id x ≠ .eq := fun heq => hne (Std.LawfulEqOrd.eq_of_compare heq).symm
    rw [eventRow, Std.ExtTreeMap.getElem?_erase, if_neg hcmp]
    exact hrow

/-- The cached event is the one its row decodes to; a row that does not decode
ends the process either way. -/
theorem Shows.getEvent (h : Shows sha256 rlp s d) (id : EventID) :
    Matches sha256 rlp (exec sha256 rlp codec s (.getEvent id))
      (plainExec sha256 rlp codec d (.getEvent id)) := by
  have hcoh := h.coherent
  cases hc : s.cache.events.get id with
  | some e =>
    simp only [exec, plainExec, Store.getEvent, hc, h.events id e hc, ok_bind, pure_eq_ok]
    exact ⟨rfl, h⟩
  | none =>
    cases hrow : d.events[id]? with
    | none =>
      simp only [exec, plainExec, Store.getEvent, eventRow, hc, h.data, hrow, ok_bind, pure_eq_ok]
      exact ⟨rfl, h⟩
    | some buf =>
      simp only [exec, plainExec, Store.getEvent, eventRow, hc, h.data, hrow]
      cases hdec : decodeRLP sha256 rlp buf with
      | error f => rfl
      | ok e =>
        refine ⟨rfl, rfl, ?_, h.events.add ?_ fun _ _ _ hx => hx⟩
        · rw [← h.data]
          exact ⟨hcoh.blocks, hcoh.packInfos, hcoh.blockState, hcoh.epochState⟩
        · simp only [eventRow, hrow, hdec]

/-- Nothing is cached of a row that was never written. -/
theorem slot_empty {α : Type} {cached row : Option α}
    (h : ∀ v, cached = some v → row = some v)
    (hrow : row = none) : cached = none := by
  cases cached with
  | none => rfl
  | some v => rw [h v rfl] at hrow; cases hrow

theorem Shows.getBlockState (h : Shows sha256 rlp s d) :
    Matches sha256 rlp (exec sha256 rlp codec s .getBlockState)
      (plainExec sha256 rlp codec d .getBlockState) := by
  cases hrow : s.data.blockState with
  | none =>
    have hcache := slot_empty h.coherent.blockState hrow
    simp only [exec, plainExec, Store.getBlockState, hcache, hrow, ← h.data, rowOrCrit]
    rfl
  | some v =>
    obtain ⟨s', hget⟩ := getBlockState_returns (ε := DecodeError) h.coherent hrow
    simp only [exec, plainExec, hget, ← h.data, hrow, rowOrCrit, ok_bind, pure_eq_ok, Matches,
      true_and]
    rw [h.data]
    exact h.untouched (getBlockState_spec h.coherent hget).2

theorem Shows.getEpochState (h : Shows sha256 rlp s d) :
    Matches sha256 rlp (exec sha256 rlp codec s .getEpochState)
      (plainExec sha256 rlp codec d .getEpochState) := by
  cases hrow : s.data.epochState with
  | none =>
    have hcache := slot_empty h.coherent.epochState hrow
    simp only [exec, plainExec, Store.getEpochState, hcache, hrow, ← h.data, rowOrCrit]
    rfl
  | some v =>
    obtain ⟨s', hget⟩ := getEpochState_returns (ε := DecodeError) h.coherent hrow
    simp only [exec, plainExec, hget, ← h.data, hrow, rowOrCrit, ok_bind, pure_eq_ok, Matches,
      true_and]
    rw [h.data]
    exact h.untouched (getEpochState_spec h.coherent hget).2

variable (codec) in
/-- One call. -/
theorem exec_matches (h : Shows sha256 rlp s d) {op : Op}
    (hop : ∀ e, op = .setEvent e → Writable sha256 e) :
    Matches sha256 rlp (exec sha256 rlp codec s op) (plainExec sha256 rlp codec d op) := by
  cases op with
  | setEvent e => exact h.setEvent (hop e rfl)
  | delEvent id => exact ⟨rfl, h.delEvent id⟩
  | getEvent id => exact h.getEvent id
  | hasEvent id => exact ⟨by rw [Store.hasEvent, h.data], h⟩
  | getEventRLP id => exact ⟨by rw [Store.getEventRLP, h.data], h⟩
  | setBlock n b =>
    exact ⟨rfl, h.other (by rw [Store.setBlock, h.data]) (h.coherent.setBlock n b) rfl rfl⟩
  | getBlock n =>
    obtain ⟨hv, hs⟩ := getBlock_spec h.coherent n
    exact ⟨by rw [hv, h.data], h.untouched hs⟩
  | setPackInfo epoch idx v =>
    exact ⟨rfl, h.other (by rw [Store.setPackInfo, h.data])
      (h.coherent.setPackInfo epoch idx v) rfl
      rfl⟩
  | getPackInfo epoch idx =>
    obtain ⟨hv, hs⟩ := getPackInfo_spec h.coherent epoch idx
    exact ⟨by rw [hv, h.data], h.untouched hs⟩
  | getPackInfoRLP epoch idx => exact ⟨by rw [PackMessages.getPackInfoRLP, h.data], h⟩
  | setBlockState v =>
    exact ⟨rfl, h.other (by rw [Store.setBlockState, h.data])
      (h.coherent.setBlockState v) rfl rfl⟩
  | getBlockState => exact h.getBlockState
  | setEpochState v =>
    exact ⟨rfl, h.other (by rw [Store.setEpochState, h.data])
      (h.coherent.setEpochState v) rfl rfl⟩
  | getEpochState => exact h.getEpochState

/-- A whole sequence, by induction on it. -/
theorem run_matches (h : Shows sha256 rlp s d) {ops : List (Evictions × Op)}
    (hops : ∀ x ∈ ops, ∀ e, x.2 = .setEvent e → Writable sha256 e) :
    run sha256 rlp codec s ops = plainRun sha256 rlp codec d (ops.map Prod.snd) := by
  induction ops generalizing s d with
  | nil => rfl
  | cons x rest ih =>
    obtain ⟨v, op⟩ := x
    have hstep := exec_matches codec (h.evict v) (hops (v, op) List.mem_cons_self)
    simp only [run, List.map_cons, plainRun]
    split
    · next a s' hs =>
      split
      · next b d' hd =>
        rw [hs, hd] at hstep
        obtain ⟨rfl, hshows⟩ := hstep
        rw [ih hshows fun x hx => hops x (List.mem_cons_of_mem _ hx)]
      · next f hd =>
        rw [hs, hd] at hstep
        exact absurd hstep id
    · next f hs =>
      split
      · next b d' hd =>
        rw [hs, hd] at hstep
        exact absurd hstep id
      · next g hd =>
        rw [hs, hd] at hstep
        rw [show f = g from hstep]

end Simulation

/-- The tables of a database that was opened, and empty caches. -/
def openStore (d : Data) (cfg : CacheConfig) : Store :=
  ⟨d, ⟨newCache cfg.events, newCache cfg.blocks, newCache cfg.packInfos, none, none⟩⟩

/-- **The caches are transparent.** -/
theorem caches_transparent (sha256 : List UInt8 → Hash) (rlp : Rlp)
    (codec : PackInfoCodec) (d : Data)
    (cfg : CacheConfig) (ops : List (Evictions × Op))
    (hops : ∀ x ∈ ops, ∀ e, x.2 = .setEvent e → Writable sha256 e) :
    run sha256 rlp codec (openStore d cfg) ops =
      plainRun sha256 rlp codec d (ops.map Prod.snd) := by
  refine run_matches ⟨rfl, ⟨agrees_newCache _ _, agrees_newCache _ _, ?_, ?_⟩,
    agrees_newCache _ _⟩ hops
  · intro v hv
    cases hv
  · intro v hv
    cases hv

/-- The events cache is on and forgets nothing by itself. -/
def eventsCached : CacheConfig := ⟨some fun _ _ => true, none, none⟩

def keepAll : Evictions := ⟨fun _ => false, fun _ => false, fun _ => false, false, false⟩

def loseEvents : Evictions := { keepAll with events := fun _ => true }

/-- An event is read from the cache, and again after it was lost there. -/
theorem caches_transparent_lost :
    run (fun _ => Bytes.zero 32) rlpString rlpPackInfo (openStore .empty eventsCached)
        [(keepAll, .setEvent (Consensus.chainEvent 2)),
          (keepAll, .getEvent (Consensus.chainEvent 2).id),
          (loseEvents, .getEvent (Consensus.chainEvent 2).id), (keepAll, .getBlockState)] =
      [.ok .done, .ok (.event (some (Consensus.chainEvent 2))),
        .ok (.event (some (Consensus.chainEvent 2))),
        .error (.panic (.message "Genesis not applied"))] := by
  rw [caches_transparent]
  · decide +kernel
  · intro x hx e he
    have hwritten : e = Consensus.chainEvent 2 := by
      simp only [List.mem_cons, List.not_mem_nil, or_false] at hx
      rcases hx with rfl | rfl | rfl | rfl <;> cases he
      rfl
    rw [hwritten]
    exact ⟨builtFrom_selfDescribed (by decide), by unfold ParentsOfEpoch; decide,
      rfl, by decide⟩

section ReadBack

variable {sha256 : List UInt8 → Hash} {rlp : Rlp} {codec : PackInfoCodec} {e : Event}

/-- Written and read again, with the cache. -/
theorem run_readBack (hv : e.version.toNat < 16) :
    run sha256 rlp codec (openStore .empty eventsCached)
        [(keepAll, .setEvent e), (keepAll, .getEvent e.id)] =
      [.ok .done, .ok (.event (some e))] := by
  have henc : (e.encodeRLP rlp : Go DecodeError _) = .ok (rlp.encode (wire e)) := by
    simp only [Event.encodeRLP, marshalBinary_eq_wire e hv, ok_bind, pure_eq_ok]
  simp [run, exec, Store.setEvent, Store.getEvent, henc, openStore, newCache, eventsCached, evict,
    keepAll, OptCache.evict, OptCache.add, OptCache.get]

/-- The same without, for a version that is decoded. -/
theorem plainRun_readBack (hv : e.version = 0) :
    plainRun sha256 rlp codec .empty [.setEvent e, .getEvent e.id] =
      [.ok .done, .ok (.event (some
        (builtFrom sha256 (received sha256 (partsOf e) e.sig MutableEvent.zero.id)
          (wire e))))] := by
  obtain ⟨buf, e', henc, hdec, rfl⟩ := decodeRLP_encodeRLP sha256 rlp e hv
  simp [plainRun, plainExec, henc, eventRow, hdec]

theorem restored_parents (id : EventID) (b : List UInt8) :
    (builtFrom sha256 (received sha256 (partsOf e) e.sig id) b).parents =
      (partsOf e).tails.map (parentOf ((partsOf e).field 0)) := rfl

end ReadBack

/-- An event of a version that is not decoded. -/
def futureEvent : Event :=
  builtFrom (fun _ => Bytes.zero 32) (MutableEvent.zero.setVersion 1)
    (wire (MutableEvent.zero.setVersion 1).immutable)

/-- An event whose number of parents is written as zero. -/
def crowdedDraft : MutableEvent := MutableEvent.zero.setParents
    (List.replicate (2 ^ 32) (Bytes.zero 32))

def crowdedEvent : Event :=
  builtFrom (fun _ => Bytes.zero 32) crowdedDraft (wire crowdedDraft.immutable)

/-- Self-described events that the checks do not let through: one is lost
without the cache, the other comes back without its parents. -/
theorem unchecked_events_differ :
    (SelfDescribed (fun _ => Bytes.zero 32) futureEvent ∧
      ParentsOfEpoch futureEvent.epoch futureEvent.parents ∧
      run (fun _ => Bytes.zero 32) rlpString rlpPackInfo (openStore .empty eventsCached)
          [(keepAll, .setEvent futureEvent), (keepAll, .getEvent futureEvent.id)] =
        [.ok .done, .ok (.event (some futureEvent))] ∧
      plainRun (fun _ => Bytes.zero 32) rlpString rlpPackInfo .empty
          [.setEvent futureEvent, .getEvent futureEvent.id] =
        [.ok .done, .error (.panic (.message "Failed to decode rlp"))]) ∧
    (SelfDescribed (fun _ => Bytes.zero 32) crowdedEvent ∧
      ParentsOfEpoch crowdedEvent.epoch crowdedEvent.parents ∧
      run (fun _ => Bytes.zero 32) rlpString rlpPackInfo (openStore .empty eventsCached)
          [(keepAll, .setEvent crowdedEvent), (keepAll, .getEvent crowdedEvent.id)] =
        [.ok .done, .ok (.event (some crowdedEvent))] ∧
      ∃ e, plainRun (fun _ => Bytes.zero 32) rlpString rlpPackInfo .empty
          [.setEvent crowdedEvent, .getEvent crowdedEvent.id] =
        [.ok .done, .ok (.event (some e))] ∧ e.parents = [] ∧ crowdedEvent.parents ≠ []) := by
  have hparents : crowdedEvent.parents = List.replicate (2 ^ 32) (Bytes.zero 32) := rfl
  have hv : crowdedEvent.version.toNat < 16 := show (0 : UInt8).toNat < 16 by decide
  have hself : SelfDescribed (fun _ => Bytes.zero 32) crowdedEvent := builtFrom_selfDescribed hv
  refine ⟨⟨builtFrom_selfDescribed (by decide), by unfold ParentsOfEpoch; decide,
    run_readBack (by decide), by decide +kernel⟩, hself, ?_, run_readBack hv, _,
    plainRun_readBack rfl, ?_, ?_⟩
  · intro p hp
    rw [hparents] at hp
    rw [List.eq_of_mem_replicate hp]
    decide
  · have htails : (partsOf crowdedEvent).tails = [] := by
      rw [partsOf, hparents, List.length_replicate, Nat.mod_self, List.take_zero]
    rw [restored_parents, htails, List.map_nil]
  · rw [hparents]
    intro hnil
    have hlen := congrArg List.length hnil
    rw [List.length_replicate] at hlen
    exact absurd hlen (by decide)

end MiniOpera.CacheTransparency
