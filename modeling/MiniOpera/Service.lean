import MiniOpera.Consensus

/-!
# `processEvent`

The pack bookkeeping of `pack.go`, `Service.processEvent` and the reply to a
`GetPackMsg`. What the engine, the clock and the disk decide during a call is
its `Outcome`. An engine that returns an error has called no callback.

`processEvent_cases` says once what a call can do: it rejects the event and
leaves the data as it was (`Rejected`), or it connects it (`Connected`).
Everything proved about runs starts from it.
-/

namespace MiniOpera.Service
open GoRuntime InterEvent EventCheck GossipStore Caching ByteOrder Consensus

inductive ServiceError
  | stopped
  | check (err : CheckError)
  | engine (code : Nat)
  | flush (code : Nat)
  deriving DecidableEq

def ServiceError.isFlush : ServiceError → Bool
  | .flush _ => true
  | _ => false

/-- What others decide while an event is processed. -/
structure Outcome where
  /-- The events the engine reads. -/
  reads : List EventID
  engine : Except Nat (List CBlock)
  /-- `DetectParallelInstance`. -/
  parallelInstance : Bool
  epochDBClosed : Bool
  flushNeeded : Bool
  flush : Option Nat

/-! ## `pack.go` -/

def softResponseLimitSize : Nat := 2 * 1024 * 1024
def softLimitItems : Nat := 250
def maxPackSize : UInt32 := UInt32.ofNat softResponseLimitSize
def maxPackEventsNum : UInt32 := UInt32.ofNat softLimitItems

def packsOnNewEvent (s : Store) (e : Event) (epoch : Nat) : Store :=
  let packIdx := s.getPacksNumOrDefault epoch
  let (packInfo, s) := s.getPackInfoOrDefault epoch packIdx
  let s := s.addToPack epoch packIdx e.id
  let packInfo := { packInfo with
    index := packIdx
    numOfEvents := packInfo.numOfEvents + 1
    size := packInfo.size + UInt32.ofNat e.size }
  if packInfo.numOfEvents ≥ maxPackEventsNum ∨ packInfo.size ≥ maxPackSize then
    -- pin the heads
    let packInfo := { packInfo with heads := s.getHeads }
    (s.setPacksNum epoch (packIdx + 1)).setPackInfo epoch packIdx packInfo
  else s.setPackInfo epoch packIdx packInfo

def packsOnNewEpoch (s : Store) (oldEpoch : Nat) : Store :=
  let packIdx := s.getPacksNumOrDefault oldEpoch
  let (packInfo, s) := s.getPackInfoOrDefault oldEpoch packIdx
  let packInfo := { packInfo with heads := s.getHeads }
  -- the last pack is always not pinned, so create not pinned one
  (s.setPackInfo oldEpoch packIdx packInfo).setPacksNum oldEpoch (packIdx + 1)

/-! ## `processEvent` -/

/-- `Emitter.OnNewEvent`; a parallel instance of the validator stops the node. -/
def onNewEvent (em : Option Emitter) (e : Event) (parallelInstance : Bool) :
    Go ServiceError Unit :=
  match em with
  | none => .error (.panic .nilDereference)
  | some em =>
    if em.validator = 0 ∨ em.validator ≠ e.creator then .ok ()
    else if em.prevLocalEmittedID = e.id then .ok ()
    else if parallelInstance then .error (.panic (.message "unreachable"))
    else .ok ()

/-- `Store.Commit`: the error of the flush, if there is one. -/
def commit (immediately : Bool) (o : Outcome) : Option ServiceError :=
  if !immediately && !o.flushNeeded then none else o.flush.map .flush

section

variable (w : World)

def readEvents (s : Store) : List EventID → Go ServiceError Store
  | [] => .ok s
  | id :: ids => do
    let (_, s) ← s.getEvent w.sha256 w.rlp id
    readEvents s ids

def processBlocks (n : Node) : List CBlock → Go ServiceError Node
  | [] => .ok n
  | cBlock :: rest => do
    let (_, n) ← processBlock w n cBlock
    processBlocks n rest

/-- The part of `processEvent` after the engine has accepted the event. -/
def connectEvent (n : Node) (e : Event) (oldEpoch : Nat) (o : Outcome) :
    Go ServiceError (Node × Option ServiceError) := do
  let store := packsOnNewEvent n.store e e.epoch.toNat
  onNewEvent n.emitter e o.parallelInstance
  let (newEpoch, store) ← store.getEpoch
  let store :=
    if newEpoch = oldEpoch then
      (e.parents.foldl Store.delHead (store.setLastEvent e.creator e.id)).addHead e.id
    else (packsOnNewEpoch store oldEpoch).resetEpochStore newEpoch o.epochDBClosed
  return ({ n with store := store }, commit (newEpoch ≠ oldEpoch) o)

def processEvent (n : Node) (e : Event) (o : Outcome) :
    Go ServiceError (Node × Option ServiceError) :=
  if n.stopped then .ok (n, some .stopped)
  else if n.store.hasEvent e.id then .ok (n, some (.check .alreadyConnected))
  else do
    let (es, store) ← n.store.getEpochState
    match w.base.epoch es.validators es.epoch e with
    | .error (.panic p) => .error (.panic p)
    | .error (.error err) => .ok ({ n with store := store }, some (.check err))
    | .ok () =>
      let (oldEpoch, store) ← store.getEpoch
      let store ← store.setEvent w.rlp e
      let store ← readEvents w store o.reads
      match o.engine with
      | .error code => .ok ({ n with store := store.delEvent e.id }, some (.engine code))
      | .ok blocks =>
        let n ← processBlocks w { n with store := store } blocks
        connectEvent n e oldEpoch o

/-- `processEvent` up to the call of the engine: the error of a check, or the
epoch in which the event was stored. -/
def admitEvent (n : Node) (e : Event) : Go ServiceError (Node × Except ServiceError Nat) :=
  if n.stopped then .ok (n, .error .stopped)
  else if n.store.hasEvent e.id then .ok (n, .error (.check .alreadyConnected))
  else do
    let (es, store) ← n.store.getEpochState
    match w.base.epoch es.validators es.epoch e with
    | .error (.panic p) => .error (.panic p)
    | .error (.error err) => .ok ({ n with store := store }, .error (.check err))
    | .ok () =>
      let (oldEpoch, store) ← store.getEpoch
      let store ← store.setEvent w.rlp e
      return ({ n with store := store }, .ok oldEpoch)

/-- `processEvent` from the call of the engine on. -/
def engineEvent (n : Node) (e : Event) (oldEpoch : Nat) (o : Outcome) :
    Go ServiceError (Node × Option ServiceError) := do
  let store ← readEvents w n.store o.reads
  match o.engine with
  | .error code => .ok ({ n with store := store.delEvent e.id }, some (.engine code))
  | .ok blocks =>
    let n ← processBlocks w { n with store := store } blocks
    connectEvent n e oldEpoch o

theorem processEvent_eq (n : Node) (e : Event) (o : Outcome) :
    processEvent w n e o = (do
      let (n, r) ← admitEvent w n e
      match r with
      | .error err => .ok (n, some err)
      | .ok oldEpoch => engineEvent w n e oldEpoch o) := by
  unfold processEvent admitEvent
  split
  · rfl
  · split
    · rfl
    · cases n.store.getEpochState with
      | error f => rfl
      | ok p =>
        obtain ⟨es, store⟩ := p
        simp only [ok_bind]
        split
        · rfl
        · rfl
        · cases store.getEpoch with
          | error f => rfl
          | ok p =>
            simp only [ok_bind]
            cases p.2.setEvent w.rlp e <;> rfl

end

/-- The loop of `handleMsg` over the IDs of a pack: it appends before it looks
at its index. -/
def packLoop : Nat → List EventID → List EventID
  | _, [] => []
  | i, id :: rest => if i ≥ softLimitItems then [id] else id :: packLoop (i + 1) rest

/-- The reply of `handleMsg` to a `GetPackMsg`, if one is sent. -/
def getPackReply (s : Store) (myEpoch epoch idx : Nat) : Option (List EventID) :=
  if epoch > myEpoch then none
  else
    let ids := packLoop 0 (s.getPack epoch idx)
    if ids.length ≠ 0 then some ids else none

/-! ## The packs without the caches -/

/-- The info of the current pack with one more event. -/
def packEntry (d : Data) (e : Event) (epoch : Nat) : PackInfo :=
  let packIdx := (d.packsNum epoch).getD 1
  let packInfo := (d.packInfos (epoch, packIdx)).getD ⟨packIdx, 0, 0, []⟩
  { packInfo with
    index := packIdx
    numOfEvents := packInfo.numOfEvents + 1
    size := packInfo.size + UInt32.ofNat e.size }

def isFull (packInfo : PackInfo) : Prop :=
  packInfo.numOfEvents ≥ maxPackEventsNum ∨ packInfo.size ≥ maxPackSize

instance (packInfo : PackInfo) : Decidable (isFull packInfo) :=
  inferInstanceAs (Decidable (_ ∨ _))

def recordInPack (d : Data) (e : Event) (epoch : Nat) : Data :=
  let packIdx := (d.packsNum epoch).getD 1
  let packs := Function.update d.packs (epoch, packIdx) ((d.packs (epoch, packIdx)).insert e.id)
  if isFull (packEntry d e epoch) then
    { d with
      packs := packs
      packsNum := Function.update d.packsNum epoch (some (packIdx + 1))
      packInfos := Function.update d.packInfos (epoch, packIdx)
        (some { packEntry d e epoch with heads := d.heads }) }
  else
    { d with
      packs := packs
      packInfos := Function.update d.packInfos (epoch, packIdx) (some (packEntry d e epoch)) }

def pinLastPack (d : Data) (epoch : Nat) : Data :=
  let packIdx := (d.packsNum epoch).getD 1
  let packInfo := (d.packInfos (epoch, packIdx)).getD ⟨packIdx, 0, 0, []⟩
  { d with
    packsNum := Function.update d.packsNum epoch (some (packIdx + 1))
    packInfos := Function.update d.packInfos (epoch, packIdx)
      (some { packInfo with heads := d.heads }) }

theorem packsOnNewEvent_spec {s : Store} (h : Coherent s) (e : Event) (epoch : Nat) :
    (packsOnNewEvent s e epoch).data = recordInPack s.data e epoch ∧
      (packsOnNewEvent s e epoch).cache.events = s.cache.events ∧
      Coherent (packsOnNewEvent s e epoch) := by
  obtain ⟨hinfo, hs⟩ := getPackInfoOrDefault_spec h epoch (s.getPacksNumOrDefault epoch)
  generalize hg : s.getPackInfoOrDefault epoch (s.getPacksNumOrDefault epoch) = r at hinfo hs
  obtain ⟨packInfo, s1⟩ := r
  obtain ⟨hdata, hevents, hcoh⟩ := hs
  have hadd := hcoh.addToPack epoch (s.getPacksNumOrDefault epoch) e.id
  have hentry : packEntry s.data e epoch =
      { packInfo with
        index := s.getPacksNumOrDefault epoch
        numOfEvents := packInfo.numOfEvents + 1
        size := packInfo.size + UInt32.ofNat e.size } := by
    rw [show packInfo = _ from hinfo]; rfl
  simp only [packsOnNewEvent, hg, recordInPack, isFull, hentry]
  split
  · refine ⟨?_, hevents, ?_⟩
    · simp only [Store.setPackInfo, Store.setPacksNum, Store.addToPack, Store.getHeads, Data.heads,
        Store.getPacksNumOrDefault, Store.getPacksNum]
      rw [show s1.data = s.data from hdata]
    · exact (hadd.setPacksNum _ _).setPackInfo _ _ _
  · refine ⟨?_, hevents, hadd.setPackInfo _ _ _⟩
    simp only [Store.setPackInfo, Store.addToPack, Store.getPacksNumOrDefault, Store.getPacksNum]
    rw [show s1.data = s.data from hdata]

theorem packsOnNewEpoch_spec {s : Store} (h : Coherent s) (oldEpoch : Nat) :
    (packsOnNewEpoch s oldEpoch).data = pinLastPack s.data oldEpoch ∧
      (packsOnNewEpoch s oldEpoch).cache.events = s.cache.events ∧
      Coherent (packsOnNewEpoch s oldEpoch) := by
  obtain ⟨hinfo, hs⟩ := getPackInfoOrDefault_spec h oldEpoch (s.getPacksNumOrDefault oldEpoch)
  generalize hg : s.getPackInfoOrDefault oldEpoch (s.getPacksNumOrDefault oldEpoch) = r at hinfo hs
  obtain ⟨packInfo, s1⟩ := r
  obtain ⟨hdata, hevents, hcoh⟩ := hs
  simp only [packsOnNewEpoch, hg]
  refine ⟨?_, hevents, ?_⟩
  · simp only [Store.setPackInfo, Store.setPacksNum, Store.getHeads, pinLastPack]
    rw [show s1.data = s.data from hdata, show packInfo = _ from hinfo]
    rfl
  · exact (hcoh.setPackInfo _ _ _).setPacksNum _ _

/-! ## What the blocks change -/

/-- The published keys are those of the genesis validators for some epoch. -/
def Published (w : World) (n : Node) : Prop := ∃ k, n.pubKeys = newEpochPubKeys k w.net.validators

/-- Blocks write the block table and the two states, and the epoch only grows. -/
structure BlockEffect (w : World) (n n' : Node) : Prop where
  coherent : Coherent n'.store
  eventsCache : n'.store.cache.events = n.store.cache.events
  data : ∃ blocks bs es, n'.store.data =
    { n.store.data with blocks := blocks, blockState := bs, epochState := es }
  epoch : ∀ es, n.store.data.epochState = some es →
    ∃ es', n'.store.data.epochState = some es' ∧ es.epoch ≤ es'.epoch ∧
      es'.validators = es.validators
  emitter : n'.emitter = n.emitter
  stopped : n'.stopped = n.stopped
  keys : Published w n → Published w n'

theorem BlockEffect.refl {w : World} {n : Node} (h : Coherent n.store) : BlockEffect w n n :=
  ⟨h, rfl, ⟨_, _, _, rfl⟩, fun es hes => ⟨es, hes, Nat.le_refl _, rfl⟩,
    rfl, rfl, fun hk => hk⟩

theorem BlockEffect.trans {w : World} {n n' n'' : Node} (h : BlockEffect w n n')
    (h' : BlockEffect w n' n'') : BlockEffect w n n'' where
  coherent := h'.coherent
  eventsCache := h'.eventsCache.trans h.eventsCache
  data := by
    obtain ⟨_, _, _, hd⟩ := h.data
    obtain ⟨bl, bs, es, hd'⟩ := h'.data
    exact ⟨bl, bs, es, by rw [hd', hd]⟩
  epoch := by
    intro es hes
    obtain ⟨es1, h1, hle, hv⟩ := h.epoch es hes
    obtain ⟨es2, h2, hle', hv'⟩ := h'.epoch es1 h1
    exact ⟨es2, h2, Nat.le_trans hle hle', hv'.trans hv⟩
  emitter := h'.emitter.trans h.emitter
  stopped := h'.stopped.trans h.stopped
  keys := fun hk => h'.keys (h.keys hk)

/-- The first half of `EndBlock` stores the block and publishes the keys of the
epoch that the second half is going to start. -/
theorem endBlockPublish_spec {w : World} {n n' : Node} {cBlock : CBlock} {b : BlockVars}
    {ending : Ending} (hc : Coherent n.store)
    (h : (endBlockPublish w n cBlock b : Go ServiceError _) = .ok (ending, n')) :
    BlockEffect w n n' ∧ n'.store.data.epochState = n.store.data.epochState ∧
      ((ending.sealed = none ∧ n'.pubKeys = n.pubKeys) ∨
        ∃ es, n.store.data.epochState = some es ∧
          ending.sealed = some { es with epoch := es.epoch + 1 } ∧
          n'.pubKeys = newEpochPubKeys (es.epoch + 1) w.net.validators) := by
  obtain ⟨⟨bs, s1⟩, hbs, h⟩ := bind_eq_ok h
  obtain ⟨-, hd1, hev1, hc1⟩ := getBlockState_spec hc hbs
  dsimp only at h
  split at h
  · cases h
  · next atropos _ =>
    generalize hblock : Block.mk _ _ _ = block at h
    have hset := hc1.setBlock (bs.block + 1) block
    have hdata : (s1.setBlock (bs.block + 1) block).data = { n.store.data with
        blocks := Function.update n.store.data.blocks (bs.block + 1) (some block) } := by
      rw [Store.setBlock, hd1]
    split at h
    · obtain ⟨⟨es, s2⟩, hes, h⟩ := bind_eq_ok h
      obtain ⟨hrow, hd2, hev2, hc2⟩ := getEpochState_spec hset hes
      have hrow' : n.store.data.epochState = some es := by rw [← hd1]; exact hrow
      cases h
      have hsame : s2.data.epochState = n.store.data.epochState := by
        rw [hd2, ← hd1]; rfl
      exact ⟨⟨hc2, hev2.trans hev1, ⟨_, _, _, hd2.trans hdata⟩,
        fun es' hes' => ⟨es', hsame.trans hes', Nat.le_refl _, rfl⟩, rfl,
          rfl, fun _ => ⟨_, rfl⟩⟩,
        hsame, .inr ⟨es, hrow', rfl, rfl⟩⟩
    · cases h
      have hsame : s1.data.epochState = n.store.data.epochState := congrArg Data.epochState hd1
      exact ⟨⟨hset, hev1, ⟨_, _, _, hdata⟩,
        fun es' hes' => ⟨es', hsame.trans hes', Nat.le_refl _, rfl⟩, rfl, rfl, fun hk => hk⟩,
        hsame, .inl ⟨rfl, rfl⟩⟩

/-- The second half writes the two states. -/
theorem endBlockWrite_spec {w : World} {n : Node} {ending : Ending} (hc : Coherent n.store)
    (hsealed : ∀ es', ending.sealed = some es' → ∃ es, n.store.data.epochState = some es ∧
      es' = { es with epoch := es.epoch + 1 }) :
    BlockEffect w n (endBlockWrite n ending).2 := by
  cases hs : ending.sealed with
  | none =>
    have hn : (endBlockWrite n ending).2 =
        { n with store := n.store.setBlockState ending.blockState } := by
      simp only [endBlockWrite, hs]
    rw [hn]
    exact ⟨hc.setBlockState _, rfl, ⟨_, _, _, rfl⟩,
      fun es hes => ⟨es, hes, Nat.le_refl _, rfl⟩, rfl, rfl, fun hk => hk⟩
  | some es' =>
    obtain ⟨es, hes, rfl⟩ := hsealed es' hs
    have hn : (endBlockWrite n ending).2 = { n with
        store := (n.store.setEpochState ⟨es.epoch + 1, es.validators⟩).setBlockState
          ending.blockState } := by
      simp only [endBlockWrite, hs]
    rw [hn]
    refine ⟨(hc.setEpochState _).setBlockState _, rfl, ⟨_, _, _, rfl⟩, ?_,
      rfl, rfl, fun hk => hk⟩
    intro es0 hes0
    rw [hes] at hes0
    cases hes0
    exact ⟨_, rfl, Nat.le_succ _, rfl⟩

theorem processBlock_spec {w : World} {n n' : Node} {cBlock : CBlock}
    {v : Option (List Validator)} (hc : Coherent n.store)
    (h : (processBlock w n cBlock : Go ServiceError _) = .ok (v, n')) : BlockEffect w n n' := by
  obtain ⟨⟨ending, n1⟩, hpub, hw⟩ := bind_eq_ok h
  obtain ⟨heff, hsame, hcase⟩ := endBlockPublish_spec hc hpub
  injection hw with hw
  have hn' : n' = (endBlockWrite n1 ending).2 := by rw [hw]
  rw [hn']
  refine heff.trans (endBlockWrite_spec heff.coherent ?_)
  intro es' hes'
  rcases hcase with ⟨hnone, _⟩ | ⟨es, hrow, hsome, _⟩
  · rw [hnone] at hes'
    cases hes'
  · rw [hsome] at hes'
    cases hes'
    exact ⟨es, hsame.trans hrow, rfl⟩

theorem processBlocks_spec {w : World} {n n' : Node} {blocks : List CBlock}
    (hc : Coherent n.store) (h : processBlocks w n blocks = .ok n') : BlockEffect w n n' := by
  induction blocks generalizing n with
  | nil =>
    cases h
    exact .refl hc
  | cons cBlock rest ih =>
    obtain ⟨⟨v, n1⟩, hblock, hrest⟩ := bind_eq_ok h
    have heff := processBlock_spec hc hblock
    exact heff.trans (ih heff.coherent hrest)

/-! ## What may be read as an event -/

/-- The relation allows every cached event and every event a row decodes to. -/
def EventsRule (w : World) (R : EventID → Event → Prop) (s : Store) : Prop :=
  Agrees R s.cache.events ∧
    ∀ id buf e, s.data.events[id]? = some buf → decodeRLP w.sha256 w.rlp buf = .ok e → R id e

/-- What `R` allows, and under `e`'s ID what `e` is and what it decodes to. -/
def WithEvent (w : World) (e : Event) (R : EventID → Event → Prop) (id : EventID) (x : Event) :
    Prop :=
  (id = e.id ∧ (x = e ∨ ∃ buf, (e.encodeRLP w.rlp : Go ServiceError _) = .ok buf ∧
    decodeRLP w.sha256 w.rlp buf = .ok x)) ∨ (id ≠ e.id ∧ R id x)

theorem readEvents_spec {w : World} {R : EventID → Event → Prop} {s s' : Store}
    {ids : List EventID} (hR : EventsRule w R s) (h : readEvents w s ids = .ok s') :
    s'.data = s.data ∧ (Coherent s → Coherent s') ∧ EventsRule w R s' := by
  induction ids generalizing s with
  | nil =>
    cases h
    exact ⟨rfl, fun hc => hc, hR⟩
  | cons id ids ih =>
    obtain ⟨⟨r, s1⟩, hget, hrest⟩ := bind_eq_ok h
    obtain ⟨hd, hc, hag, -, -⟩ := getEvent_spec hR.1 (hR.2 id) hget
    obtain ⟨hd', hc', hR'⟩ :=
      ih ⟨hag, by rw [show s1.data = s.data from hd]; exact hR.2⟩ hrest
    exact ⟨hd'.trans hd, fun h => hc' (hc h), hR'⟩

theorem setEvent_spec {w : World} {s s' : Store} {e : Event}
    (h : (s.setEvent w.rlp e : Go ServiceError _) = .ok s') :
    ∃ buf, (e.encodeRLP w.rlp : Go ServiceError _) = .ok buf ∧
      s'.data = { s.data with events := s.data.events.insert e.id buf } ∧
      (Coherent s → Coherent s') ∧
      ∀ R, EventsRule w R s → EventsRule w (WithEvent w e R) s' := by
  obtain ⟨buf, hbuf, h⟩ := bind_eq_ok h
  cases h
  refine ⟨buf, hbuf, rfl, fun h => ⟨h.blocks, h.packInfos, h.blockState, h.epochState⟩, ?_⟩
  intro R hR
  refine ⟨hR.1.add (.inl ⟨rfl, .inl rfl⟩) fun x y hne hxy => .inr ⟨hne, hxy⟩, ?_⟩
  intro id buf' x hrow hdec
  rw [Std.ExtTreeMap.getElem?_insert] at hrow
  by_cases hid : e.id = id
  · rw [if_pos (by rw [hid]; exact Std.ReflOrd.compare_self)] at hrow
    cases hrow
    exact .inl ⟨hid.symm, .inr ⟨buf, hbuf, hdec⟩⟩
  · rw [if_neg (fun h => hid (Std.LawfulEqOrd.eq_of_compare h))] at hrow
    exact .inr ⟨fun h => hid h.symm, hR.2 id buf' x hrow hdec⟩

/-- Removing the row that was added gives the table back. -/
theorem erase_insert {t : Std.ExtTreeMap EventID (List UInt8)} {id : EventID} {buf : List UInt8}
    (h : t[id]? = none) : (t.insert id buf).erase id = t := by
  apply Std.ExtTreeMap.ext_getElem?
  intro k
  rw [Std.ExtTreeMap.getElem?_erase, Std.ExtTreeMap.getElem?_insert]
  by_cases hk : compare id k = .eq
  · rw [if_pos hk, ← Std.LawfulEqOrd.eq_of_compare hk, h]
  · rw [if_neg hk, if_neg hk]

/-! ## What a call can do -/

/-- The tip and the heads of the epoch after an event. -/
def linkEvent (e : Event) (db : EpochDB) : EpochDB :=
  (e.parents.foldl EpochDB.delHead (db.setLastEvent e.creator e.id)).addHead e.id

/-- The last writes of `processEvent`. -/
def settle (d : Data) (e : Event) (oldEpoch newEpoch : Nat) (closed : Bool) : Data :=
  if newEpoch = oldEpoch then d.updateEpochDB (linkEvent e)
  else (pinLastPack d oldEpoch).resetEpochStore newEpoch closed

theorem updateEpochDB_comp (s : Store) (f g : EpochDB → EpochDB) :
    (s.updateEpochDB f).updateEpochDB g = s.updateEpochDB fun db => g (f db) := by
  simp only [Store.updateEpochDB, Data.updateEpochDB]
  cases hk : s.data.epochStore with
  | none => simp only [hk]
  | some k => simp only [Function.update_self, Function.update_idem]

theorem foldl_delHead (s : Store) (f : EpochDB → EpochDB) (parents : List EventID) :
    parents.foldl Store.delHead (s.updateEpochDB f) =
      s.updateEpochDB fun db => parents.foldl EpochDB.delHead (f db) := by
  induction parents generalizing f with
  | nil => rfl
  | cons p parents ih =>
    rw [List.foldl_cons, Store.delHead, updateEpochDB_comp, ih]
    rfl

theorem linkEvent_store (s : Store) (e : Event) :
    (e.parents.foldl Store.delHead (s.setLastEvent e.creator e.id)).addHead e.id =
      s.updateEpochDB (linkEvent e) := by
  rw [Store.setLastEvent, foldl_delHead, Store.addHead, updateEpochDB_comp]
  rfl

/-- The tables and rows that packs and heads are not kept in. -/
structure SameRows (d d' : Data) : Prop where
  events : d'.events = d.events
  blocks : d'.blocks = d.blocks
  blockState : d'.blockState = d.blockState
  epochState : d'.epochState = d.epochState

/-- The pack bookkeeping writes the three pack tables only. -/
theorem recordInPack_frame (d : Data) (e : Event) (epoch : Nat) :
    SameRows d (recordInPack d e epoch) ∧ (recordInPack d e epoch).epochDBs = d.epochDBs ∧
      (recordInPack d e epoch).epochStore = d.epochStore := by
  simp only [recordInPack]
  split <;> exact ⟨⟨rfl, rfl, rfl, rfl⟩, rfl, rfl⟩

theorem settle_frame (d : Data) (e : Event) (oldEpoch newEpoch : Nat) (closed : Bool) :
    SameRows d (settle d e oldEpoch newEpoch closed) := by
  unfold settle Data.updateEpochDB Data.resetEpochStore
  split
  · split <;> exact ⟨rfl, rfl, rfl, rfl⟩
  · split
    · exact ⟨rfl, rfl, rfl, rfl⟩
    · split <;> exact ⟨rfl, rfl, rfl, rfl⟩

/-- Once the engine has accepted the event, only the flush can fail. -/
theorem connectEvent_error {n n' : Node} {e : Event} {oldEpoch : Nat} {o : Outcome}
    {r : Option ServiceError} (h : connectEvent n e oldEpoch o = .ok (n', r)) :
    r = none ∨ ∃ code, r = some (.flush code) := by
  obtain ⟨⟨⟩, -, h⟩ := bind_eq_ok h
  obtain ⟨⟨newEpoch, s1⟩, -, h⟩ := bind_eq_ok h
  cases h
  unfold commit
  split
  · exact .inl rfl
  · cases o.flush with
    | none => exact .inl rfl
    | some code => exact .inr ⟨code, rfl⟩

theorem connectEvent_state {n n' : Node} {e : Event} {oldEpoch : Nat} {o : Outcome}
    {r : Option ServiceError} (hc : Coherent n.store)
    (h : connectEvent n e oldEpoch o = .ok (n', r)) :
    ∃ es, n.store.data.epochState = some es := by
  obtain ⟨hd0, -, hc0⟩ := packsOnNewEvent_spec hc e e.epoch.toNat
  obtain ⟨⟨⟩, -, h⟩ := bind_eq_ok h
  obtain ⟨⟨newEpoch, s1⟩, hget, -⟩ := bind_eq_ok h
  obtain ⟨hepoch, -⟩ := getEpoch_spec hc0 hget
  rw [hd0, (recordInPack_frame _ _ _).1.epochState] at hepoch
  obtain ⟨es, hes, -⟩ := Option.map_eq_some_iff.mp hepoch
  exact ⟨es, hes⟩

/-- Connecting an accepted event, in a state whose epoch is `es`. -/
theorem connectEvent_spec {n n' : Node} {e : Event} {oldEpoch : Nat} {o : Outcome}
    {r : Option ServiceError} {es : EpochState} (hc : Coherent n.store)
    (hes : n.store.data.epochState = some es)
    (h : connectEvent n e oldEpoch o = .ok (n', r)) :
    n'.store.data = settle (recordInPack n.store.data e e.epoch.toNat) e oldEpoch es.epoch
        o.epochDBClosed ∧
      n'.store.cache.events = n.store.cache.events ∧ Coherent n'.store ∧
      n'.pubKeys = n.pubKeys ∧ n'.emitter = n.emitter ∧ n'.stopped = n.stopped ∧
      (r = none ∨ ∃ code, r = some (.flush code)) := by
  have hr := connectEvent_error h
  obtain ⟨hd0, hev0, hc0⟩ := packsOnNewEvent_spec hc e e.epoch.toNat
  obtain ⟨⟨⟩, -, h⟩ := bind_eq_ok h
  obtain ⟨⟨newEpoch, s1⟩, hget, h⟩ := bind_eq_ok h
  obtain ⟨hepoch, hd1, hev1, hc1⟩ := getEpoch_spec hc0 hget
  rw [hd0, (recordInPack_frame _ _ _).1.epochState, hes] at hepoch
  cases hepoch
  have hdata : s1.data = recordInPack n.store.data e e.epoch.toNat := hd1.trans hd0
  have hevents : s1.cache.events = n.store.cache.events := hev1.trans hev0
  cases h
  dsimp only
  by_cases heq : es.epoch = oldEpoch
  · rw [if_pos heq, linkEvent_store]
    exact ⟨by rw [settle, if_pos heq, ← hdata]; rfl, hevents,
      hc1.updateEpochDB _, rfl, rfl, rfl, hr⟩
  · rw [if_neg heq]
    obtain ⟨hd2, hev2, hc2⟩ := packsOnNewEpoch_spec hc1 oldEpoch
    refine ⟨?_, hev2.trans hevents, hc2.resetEpochStore _ _, rfl, rfl, rfl, hr⟩
    rw [settle, if_neg heq, ← hdata, ← hd2]
    rfl

/-- A call that fails before the event is connected. -/
structure Rejected (w : World) (n n' : Node) (r : Option ServiceError) : Prop where
  error : ∃ err, r = some err ∧ err.isFlush = false
  data : n'.store.data = n.store.data
  coherent : Coherent n'.store
  pubKeys : n'.pubKeys = n.pubKeys
  emitter : n'.emitter = n.emitter
  stopped : n'.stopped = n.stopped
  events : ∀ R, EventsRule w R n.store → EventsRule w R n'.store

/-- A call that connects `e`, in a state of epoch `old`, and leaves epoch `new`. -/
structure Connected (w : World) (n : Node) (e : Event) (n' : Node) (r : Option ServiceError)
    (old new : EpochState) (buf : List UInt8) : Prop where
  running : n.stopped = false
  fresh : n.store.data.events[e.id]? = none
  oldState : n.store.data.epochState = some old
  newState : n'.store.data.epochState = some new
  checked : w.base.epoch old.validators old.epoch e = .ok ()
  relevant : e.epoch.toNat = old.epoch
  grows : old.epoch ≤ new.epoch
  encoded : (e.encodeRLP w.rlp : Go ServiceError _) = .ok buf
  data : ∃ blocks bs closed, n'.store.data =
    settle (recordInPack { n.store.data with
      events := n.store.data.events.insert e.id buf
      blocks := blocks
      blockState := bs
      epochState := some new } e old.epoch) e old.epoch new.epoch closed
  coherent : Coherent n'.store
  emitter : n'.emitter = n.emitter
  stopped : n'.stopped = n.stopped
  keys : Published w n → Published w n'
  events : ∀ R, EventsRule w R n.store → EventsRule w (WithEvent w e R) n'.store
  error : r = none ∨ ∃ code, r = some (.flush code)

theorem hasEvent_false {s : Store} {id : EventID} (h : ¬ s.hasEvent id = true) :
    s.data.events[id]? = none := by
  rw [Store.hasEvent, Std.ExtTreeMap.contains_eq_isSome_getElem?, Bool.not_eq_true,
    Option.isSome_eq_false_iff, Option.isNone_iff_eq_none] at h
  exact h

/-- An event that passed the checks of its epoch `es` and was stored. -/
structure Admitted (w : World) (n : Node) (e : Event) (n' : Node) (es : EpochState)
    (buf : List UInt8) : Prop where
  running : n.stopped = false
  fresh : n.store.data.events[e.id]? = none
  state : n.store.data.epochState = some es
  checked : w.base.epoch es.validators es.epoch e = .ok ()
  relevant : e.epoch.toNat = es.epoch
  encoded : (e.encodeRLP w.rlp : Go ServiceError _) = .ok buf
  data : n'.store.data = { n.store.data with events := n.store.data.events.insert e.id buf }
  coherent : Coherent n'.store
  pubKeys : n'.pubKeys = n.pubKeys
  emitter : n'.emitter = n.emitter
  stopped : n'.stopped = n.stopped
  events : ∀ R, EventsRule w R n.store → EventsRule w (WithEvent w e R) n'.store

section Cases

variable {w : World} {n n' : Node} {e : Event} {o : Outcome} {es : EpochState} {buf : List UInt8}

theorem EventsRule.untouched {R : EventID → Event → Prop} {s s' : Store} (h : EventsRule w R s)
    (hs : Untouched s s') : EventsRule w R s' :=
  ⟨by rw [hs.events]; exact h.1, by rw [hs.data]; exact h.2⟩

/-- Everything may be read: what the reads need when the events do not matter. -/
theorem eventsRule_true (s : Store) : EventsRule w (fun _ _ => True) s :=
  ⟨fun _ _ _ => trivial, fun _ _ _ _ _ => trivial⟩

theorem admitEvent_cases {r : Except ServiceError Nat} (hc : Coherent n.store)
    (h : admitEvent w n e = .ok (n', r)) :
    (∃ err, r = .error err ∧ Rejected w n n' (some err)) ∨
      ∃ es buf, r = .ok es.epoch ∧ Admitted w n e n' es buf := by
  unfold admitEvent at h
  split at h
  · cases h
    exact .inl ⟨_, rfl, ⟨⟨_, rfl, rfl⟩, rfl, hc, rfl, rfl, rfl, fun R hR => hR⟩⟩
  · next hrun =>
    split at h
    · cases h
      exact .inl ⟨_, rfl, ⟨⟨_, rfl, rfl⟩, rfl, hc, rfl, rfl, rfl, fun R hR => hR⟩⟩
    · next hhas =>
      obtain ⟨⟨es, s0⟩, hes, h⟩ := bind_eq_ok h
      obtain ⟨hrow, hun⟩ := getEpochState_spec hc hes
      dsimp only at h
      split at h
      · cases h
      · cases h
        exact .inl ⟨_, rfl, ⟨⟨_, rfl, rfl⟩, hun.data, hun.coherent, rfl, rfl, rfl,
          fun R hR => hR.untouched hun⟩⟩
      · next hcheck =>
        obtain ⟨⟨oldEpoch, s1⟩, hold, h⟩ := bind_eq_ok h
        obtain ⟨hepoch, hun1⟩ := getEpoch_spec hun.coherent hold
        rw [hun.data, hrow] at hepoch
        cases hepoch
        obtain ⟨s2, hset, h⟩ := bind_eq_ok h
        obtain ⟨buf, hbuf, hd2, hc2, hR2⟩ := setEvent_spec hset
        have hun' := hun.trans hun1
        cases h
        exact .inr ⟨es, buf, rfl, ⟨by simpa using hrun, hasEvent_false hhas, hrow, hcheck,
          w.base.epoch_relevant _ _ _ hcheck, hbuf, by rw [hd2, hun'.data], hc2 hun'.coherent, rfl,
          rfl, rfl, fun R hR => hR2 R (hR.untouched hun')⟩⟩

/-- A rejected event leaves no trace in the table, and in the cache of the
events nothing that was not allowed before. -/
theorem rejected_by_engine {s : Store} {ids : List EventID} {code : Nat}
    (h : Admitted w n e n' es buf) (hreads : readEvents w n'.store ids = .ok s) :
    Rejected w n { n' with store := s.delEvent e.id } (some (.engine code)) := by
  obtain ⟨hd, hc, -⟩ := readEvents_spec (eventsRule_true _) hreads
  have hdata : (s.delEvent e.id).data = n.store.data := by
    simp only [Store.delEvent, hd, h.data, erase_insert h.fresh]
  have hcoh := hc h.coherent
  refine ⟨⟨_, rfl, rfl⟩, hdata, ⟨hcoh.blocks, hcoh.packInfos,
    hcoh.blockState, hcoh.epochState⟩,
    h.pubKeys, h.emitter, h.stopped, ?_⟩
  intro R hR
  obtain ⟨-, -, hR'⟩ := readEvents_spec (h.events R hR) hreads
  refine ⟨hR'.1.remove ?_, ?_⟩
  · rintro x y hne (⟨heq, _⟩ | ⟨_, hxy⟩)
    · exact absurd heq hne
    · exact hxy
  · show ∀ id buf x, (s.delEvent e.id).data.events[id]? = some buf → _
    rw [hdata]
    exact hR.2

/-- An accepted event is connected in the epoch in which it was stored. -/
theorem connected_by_engine {s : Store} {ids : List EventID} {blocks : List CBlock} {n4 n5 : Node}
    {r : Option ServiceError} (h : Admitted w n e n' es buf)
    (hreads : readEvents w n'.store ids = .ok s)
    (hblocks : processBlocks w { n' with store := s } blocks = .ok n4)
    (hcon : connectEvent n4 e es.epoch o = .ok (n5, r)) :
    ∃ new, Connected w n e n5 r es new buf := by
  obtain ⟨hd, hc, -⟩ := readEvents_spec (eventsRule_true _) hreads
  have heff := processBlocks_spec (n := { n' with store := s }) (hc h.coherent) hblocks
  have hd3 : s.data = { n.store.data with events := n.store.data.events.insert e.id buf } :=
    hd.trans h.data
  obtain ⟨new, hnew, hle, -⟩ := heff.epoch es (by rw [hd3]; exact h.state)
  obtain ⟨bl, bs, es', hd4⟩ := heff.data
  have hes' : es' = some new := by rw [hd4] at hnew; exact hnew
  obtain ⟨hd5, hev5, hc5, hk5, hem5, hst5, herr⟩ := connectEvent_spec heff.coherent hnew hcon
  have hd4' : n4.store.data = { n.store.data with
      events := n.store.data.events.insert e.id buf
      blocks := bl
      blockState := bs
      epochState := some new } := by
    rw [hd4, hes']
    show { s.data with blocks := bl, blockState := bs, epochState := some new } = _
    rw [hd3]
  refine ⟨new, ⟨h.running, h.fresh, h.state, ?_, h.checked, h.relevant, hle, h.encoded,
    ⟨bl, bs, o.epochDBClosed, ?_⟩, hc5, hem5.trans (heff.emitter.trans h.emitter),
    hst5.trans (heff.stopped.trans h.stopped), ?_, ?_, herr⟩⟩
  · rw [hd5, (settle_frame _ _ _ _ _).epochState, (recordInPack_frame _ _ _).1.epochState, hnew]
  · rw [hd5, hd4', h.relevant]
  · rintro ⟨k, hk⟩
    obtain ⟨k', hk'⟩ := heff.keys ⟨k, h.pubKeys.trans hk⟩
    exact ⟨k', hk5.trans hk'⟩
  · intro R hR
    obtain ⟨-, -, hR'⟩ := readEvents_spec (h.events R hR) hreads
    have hev : n5.store.cache.events = s.cache.events := hev5.trans heff.eventsCache
    have hrows : n5.store.data.events = s.data.events := by
      rw [hd5, (settle_frame _ _ _ _ _).events, (recordInPack_frame _ _ _).1.events, hd4', hd3]
    exact ⟨by rw [hev]; exact hR'.1, by rw [hrows]; exact hR'.2⟩

/-- **The cases of `processEvent`.** -/
theorem processEvent_cases {r : Option ServiceError} (hc : Coherent n.store)
    (h : processEvent w n e o = .ok (n', r)) :
    Rejected w n n' r ∨ ∃ old new buf, Connected w n e n' r old new buf := by
  rw [processEvent_eq] at h
  obtain ⟨⟨n1, r1⟩, hadmit, h⟩ := bind_eq_ok h
  rcases admitEvent_cases hc hadmit with ⟨err, rfl, hrej⟩ | ⟨es, buf, rfl, hadm⟩
  · cases h
    exact .inl hrej
  · obtain ⟨s, hreads, h⟩ := bind_eq_ok h
    split at h
    · cases h
      exact .inl (rejected_by_engine hadm hreads)
    · obtain ⟨n4, hblocks, h⟩ := bind_eq_ok h
      obtain ⟨new, hcon⟩ := connected_by_engine hadm hreads hblocks h
      exact .inr ⟨es, new, buf, hcon⟩

end Cases

end MiniOpera.Service
