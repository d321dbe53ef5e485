import MiniOpera.Runs

/-!
# The emitter

`createEvent` and `EmitEvent` of `emitter.go`. What the consensus library, the
clock and the key contribute to a call is a parameter of it (`Emission`).

`emitter_never_forks`: as long as the events of the validator that come from peers
continue its events of the epoch, so does every emitted event, and no two
connected events of the validator in one epoch have the same sequence number.
-/

namespace MiniOpera.Emitting
open GoRuntime InterEvent EventCheck EventCodec GossipStore Consensus Service Genesis Ledger
  Refinement Runs

/-! ## Creating an event -/

/-- `ancestor.FindBestParents` with the strategy of a call. -/
structure ParentSearch where
  find : Nat → List EventID → Option EventID → List EventID
  selfParent_first : ∀ max heads p, ∃ rest, find max heads (some p) = p :: rest

/-- What others decide while an event is emitted. -/
structure Emission where
  /-- `isSyncedToEmit`. -/
  synced : Bool
  payload : List UInt8
  /-- `time.Now().UnixNano()`. -/
  now : UInt64
  search : ParentSearch
  /-- The frame, the root flag and the temporary ID that the engine sets. -/
  build : Option (UInt32 × Bool × Bytes 24)
  sign : Hash → Option Signature
  outcome : Outcome

/-- `Timestamp.Time`, in nanoseconds. -/
def timeOf (t : UInt64) : Int := t.toInt64.toInt

/-- `Time.Sub`: a saturating difference. -/
def timeSub (t u : Int) : Int := max (-2 ^ 63) (min (2 ^ 63 - 1) (t - u))

def maxTimestamp (x y : UInt64) : UInt64 := if x > y then x else y

section

variable (w : World)

/-- Events with a frame this high are unlikely to be confirmed. -/
def isEpochTail (em : Emitter) (e : MutableEvent) : Bool :=
  UInt32.ofNat w.net.maxEpochBlocks - em.epochTailLength ≤ e.frame

def isAllowedToEmit (em : Emitter) (e : MutableEvent) : Bool :=
  let passedTime := timeSub (timeOf e.rawTime) em.prevEmittedTime
  -- slow down emitting if no payload to post, and not at epoch tail
  !(passedTime < em.maxInterval && e.payload.length == 0 && !isEpochTail w em e)

def findBestParents (s : Store) (v : ValidatorID) (search : ParentSearch) :
    Option EventID × List EventID :=
  let selfParent := s.getLastEvent v
  (selfParent, search.find w.net.maxParents s.getHeads selfParent)

/-- The loop of `createEvent` over the parents. -/
def readParents (s : Store) : List EventID → Go ServiceError (List Event × Store)
  | [] => .ok ([], s)
  | p :: ps => do
    let (parent, s) ← s.getEvent w.sha256 w.rlp p
    match parent with
    | none => .error (.panic (.message "Emitter: head not found"))
    | some parent =>
      let (parents, s) ← readParents s ps
      return (parent :: parents, s)

/-- The sequence number and the time of the self-parent, zero without one. -/
def selfParentFields (selfParent : Option EventID) (parentEvents : List Event) :
    Go ServiceError (UInt32 × UInt64) :=
  match selfParent, parentEvents with
  | none, _ => .ok (0, 0)
  | some _, [] => .error (.panic .indexOutOfRange)
  | some _, e :: _ => .ok (e.seq, e.rawTime)

/-- The event before the engine sets the consensus fields. -/
def draftEvent (em : Emitter) (x : Emission) (epoch : Nat) (parents : List EventID)
    (parentEvents : List Event) (selfParentSeq : UInt32) (selfParentTime : UInt64) : MutableEvent :=
  let maxLamport := parentEvents.foldl (fun m p => max m p.lamport) 0
  ((((((MutableEvent.zero.setEpoch (UInt32.ofNat epoch)).setSeq (selfParentSeq + 1)).setCreator
    em.validator).setParents parents).setLamport (maxLamport + 1)).setRawTime
      (maxTimestamp x.now (selfParentTime + 1))).setPayload x.payload

/-- The rest of `createEvent`: consensus fields, signature and sanity check. -/
def finishEvent (n : Node) (store : Store) (em : Emitter) (x : Emission) (draft : MutableEvent)
    (parentEvents : List Event) : Go ServiceError (Option Event × Store) :=
  match x.build with
  | none => .ok (none, store)
  | some (frame, isRoot, id) =>
    let mutEvent := ((draft.setFrame frame).setIsRoot isRoot).setID id
    if !isAllowedToEmit w em mutEvent then .ok (none, store)
    else do
      let h ← mutEvent.hashToSign w.sha256
      match x.sign h with
      | none => .ok (none, store)
      | some sig =>
        let event ← (mutEvent.setSig sig).build w.sha256
        let (es, store) ← store.getEpochState
        match validate w.base w.verifySignature w.net.maxParents es.validators es.epoch n.pubKeys
            event parentEvents with
        | .error (.panic p) => .error (.panic p)
        | .error (.error _) => .ok (none, store)
        | .ok () => .ok (some event, store)

def createEvent (n : Node) (em : Emitter) (x : Emission) :
    Go ServiceError (Option Event × Store) :=
  if em.validator = 0 then .ok (none, n.store)
  else if !x.synced then .ok (none, n.store)
  else do
    let (selfParent, parents) := findBestParents w n.store em.validator x.search
    let (parentEvents, store) ← readParents w n.store parents
    let (selfParentSeq, selfParentTime) ← selfParentFields selfParent parentEvents
    let (epoch, store) ← store.getEpoch
    finishEvent w n store em x
      (draftEvent em x epoch parents parentEvents selfParentSeq selfParentTime) parentEvents

/-- `EmitEvent`; the service stops when it cannot connect its own event. -/
def emitEvent (n : Node) (x : Emission) : Go ServiceError (Option Event × Node) :=
  match n.emitter with
  | none => .error (.panic .nilDereference)
  | some em =>
    if em.validator = 0 then .ok (none, n)
    else do
      let (e, store) ← createEvent w n em x
      match e with
      | none => .ok (none, { n with store := store })
      | some e =>
        let em := { em with prevLocalEmittedID := e.id }
        let (n, r) ← processEvent w { n with store := store, emitter := some em } e x.outcome
        match r with
        | some _ => .error (.panic (.message "Self-event connection failed"))
        | none =>
          .ok (some e, { n with emitter := some { em with prevEmittedTime := timeOf e.rawTime } })

end

/-! ## Numbered events -/

/-- The events of a validator in an epoch. -/
def ownEvents (log : List Event) (v : ValidatorID) (epoch : Nat) : List Event :=
  log.filter fun e => e.epoch.toNat = epoch ∧ e.creator = v

def lastEvent (log : List Event) (v : ValidatorID) (epoch : Nat) : Option Event :=
  (ownEvents log v epoch).getLast?

/-- The sequence number that continues the events of a validator in an epoch. -/
def nextSeq (log : List Event) (v : ValidatorID) (epoch : Nat) : Nat :=
  ((lastEvent log v epoch).map (·.seq.toNat)).getD 0 + 1

/-- The events of the validator count from one in every epoch. -/
def Numbered (v : ValidatorID) (log : List Event) : Prop :=
  ∀ epoch, (ownEvents log v epoch).map (·.seq.toNat) =
    List.range' 1 (ownEvents log v epoch).length

theorem ownEvents_snoc (log : List Event) (e : Event) (v : ValidatorID) (epoch : Nat) :
    ownEvents (log ++ [e]) v epoch =
      ownEvents log v epoch ++ if e.epoch.toNat = epoch ∧ e.creator = v then [e] else [] := by
  by_cases h : e.epoch.toNat = epoch ∧ e.creator = v <;> simp [ownEvents, h]

theorem Numbered.nextSeq_eq {v : ValidatorID} {log : List Event} (h : Numbered v log)
    (epoch : Nat) : nextSeq log v epoch = (ownEvents log v epoch).length + 1 := by
  rw [nextSeq, lastEvent, ← List.getLast?_map, h epoch, List.getLast?_range']
  cases (ownEvents log v epoch).length with
  | zero => rfl
  | succ k => simp [Nat.add_comm]

theorem Numbered.snoc {v : ValidatorID} {log : List Event} (h : Numbered v log) {e : Event}
    (he : e.creator = v → e.seq.toNat = nextSeq log v e.epoch.toNat) :
    Numbered v (log ++ [e]) := by
  intro epoch
  rw [ownEvents_snoc]
  by_cases hown : e.epoch.toNat = epoch ∧ e.creator = v
  · obtain ⟨rfl, hv⟩ := hown
    have hseq : e.seq.toNat = 1 + 1 * (ownEvents log v e.epoch.toNat).length := by
      rw [he hv, h.nextSeq_eq]
      omega
    rw [if_pos ⟨rfl, hv⟩, List.map_append, h e.epoch.toNat, List.length_append,
      List.length_singleton, List.range'_concat, List.map_singleton, hseq]
  · rw [if_neg hown, List.append_nil]
    exact h epoch

theorem Numbered.unique {v : ValidatorID} {log : List Event} (h : Numbered v log) {a b : Event}
    (ha : a ∈ log) (hb : b ∈ log) (hav : a.creator = v) (hbv : b.creator = v)
    (hepoch : a.epoch = b.epoch) (hseq : a.seq = b.seq) : a = b := by
  have hnodup : ((ownEvents log v a.epoch.toNat).map (·.seq.toNat)).Nodup := by
    rw [h]
    exact List.nodup_range'
  have hmem : ∀ x ∈ log, x.epoch = a.epoch → x.creator = v →
      x ∈ ownEvents log v a.epoch.toNat := by
    intro x hx hxe hxv
    exact List.mem_filter.mpr ⟨hx, decide_eq_true ⟨by rw [hxe], hxv⟩⟩
  exact List.inj_on_of_nodup_map hnodup (hmem a ha rfl hav) (hmem b hb hepoch.symm hbv)
    (congrArg UInt32.toNat hseq)

/-! ## What is created -/

section Created

variable {w : World} {n : Node} {l : State}

/-- What is read under an ID has the sequence number of the connected event. -/
theorem readable_seq {log : List Event} {id : EventID} {x : Event} (h : Readable w log id x) :
    ∃ e ∈ log, e.id = id ∧ x.seq = e.seq := by
  obtain ⟨e, he, hid, rfl | ⟨buf, henc, hdec⟩⟩ := h
  · exact ⟨x, he, hid, rfl⟩
  · refine ⟨e, he, hid, ?_⟩
    rw [decoded_eq w.sha256 henc hdec]
    exact partsOf_field e 1 (by decide)

theorem readParents_spec {ids : List EventID} {parents : List Event} {store : Store}
    (h : Refines w n l) (hr : readParents w n.store ids = .ok (parents, store)) :
    Refines w { n with store := store } l ∧ List.Forall₂ (Readable w l.log) ids parents := by
  induction ids generalizing n parents with
  | nil =>
    cases hr
    exact ⟨h, .nil⟩
  | cons id ids ih =>
    obtain ⟨⟨r, s1⟩, hget, hr⟩ := bind_eq_ok hr
    obtain ⟨href, hsome, -⟩ := getEvent_refines h hget
    cases r with
    | none => cases hr
    | some parent =>
      obtain ⟨⟨rest, s2⟩, hrest, hr⟩ := bind_eq_ok hr
      cases hr
      obtain ⟨href', hall⟩ := ih href hrest
      exact ⟨href', .cons (hsome parent rfl) hall⟩

/-- A finished event has the fields of its draft and has passed the checks. -/
structure Finished (d : Data) (draft : MutableEvent) (e : Event) : Prop where
  creator : e.creator = draft.creator
  seq : e.seq = draft.seq
  parents : e.parents = draft.parents
  positive : e.seq ≠ 0
  relevant : d.epochState.map (·.epoch) = some e.epoch.toNat

theorem finishEvent_spec {store store' : Store} {em : Emitter} {x : Emission}
    {draft : MutableEvent} {parentEvents : List Event} {r : Option Event} (hc : Coherent store)
    (hsize : draft.sizeCache = 0) (hhash : draft.hashToSignCache = none) (hver : draft.version = 0)
    (h : finishEvent w n store em x draft parentEvents = .ok (r, store')) :
    Untouched store store' ∧ ∀ e, r = some e → Finished store.data draft e := by
  unfold finishEvent at h
  split at h
  · cases h
    exact ⟨.refl hc, nofun⟩
  · next frame isRoot id _ =>
    dsimp only at h
    split at h
    · cases h
      exact ⟨.refl hc, nofun⟩
    · obtain ⟨hash, -, h⟩ := bind_eq_ok h
      split at h
      · cases h
        exact ⟨.refl hc, nofun⟩
      · next sig _ =>
        obtain ⟨event, hbuild, h⟩ := bind_eq_ok h
        obtain ⟨⟨es, s1⟩, hes, h⟩ := bind_eq_ok h
        obtain ⟨hrow, hun⟩ := getEpochState_spec hc hes
        dsimp only at h
        split at h
        · cases h
        · cases h
          exact ⟨hun, nofun⟩
        · next hvalid =>
          cases h
          refine ⟨hun, fun e he => ?_⟩
          cases he
          have hver' : draft.version.toNat < 16 := by rw [hver]; decide
          rw [build_uncached w.sha256
            ((((draft.setFrame frame).setIsRoot isRoot).setID id).setSig sig)
            hsize hhash hver'] at hbuild
          obtain ⟨_, hbasic, hvalid⟩ := bind_eq_ok hvalid
          obtain ⟨_, hepoch, -⟩ := bind_eq_ok hvalid
          obtain ⟨_, hbase, -⟩ := bind_eq_ok hbasic
          have hrel := w.base.epoch_relevant _ _ _ hepoch
          have hseq := w.base.basic_seq _ hbase
          cases hbuild
          exact ⟨rfl, rfl, rfl, hseq, by rw [hrow, hrel]; rfl⟩

/-- What the created event has of the ledger. -/
structure Created (l : State) (v : ValidatorID) (e : Event) : Prop where
  creator : e.creator = v
  epoch : e.epoch.toNat = l.epoch
  seq : e.seq.toNat = nextSeq l.log v l.epoch
  parents : ∀ t, lastEvent l.log v l.epoch = some t → ∃ rest, e.parents = t.id :: rest

theorem succ_toNat {a : UInt32} (h : a + 1 ≠ 0) : (a + 1).toNat = a.toNat + 1 := by
  have hne : (a + 1).toNat ≠ 0 := fun h0 => h (UInt32.toNat_inj.mp h0)
  rw [UInt32.toNat_add] at hne ⊢
  have := a.toNat_lt
  have h1 : (1 : UInt32).toNat = 1 := rfl
  rw [h1] at hne ⊢
  omega

/-- The tip of the epoch database is the last event of the ledger. -/
theorem getLastEvent_refines (h : Refines w n l) (v : ValidatorID) :
    n.store.getLastEvent v = (lastEvent l.log v l.epoch).map (·.id) := by
  rw [Store.getLastEvent, h.holds.loaded]
  exact h.holds.tips v

/-- A self-parent comes first. -/
theorem findBestParents_first (h : Refines w n l) {v : ValidatorID} (search : ParentSearch)
    {t : Event} (ht : lastEvent l.log v l.epoch = some t) :
    ∃ rest, findBestParents w n.store v search = (some t.id, t.id :: rest) := by
  obtain ⟨rest, hrest⟩ := search.selfParent_first w.net.maxParents n.store.getHeads t.id
  exact ⟨rest, by rw [findBestParents, getLastEvent_refines h, ht, Option.map_some, hrest]⟩

theorem selfParentFields_seq (h : Refines w n l) {v : ValidatorID} {search : ParentSearch}
    {parentEvents : List Event} {seq : UInt32} {time : UInt64}
    (hall : List.Forall₂ (Readable w l.log) (findBestParents w n.store v search).2 parentEvents)
    (hself : selfParentFields (findBestParents w n.store v search).1 parentEvents =
      .ok (seq, time)) :
    seq.toNat + 1 = nextSeq l.log v l.epoch := by
  cases ht : lastEvent l.log v l.epoch with
  | none =>
    have hnone : (findBestParents w n.store v search).1 = none := by
      rw [findBestParents, getLastEvent_refines h, ht]
      rfl
    rw [hnone] at hself
    cases hself
    rw [nextSeq, ht]
    rfl
  | some t =>
    obtain ⟨rest, hfind⟩ := findBestParents_first h search ht
    rw [hfind] at hall hself
    cases hall with
    | @cons _ p _ ps hp _ =>
      cases hself
      obtain ⟨e, he, hid, hseq⟩ := readable_seq hp
      have hmem : t ∈ l.log := (List.mem_filter.mp (List.mem_of_getLast? ht)).1
      have heq : e = t := List.inj_on_of_nodup_map h.sound.nodup he hmem hid
      rw [nextSeq, ht, hseq, heq]
      rfl

theorem createEvent_spec {em : Emitter} {x : Emission} {r : Option Event} {store : Store}
    (h : Refines w n l) (hcr : createEvent w n em x = .ok (r, store)) :
    Refines w { n with store := store } l ∧ ∀ e, r = some e → Created l em.validator e := by
  unfold createEvent at hcr
  split at hcr
  · cases hcr
    exact ⟨h, nofun⟩
  · split at hcr
    · cases hcr
      exact ⟨h, nofun⟩
    · obtain ⟨⟨parentEvents, s1⟩, hread, hcr⟩ := bind_eq_ok hcr
      obtain ⟨⟨seq, time⟩, hself, hcr⟩ := bind_eq_ok hcr
      obtain ⟨⟨epoch, s2⟩, hep, hcr⟩ := bind_eq_ok hcr
      obtain ⟨href1, hall⟩ := readParents_spec h hread
      obtain ⟨-, hun⟩ := getEpoch_spec href1.coherent hep
      have href2 := untouched_refines href1 hun
      obtain ⟨hun', hfin⟩ := finishEvent_spec hun.coherent rfl rfl rfl hcr
      have href3 := untouched_refines href2 hun'
      refine ⟨href3, ?_⟩
      rintro e rfl
      obtain ⟨hcreator, hseq, hparents, hne, hrow⟩ := hfin e rfl
      rw [href2.holds.epoch] at hrow
      rw [hseq] at hne
      refine ⟨hcreator, (Option.some.inj hrow).symm, ?_, ?_⟩
      · calc e.seq.toNat = (seq + 1).toNat := congrArg UInt32.toNat hseq
          _ = seq.toNat + 1 := succ_toNat hne
          _ = nextSeq l.log em.validator l.epoch := selfParentFields_seq h hall hself
      · intro t ht
        obtain ⟨rest, hfind⟩ := findBestParents_first h x.search ht
        exact ⟨rest, hparents.trans (congrArg Prod.snd hfind)⟩

end Created

/-! ## Runs -/

/-- A peer's event of the validator, if it is new and of the current epoch,
continues the validator's events. -/
def Extends (v : ValidatorID) (s : Sys) (e : Event) : Prop :=
  e.creator = v → s.node.store.hasEvent e.id = false →
    s.node.store.data.epochState.map (·.epoch) = some e.epoch.toNat →
    e.seq.toNat = nextSeq s.connected v e.epoch.toNat

/-- Calls of `EmitEvent` between what peers and readers do. -/
inductive Step (w : World) (v : ValidatorID) : Sys → Sys → Prop
  | other {s s' : Sys} (h : Runs.Step w (Extends v) s s') : Step w v s s'
  | emit {s : Sys} {x : Emission} {e : Option Event} {n : Node}
      (h : emitEvent w s.node x = .ok (e, n)) : Step w v s ⟨n, s.connected ++ e.toList⟩

def Reachable (w : World) (cfg : CacheConfig) (em : Emitter) (s : Sys) : Prop :=
  ∃ n, start w cfg em = .ok n ∧ Relation.ReflTransGen (Step w em.validator) ⟨n, []⟩ s

section Runs

variable {w : World} {s s' : Sys} {l : State} {v : ValidatorID}

/-- The emitter belongs to the validator. -/
def Configured (v : ValidatorID) (n : Node) : Prop :=
  ∃ em, n.emitter = some em ∧ em.validator = v

theorem step_emitter (h : Refines w s.node l) {Adm : Sys → Event → Prop}
    (hstep : Runs.Step w Adm s s') : s'.node.emitter = s.node.emitter := by
  cases hstep with
  | process _ hp =>
    rcases processEvent_cases h.coherent hp with hrej | ⟨old, new, buf, hcon⟩
    · exact hrej.emitter
    · exact hcon.emitter
  | readEvent _ => rfl
  | readBlock _ => rfl
  | readPackInfo _ _ => rfl
  | stop => rfl

theorem emitter_refines {n : Node} (h : Refines w n l) (em : Option Emitter) :
    Refines w { n with emitter := em } l :=
  ⟨h.coherent, h.sound, h.holds, h.readable, h.keys⟩

/-- What a call of `EmitEvent` can do. -/
theorem emitEvent_cases {n n' : Node} {x : Emission} {r : Option Event} (h : Refines w n l)
    (hconf : Configured v n) (hemit : emitEvent w n x = .ok (r, n')) :
    Configured v n' ∧
      ((r = none ∧ Refines w n' l) ∨
        ∃ e newEpoch, r = some e ∧ Created l v e ∧ n.store.data.events[e.id]? = none ∧
          l.epoch ≤ newEpoch ∧ Refines w n' (connect l e newEpoch)) := by
  obtain ⟨em, hem, rfl⟩ := hconf
  unfold emitEvent at hemit
  rw [hem] at hemit
  dsimp only at hemit
  split at hemit
  · cases hemit
    exact ⟨⟨em, hem, rfl⟩, .inl ⟨rfl, h⟩⟩
  · obtain ⟨⟨created, store⟩, hcr, hemit⟩ := bind_eq_ok hemit
    obtain ⟨href, hcreated⟩ := createEvent_spec h hcr
    cases created with
    | none =>
      cases hemit
      exact ⟨⟨em, rfl, rfl⟩, .inl ⟨rfl, emitter_refines href _⟩⟩
    | some e =>
      obtain ⟨⟨n1, r⟩, hp, hemit⟩ := bind_eq_ok hemit
      cases r with
      | some err => cases hemit
      | none =>
        cases hemit
        refine ⟨⟨_, rfl, rfl⟩, .inr ?_⟩
        have href1 := emitter_refines href (some { em with prevLocalEmittedID := e.id })
        rcases process_ledger href1 hp with ⟨-, hsame⟩ | ⟨newEpoch,
          hfresh, -, hle, href', -⟩
        · exact absurd (hsame []) (List.cons_ne_nil e [])
        · exact ⟨e, newEpoch, rfl, hcreated e rfl,
            (h.fresh_iff e.id).mpr ((href1.fresh_iff e.id).mp hfresh), hle,
              emitter_refines href' _⟩

/-- One step: the ledger, and the emitter stays that of the validator. -/
theorem step_ledger (h : Refines w s.node l) (hlog : l.log = s.connected)
    (hconf : Configured v s.node) (hstep : Step w v s s') :
    LedgerStep w (Extends v) l s s' ∧ Configured v s'.node := by
  cases hstep with
  | other hstep =>
    refine ⟨Runs.step_ledger h hlog hstep, ?_⟩
    obtain ⟨em, hem, hv⟩ := hconf
    exact ⟨em, (step_emitter h hstep).trans hem, hv⟩
  | emit hemit =>
    obtain ⟨hconf', ⟨rfl, href⟩ | ⟨e, newEpoch, rfl, hcr, hfresh, hle, href⟩⟩ :=
      emitEvent_cases h hconf hemit
    · exact ⟨.inl ⟨href, List.append_nil _⟩, hconf'⟩
    · refine ⟨.inr ⟨e, newEpoch, ?_, hfresh, hcr.epoch, hle, href, ?_⟩, hconf'⟩
      · intro _ _ _
        rw [← hlog, hcr.epoch]
        exact hcr.seq
      · rw [connect_log, hlog]
        rfl

theorem numbered_keeps : ConnectKeeps w (Extends v) fun l => Numbered v l.log := by
  intro s l e newEpoch href hlog hI hadm hnew hepoch _
  have hfresh := (href.fresh_iff e.id).mpr hnew
  rw [connect_log]
  refine hI.snoc fun hv => ?_
  rw [hlog]
  refine hadm hv ?_ ?_
  · rw [Store.hasEvent, Std.ExtTreeMap.contains_eq_isSome_getElem?, hfresh]
    rfl
  · rw [href.holds.epoch, hepoch]

theorem reachable_numbered {cfg : CacheConfig} {em : Emitter} (h : Reachable w cfg em s) :
    (∃ l, Refines w s.node l ∧ l.log = s.connected ∧ Numbered em.validator l.log) ∧
      Configured em.validator s.node := by
  obtain ⟨n, hstart, hrun⟩ := h
  induction hrun with
  | refl =>
    refine ⟨⟨initial, start_refines hstart, rfl, fun _ => rfl⟩, ?_⟩
    obtain ⟨n', -, hn, -, -, -, -, -, hem⟩ := start_spec w cfg em
    rw [hstart] at hn
    cases hn
    exact ⟨em, hem, rfl⟩
  | tail _ hstep ih =>
    obtain ⟨⟨l, href, hlog, hI⟩, hconf⟩ := ih
    obtain ⟨hledger, hconf'⟩ := step_ledger href hlog hconf hstep
    exact ⟨hledger.keeps numbered_keeps href hlog hI, hconf'⟩

/-- The self-parent of a created event is the validator's last event. -/
theorem created_selfParent {e : Event} (h : Created l v e) (hnum : Numbered v l.log) :
    w.base.selfParent e = (lastEvent l.log v l.epoch).map (·.id) := by
  have hseq := h.seq
  cases ht : lastEvent l.log v l.epoch with
  | none =>
    rw [nextSeq, ht] at hseq
    exact w.base.selfParent_first e (Nat.le_of_eq hseq)
  | some t =>
    obtain ⟨rest, hparents⟩ := h.parents t ht
    have hpos : (ownEvents l.log v l.epoch).length ≠ 0 := by
      intro h0
      rw [lastEvent, List.eq_nil_of_length_eq_zero h0] at ht
      cases ht
    rw [hnum.nextSeq_eq] at hseq
    exact w.base.selfParent_later e t.id rest (by omega) hparents

end Runs

/-- **The emitter never forks.** An emitted event continues the validator's last
connected event of the epoch, and the sequence numbers of the validator's
connected events of an epoch are distinct. -/
theorem emitter_never_forks (w : World) (cfg : CacheConfig) (em : Emitter) (s : Sys)
    (h : Reachable w cfg em s) :
    (∀ x e n, emitEvent w s.node x = .ok (some e, n) →
      e.creator = em.validator ∧
      (s.node.store.getEpoch : Go ServiceError _).map Prod.fst = .ok e.epoch.toNat ∧
      w.base.selfParent e =
        (lastEvent s.connected em.validator e.epoch.toNat).map (·.id) ∧
      e.seq.toNat = nextSeq s.connected em.validator e.epoch.toNat) ∧
    ∀ a ∈ s.connected, ∀ b ∈ s.connected, a.creator = em.validator →
      b.creator = em.validator →
      a.epoch = b.epoch → a.seq = b.seq → a = b := by
  obtain ⟨⟨l, href, hlog, hnum⟩, hconf⟩ := reachable_numbered h
  refine ⟨?_, fun a ha b hb hav hbv hepoch hseq =>
    hnum.unique (hlog ▸ ha) (hlog ▸ hb) hav hbv hepoch hseq⟩
  intro x e n hemit
  obtain ⟨-, ⟨hnone, -⟩ | ⟨e', newEpoch, he, hcr, -⟩⟩ :=
    emitEvent_cases href hconf hemit
  · cases hnone
  · cases he
    obtain ⟨store, hget⟩ := getEpoch_refines href
    refine ⟨hcr.creator, by rw [hget, hcr.epoch]; rfl, ?_, ?_⟩
    · rw [created_selfParent hcr hnum, hcr.epoch, hlog]
    · rw [hcr.seq, hcr.epoch, hlog]

/-- The self-parent, or else the heads. -/
def selfParentOnly : ParentSearch where
  find _ heads selfParent := selfParent.elim heads fun p => [p]
  selfParent_first _ _ _ := ⟨[], rfl⟩

def sampleEmission : Emission where
  synced := true
  payload := [7]
  now := 5
  search := selfParentOnly
  build := some (1, false, Bytes.zero 24)
  sign := fun _ => some (Bytes.zero sigSize)
  outcome := deciding []

def ownEmitter : Emitter := ⟨1, 0, 0, Bytes.zero 32, 0⟩

theorem emitter_never_forks_twice :
    ∃ s e n, Reachable (sampleWorld 1) sampleConfig ownEmitter s ∧ s.connected.length = 1 ∧
      emitEvent (sampleWorld 1) s.node sampleEmission = .ok (some e, n) ∧
      (sampleWorld 1).base.selfParent e = (lastEvent s.connected 1 e.epoch.toNat).map (·.id) ∧
      e.seq.toNat = nextSeq s.connected 1 e.epoch.toNat := by
  have hrun : ((start (sampleWorld 1) sampleConfig ownEmitter).toOption.bind fun n =>
      (emitEvent (sampleWorld 1) n sampleEmission).toOption.bind fun p =>
        (emitEvent (sampleWorld 1) p.2 sampleEmission).toOption.map fun q =>
          (p.1.map (·.seq), q.1.map (·.seq))) = some (some 1, some 2) := by decide +kernel
  obtain ⟨n0, hstart, hrun⟩ := Option.bind_eq_some_iff.mp hrun
  obtain ⟨⟨e1, n1⟩, hfirst, hrun⟩ := Option.bind_eq_some_iff.mp hrun
  obtain ⟨⟨e2, n2⟩, hsecond, hseqs⟩ := Option.map_eq_some_iff.mp hrun
  obtain ⟨e, rfl, -⟩ := Option.map_eq_some_iff.mp (congrArg Prod.fst hseqs)
  obtain ⟨e', rfl, -⟩ := Option.map_eq_some_iff.mp (congrArg Prod.snd hseqs)
  have hstep : Step (sampleWorld 1) ownEmitter.validator ⟨n0, []⟩ ⟨n1, [e]⟩ :=
    .emit (s := ⟨n0, []⟩) (e := some e) (toOption_eq_some hfirst)
  have hreach : Reachable (sampleWorld 1) sampleConfig ownEmitter ⟨n1, [e]⟩ :=
    ⟨n0, toOption_eq_some hstart, .single hstep⟩
  have hemit := toOption_eq_some hsecond
  obtain ⟨-, -, hself, hseq⟩ := (emitter_never_forks _ _ _ _ hreach).1 _ _ _ hemit
  exact ⟨_, e', n2, hreach, rfl, hemit, hself, hseq⟩

end MiniOpera.Emitting
