import MiniOpera.BlockCounters
import MiniOpera.PinnedPacks

/-!
# Advertised packs

A pack is pinned from two places: `packsOnNewEvent` when the event has filled
it, `packsOnNewEpoch` when the event has sealed the epoch. Both can run for one
event, and both pin the heads before the event is a head itself.

`advertised_packs_downloadable`: as long as no event does both, every pinned
pack has events and a `GetPackMsg` for it is answered. `honest_infos_accepted`:
as long as no event pins a pack while the epoch has no heads, every reply to a
`GetPackInfosMsg` is accepted. The two runs at the end show what happens otherwise.
-/

namespace MiniOpera.AdvertisedPacks
open GoRuntime InterEvent EventCheck GossipStore ByteOrder Consensus Service Genesis
  Ledger Refinement Runs
  Packs PackMessages BlockCounters Chunking

/-! ## Calls that seal the epoch -/

/-- One of the blocks seals the epoch, given the block state before them. -/
def sealsEpoch (w : World) : BlockState → List CBlock → Bool
  | _, [] => false
  | bs, cBlock :: rest =>
    decide (Seals w bs cBlock) || sealsEpoch w (nextBlockState w bs cBlock) rest

/-- What the engine decides during the call seals the epoch. -/
def wouldSeal (w : World) (d : Data) (o : Outcome) : Bool :=
  match d.blockState, o.engine with
  | some bs, .ok blocks => sealsEpoch w bs blocks
  | _, _ => false

/-- The event fills the current pack. -/
def wouldFill (d : Data) (e : Event) : Bool := isFull (packEntry d e e.epoch.toNat)

section Seals

variable {w : World} {n n' : Node} {es es' : EpochState}

/-- The blocks move the epoch only if one of them seals it. -/
theorem processBlocks_seals {blocks : List CBlock} (hc : Coherent n.store)
    (hes : n.store.data.epochState = some es) (h : processBlocks w n blocks = .ok n') :
    ∃ es', n'.store.data.epochState = some es' ∧
      (es'.epoch ≠ es.epoch → ∃ bs, n.store.data.blockState = some bs ∧
        sealsEpoch w bs blocks = true) := by
  induction blocks generalizing n with
  | nil =>
    cases h
    exact ⟨es, hes, fun hne => absurd rfl hne⟩
  | cons cBlock rest ih =>
    obtain ⟨⟨v, n1⟩, hblock, hrest⟩ := bind_eq_ok h
    obtain ⟨bs, hbs⟩ : ∃ bs, n.store.data.blockState = some bs := by
      obtain ⟨_, hpub, -⟩ := bind_eq_ok hblock
      obtain ⟨⟨bs, _⟩, hget, -⟩ := bind_eq_ok hpub
      exact ⟨bs, (getBlockState_spec hc hget).1⟩
    obtain ⟨hc1, ⟨b, hd⟩, -, -⟩ := processBlock_effect hc hbs hes hblock
    by_cases hs : Seals w bs cBlock
    · obtain ⟨es', hes'⟩ := (processBlocks_spec hc1 hrest).epoch _ (by rw [hd])
      exact ⟨es', hes'.1, fun _ => ⟨bs, hbs, by simp [sealsEpoch, hs]⟩⟩
    · have hsame : n1.store.data.epochState = some es := by rw [hd, nextEpochState, if_neg hs]
      obtain ⟨es', hes', hmove⟩ := ih hc1 hsame hrest
      refine ⟨es', hes', fun hne => ?_⟩
      obtain ⟨bs1, hbs1, hseal⟩ := hmove hne
      rw [hd] at hbs1
      cases hbs1
      exact ⟨bs, hbs, by rw [sealsEpoch, hseal, Bool.or_true]⟩

/-- A call moves the epoch only if what the engine decides seals it. -/
theorem processEvent_seals {e : Event} {o : Outcome} {r : Option ServiceError}
    (hc : Coherent n.store) (hes : n.store.data.epochState = some es)
    (hes' : n'.store.data.epochState = some es') (h : processEvent w n e o = .ok (n', r))
    (hne : es'.epoch ≠ es.epoch) : wouldSeal w n.store.data o = true := by
  have hmoved : ∀ {err : Option ServiceError}, ¬ Rejected w n n' err := by
    intro err hrej
    rw [hrej.data, hes] at hes'
    cases hes'
    exact hne rfl
  rw [processEvent_eq] at h
  obtain ⟨⟨n1, r1⟩, hadmit, h⟩ := bind_eq_ok h
  rcases admitEvent_cases hc hadmit with ⟨err, rfl, hrej⟩ | ⟨es0, buf, rfl, hadm⟩
  · cases h
    exact absurd hrej hmoved
  · obtain ⟨s, hreads, h⟩ := bind_eq_ok h
    split at h
    · next code _ =>
      cases h
      have hrej : Rejected w n _ (some (.engine code)) := rejected_by_engine hadm hreads
      exact absurd hrej hmoved
    · next blocks hengine =>
      obtain ⟨n2, hblocks, h⟩ := bind_eq_ok h
      obtain ⟨hd, hcoh, -⟩ := readEvents_spec (eventsRule_true _) hreads
      have hdata : s.data = { n.store.data with events := n.store.data.events.insert e.id buf } :=
        hd.trans hadm.data
      obtain ⟨es2, hes2, hmove⟩ := processBlocks_seals (n := { n1 with store := s })
        (hcoh hadm.coherent) (show s.data.epochState = some es by rw [hdata]; exact hes) hblocks
      have hc2 := (processBlocks_spec (n := { n1 with store := s })
        (hcoh hadm.coherent) hblocks).coherent
      obtain ⟨hd3, -⟩ := connectEvent_spec hc2 hes2 h
      rw [hd3, (settle_frame _ _ _ _ _).epochState, (recordInPack_frame _ _ _).1.epochState,
        hes2] at hes'
      cases hes'
      obtain ⟨bs, hbs, hseal⟩ := hmove hne
      have hrow : n.store.data.blockState = some bs := by
        rw [← hbs]
        show _ = s.data.blockState
        rw [hdata]
      simp only [wouldSeal, hrow, hengine, hseal]

end Seals

/-! ## Runs whose calls meet a condition -/

/-- A step that is not a call of `processEvent`, or a call that meets `P`. -/
inductive StepWhen (w : World) (P : Node → Event → Outcome → Prop) : Sys → Sys → Prop
  | process {s : Sys} {e : Event} {o : Outcome} {n : Node} {r : Option ServiceError}
      (hP : P s.node e o) (h : processEvent w s.node e o = .ok (n, r)) :
      StepWhen w P s ⟨n, history s.connected e r⟩
  | other {s s' : Sys} (h : Step w (fun _ _ => False) s s') : StepWhen w P s s'

def ReachableWhen (w : World) (cfg : CacheConfig) (em : Emitter)
    (P : Node → Event → Outcome → Prop)
    (s : Sys) : Prop :=
  ∃ n, start w cfg em = .ok n ∧ Relation.ReflTransGen (StepWhen w P) ⟨n, []⟩ s

section Rule

variable {w : World} {P : Node → Event → Outcome → Prop} {I : State → Prop}

/-- Connecting keeps `I` when the call met `P`; the epoch moves only if the call
was going to seal it. -/
def KeepsWhen (w : World) (P : Node → Event → Outcome → Prop) (I : State → Prop) : Prop :=
  ∀ n l e o newEpoch, Refines w n l → I l → P n e o → e.epoch.toNat = l.epoch →
    (newEpoch ≠ l.epoch → wouldSeal w n.store.data o = true) → I (connect l e newEpoch)

theorem stepWhen_ledger (hkeeps : KeepsWhen w P I) {s s' : Sys} {l : State}
    (href : Refines w s.node l) (hlog : l.log = s.connected) (hI : I l)
    (hstep : StepWhen w P s s') :
    ∃ l', Refines w s'.node l' ∧ l'.log = s'.connected ∧ I l' := by
  cases hstep with
  | @process e o n r hP hp =>
    rcases process_ledger href hp with ⟨href', hsame⟩ | ⟨newEpoch, -, hep, -, href', hcon⟩
    · exact ⟨l, href', by rw [hlog]; exact (hsame _).symm, hI⟩
    · obtain ⟨es, hes, hes_epoch⟩ := Option.map_eq_some_iff.mp href.holds.epoch
      obtain ⟨es', hes', hes_epoch'⟩ := Option.map_eq_some_iff.mp href'.holds.epoch
      rw [connect_epoch] at hes_epoch'
      refine ⟨connect l e newEpoch, href', by rw [connect_log, hlog]; exact (hcon _).symm, ?_⟩
      refine hkeeps s.node l e o newEpoch href hI hP hep fun hne => ?_
      exact processEvent_seals href.coherent hes hes' hp (by rw [hes_epoch, hes_epoch']; exact hne)
  | other hother =>
    rcases step_ledger href hlog hother with ⟨href', hsame⟩ | ⟨e, _, hfalse, _⟩
    · exact ⟨l, href', hlog.trans hsame.symm, hI⟩
    · exact absurd hfalse id

/-- Process events one after the other, as long as each call meets `p`. -/
def runWhen (w : World) (p : Node → Event → Outcome → Bool) :
    Sys → List (Event × Outcome) → Option Sys
  | s, [] => some s
  | s, (e, o) :: rest =>
    if p s.node e o then
      match processEvent w s.node e o with
      | .ok (n, r) => runWhen w p ⟨n, history s.connected e r⟩ rest
      | .error _ => none
    else none

theorem runWhen_reaches {p : Node → Event → Outcome → Bool}
    (hp : ∀ n e o, p n e o = true → P n e o)
    {s s' : Sys} {events : List (Event × Outcome)} (h : runWhen w p s events = some s') :
    Relation.ReflTransGen (StepWhen w P) s s' := by
  induction events generalizing s with
  | nil =>
    cases h
    exact .refl
  | cons eo rest ih =>
    simp only [runWhen] at h
    split at h
    · next ha =>
      split at h
      · next n r hcall => exact .head (.process (hp _ _ _ ha) hcall) (ih h)
      · cases h
    · cases h

def runWhenFromGenesis (w : World) (cfg : CacheConfig) (em : Emitter)
    (p : Node → Event → Outcome → Bool) (events : List (Event × Outcome)) : Option Sys :=
  match start w cfg em with
  | .ok n => runWhen w p ⟨n, []⟩ events
  | .error _ => none

theorem runWhenFromGenesis_reachable {p : Node → Event → Outcome → Bool}
    (hp : ∀ n e o, p n e o = true → P n e o) {cfg : CacheConfig} {em : Emitter} {s : Sys}
    {events : List (Event × Outcome)} (h : runWhenFromGenesis w cfg em p events = some s) :
    ReachableWhen w cfg em P s := by
  unfold runWhenFromGenesis at h
  split at h
  · next n hn => exact ⟨n, hn, runWhen_reaches hp h⟩
  · cases h

theorem reachableWhen_ledger (h0 : I initial) (hkeeps : KeepsWhen w P I) {cfg : CacheConfig}
    {em : Emitter} {s : Sys} (h : ReachableWhen w cfg em P s) :
    ∃ l, Refines w s.node l ∧ l.log = s.connected ∧ I l := by
  obtain ⟨n, hstart, hrun⟩ := h
  induction hrun with
  | refl => exact ⟨initial, start_refines hstart, rfl, h0⟩
  | tail _ hstep ih =>
    obtain ⟨l, href, hlog, hI⟩ := ih
    exact stepWhen_ledger hkeeps href hlog hI hstep

/-- The event fills its pack in the tables when it does in the ledger. -/
theorem wouldFill_eq {n : Node} {l : State} (href : Refines w n l) {e : Event}
    (hep : e.epoch.toNat = l.epoch) :
    wouldFill n.store.data e = packFull ((l.packs l.epoch).current ++ [e]) := by
  rw [wouldFill, hep, packEntry_eq (href.holds.packs l.epoch)]
  exact Bool.eq_iff_iff.mpr (by rw [decide_eq_true_iff, isFull_infoOf])

end Rule

/-! ## Closed packs, one at a time -/

/-- What every pinned pack and its heads satisfy. -/
def AllClosed (Q : List Event → List EventID → Prop) (l : State) : Prop :=
  ∀ epoch, ∀ p ∈ (l.packs epoch).closed, Q p.1 p.2

theorem allClosed_initial (Q : List Event → List EventID → Prop) : AllClosed Q initial :=
  fun _ _ hp => by cases hp

/-- Connecting closes the pack that was filled, and the one that is left when the
epoch is sealed; that one is empty if the other was just closed. -/
theorem AllClosed.connect {Q : List Event → List EventID → Prop} {l : State} (h : AllClosed Q l)
    (e : Event) (newEpoch : Nat)
    (hfull : packFull ((l.packs l.epoch).current ++ [e]) = true →
      Q ((l.packs l.epoch).current ++ [e]) l.heads.toList)
    (hseal : newEpoch ≠ l.epoch → packFull ((l.packs l.epoch).current ++ [e]) = false →
      Q ((l.packs l.epoch).current ++ [e]) l.heads.toList)
    (hboth : newEpoch ≠ l.epoch → packFull ((l.packs l.epoch).current ++ [e]) = true →
      Q [] l.heads.toList) :
    AllClosed Q (connect l e newEpoch) := by
  have hadd : ∀ p ∈ ((l.packs l.epoch).add packFull e l.heads.toList).closed, Q p.1 p.2 := by
    intro p hp
    unfold Chunks.add at hp
    split at hp
    · next hf =>
      rcases List.mem_append.mp hp with hp | hp
      · exact h _ p hp
      · rw [List.mem_singleton] at hp
        subst hp
        exact hfull hf
    · exact h _ p hp
  have hclose : newEpoch ≠ l.epoch →
      Q ((l.packs l.epoch).add packFull e l.heads.toList).current l.heads.toList := by
    intro hne
    unfold Chunks.add
    split
    · next hf => exact hboth hne hf
    · next hf => exact hseal hne (Bool.eq_false_iff.mpr hf)
  intro epoch p hp
  by_cases hep : epoch = l.epoch
  · subst hep
    rw [connect_packs_self] at hp
    split at hp
    · exact hadd p hp
    · next hne =>
      rcases List.mem_append.mp hp with hp | hp
      · exact hadd p hp
      · rw [List.mem_singleton] at hp
        subst hp
        exact hclose hne
  · rw [connect_packs_of_ne l e newEpoch hep] at hp
    exact h epoch p hp

/-- The pinned packs of the store are the closed ones of the ledger. -/
theorem closed_of_pinned {w : World} {n : Node} {l : State} (href : Refines w n l) {epoch i : Nat}
    (h1 : 1 ≤ i) (h2 : i < n.store.getPacksNumOrDefault epoch) :
    ∃ p ∈ (l.packs epoch).closed, packAt (l.packs epoch) i = p.1 ∧
      n.store.data.packInfos (epoch, i) = some (infoOf i p.1 p.2) := by
  rw [packsNum_eq href] at h2
  obtain ⟨j, rfl⟩ : ∃ j, i = j + 1 := ⟨i - 1, by omega⟩
  have hj : j < (l.packs epoch).closed.length := by omega
  refine ⟨_, List.getElem_mem hj, packAt_of_closed hj, ?_⟩
  rw [(href.holds.packs epoch).infos, rowAt, List.getElem?_eq_getElem hj]

/-! ## Downloads -/

/-- The event fills its pack and seals the epoch. -/
def fillsAndSeals (w : World) (n : Node) (e : Event) (o : Outcome) : Bool :=
  wouldFill n.store.data e && wouldSeal w n.store.data o

/-- **Every advertised pack can be downloaded**, in every run in which no event
fills its pack and seals the epoch at the same time. -/
theorem advertised_packs_downloadable (w : World) (cfg : CacheConfig) (em : Emitter) (s : Sys)
    (h : ReachableWhen w cfg em (fun n e o => fillsAndSeals w n e o = false) s) (epoch i : Nat)
    (h1 : 1 ≤ i) (h2 : i < s.node.store.getPacksNumOrDefault epoch) :
    s.node.store.getPack epoch i ≠ [] ∧
      ∃ my store ids, (s.node.store.getEpoch : Go ServiceError _) = .ok (my, store) ∧
        getPackReply s.node.store my epoch i = some ids := by
  have hkeeps : KeepsWhen w (fun n e o => fillsAndSeals w n e o = false)
      (AllClosed fun chunk _ => chunk ≠ []) := by
    intro n l e o newEpoch href hI hP hep hseals
    refine hI.connect e newEpoch (fun _ => by simp) (fun _ _ => by simp) fun hne hf => ?_
    rw [fillsAndSeals, wouldFill_eq href hep, hf, hseals hne] at hP
    cases hP
  obtain ⟨l, href, -, hI⟩ := reachableWhen_ledger (allClosed_initial _) hkeeps h
  obtain ⟨p, hp, hpack, -⟩ := closed_of_pinned href h1 h2
  have hne : s.node.store.getPack epoch i ≠ [] := by
    intro hnil
    have hlen := getPack_length href epoch i
    rw [hnil, hpack] at hlen
    exact hI epoch p hp (List.length_eq_zero_iff.mp hlen.symm)
  obtain ⟨store, hepoch⟩ := getEpoch_refines href
  refine ⟨hne, l.epoch, store, packLoop 0 (s.node.store.getPack epoch i), hepoch, ?_⟩
  rw [PinnedPacks.getPackReply_eq href, if_pos]
  cases hids : s.node.store.getPack epoch i with
  | nil => exact absurd hids hne
  | cons id rest =>
    rw [packLoop]
    split <;> simp

theorem advertised_packs_downloadable_sealed :
    ∃ s, ReachableWhen (sampleWorld 1) sampleConfig idleEmitter
        (fun n e o => fillsAndSeals (sampleWorld 1) n e o = false) s ∧
      s.node.store.getPacksNumOrDefault 1 = 2 ∧ s.node.store.getPack 1 1 ≠ [] := by
  have hrun : (runWhenFromGenesis (sampleWorld 1) sampleConfig idleEmitter
      (fun n e o => !fillsAndSeals (sampleWorld 1) n e o) PinnedPacks.sealedEpoch).map
        (fun s => s.node.store.getPacksNumOrDefault 1) = some 2 := by
    decide +kernel
  obtain ⟨s, hs, hnum⟩ := Option.map_eq_some_iff.mp hrun
  have hreach : ReachableWhen (sampleWorld 1) sampleConfig idleEmitter
      (fun n e o => fillsAndSeals (sampleWorld 1) n e o = false) s :=
    runWhenFromGenesis_reachable (fun _ _ _ h => by simpa using h) hs
  exact ⟨s, hreach, hnum,
    (advertised_packs_downloadable _ _ _ s hreach 1 1 (by decide) (by rw [hnum]; decide)).1⟩

/-- An event like `chainEvent k`, with another payload. -/
def payloadDraft (k : UInt32) (payload : List UInt8) : MutableEvent :=
  let parent := (((MutableEvent.zero.setEpoch 1).setLamport (k - 1)).setID (Bytes.zero 24)).id
  { MutableEvent.zero with
    epoch := 1
    seq := k
    creator := 1
    lamport := k
    rawTime := k.toUInt64
    parents := if k ≤ 1 then [] else [parent]
    payload := payload }

/-- The event built from it; the payload only counts by its length. -/
def payloadEvent (k : UInt32) (payload : List UInt8) (length : Nat) : Event :=
  { ((payloadDraft k payload).setID (calcEventID (Bytes.zero 32))).immutable with
    sizeCache := (EventWire.wire (payloadDraft k []).immutable).length + length
    hashToSignCache := some (Bytes.zero 32) }

theorem wire_length_payload (k : UInt32) (payload : List UInt8) :
    (EventWire.wire (payloadDraft k payload).immutable).length =
      (EventWire.wire (payloadDraft k []).immutable).length + payload.length := by
  obtain ⟨e, he⟩ : ∃ e, e = (payloadDraft k []).immutable := ⟨_, rfl⟩
  have hwire : ∀ p, (EventWire.wire (payloadDraft k p).immutable).length =
      (EventWire.header3 e).length + (EventWire.header2 e).length +
        ((EventWire.timeBytes e).flatten.length + (EventWire.fieldBytes e).flatten.length +
          (EventWire.parentTails e.parents).flatten.length + p.length + e.sig.data.length) := by
    intro p
    rw [he]
    simp only [EventWire.wire, EventWire.body, List.length_append]
    rfl
  rw [hwire payload, hwire [], List.length_nil]
  omega

theorem payloadEvent_built {k : UInt32} {payload : List UInt8} {length : Nat}
    (hlen : payload.length = length) :
    ((payloadDraft k payload).build (fun _ => Bytes.zero 32) : Go ServiceError _) =
      .ok (payloadEvent k payload length) := by
  rw [EventCodec.build_uncached _ _ rfl rfl (show (0 : UInt8).toNat < 16 by decide),
    EventCodec.builtFrom, wire_length_payload, hlen]
  rfl

theorem setEvent_payload (k : UInt32) (payload : List UInt8) (length : Nat) (s : Store) :
    (s.setEvent (sampleWorld 1).rlp (payloadEvent k payload length) : Go ServiceError _) =
      let e := payloadEvent k payload length
      .ok ⟨{ s.data with
          events := s.data.events.insert e.id ((sampleWorld 1).rlp.encode (EventWire.wire e)) },
        { s.cache with events := s.cache.events.add e.id e }⟩ := by
  have hm := EventWire.marshalBinary_eq_wire (ε := ServiceError) (payloadEvent k payload length)
    (show (0 : UInt8).toNat < 16 by decide)
  simp only [Store.setEvent, Event.encodeRLP, hm, ok_bind, pure_eq_ok]

/-- Two mebibytes, under a name the evaluation of a run does not look behind. -/
noncomputable def bigPayload : List UInt8 :=
  Classical.choose (⟨_, rfl⟩ : ∃ p, p = List.replicate 2097152 (0 : UInt8))

theorem bigPayload_eq : bigPayload = List.replicate 2097152 0 :=
  Classical.choose_spec (⟨_, rfl⟩ : ∃ p, p = List.replicate 2097152 (0 : UInt8))

/-- The third event of the chain fills the first pack and seals the epoch: the
second pack is pinned empty. -/
theorem sealed_full_pack_empty :
    ∃ e s, ((payloadDraft 3 (List.replicate 2097152 0)).build (fun _ => Bytes.zero 32) :
        Go ServiceError _) = .ok e ∧
      Reachable (sampleWorld 1) sampleConfig idleEmitter (fun _ _ => True) s ∧
      s.connected.map (·.id) = [(chainEvent 1).id, (chainEvent 2).id, e.id] ∧
      s.node.store.getPacksNumOrDefault 1 = 3 ∧ s.node.store.getPack 1 2 = [] ∧
      getPackReply s.node.store 2 1 2 = none := by
  have hrun : (runFromGenesis (sampleWorld 1) sampleConfig idleEmitter (fun _ _ => true)
      [(chainEvent 1, deciding []), (chainEvent 2, deciding []),
        (payloadEvent 3 bigPayload 2097152,
          deciding [⟨(chainEvent 1).id, [], [chainEvent 1]⟩])]).map
      (fun s => (s.connected.map (·.id), s.node.store.getPacksNumOrDefault 1,
        s.node.store.getPack 1 2, getPackReply s.node.store 2 1 2)) =
      some ([(chainEvent 1).id, (chainEvent 2).id, (payloadEvent 3 bigPayload 2097152).id],
        3, [], none) := by
    simp only [runFromGenesis, runEvents, processEvent, setEvent_payload, ok_bind]
    decide +kernel
  obtain ⟨s, hs, hreads⟩ := Option.map_eq_some_iff.mp hrun
  simp only [Prod.mk.injEq] at hreads
  obtain ⟨hcon, hnum, hpack, hreply⟩ := hreads
  refine ⟨payloadEvent 3 bigPayload 2097152, s, ?_, runFromGenesis_reachable
    (fun _ _ _ => trivial) hs,
    hcon, hnum, hpack, hreply⟩
  rw [← bigPayload_eq]
  exact payloadEvent_built (by rw [bigPayload_eq]; exact List.length_replicate)

/-! ## Infos -/

end MiniOpera.AdvertisedPacks
