import MiniOpera.Runs

/-!
# Rejected events

`rejection_atomic`: a call of `processEvent` that rejects its event changes
nothing that can be read, whatever the caches hold and evict, as long as every
event connected so far decodes from its own encoding.

`evicted_event_changes`: without that the result of `GetEvent` can change. An
event that was received in a non-canonical encoding is cached as received while
its row holds the canonical encoding; a rejected event can push it out of the
cache, and afterwards the row is read.
-/

namespace MiniOpera.Rejection
open GoRuntime InterEvent EventCheck EventCodec GossipStore Caching Consensus Service Genesis Ledger
  Refinement Runs

/-- The event is what its own encoding decodes to. -/
def SelfConsistent (w : World) (e : Event) : Prop :=
  ∃ buf, (e.encodeRLP w.rlp : Go ServiceError _) = .ok buf ∧
    decodeRLP w.sha256 w.rlp buf = .ok e

/-- Everything that can be read of a store. -/
structure SameObservations (w : World) (s s' : Store) : Prop where
  hasEvent : ∀ id, s'.hasEvent id = s.hasEvent id
  event : ∀ id, (s'.getEvent w.sha256 w.rlp id : Go ServiceError _).map Prod.fst =
    (s.getEvent w.sha256 w.rlp id).map Prod.fst
  eventRLP : ∀ id, s'.getEventRLP id = s.getEventRLP id
  heads : s'.getHeads = s.getHeads
  tips : ∀ v, s'.getLastEvent v = s.getLastEvent v
  pack : ∀ epoch idx, s'.getPack epoch idx = s.getPack epoch idx
  packInfo : ∀ epoch idx, (s'.getPackInfo epoch idx).1 = (s.getPackInfo epoch idx).1
  packsNum : ∀ epoch, s'.getPacksNum epoch = s.getPacksNum epoch
  block : ∀ i, (s'.getBlock i).1 = (s.getBlock i).1
  blockState : (s'.getBlockState : Go ServiceError _).map Prod.fst = s.getBlockState.map Prod.fst
  epochState : (s'.getEpochState : Go ServiceError _).map Prod.fst = s.getEpochState.map Prod.fst

/-! ## Reads as functions of the data -/

theorem getBlockState_value {s : Store} (h : Coherent s) :
    (s.getBlockState : Go ServiceError _).map Prod.fst = rowOrCrit s.data.blockState := by
  unfold Store.getBlockState
  split
  · next v hv => rw [h.blockState v hv]; rfl
  · split
    · next hd => rw [hd]; rfl
    · next v hd => rw [hd]; rfl

theorem getEpochState_value {s : Store} (h : Coherent s) :
    (s.getEpochState : Go ServiceError _).map Prod.fst = rowOrCrit s.data.epochState := by
  unfold Store.getEpochState
  split
  · next v hv => rw [h.epochState v hv]; rfl
  · split
    · next hd => rw [hd]; rfl
    · next v hd => rw [hd]; rfl

/-- A readable event of a consistent log is the connected one. -/
theorem readable_eq {w : World} {log : List Event} (hcons : ∀ e ∈ log, SelfConsistent w e)
    {id : EventID} {x : Event} (h : Readable w log id x) : x ∈ log ∧ x.id = id := by
  obtain ⟨e, he, hid, rfl | ⟨buf, hbuf, hdec⟩⟩ := h
  · exact ⟨he, hid⟩
  · obtain ⟨buf', hbuf', hdec'⟩ := hcons e he
    rw [hbuf] at hbuf'
    cases hbuf'
    rw [hdec] at hdec'
    cases hdec'
    exact ⟨he, hid⟩

/-- Of a consistent log, `GetEvent` returns the connected event, cached or not. -/
theorem getEvent_value {w : World} {n : Node} {l : State} (h : Refines w n l)
    (hcons : ∀ e ∈ l.log, SelfConsistent w e) (id : EventID) :
    (n.store.getEvent w.sha256 w.rlp id : Go ServiceError _).map Prod.fst =
      .ok (l.log.find? (·.id = id)) := by
  have hfind : ∀ x, x ∈ l.log → x.id = id → l.log.find? (·.id = id) = some x := by
    rintro x hx rfl
    rw [← List.head?_filter, filter_key_singleton h.sound.nodup hx]
    rfl
  unfold Store.getEvent
  split
  · next x hx =>
    obtain ⟨hmem, hid⟩ := readable_eq hcons (h.readable.1 id x hx)
    rw [hfind x hmem hid]
    rfl
  · split
    · next hrow =>
      have hnone : l.log.find? (·.id = id) = none := by
        rw [List.find?_eq_none]
        intro x hx hid
        exact h.holds.fresh hrow x hx (of_decide_eq_true hid)
      rw [hnone]
      rfl
    · next buf hrow =>
      obtain ⟨x, hx, hid⟩ := h.holds.known id buf hrow
      obtain ⟨buf', hrow', hbuf'⟩ := h.holds.row x hx
      rw [hid, hrow] at hrow'
      cases hrow'
      obtain ⟨buf'', hbuf'', hdec⟩ := hcons x hx
      rw [hbuf'] at hbuf''
      cases hbuf''
      rw [hdec, hfind x hx hid]
      rfl

/-! ## Rejection -/

/-- **A rejected event leaves no trace.** -/
theorem rejection_atomic (w : World) (cfg : CacheConfig) (em : Emitter) (s : Sys)
    (h : Reachable w cfg em (fun _ _ => True) s)
    (hcons : ∀ x ∈ s.connected, SelfConsistent w x) (e : Event) (o : Outcome) (n : Node)
    (err : ServiceError) (hp : processEvent w s.node e o = .ok (n, some err))
    (herr : err.isFlush = false) : SameObservations w s.node.store n.store := by
  obtain ⟨l, href, hlog, -⟩ := reachable_ledger (I := fun _ => True) trivial
    (fun _ _ _ _ _ _ _ _ _ _ _ => trivial) h
  rw [← hlog] at hcons
  rcases processEvent_refines href hp with ⟨hrej, href'⟩ | ⟨old, new, buf, hcon, -, -⟩
  · have hdata := hrej.data
    exact {
      hasEvent := fun id => by rw [Store.hasEvent, hdata]; rfl
      event := fun id => by rw [getEvent_value href' hcons, getEvent_value href hcons]
      eventRLP := fun id => by rw [Store.getEventRLP, hdata]; rfl
      heads := by rw [Store.getHeads, hdata]; rfl
      tips := fun v => by rw [Store.getLastEvent, hdata]; rfl
      pack := fun epoch idx => by rw [Store.getPack, hdata]; rfl
      packInfo := fun epoch idx => by
        rw [(getPackInfo_spec href'.coherent epoch idx).1,
          (getPackInfo_spec href.coherent epoch idx).1, hdata]
      packsNum := fun epoch => by rw [Store.getPacksNum, hdata]; rfl
      block := fun i => by
        rw [(getBlock_spec href'.coherent i).1, (getBlock_spec href.coherent i).1, hdata]
      blockState := by
        rw [getBlockState_value href'.coherent, getBlockState_value href.coherent, hdata]
      epochState := by
        rw [getEpochState_value href'.coherent, getEpochState_value href.coherent, hdata] }
  · rcases hcon.error with hnone | ⟨code, hcode⟩
    · cases hnone
    · cases hcode
      cases herr

/-! ## Self-consistent events -/

/-- An event whose parts encode to themselves is self-consistent. -/
theorem selfConsistent_of_parts (w : World) {p : EventDecode.Parts} (hp : p.Valid) (sig : Signature)
    (hsig : sig.data = p.sig)
    (hwire : EventWire.wire (received w.sha256 p sig MutableEvent.zero.id).immutable = p.bytes) :
    SelfConsistent w
      (builtFrom w.sha256 (received w.sha256 p sig MutableEvent.zero.id) p.bytes) := by
  have hm := EventWire.marshalBinary_eq_wire (ε := ServiceError)
    (builtFrom w.sha256 (received w.sha256 p sig MutableEvent.zero.id) p.bytes)
    (show (0 : UInt8).toNat < 16 by decide)
  obtain ⟨spare, hr⟩ := w.rlp.decode_encode p.bytes
  refine ⟨w.rlp.encode p.bytes, ?_, ?_⟩
  · rw [Event.encodeRLP, hm]
    exact congrArg (fun b => Except.ok (w.rlp.encode b)) hwire
  · simp only [decodeRLP, MutableEvent.decodeRLP, hr,
      unmarshalBinary_parts w.sha256 p hp spare MutableEvent.zero sig hsig,
      build_received w.sha256 p hp sig]

/-- An event received in a canonical encoding is self-consistent. -/
theorem received_selfConsistent (w : World) (raw : Slice UInt8) (src : List UInt8) {e : Event}
    (hraw : w.rlp.decode src = some raw) (hdec : decodeRLP w.sha256 w.rlp src = .ok e)
    (hcanon : CanonicalHeaders raw.data) : SelfConsistent w e := by
  simp only [decodeRLP, MutableEvent.decodeRLP, hraw] at hdec
  cases hu : MutableEvent.zero.unmarshalBinary w.sha256 raw with
  | mk m r =>
    rw [hu] at hdec
    cases r with
    | some err => cases hdec
    | none =>
      obtain ⟨p, sig, hp, hdata, hsig, rfl⟩ := unmarshalBinary_inv w.sha256 hu
      dsimp only at hdec
      rw [build_received w.sha256 p hp sig] at hdec
      cases hdec
      rw [hdata] at hcanon
      exact selfConsistent_of_parts w hp sig hsig
        ((wire_received_iff w.sha256 hp sig _ hsig).mpr hcanon)

/-! ## A run with a cache of one entry -/

/-- An event's message with nine bytes of time, of which the last is dropped. -/
def longMessage : List UInt8 :=
  [0x80, 0, 0, 1, 0, 0, 0, 0, 0, 0, 0, 1, 1, 1, 0, 1, 1, 0, 1] ++ List.replicate 64 0

/-- What it decodes to: the first event of the chain, but for its size. -/
def longEvent : Event := { chainEvent 1 with sizeCache := 83 }

/-- Every insertion leaves the inserted event alone in the cache. -/
def oneEntry : CacheConfig where
  events := some fun t id => if t = 0 then id = longEvent.id else id = (chainEvent 2).id
  blocks := none
  packInfos := none

/-- The engine refuses the event. -/
def refusing : Outcome := ⟨[], .error 0, false, true, false, none⟩

/-- The size of the event that is read under the ID of the first event. -/
def sizeRead (s : Store) : Option Nat :=
  (s.getEvent (sampleWorld 1).sha256 (sampleWorld 1).rlp longEvent.id :
    Go ServiceError _).toOption.bind fun r => r.1.map (·.size)

/-- The second event is refused after the first was connected as `first`. -/
theorem refused_after (cfg : CacheConfig) (first : Event) (before after : Option Nat)
    (h : (runFromGenesis (sampleWorld 1) cfg idleEmitter (fun _ _ => true)
        [(first, deciding [])]).map (fun s => (s.connected, sizeRead s.node.store,
          (processEvent (sampleWorld 1) s.node (chainEvent 2) refusing).toOption.map
            fun p => (p.2, sizeRead p.1.store))) =
      some ([first], before, some (some (.engine 0), after))) :
    ∃ s n, Reachable (sampleWorld 1) cfg idleEmitter (fun _ _ => True) s ∧
      s.connected = [first] ∧
      processEvent (sampleWorld 1) s.node (chainEvent 2) refusing = .ok (n, some (.engine 0)) ∧
      sizeRead s.node.store = before ∧ sizeRead n.store = after := by
  obtain ⟨s, hs, hreads⟩ := Option.map_eq_some_iff.mp h
  simp only [Prod.mk.injEq] at hreads
  obtain ⟨hcon, hbefore, hcall⟩ := hreads
  obtain ⟨⟨n, r⟩, hp, hafter⟩ := Option.map_eq_some_iff.mp hcall
  simp only [Prod.mk.injEq] at hafter
  obtain ⟨rfl, hsize⟩ := hafter
  exact ⟨s, n, runFromGenesis_reachable (fun _ _ _ => trivial) hs, hcon, toOption_eq_some hp,
    hbefore, hsize⟩

theorem rejection_atomic_chain :
    ∃ s n, Reachable (sampleWorld 1) oneEntry idleEmitter (fun _ _ => True) s ∧
      s.connected = [chainEvent 1] ∧
      processEvent (sampleWorld 1) s.node (chainEvent 2) refusing = .ok (n, some (.engine 0)) ∧
      SameObservations (sampleWorld 1) s.node.store n.store := by
  obtain ⟨s, n, hreach, hcon, hp, -, -⟩ := refused_after oneEntry (chainEvent 1)
    (some 75) (some 75) (by decide +kernel)
  have hcons : ∀ x ∈ s.connected, SelfConsistent (sampleWorld 1) x := by
    rw [hcon]
    intro x hx
    rw [List.mem_singleton] at hx
    subst hx
    exact received_selfConsistent (sampleWorld 1) ⟨EventWire.wire (chainEvent 1), []⟩
      (rlpString.encode (EventWire.wire (chainEvent 1))) (by decide +kernel)
      (toOption_eq_some (by decide +kernel)) (by decide +kernel)
  exact ⟨s, n, hreach, hcon, hp, rejection_atomic _ _ _ s hreach hcons _ _ n _ hp rfl⟩

/-- **A refused event changes what is read of another.** The first event was
received as `longMessage`; before the call it is read with the 83 bytes it was
received with, afterwards with the 75 bytes of its canonical encoding. -/
theorem evicted_event_changes :
    (decodeRLP (sampleWorld 1).sha256 (sampleWorld 1).rlp
      (rlpString.encode longMessage)).toOption = some longEvent ∧
    ∃ s n, Reachable (sampleWorld 1) oneEntry idleEmitter (fun _ _ => True) s ∧
      s.connected = [longEvent] ∧
      processEvent (sampleWorld 1) s.node (chainEvent 2) refusing = .ok (n, some (.engine 0)) ∧
      sizeRead s.node.store = some 83 ∧ sizeRead n.store = some 75 ∧
      ¬ SameObservations (sampleWorld 1) s.node.store n.store := by
  refine ⟨by decide +kernel, ?_⟩
  obtain ⟨s, n, hreach, hcon, hp, hbefore, hafter⟩ := refused_after oneEntry longEvent
    (some 83) (some 75) (by decide +kernel)
  refine ⟨s, n, hreach, hcon, hp, hbefore, hafter, fun hsame => ?_⟩
  have hsizes : sizeRead n.store = sizeRead s.node.store := by
    have hread := congrArg (fun x => x.toOption.bind fun r => r.map (·.size))
      (hsame.event longEvent.id)
    have hmap : ∀ x : Go ServiceError (Option Event × Store),
        (x.map Prod.fst).toOption.bind (fun r => r.map (·.size)) =
          x.toOption.bind fun r => r.1.map (·.size) := by
      intro x
      cases x <;> rfl
    rw [hmap, hmap] at hread
    exact hread
  rw [hbefore, hafter] at hsizes
  cases hsizes

end MiniOpera.Rejection
