import MiniOpera.AdvertisedPacks
import MiniOpera.Peers

/-!
# Replies to event requests

The branch of `handleMsg` for `GetEventsMsg`, on the serving side, and what the side
that asked does with the `EventsMsg`: the size check of every message, the decoding
of the events and the limit on their number.

The size of the reply is tested after an event was added. `replies_acceptable_iff`:
every reply of a store is accepted exactly when no stored event, on top of others of
less than `softResponseLimitSize`, exceeds `protocolMaxMsgSize`.
-/

namespace MiniOpera.EventReplies
open GoRuntime InterEvent EventWire EventCodec EventCheck RlpItem GossipStore Genesis Service
  PackMessages Consensus Runs AdvertisedPacks Peers

/-- The arguments of `SendEventsRLP`. -/
structure EventsReply where
  rawEvents : List (List UInt8)
  ids : List EventID
  deriving DecidableEq

section Serving

variable (s : Store)

/-- The loop over the requested events; `size` is what was collected so far. -/
def eventsLoop : List EventID → Nat → EventsReply
  | [], _ => ⟨[], []⟩
  | id :: rest, size =>
    match s.getEventRLP id with
    | some raw =>
      let size := size + raw.length
      let later := if size ≥ softResponseLimitSize then ⟨[], []⟩ else eventsLoop rest size
      ⟨raw :: later.rawEvents, id :: later.ids⟩
    | none => if size ≥ softResponseLimitSize then ⟨[], []⟩ else eventsLoop rest size

/-- `GetEventsMsg`: an error, no reply, or a reply. -/
def getEventsReply (requests : List EventID) : Except ErrCode (Option EventsReply) :=
  match checkLenLimits requests.length with
  | some err => .error err
  | none =>
    let reply := eventsLoop s requests 0
    if reply.rawEvents.length ≠ 0 then .ok (some reply) else .ok none

end Serving

/-- The payload of an `EventsMsg`: the RLP list of events that are encoded already. -/
def eventsMessage (rawEvents : List (List UInt8)) : List UInt8 := encodeList rawEvents.flatten

section Receiving

variable (sha256 : List UInt8 → Hash)

/-- `Event.DecodeRLP` on the bytes the stream gives it. -/
def decodeEvent (bytes : List UInt8) : Go DecodeError Event :=
  match MutableEvent.zero.unmarshalBinary sha256 ⟨bytes, []⟩ with
  | (_, some err) => .error (.error err)
  | (mutE, none) => mutE.build sha256

def decodeEvents (msg : List UInt8) : Option (List Event) :=
  match split msg with
  | some (.list, payload, []) =>
    (splitStrings payload.length payload).bind (·.mapM fun b => (decodeEvent sha256 b).toOption)
  | _ => none

/-- `EventsMsg`: the error on which the connection is torn down. -/
def handleEvents (overloaded : Bool) (msg : List UInt8) : Option ErrCode :=
  if msg.length > protocolMaxMsgSize then some .msgTooLarge
  else if overloaded then none
  else
    match decodeEvents sha256 msg with
    | none => some .decode
    | some events => checkLenLimits events.length

end Receiving

/-! ## What a reply holds -/

section Replies

variable (s : Store)

/-- The bytes of those events of a list that are stored. -/
def foundSize (ids : List EventID) : Nat := (ids.filterMap s.getEventRLP).flatten.length

theorem foundSize_append (as bs : List EventID) :
    foundSize s (as ++ bs) = foundSize s as + foundSize s bs := by
  simp [foundSize]

variable {s} in
theorem foundSize_found {id : EventID} {raw : List UInt8} (h : s.getEventRLP id = some raw)
    (ids : List EventID) : foundSize s (id :: ids) = raw.length + foundSize s ids := by
  simp [foundSize, h]

variable {s} in
theorem foundSize_missing {id : EventID} (h : s.getEventRLP id = none) (ids : List EventID) :
    foundSize s (id :: ids) = foundSize s ids := by
  simp [foundSize, h]

/-- `asked` is the part of the request the loop goes through. -/
structure Asked (requests asked : List EventID) (size : Nat) : Prop where
  isPrefix : ∃ rest, requests = asked ++ rest ∧
    (rest = [] ∨ softResponseLimitSize ≤ size + foundSize s asked)
  below : ∀ before id after, asked = before ++ id :: after →
    size + foundSize s before < softResponseLimitSize

variable {s}

theorem Asked.nil (size : Nat) : Asked s [] [] size where
  isPrefix := ⟨[], rfl, .inl rfl⟩
  below := by simp

theorem Asked.cons {requests asked : List EventID} {size : Nat} {id : EventID}
    (hlt : size < softResponseLimitSize)
    (h : Asked s requests asked (size + foundSize s [id])) :
    Asked s (id :: requests) (id :: asked) size := by
  have hcons : ∀ ids, foundSize s (id :: ids) = foundSize s [id] + foundSize s ids :=
    fun ids => foundSize_append s [id] ids
  constructor
  · obtain ⟨rest, hrest, hend⟩ := h.isPrefix
    refine ⟨rest, by rw [hrest]; rfl, hend.imp_right fun hlimit => ?_⟩
    rw [hcons]
    omega
  · intro before x after heq
    cases before with
    | nil => simpa [foundSize] using hlt
    | cons y before =>
      obtain ⟨rfl, htail⟩ := List.cons.inj heq
      have := h.below before x after htail
      rw [hcons]
      omega

/-- The last event is the one that reaches the limit. -/
theorem Asked.last {requests : List EventID} {size : Nat} {id : EventID}
    (hlt : size < softResponseLimitSize)
    (h : softResponseLimitSize ≤ size + foundSize s [id]) :
    Asked s (id :: requests) [id] size := by
  constructor
  · exact ⟨requests, rfl, .inr h⟩
  · intro before x after heq
    have hnil : before = [] := by
      cases before with
      | nil => rfl
      | cons y before => simp at heq
    simpa [hnil, foundSize] using hlt

theorem hasEvent_eq (id : EventID) : s.hasEvent id = (s.getEventRLP id).isSome := by
  simp [Store.hasEvent, Store.getEventRLP]

theorem eventsLoop_spec (requests : List EventID) (size : Nat)
    (hlt : size < softResponseLimitSize) :
    ∃ asked, Asked s requests asked size ∧
      eventsLoop s requests size = ⟨asked.filterMap s.getEventRLP,
        asked.filter s.hasEvent⟩ := by
  induction requests generalizing size with
  | nil => exact ⟨[], .nil size, rfl⟩
  | cons id rest ih =>
    cases hrow : s.getEventRLP id with
    | none =>
      have hsize : foundSize s [id] = 0 := foundSize_missing hrow []
      obtain ⟨asked, hasked, heq⟩ := ih size hlt
      refine ⟨id :: asked, .cons hlt (by rwa [hsize]), ?_⟩
      simp only [eventsLoop, hrow, if_neg (Nat.not_le.mpr hlt), heq, List.filterMap_cons,
        List.filter_cons, hasEvent_eq, Option.isSome_none, Bool.false_eq_true, if_false]
    | some raw =>
      have hsize : foundSize s [id] = raw.length := by
        simpa [foundSize] using foundSize_found hrow []
      by_cases hlimit : size + raw.length ≥ softResponseLimitSize
      · refine ⟨[id], .last hlt (by rwa [hsize]), ?_⟩
        simp [eventsLoop, hrow, hlimit, hasEvent_eq]
      · obtain ⟨asked, hasked, heq⟩ := ih (size + raw.length) (Nat.lt_of_not_le hlimit)
        refine ⟨id :: asked, .cons hlt (by rwa [hsize]), ?_⟩
        simp [eventsLoop, hrow, hlimit, heq, hasEvent_eq]

/-- A reply pairs each event with its ID, in the order of the request, and skips only
unknown IDs until the limit is reached. -/
structure Faithful (s : Store) (requests : List EventID) (reply : EventsReply) : Prop where
  paired : reply.rawEvents.map some = reply.ids.map s.getEventRLP
  ordered : ∃ asked, Asked s requests asked 0 ∧ reply.ids = asked.filter s.hasEvent

theorem filterMap_paired (asked : List EventID) :
    (asked.filterMap s.getEventRLP).map some = (asked.filter s.hasEvent).map s.getEventRLP := by
  induction asked with
  | nil => rfl
  | cons id asked ih =>
    cases hrow : s.getEventRLP id with
    | none => simpa [hrow, hasEvent_eq] using ih
    | some raw => simpa [hrow, hasEvent_eq] using ih

theorem softLimit_pos : 0 < softResponseLimitSize := by decide

/-- What the branch does with a request within the limits. -/
theorem getEventsReply_cases {requests : List EventID}
    (h : checkLenLimits requests.length = none) :
    (getEventsReply s requests = .ok none ∧ ∀ id ∈ requests, s.hasEvent id = false) ∨
      ∃ asked, Asked s requests asked 0 ∧ asked.filterMap s.getEventRLP ≠ [] ∧
        getEventsReply s requests =
          .ok (some ⟨asked.filterMap s.getEventRLP, asked.filter s.hasEvent⟩) := by
  obtain ⟨asked, hasked, heq⟩ := eventsLoop_spec (s := s) requests 0 softLimit_pos
  by_cases hnil : asked.filterMap s.getEventRLP = []
  · refine .inl ⟨by simp [getEventsReply, h, heq, hnil], ?_⟩
    obtain ⟨rest, rfl, hend⟩ := hasked.isPrefix
    have hrest : rest = [] := by
      refine hend.resolve_right ?_
      simp [foundSize, hnil, softResponseLimitSize]
    rw [List.filterMap_eq_nil_iff] at hnil
    intro id hid
    rw [hrest, List.append_nil] at hid
    rw [hasEvent_eq, hnil id hid]
    rfl
  · exact .inr ⟨asked, hasked, hnil, by simp [getEventsReply, h, heq, hnil]⟩

/-- A reply ends with an event, found below the limit. -/
theorem Asked.last_found {requests asked : List EventID} (h : Asked s requests asked 0)
    (hne : asked.filterMap s.getEventRLP ≠ []) :
    ∃ before id raw, before.length < requests.length ∧ s.getEventRLP id = some raw ∧
      foundSize s before < softResponseLimitSize ∧
      foundSize s asked = foundSize s before + raw.length := by
  -- the split of `asked` at the last stored event
  have hsplit : ∃ before id after raw, asked = before ++ id :: after ∧
      s.getEventRLP id = some raw ∧ foundSize s after = 0 := by
    clear h
    induction asked with
    | nil => exact absurd rfl hne
    | cons x asked ih =>
      by_cases hlater : asked.filterMap s.getEventRLP = []
      · obtain ⟨raw, hraw⟩ : ∃ raw, s.getEventRLP x = some raw := by
          cases hrow : s.getEventRLP x with
          | none => simp [hrow, hlater] at hne
          | some raw => exact ⟨raw, rfl⟩
        exact ⟨[], x, asked, raw, rfl, hraw, by simp [foundSize, hlater]⟩
      · obtain ⟨before, id, after, raw, rfl, hraw, hafter⟩ := ih hlater
        exact ⟨x :: before, id, after, raw, rfl, hraw, hafter⟩
  obtain ⟨before, id, after, raw, rfl, hraw, hafter⟩ := hsplit
  have hbelow := h.below before id after rfl
  obtain ⟨rest, rfl, -⟩ := h.isPrefix
  refine ⟨before, id, raw, ?_, hraw, by omega, ?_⟩
  · simp only [List.length_append, List.length_cons]
    omega
  · rw [foundSize_append, foundSize_found hraw, hafter]
    omega

/-- A request that stays below the limit up to its last ID is served in full. -/
theorem Asked.all {before asked : List EventID} {id : EventID}
    (h : Asked s (before ++ [id]) asked 0) (hlt : foundSize s before < softResponseLimitSize) :
    asked = before ++ [id] := by
  obtain ⟨rest, hrest, hend⟩ := h.isPrefix
  rcases hend with hnil | hlimit
  · rw [hrest, hnil, List.append_nil]
  · rcases List.eq_nil_or_concat rest with hnil | ⟨init, last, rfl⟩
    · rw [hrest, hnil, List.append_nil]
    · -- the limit would be reached before the last ID
      rw [List.concat_eq_append, ← List.append_assoc] at hrest
      have hbefore : before = asked ++ init := (List.append_inj' hrest rfl).1
      rw [hbefore, foundSize_append] at hlt
      omega

end Replies

/-! ## What the receiver makes of it -/

/-- The rows are the RLP of events; an event that can be decoded has version 0. -/
def HoldsEvents (s : Store) : Prop :=
  ∀ id raw, s.getEventRLP id = some raw →
    ∃ e : Event, e.version = 0 ∧ (wire e).length < 2 ^ 64 ∧ raw = encodeString (wire e)

/-- No event of the store, on top of others that stay below the soft limit, exceeds
the size of a message. -/
def LeavesRoom (s : Store) : Prop :=
  ∀ others id raw, others.length < hardLimitItems →
    foundSize s others < softResponseLimitSize →
    s.getEventRLP id = some raw →
    (header 0xc0 (foundSize s others + raw.length)).length + (foundSize s others + raw.length) ≤
      protocolMaxMsgSize

section Accepting

variable (sha256 : List UInt8 → Hash) {s : Store}

theorem decodeEvent_wire (e : Event) (hv : e.version = 0) :
    ∃ e', (decodeEvent sha256 (wire e)).toOption = some e' := by
  have hbuild := build_received (ε := DecodeError) sha256 (partsOf e) (partsOf_valid e hv) e.sig
    MutableEvent.zero.id
  rw [decodeEvent, unmarshalBinary_wire sha256 e hv]
  dsimp only
  rw [hbuild]
  exact ⟨_, rfl⟩

theorem mapM_decodeEvent (es : List Event) (h : ∀ e ∈ es, e.version = 0) :
    ∃ events, ((es.map wire).mapM fun b => (decodeEvent sha256 b).toOption) = some events ∧
      events.length = es.length := by
  induction es with
  | nil => exact ⟨[], rfl, rfl⟩
  | cons e es ih =>
    obtain ⟨e', he'⟩ := decodeEvent_wire sha256 e (h e List.mem_cons_self)
    obtain ⟨events, hevents, hlen⟩ := ih fun x hx => h x (List.mem_cons_of_mem _ hx)
    exact ⟨e' :: events, by simp [he', hevents], by simp [hlen]⟩

/-- The rows of a list of IDs. -/
theorem HoldsEvents.rows (hs : HoldsEvents s) (ids : List EventID) :
    ∃ es : List Event, (∀ e ∈ es, e.version = 0 ∧ (wire e).length < 2 ^ 64) ∧
      ids.filterMap s.getEventRLP = (es.map wire).map encodeString := by
  induction ids with
  | nil => exact ⟨[], by simp, rfl⟩
  | cons id ids ih =>
    obtain ⟨es, hes, heq⟩ := ih
    cases hrow : s.getEventRLP id with
    | none => exact ⟨es, hes, by rw [List.filterMap_cons, hrow]; exact heq⟩
    | some raw =>
      obtain ⟨e, hv, hlen, rfl⟩ := hs id raw hrow
      refine ⟨e :: es, ?_, by rw [List.filterMap_cons, hrow, heq]; rfl⟩
      intro x hx
      rcases List.mem_cons.mp hx with rfl | hx
      · exact ⟨hv, hlen⟩
      · exact hes x hx

theorem eventsMessage_length (ids : List EventID) :
    (eventsMessage (ids.filterMap s.getEventRLP)).length =
      (header 0xc0 (foundSize s ids)).length + foundSize s ids := by
  rw [eventsMessage, encodeList, List.length_append]
  rfl

/-- The rows of a message that is not too large can be decoded. -/
theorem decodeEvents_rows (hs : HoldsEvents s) (ids : List EventID) (h : foundSize s ids < 2 ^ 64) :
    ∃ events, decodeEvents sha256 (eventsMessage (ids.filterMap s.getEventRLP)) = some events ∧
      events.length = (ids.filterMap s.getEventRLP).length := by
  obtain ⟨es, hes, hrows⟩ := hs.rows ids
  have hflat : (ids.filterMap s.getEventRLP).flatten = (es.map wire).flatMap encodeString := by
    rw [hrows, List.flatMap_def]
  have hbound : ((es.map wire).flatMap encodeString).length < 2 ^ 64 := by
    rw [← hflat]
    exact h
  have hsplit := split_encodeList _ [] hbound
  rw [List.append_nil] at hsplit
  have hshort : ∀ b ∈ es.map wire, b.length < 2 ^ 64 := by
    intro b hb
    obtain ⟨e, he, rfl⟩ := List.mem_map.mp hb
    exact (hes e he).2
  have hstrings := splitStrings_encode (es.map wire) hshort _
    (flatMap_encodeString_length (es.map wire))
  obtain ⟨events, hevents, hlen⟩ := mapM_decodeEvent sha256 es fun e he => (hes e he).1
  refine ⟨events, ?_, ?_⟩
  · rw [decodeEvents, eventsMessage, hflat, hsplit]
    dsimp only
    rw [hstrings, Option.bind_some, hevents]
  · rw [hlen, hrows, List.length_map, List.length_map]

/-- Stored events are accepted if the message is not too large. -/
theorem handleEvents_rows (hs : HoldsEvents s) (overloaded : Bool) {ids : List EventID}
    (hne : ids.filterMap s.getEventRLP ≠ []) (hle : ids.length ≤ hardLimitItems) :
    handleEvents sha256 overloaded (eventsMessage (ids.filterMap s.getEventRLP)) = none ↔
      (header 0xc0 (foundSize s ids)).length + foundSize s ids ≤ protocolMaxMsgSize := by
  rw [handleEvents, eventsMessage_length]
  by_cases hsize : (header 0xc0 (foundSize s ids)).length + foundSize s ids ≤ protocolMaxMsgSize
  · rw [if_neg (Nat.not_lt.mpr hsize)]
    refine iff_of_true ?_ hsize
    unfold protocolMaxMsgSize at hsize
    obtain ⟨events, hdecode, hlen⟩ := decodeEvents_rows sha256 hs ids (by omega)
    have hcount : checkLenLimits events.length = none := by
      have hpos := List.length_pos_iff.mpr hne
      have hfewer := List.length_filterMap_le s.getEventRLP ids
      rw [checkLenLimits_eq_none]
      omega
    cases overloaded
    · rw [if_neg (by decide), hdecode]
      exact hcount
    · exact if_pos rfl
  · rw [if_pos (Nat.lt_of_not_le hsize)]
    exact iff_of_false (by simp) hsize

theorem Asked.length_le {requests asked : List EventID} {size : Nat}
    (h : Asked s requests asked size) : asked.length ≤ requests.length := by
  obtain ⟨rest, rfl, -⟩ := h.isPrefix
  simp

/-- **Replies.** What a reply holds, for every request, and for which stores every
reply is accepted. -/
theorem replies_acceptable_iff (hs : HoldsEvents s) (overloaded : Bool) :
    (∀ requests, checkLenLimits requests.length = none →
      (getEventsReply s requests = .ok none ∧ ∀ id ∈ requests, s.hasEvent id = false) ∨
        ∃ reply, getEventsReply s requests = .ok (some reply) ∧ Faithful s requests reply) ∧
    ((∀ requests reply, getEventsReply s requests = .ok (some reply) →
      handleEvents sha256 overloaded (eventsMessage reply.rawEvents) = none) ↔ LeavesRoom s) := by
  refine ⟨?_, ?_, ?_⟩
  · intro requests hlimits
    refine (getEventsReply_cases hlimits).imp_right ?_
    rintro ⟨asked, hasked, -, heq⟩
    exact ⟨_, heq, filterMap_paired asked, asked, hasked, rfl⟩
  · intro hall others id raw hlen hlt hraw
    have hsize : foundSize s (others ++ [id]) = foundSize s others + raw.length := by
      rw [foundSize_append, foundSize_found hraw]
      rfl
    have hlimits : checkLenLimits (others ++ [id]).length = none := by
      rw [checkLenLimits_eq_none, List.length_append, List.length_singleton]
      omega
    rcases getEventsReply_cases hlimits with ⟨-, hnone⟩ | ⟨asked, hasked, hne, heq⟩
    · have hhas := hnone id (by simp)
      rw [hasEvent_eq, hraw] at hhas
      cases hhas
    · obtain rfl := hasked.all hlt
      have haccepted := hall _ _ heq
      have hle : (others ++ [id]).length ≤ hardLimitItems := by
        rw [List.length_append]
        exact hlen
      rwa [handleEvents_rows sha256 hs overloaded hne hle, hsize] at haccepted
  · intro hroom requests reply heq
    have hlimits : checkLenLimits requests.length = none := by
      cases hcheck : checkLenLimits requests.length with
      | none => rfl
      | some err => simp [getEventsReply, hcheck] at heq
    obtain ⟨-, hlen⟩ := checkLenLimits_eq_none.mp hlimits
    rcases getEventsReply_cases hlimits with ⟨hnone, -⟩ | ⟨asked, hasked, hne, hreply⟩
    · rw [hnone] at heq
      cases heq
    · rw [hreply] at heq
      cases heq
      have hle := hasked.length_le
      rw [handleEvents_rows sha256 hs overloaded hne (by omega)]
      obtain ⟨before, id, raw, hshort, hraw, hlt, hsize⟩ := hasked.last_found hne
      rw [hsize]
      exact hroom before id raw (by omega) hlt hraw

end Accepting

/-! ## Stores of events -/

section SetEvent

variable {ε : Type} {s s' : Store} {e : Event} (hv : e.version = 0)
  (hlen : (wire e).length < 2 ^ 64)
  (h : (s.setEvent rlpString e : Go ε _) = .ok s')
include hv hlen h

theorem getEventRLP_setEvent (id : EventID) :
    s'.getEventRLP id = if e.id = id then some (encodeString (wire e)) else s.getEventRLP id := by
  have hm := marshalBinary_eq_wire (ε := ε) e (by rw [hv]; decide)
  simp only [Store.setEvent, Event.encodeRLP, hm, ok_bind, pure_eq_ok, Except.ok.injEq] at h
  have hencode : RlpItem.encode (wire e) = encodeString (wire e) := if_pos hlen
  rw [← h, ← hencode]
  simp only [Store.getEventRLP, Std.ExtTreeMap.getElem?_insert, Std.LawfulEqCmp.compare_eq_iff_eq]
  rfl

/-- What `SetEvent` writes is the RLP of an event. -/
theorem HoldsEvents.setEvent (hs : HoldsEvents s) : HoldsEvents s' := by
  intro id raw hraw
  rw [getEventRLP_setEvent hv hlen h] at hraw
  split at hraw
  · cases hraw
    exact ⟨e, hv, hlen, rfl⟩
  · exact hs id raw hraw

end SetEvent

/-- Events of less than eight mebibytes leave room, whatever the request. -/
theorem leavesRoom_of_small {s : Store}
    (h : ∀ id raw, s.getEventRLP id = some raw →
      raw.length + 8 + softResponseLimitSize ≤ protocolMaxMsgSize) : LeavesRoom s := by
  intro others id raw _ hlt hraw
  have hsmall := h id raw hraw
  have hheader := (header_length 0xc0 (foundSize s others + raw.length)).2
  omega

theorem newStore_empty (cfg : CacheConfig) (id : EventID) : (newStore cfg).getEventRLP id = none :=
  Std.ExtTreeMap.getElem?_empty

theorem newStore_holdsEvents (cfg : CacheConfig) : HoldsEvents (newStore cfg) := by
  intro id raw hraw
  rw [newStore_empty] at hraw
  cases hraw

theorem setEvent_returns (s : Store) {e : Event} (hv : e.version = 0) :
    ∃ s', (s.setEvent rlpString e : Go ServiceError _) = .ok s' := by
  have hm := marshalBinary_eq_wire (ε := ServiceError) e (by rw [hv]; decide)
  simp only [Store.setEvent, Event.encodeRLP, hm, ok_bind, pure_eq_ok]
  exact ⟨_, rfl⟩

theorem replies_acceptable_iff_oneEvent :
    ∃ s, ((newStore sampleConfig).setEvent rlpString (chainEvent 1) :
      Go ServiceError _) = .ok s ∧
      HoldsEvents s ∧ s.hasEvent (chainEvent 1).id = true ∧
      ∀ requests reply, getEventsReply s requests = .ok (some reply) →
        handleEvents (fun _ => Bytes.zero 32) false (eventsMessage reply.rawEvents) = none := by
  obtain ⟨e, he⟩ : ∃ e, e = chainEvent 1 := ⟨_, rfl⟩
  have hv : e.version = 0 := by rw [he]; rfl
  have hwire : (wire e).length ≤ 100 := by
    rw [he]
    decide +kernel
  rw [← he]
  obtain ⟨s, hset⟩ := setEvent_returns (newStore sampleConfig) hv
  have hrow := getEventRLP_setEvent hv (by omega) hset
  have hs : HoldsEvents s := .setEvent hv (by omega) hset (newStore_holdsEvents _)
  have hroom : LeavesRoom s := by
    refine leavesRoom_of_small fun id raw hraw => ?_
    rw [hrow, newStore_empty] at hraw
    split at hraw
    · cases hraw
      have hlen := (encodeString_length (wire e)).2
      unfold softResponseLimitSize protocolMaxMsgSize
      omega
    · cases hraw
  refine ⟨s, hset, hs, ?_, (replies_acceptable_iff _ hs false).2.mpr hroom⟩
  rw [hasEvent_eq, hrow, if_pos rfl]
  rfl

/-! ## A reply that is too large -/

theorem wire_length_payloadEvent (k : UInt32) (payload : List UInt8) (length : Nat) :
    (wire (payloadEvent k payload length)).length =
      (wire (payloadDraft k []).immutable).length + payload.length :=
  wire_length_payload k payload

/-- The second of two events is added while the first is below the soft limit. -/
theorem pair_refused {s : Store} {id₁ id₂ : EventID} {raw₁ raw₂ : List UInt8}
    (h₁ : s.getEventRLP id₁ = some raw₁) (h₂ : s.getEventRLP id₂ = some raw₂)
    (hsoft : raw₁.length < softResponseLimitSize)
    (hlarge : protocolMaxMsgSize < raw₁.length + raw₂.length) (sha256 : List UInt8 → Hash) :
    getEventsReply s [id₁, id₂] = .ok (some ⟨[raw₁, raw₂], [id₁, id₂]⟩) ∧
      handleEvents sha256 false (eventsMessage [raw₁, raw₂]) = some .msgTooLarge := by
  constructor
  · have hfirst : ¬0 + raw₁.length ≥ softResponseLimitSize := by omega
    have hsecond : 0 + raw₁.length + raw₂.length ≥ softResponseLimitSize := by
      unfold protocolMaxMsgSize at hlarge
      unfold softResponseLimitSize
      omega
    simp only [getEventsReply, eventsLoop, h₁, h₂, if_neg hfirst, if_pos hsecond]
    rfl
  · rw [handleEvents, if_pos]
    simp only [eventsMessage, encodeList, List.length_append, List.flatten_cons, List.flatten_nil,
      List.length_nil]
    omega

theorem eventsMessage_single {raw : List UInt8} (h : raw.length + 9 ≤ protocolMaxMsgSize) :
    (eventsMessage [raw]).length ≤ protocolMaxMsgSize := by
  rw [eventsMessage, List.flatten_singleton]
  exact (encodeList_length_le raw).trans h

/-- Two events of two and nine megabytes: each fits a message, the reply with both
does not. -/
theorem large_pair_refused {p q : List UInt8} (hp : p.length = 2000000) (hq : q.length = 9000000) :
    ∃ s₁ s₂ reply,
      ((newStore sampleConfig).setEvent rlpString (payloadEvent 1 p 2000000) : Go ServiceError _) =
        .ok s₁ ∧
      (s₁.setEvent rlpString (payloadEvent 2 q 9000000) : Go ServiceError _) = .ok s₂ ∧
      (∀ id raw, s₂.getEventRLP id = some raw →
        (eventsMessage [raw]).length ≤ protocolMaxMsgSize) ∧
      getEventsReply s₂ [(payloadEvent 1 p 2000000).id, (payloadEvent 2 q 9000000).id] =
        .ok (some reply) ∧
      handleEvents (fun _ => Bytes.zero 32) false (eventsMessage reply.rawEvents) =
        some .msgTooLarge := by
  -- the payloads only count by their lengths
  obtain ⟨e₁, he₁⟩ : ∃ e, e = payloadEvent 1 p 2000000 := ⟨_, rfl⟩
  obtain ⟨e₂, he₂⟩ : ∃ e, e = payloadEvent 2 q 9000000 := ⟨_, rfl⟩
  have hv₁ : e₁.version = 0 := by rw [he₁]; rfl
  have hv₂ : e₂.version = 0 := by rw [he₂]; rfl
  have hid : e₂.id ≠ e₁.id := by
    have h₁ : e₁.id = (payloadEvent 1 [] 0).id := by rw [he₁]; rfl
    have h₂ : e₂.id = (payloadEvent 2 [] 0).id := by rw [he₂]; rfl
    rw [h₁, h₂]
    decide +kernel
  have hw₁ : (wire e₁).length = (wire (payloadDraft 1 []).immutable).length + 2000000 := by
    rw [he₁, wire_length_payloadEvent, hp]
  have hw₂ : (wire e₂).length = (wire (payloadDraft 2 []).immutable).length + 9000000 := by
    rw [he₂, wire_length_payloadEvent, hq]
  have hd₁ : (wire (payloadDraft 1 []).immutable).length ≤ 1000 := by decide +kernel
  have hd₂ : (wire (payloadDraft 2 []).immutable).length ≤ 1000 := by decide +kernel
  have hl₁ := encodeString_length (wire e₁)
  have hl₂ := encodeString_length (wire e₂)
  obtain ⟨s₁, hs₁⟩ := setEvent_returns (newStore sampleConfig) hv₁
  obtain ⟨s₂, hs₂⟩ := setEvent_returns s₁ hv₂
  have hrows : ∀ id, s₂.getEventRLP id = if e₂.id = id then some (encodeString (wire e₂))
      else if e₁.id = id then some (encodeString (wire e₁)) else none := by
    intro id
    rw [getEventRLP_setEvent hv₂ (by omega) hs₂, getEventRLP_setEvent hv₁ (by omega) hs₁,
      newStore_empty]
  have hrow₁ : s₂.getEventRLP e₁.id = some (encodeString (wire e₁)) := by
    rw [hrows, if_neg hid, if_pos rfl]
  have hrow₂ : s₂.getEventRLP e₂.id = some (encodeString (wire e₂)) := by
    rw [hrows, if_pos rfl]
  rw [← he₁, ← he₂]
  refine ⟨s₁, s₂, _, hs₁, hs₂, ?_, pair_refused hrow₁ hrow₂ ?_ ?_ _⟩
  · intro id raw hraw
    refine eventsMessage_single ?_
    unfold protocolMaxMsgSize
    rw [hrows] at hraw
    split_ifs at hraw
    · cases hraw
      omega
    · cases hraw
      omega
  · unfold softResponseLimitSize
    omega
  · unfold protocolMaxMsgSize
    omega

/-- The events are built as any other, and stored. -/
theorem large_events_disconnect :
    ∃ e₁ e₂ s₁ s₂ reply,
      ((payloadDraft 1 (List.replicate 2000000 0)).build (fun _ => Bytes.zero 32) :
        Go ServiceError _) = .ok e₁ ∧
      ((payloadDraft 2 (List.replicate 9000000 0)).build (fun _ => Bytes.zero 32) :
        Go ServiceError _) = .ok e₂ ∧
      ((newStore sampleConfig).setEvent rlpString e₁ : Go ServiceError _) = .ok s₁ ∧
      (s₁.setEvent rlpString e₂ : Go ServiceError _) = .ok s₂ ∧
      (∀ id raw, s₂.getEventRLP id = some raw →
        (eventsMessage [raw]).length ≤ protocolMaxMsgSize) ∧
      getEventsReply s₂ [e₁.id, e₂.id] = .ok (some reply) ∧
      handleEvents (fun _ => Bytes.zero 32) false (eventsMessage reply.rawEvents) =
        some .msgTooLarge := by
  have hp : (List.replicate 2000000 (0 : UInt8)).length = 2000000 := List.length_replicate
  have hq : (List.replicate 9000000 (0 : UInt8)).length = 9000000 := List.length_replicate
  obtain ⟨s₁, s₂, reply, h⟩ := large_pair_refused hp hq
  exact ⟨_, _, s₁, s₂, reply, payloadEvent_built hp, payloadEvent_built hq, h⟩

end MiniOpera.EventReplies
