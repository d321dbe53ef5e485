import MiniOpera.EventDecode

/-!
# Canonicality and round trip of the event encoding

* `canonical_iff`: a decoded event is encoded to the bytes it was decoded from
  exactly when the time is announced with at most eight bytes, the isRoot slot
  holds 0 or 1 and the padding bits are zero. The decoder checks none of the
  three, so the other accepted spellings are not canonical;
* `build_roundTrip`: building, encoding, decoding and building again returns
  the same event, caches and ID included.
-/

namespace MiniOpera.EventCodec
open GoRuntime LittleEndian Fast InterEvent EventWire EventDecode

variable {ε : Type} (sha256 : List UInt8 → Hash)

/-! ## What `UnmarshalBinary` leaves in its receiver -/

/-- The receiver after decoding valid parts; the ID is not touched. -/
def received (p : Parts) (sig : Signature) (id : EventID) : MutableEvent :=
  ⟨⟨p.field 0, p.field 1, p.field 2, slot 2 p.header2 6 ≠ 0, p.field 3,
      p.tails.map (parentOf (p.field 0)), p.field 4, valueOf p.time, id⟩,
    ⟨0, p.payload, sig, p.bytes.length,
      some (sha256 (p.bytes.take (p.bytes.length - sigSize)))⟩⟩

theorem sigSize_le_bytes (p : Parts) (hp : p.Valid) : sigSize ≤ p.bytes.length := by
  have := hp.sig_length
  simp only [Parts.bytes, List.length_cons, List.length_append]
  omega

theorem unmarshalBinary_parts (p : Parts) (hp : p.Valid) (spare : List UInt8) (e : MutableEvent)
    (sig : Signature) (hsig : sig.data = p.sig) :
    e.unmarshalBinary sha256 ⟨p.bytes, spare⟩ = (received sha256 p sig e.id, none) := by
  have hs : (bytesToSignature p.decoded.sig : Go DecodeError _) = .ok sig := by
    have : p.decoded.sig.length = sigSize := hp.sig_length
    simp only [bytesToSignature, this, dite_true]
    rw [Bytes.ext_data (a := sig) (b := ⟨p.decoded.sig, this⟩) hsig]
  simp only [MutableEvent.unmarshalBinary, decode_parts p hp spare, hs, MutableEvent.fillCaches,
    eventHashToSign, sigSize_le_bytes p hp, if_true, ok_bind, pure_eq_ok]
  rfl

theorem unmarshalBinary_inv {e e' : MutableEvent} {raw : Slice UInt8}
    (h : e.unmarshalBinary sha256 raw = (e', none)) :
    ∃ (p : Parts) (sig : Signature), p.Valid ∧ raw.data = p.bytes ∧ sig.data = p.sig ∧
      e' = received sha256 p sig e.id := by
  cases hd : decode raw with
  | error f => cases f <;> simp [MutableEvent.unmarshalBinary, hd] at h
  | ok d =>
    obtain ⟨p, hp, hdata, rfl⟩ := decode_inv hd
    have hsig : (⟨p.sig, hp.sig_length⟩ : Signature).data = p.sig := rfl
    have hu := unmarshalBinary_parts sha256 p hp raw.spare e ⟨p.sig, hp.sig_length⟩ hsig
    rw [← hdata] at hu
    rw [show (⟨raw.data, raw.spare⟩ : Slice UInt8) = raw from rfl, h] at hu
    exact ⟨p, ⟨p.sig, hp.sig_length⟩, hp, hdata, hsig, by simpa using congrArg Prod.fst hu⟩

/-! ## Re-encoding what was decoded -/

theorem valueOf_toNat (bs : List UInt8) (h : bs.length ≤ 8) : (valueOf bs).toNat = leNat bs := by
  have hlt := leNat_lt bs
  have hpow : 256 ^ bs.length ≤ 256 ^ 8 := Nat.pow_le_pow_right (by decide) h
  rw [valueOf, UInt64.toNat_ofNat', Nat.mod_eq_of_lt (by omega)]

theorem compact_valueOf (bs : List UInt8) (h0 : bs ≠ []) (hm : Minimal bs)
    (hl : bs.length ≤ 8) :
    compact 8 (valueOf bs).toNat = bs := by
  rw [valueOf_toNat bs hl, compact_leNat 8 bs h0 hm hl]

theorem compact_field (bs : List UInt8) (h0 : bs ≠ []) (hm : Minimal bs) (hl : bs.length ≤ 4) :
    compact 4 ((valueOf bs).toUInt32.toUInt64).toNat = bs := by
  have hlt := leNat_lt bs
  have hpow : 256 ^ bs.length ≤ 256 ^ 4 := Nat.pow_le_pow_right (by decide) hl
  rw [UInt32.toNat_toUInt64, UInt64.toNat_toUInt32, valueOf_toNat bs (by omega),
    Nat.mod_eq_of_lt (by omega), compact_leNat 4 bs h0 hm hl]

theorem announced_bound {l : List (List UInt8)} {N : Nat}
    (h : l.map List.length = announced 2 N 0 6) : ∀ bs ∈ l, bs ≠ [] ∧ bs.length ≤ 4 := by
  intro bs hbs
  have hm : bs.length ∈ announced 2 N 0 6 := h ▸ List.mem_map.mpr ⟨bs, hbs, rfl⟩
  obtain ⟨j, _, hj⟩ := List.mem_map.mp hm
  have : slot 2 N (0 + j) < 4 := Nat.mod_lt _ (by decide)
  exact ⟨List.ne_nil_of_length_pos (by omega), by omega⟩

theorem timeBytes_received (p : Parts) (sig : Signature) (id : EventID) :
    timeBytes (received sha256 p sig id).immutable = [compact 8 (valueOf p.time).toNat] := rfl

section Reencode

variable {p : Parts} (hp : p.Valid) (sig : Signature) (id : EventID)
include hp

/-- The 32-bit fields are spelled again as they were. -/
theorem fieldBytes_received :
    fieldBytes (received sha256 p sig id).immutable = p.fields := by
  obtain ⟨f0, f1, f2, f3, f4, f5, hf⟩ := hp.six
  have hb := announced_bound hp.fields_length
  have hfield : ∀ i, p.field i = (valueOf ([f0, f1, f2, f3, f4, f5].getD i [])).toUInt32 := by
    intro i; rw [← hf]; rfl
  have hc : ∀ bs ∈ p.fields, compact 4 ((valueOf bs).toUInt32.toUInt64).toNat = bs :=
    fun bs hbs => compact_field bs (hb bs hbs).1 (hp.fields_minimal bs hbs) (hb bs hbs).2
  rw [hf] at hc
  have hcount : UInt32.ofNat (p.tails.map (parentOf (p.field 0))).length = p.field 5 := by
    rw [List.length_map, hp.tails_count, UInt32.ofNat_toNat]
  simp only [fieldBytes, compacts, Event.fields32, received, MutableEvent.immutable, hcount, hf,
    List.map_cons, List.map_nil]
  simp only [hfield, List.getD_cons_zero, List.getD_cons_succ]
  rw [hc f0 (by simp), hc f1 (by simp), hc f2 (by simp), hc f3 (by simp), hc f4 (by simp),
    hc f5 (by simp)]

theorem parentTails_received :
    parentTails (p.tails.map (parentOf (p.field 0))) = p.tails := by
  rw [parentTails, List.map_map]
  conv => rhs; rw [← List.map_id p.tails]
  apply List.map_congr_left
  intro t ht
  have hlen : (idxBytes (p.field 0) ++ t).length = 32 := by simp [hp.tails_length t ht]
  simp only [Function.comp, parentOf, copyInto, id_eq]
  rw [List.take_left' hlen, List.drop_left' (idxBytes_length _)]

/-- Header 2 announces what it announced, with the flag normalised. -/
theorem header2_received :
    header2 (received sha256 p sig id).immutable =
      leBytes 2 (p.header2 % 4096 + 4096 * if slot 2 p.header2 6 = 0 then 0 else 1) := by
  have hslots : slots p.fields = (List.range 6).map fun i => p.header2 / 2 ^ (2 * i) % 2 ^ 2 := by
    have := congrArg (List.map (· - 1)) hp.fields_length
    simp only [List.map_map, announced] at this
    rw [slots, show (fun bs : List UInt8 => bs.length - 1) =
      (· - 1) ∘ List.length from rfl, this]
    apply List.map_congr_left
    intro j _
    simp only [Function.comp, slot, Nat.add_sub_cancel, Nat.zero_add, Nat.mul_comm]
  have hroot : rootSlot (received sha256 p sig id).immutable =
      if slot 2 p.header2 6 = 0 then 0 else 1 := by
    simp only [rootSlot, received, MutableEvent.immutable]
    by_cases h : slot 2 p.header2 6 = 0 <;> simp [h]
  rw [header2, fieldBytes_received sha256 hp sig id, packBits_append, hslots,
    packBits_digits, hroot]
  simp [packBits]

/-- The first three bytes of the re-encoding. -/
theorem wire_received_cons : ∃ rest,
    wire (received sha256 p sig id).immutable =
      UInt8.ofNat (16 * ((compact 8 (valueOf p.time).toNat).length - 1)) ::
      UInt8.ofNat (p.header2 % 4096 + 4096 * if slot 2 p.header2 6 = 0 then 0 else 1) ::
      UInt8.ofNat ((p.header2 % 4096 + 4096 * if slot 2 p.header2 6 = 0 then 0 else 1) / 256) ::
      rest := by
  have h3 : header3 (received sha256 p sig id).immutable =
      leBytes 1 (16 * ((compact 8 (valueOf p.time).toNat).length - 1)) := by
    rw [header3, timeBytes_received sha256 p sig id]
    simp [slots, packBits, received, MutableEvent.immutable]
  exact ⟨_, by rw [wire, h3, header2_received sha256 hp sig id]; rfl⟩

/-- Re-encoding gives the received bytes back exactly when the time takes at
most eight bytes and the upper half of the last header byte is 0 or 1. -/
theorem wire_received_iff (hsig : sig.data = p.sig) :
    wire (received sha256 p sig id).immutable = p.bytes ↔
      p.h0.toNat < 128 ∧ p.h2.toNat < 32 := by
  have b0 := p.h0.toNat_lt
  have b1 := p.h1.toNat_lt
  have b2 := p.h2.toNat_lt
  have hver := hp.version
  have hlen := hp.time_length
  have hN : p.header2 = p.h1.toNat + 256 * p.h2.toNat := by simp [Parts.header2, leNat]
  have hslot : slot 2 p.header2 6 = p.header2 / 4096 % 4 := rfl
  constructor
  · intro h
    obtain ⟨rest, hw⟩ := wire_received_cons sha256 hp sig id
    have hle := compact_length_le 8 (valueOf p.time).toNat
    rw [hw, Parts.bytes] at h
    injection h with e0 h
    injection h with _ h
    injection h with e2 _
    have e0 := congrArg UInt8.toNat e0
    have e2 := congrArg UInt8.toNat e2
    rw [UInt8.toNat_ofNat'] at e0 e2
    refine ⟨by omega, ?_⟩
    split at e2 <;> omega
  · rintro ⟨h0, h2⟩
    have htime : compact 8 (valueOf p.time).toNat = p.time :=
      compact_valueOf p.time (List.ne_nil_of_length_pos (by omega)) hp.time_minimal (by omega)
    have h3 : header3 (received sha256 p sig id).immutable = [p.h0] := by
      rw [← leBytes_leNat [p.h0], header3, timeBytes_received sha256 p sig id, htime]
      simp only [slots, packBits, received, MutableEvent.immutable, List.map_cons, List.map_nil,
        List.length_cons, List.length_nil, leNat]
      congr 1
      simp only [hlen, UInt8.toNat_zero]
      omega
    have hh2 : header2 (received sha256 p sig id).immutable = [p.h1, p.h2] := by
      rw [← leBytes_leNat [p.h1, p.h2], header2_received sha256 hp sig id]
      congr 1
      change _ = p.header2
      rw [hslot]
      split <;> omega
    rw [wire, h3, hh2, body, timeBytes_received sha256 p sig id, htime,
      fieldBytes_received sha256 hp sig id]
    simp only [received, MutableEvent.immutable, parentTails_received hp, hsig]
    simp [Parts.bytes]

end Reencode

/-! ## Canonicality -/

/-- The header bits the decoder ignores are clear: at most eight bytes of time
are announced, the isRoot slot is 0 or 1, the padding is zero. -/
def CanonicalHeaders (raw : List UInt8) : Prop :=
  (raw.getD 0 0).toNat < 128 ∧ (raw.getD 2 0).toNat < 32

instance (raw : List UInt8) : Decidable (CanonicalHeaders raw) :=
  inferInstanceAs (Decidable (_ ∧ _))

/-- The event without the caches its decoder filled. -/
def uncached (e : MutableEvent) : MutableEvent :=
  { e with sizeCache := 0, hashToSignCache := none }

/-- What `Build` returns when `b` is the encoding behind the caches. -/
def builtFrom (e : MutableEvent) (b : List UInt8) : Event :=
  let h := sha256 (b.take (b.length - sigSize))
  { (e.setID (calcEventID h)).immutable with sizeCache := b.length, hashToSignCache := some h }

theorem sigSize_le_wire (e : Event) : sigSize ≤ (wire e).length := by
  have := e.sig.size
  simp only [wire, body, List.length_append]
  omega

theorem hashToSign_eq (e : MutableEvent) (hv : e.version.toNat < 16) :
    (e.hashToSign sha256 : Go ε _) =
      .ok (sha256 ((wire e.immutable).take ((wire e.immutable).length - sigSize))) := by
  simp only [MutableEvent.hashToSign, marshalBinary_eq_wire e.immutable hv, ok_bind,
    eventHashToSign, sigSize_le_wire, if_true]

theorem build_uncached (e : MutableEvent) (hs : e.sizeCache = 0) (hh : e.hashToSignCache = none)
    (hv : e.version.toNat < 16) :
    (e.build sha256 : Go ε _) = .ok (builtFrom sha256 e (wire e.immutable)) := by
  simp only [MutableEvent.build, hh, hashToSign_eq sha256 e hv, ok_bind, MutableEvent.setID, hs,
    ne_eq, not_true_eq_false, false_and, if_false, marshalBinary_eq_wire e.immutable hv,
    MutableEvent.fillCaches, eventHashToSign, sigSize_le_wire, if_true, pure_eq_ok]
  rfl

theorem build_received (p : Parts) (hp : p.Valid) (sig : Signature) (id : EventID) :
    ((received sha256 p sig id).build sha256 : Go ε _) =
      .ok (builtFrom sha256 (received sha256 p sig id) p.bytes) := by
  have hlen := sigSize_le_bytes p hp
  have hpos : p.bytes.length ≠ 0 := by unfold sigSize at hlen; omega
  simp only [MutableEvent.build, received, ok_bind, MutableEvent.setID, ne_eq, hpos,
    not_false_eq_true, reduceCtorEq, and_self, if_true, pure_eq_ok]
  rfl

/-- **Canonicality.** An accepted byte string is the encoding of its event
exactly when its headers are canonical; the caches taken from it are then the
ones a re-encoding gives. -/
theorem canonical_iff (e₀ e : MutableEvent) (raw : Slice UInt8)
    (h : e₀.unmarshalBinary sha256 raw = (e, none)) :
    ((e.immutable.marshalBinary : Go DecodeError _) = .ok raw.data ↔
      CanonicalHeaders raw.data) ∧
      (CanonicalHeaders raw.data →
        (e.build sha256 : Go DecodeError _) = (uncached e).build sha256) := by
  obtain ⟨p, sig, hp, hdata, hsig, rfl⟩ := unmarshalBinary_inv sha256 h
  have hcanon : CanonicalHeaders raw.data ↔ p.h0.toNat < 128 ∧ p.h2.toNat < 32 := by
    rw [hdata]; rfl
  have hiff := wire_received_iff sha256 hp sig e₀.id hsig
  have hm := marshalBinary_eq_wire (ε := DecodeError) (received sha256 p sig e₀.id).immutable
    (show (0 : UInt8).toNat < 16 by decide)
  refine ⟨?_, ?_⟩
  · rw [hm, hcanon, ← hiff, hdata]
    constructor
    · intro h; injection h
    · intro h; rw [h]
  · intro hc
    have hw : wire (uncached (received sha256 p sig e₀.id)).immutable = p.bytes :=
      hiff.mpr (hcanon.mp hc)
    rw [build_received sha256 p hp, build_uncached sha256 _ rfl rfl
      (show (0 : UInt8).toNat < 16 by decide), hw]
    rfl

/-- The message of the zero event. -/
def plainMessage : List UInt8 := List.replicate 74 0

/-- The same message with a header padding that is not zero. -/
def paddedMessage : List UInt8 := 0 :: 0 :: 0x40 :: List.replicate 71 0

def zeroReceived : MutableEvent :=
  { MutableEvent.zero with sizeCache := 74, hashToSignCache := some (Bytes.zero 32) }

/-- The message of a root with a time of two bytes, two parents and a payload. -/
def rootMessage : List UInt8 :=
  [0x10, 0, 0x10, 44, 1, 1, 2, 1, 1, 3, 2] ++ List.replicate 28 5 ++ List.replicate 28 6 ++ [7] ++
    List.replicate 64 0

theorem canonical_iff_rootMessage :
    ∃ e : MutableEvent,
      MutableEvent.zero.unmarshalBinary (fun _ => Bytes.zero 32)
      ⟨rootMessage, []⟩ = (e, none) ∧
      e.isRoot = true ∧ e.rawTime = 300 ∧ e.parents.length = 2 ∧ e.payload = [7] ∧
      (e.immutable.marshalBinary : Go DecodeError _) = .ok rootMessage := by
  have hreads : (MutableEvent.zero.unmarshalBinary (fun _ => Bytes.zero 32)
    ⟨rootMessage, []⟩).2 =
      none := by
    decide +kernel
  have hfields : (fun e : MutableEvent => (e.isRoot, e.rawTime, e.parents.length, e.payload))
      (MutableEvent.zero.unmarshalBinary (fun _ => Bytes.zero 32) ⟨rootMessage, []⟩).1 =
      (true, 300, 2, [7]) := by
    decide +kernel
  generalize hresult : MutableEvent.zero.unmarshalBinary (fun _ => Bytes.zero 32)
    ⟨rootMessage, []⟩ = result at hreads hfields
  obtain ⟨e, err⟩ := result
  subst hreads
  simp only [Prod.mk.injEq] at hfields
  obtain ⟨hroot, htime, hparents, hpayload⟩ := hfields
  exact ⟨e, rfl, hroot, htime, hparents, hpayload,
    (canonical_iff (fun _ => Bytes.zero 32) MutableEvent.zero e _ hresult).1.mpr (by decide)⟩

/-- The padded message is accepted and re-encoded as the plain one. -/
theorem paddedMessage_not_canonical :
    MutableEvent.zero.unmarshalBinary (fun _ => Bytes.zero 32) ⟨paddedMessage, []⟩ =
        (zeroReceived, none) ∧
      (zeroReceived.immutable.marshalBinary : Go DecodeError _) = .ok plainMessage ∧
      plainMessage ≠ paddedMessage :=
  ⟨by decide +kernel, marshalBinary_eq_wire _ (by decide), by decide⟩

/-! ## Round trip -/

/-- The parts of a version-0 encoding. Only the low 32 bits of the number of
parents are written: parents beyond them are read as payload. -/
def partsOf (e : Event) : Parts where
  h0 := (EventWire.header3 e).getD 0 0
  h1 := (EventWire.header2 e).getD 0 0
  h2 := (EventWire.header2 e).getD 1 0
  time := compact 8 e.rawTime.toNat
  fields := fieldBytes e
  tails := (parentTails e.parents).take (e.parents.length % 2 ^ 32)
  payload := ((parentTails e.parents).drop (e.parents.length % 2 ^ 32)).flatten ++ e.payload
  sig := e.sig.data

theorem partsOf_bytes (e : Event) : (partsOf e).bytes = wire e := by
  obtain ⟨a, h3⟩ : ∃ a, EventWire.header3 e = [a] := ⟨_, rfl⟩
  obtain ⟨b, c, h2⟩ : ∃ b c, EventWire.header2 e = [b, c] := ⟨_, _, rfl⟩
  have ht : (timeBytes e).flatten = compact 8 e.rawTime.toNat := by
    simp [timeBytes, compacts, Event.fields64]
  have hsplit : ((parentTails e.parents).take (e.parents.length % 2 ^ 32)).flatten ++
      ((parentTails e.parents).drop (e.parents.length % 2 ^ 32)).flatten =
      (parentTails e.parents).flatten := by
    rw [← List.flatten_append, List.take_append_drop]
  simp only [Parts.bytes, partsOf, wire, body, h3, h2, ht, ← hsplit]
  simp

/-- A 32-bit field survives its compact spelling. -/
theorem field_compact (x : UInt32) : (valueOf (compact 4 x.toUInt64.toNat)).toUInt32 = x := by
  have hx : x.toUInt64.toNat < 256 ^ 4 := by
    rw [UInt32.toNat_toUInt64]; exact x.toNat_lt
  have hl := compact_length_le 4 x.toUInt64.toNat
  apply UInt32.toNat_inj.mp
  rw [UInt64.toNat_toUInt32, valueOf_toNat _ (by omega), leNat_compact 4 _ hx,
    UInt32.toNat_toUInt64]
  exact Nat.mod_eq_of_lt x.toNat_lt

theorem time_compact (x : UInt64) : valueOf (compact 8 x.toNat) = x := by
  have hl := compact_length_le 8 x.toNat
  apply UInt64.toNat_inj.mp
  rw [valueOf_toNat _ hl, leNat_compact 8 _ x.toNat_lt]

theorem partsOf_field (e : Event) (i : Nat) (h : i < 6) :
    (partsOf e).field i = e.fields32.getD i 0 := by
  match i, h with
  | 0, _ | 1, _ | 2, _ | 3, _ | 4, _ | 5, _ => exact field_compact _

/-- What goes into header 2 fits into its slots. -/
theorem slots_fieldBytes_lt (e : Event) : ∀ v ∈ slots (fieldBytes e), v < 2 ^ 2 := by
  intro v hv
  obtain ⟨bs, hbs, rfl⟩ := List.mem_map.mp hv
  obtain ⟨x, _, rfl⟩ := List.mem_map.mp hbs
  have := compact_length_le 4 x.toNat
  omega

theorem rootSlot_lt (e : Event) : rootSlot e < 2 ^ 2 := by
  unfold rootSlot
  split <;> decide

/-- The two header bytes of the fields spell what was packed. -/
theorem partsOf_header2 (e : Event) :
    (partsOf e).header2 = packBits 2 (slots (fieldBytes e) ++ [rootSlot e]) := by
  have hb : ∀ v ∈ slots (fieldBytes e) ++ [rootSlot e], v < 2 ^ 2 := by
    intro v hv
    rcases List.mem_append.mp hv with hv | hv
    · exact slots_fieldBytes_lt e v hv
    · rw [List.mem_singleton] at hv
      exact hv ▸ rootSlot_lt e
  have hlt := packBits_lt 2 _ hb
  have hlen : (slots (fieldBytes e) ++ [rootSlot e]).length = 7 := rfl
  rw [hlen] at hlt
  obtain ⟨b, c, h2⟩ : ∃ b c, EventWire.header2 e = [b, c] := ⟨_, _, rfl⟩
  have := leNat_leBytes 2 _ (Nat.lt_trans hlt (by decide))
  rw [← EventWire.header2, h2] at this
  simp only [Parts.header2, partsOf, h2]
  exact this

/-- The only byte of header 3. -/
theorem partsOf_h0 (e : Event) (hv : e.version = 0) :
    (partsOf e).h0.toNat = 16 * ((compact 8 e.rawTime.toNat).length - 1) := by
  have hlen := compact_length_le 8 e.rawTime.toNat
  have hz : e.version.toNat = 0 := by rw [hv]; rfl
  have hbyte : (partsOf e).h0 =
      UInt8.ofNat (packBits 4 (e.version.toNat :: slots (timeBytes e))) := rfl
  rw [hbyte, UInt8.toNat_ofNat', hz]
  simp only [slots, timeBytes, compacts, Event.fields64, List.map_cons, List.map_nil, packBits]
  omega

/-- Each slot of header 2 holds the length of its field minus one. -/
theorem partsOf_lengths (e : Event) :
    (partsOf e).fields.map List.length = announced 2 (partsOf e).header2 0 6 := by
  rw [partsOf_header2]
  apply List.ext_getElem (by simp [announced, partsOf, fieldBytes, compacts, Event.fields32])
  intro i h1 h2
  have hi : i < (slots (fieldBytes e)).length := by simpa [slots, partsOf] using h1
  have hd := packBits_digit_getElem 2 (slots (fieldBytes e)) [rootSlot e]
    (slots_fieldBytes_lt e) i hi
  have hp : 0 < ((fieldBytes e)[i]).length := by
    simp only [fieldBytes, compacts, List.getElem_map]
    exact compact_length_pos 4 _ (by decide)
  simp only [announced, List.getElem_map, List.getElem_range, slot, Nat.zero_add, partsOf]
  rw [Nat.mul_comm i 2, hd]
  simp only [slots, List.getElem_map]
  omega

theorem partsOf_valid (e : Event) (hv : e.version = 0) : (partsOf e).Valid := by
  have hpos := compact_length_pos 8 e.rawTime.toNat (by decide)
  have h0 := partsOf_h0 e hv
  refine ⟨by omega, ?_, compact_minimal 8 _ e.rawTime.toNat_lt, partsOf_lengths e, ?_, ?_, ?_,
    e.sig.size⟩
  · change (compact 8 e.rawTime.toNat).length = _
    omega
  · intro bs hbs
    obtain ⟨x, hx, rfl⟩ := List.mem_map.mp hbs
    obtain ⟨y, _, rfl⟩ := List.mem_map.mp hx
    exact compact_minimal 4 _ (by rw [UInt32.toNat_toUInt64]; exact y.toNat_lt)
  · rw [partsOf_field e 5 (by decide)]
    simp only [partsOf, Event.fields32, List.length_take, parentTails, List.length_map,
      List.getD_cons_succ, List.getD_cons_zero, UInt32.toNat_ofNat']
    have := Nat.mod_le e.parents.length (2 ^ 32)
    omega
  · intro t ht
    obtain ⟨q, _, rfl⟩ := List.mem_map.mp (List.mem_of_mem_take ht)
    simp [q.size]

/-- What any receiver decodes from the encoding of a version-0 event. -/
theorem unmarshalBinary_wire (e : Event) (hv : e.version = 0) (spare : List UInt8)
    (e₀ : MutableEvent) :
    e₀.unmarshalBinary sha256 ⟨wire e, spare⟩ =
      (received sha256 (partsOf e) e.sig e₀.id, none) := by
  rw [← partsOf_bytes]
  exact unmarshalBinary_parts sha256 (partsOf e) (partsOf_valid e hv) spare e₀ e.sig rfl

theorem partsOf_root (e : Event) : decide (slot 2 (partsOf e).header2 6 ≠ 0) = e.isRoot := by
  have hd := packBits_digit 2 (slots (fieldBytes e)) (rootSlot e) [] (slots_fieldBytes_lt e)
    (rootSlot_lt e)
  have hslot : slot 2 (partsOf e).header2 6 = rootSlot e := by
    rw [partsOf_header2]; exact hd
  rw [hslot]
  unfold rootSlot
  cases e.isRoot <;> decide

/-- Events whose parents carry their epoch, as every decoded event's do. -/
def ParentsOfEpoch (epoch : UInt32) (parents : List EventID) : Prop :=
  ∀ p ∈ parents, p.data.take 4 = idxBytes epoch

theorem partsOf_parents (e : Event) (hcount : e.parents.length < 2 ^ 32)
    (hparents : ParentsOfEpoch e.epoch e.parents) :
    (partsOf e).tails.map (parentOf ((partsOf e).field 0)) = e.parents ∧
      (partsOf e).payload = e.payload := by
  have hlen : (parentTails e.parents).length = e.parents.length := by simp [parentTails]
  have hmod : e.parents.length % 2 ^ 32 = e.parents.length := Nat.mod_eq_of_lt hcount
  refine ⟨?_, ?_⟩
  · rw [partsOf_field e 0 (by decide)]
    simp only [partsOf, hmod]
    rw [List.take_of_length_le (by omega), parentTails, List.map_map]
    conv => rhs; rw [← List.map_id e.parents]
    apply List.map_congr_left
    intro q hq
    apply Bytes.ext_data
    have hfull : idxBytes e.epoch ++ q.data.drop 4 = q.data := by
      rw [← hparents q hq, List.take_append_drop]
    simp only [Function.comp, parentOf, copyInto, Event.fields32, List.getD_cons_zero, hfull, id_eq]
    rw [List.take_left' q.size]
  · simp only [partsOf, hmod]
    rw [List.drop_of_length_le (by omega)]
    rfl

/-- Decoding the encoding of a version-0 event restores every field. -/
theorem received_partsOf (e : Event) (hv : e.version = 0) (hcount : e.parents.length < 2 ^ 32)
    (hparents : ParentsOfEpoch e.epoch e.parents) (id : EventID) :
    received sha256 (partsOf e) e.sig id =
      { mutableFrom e with
        id := id
        sizeCache := (wire e).length
        hashToSignCache := some (sha256 ((wire e).take ((wire e).length - sigSize))) } := by
  obtain ⟨hp, hpay⟩ := partsOf_parents e hcount hparents
  have htime : valueOf (partsOf e).time = e.rawTime := time_compact e.rawTime
  have hf : ∀ i, i < 6 → (partsOf e).field i = e.fields32.getD i 0 := partsOf_field e
  simp only [received, hp, hpay, htime, partsOf_root, partsOf_bytes, mutableFrom]
  simp only [hf 0 (by decide), hf 1 (by decide), hf 2 (by decide), hf 3 (by decide),
    hf 4 (by decide), hv]
  rfl

/-- **Round trip.** Nothing of a built event is lost, and no step panics. -/
theorem build_roundTrip (m : MutableEvent) (hsize : m.sizeCache = 0)
    (hhash : m.hashToSignCache = none) (hver : m.version = 0)
    (hcount : m.parents.length < 2 ^ 32) (hparents : ParentsOfEpoch m.epoch m.parents)
    (e₀ : MutableEvent) (spare : List UInt8) :
    ∃ (e : Event) (raw : List UInt8) (e' : MutableEvent),
      (m.build sha256 : Go DecodeError _) = .ok e ∧
      (e.marshalBinary : Go DecodeError _) = .ok raw ∧
      e₀.unmarshalBinary sha256 ⟨raw, spare⟩ = (e', none) ∧
      (e'.build sha256 : Go DecodeError _) = .ok e := by
  have hv : m.version.toNat < 16 := by rw [hver]; decide
  have hw : wire (builtFrom sha256 m (wire m.immutable)) = wire m.immutable := rfl
  refine ⟨builtFrom sha256 m (wire m.immutable), wire m.immutable, _,
    build_uncached sha256 m hsize hhash hv, hw ▸ marshalBinary_eq_wire _ hv,
    unmarshalBinary_wire sha256 m.immutable hver spare e₀, ?_⟩
  rw [build_received sha256 _ (partsOf_valid m.immutable hver), partsOf_bytes,
    received_partsOf sha256 m.immutable hver hcount hparents]
  rfl

/-- An event with a parent, a payload and the flag set. -/
def sampleEvent : MutableEvent :=
  { MutableEvent.zero with
    epoch := 7
    seq := 2
    frame := 1
    isRoot := true
    creator := 3
    lamport := 300
    rawTime := 70000
    parents := [⟨idxBytes 7 ++ List.replicate 28 1, by decide⟩]
    payload := [1, 2, 3] }

theorem build_roundTrip_sample :
    ∃ (e : Event) (raw : List UInt8) (e' : MutableEvent),
      (sampleEvent.build (fun _ => Bytes.zero 32) : Go DecodeError _) = .ok e ∧
      (e.marshalBinary : Go DecodeError _) = .ok raw ∧
      MutableEvent.zero.unmarshalBinary (fun _ => Bytes.zero 32) ⟨raw, []⟩ = (e', none) ∧
      (e'.build (fun _ => Bytes.zero 32) : Go DecodeError _) = .ok e :=
  build_roundTrip _ sampleEvent rfl rfl rfl (by decide) (by unfold ParentsOfEpoch; decide)
    MutableEvent.zero []

end MiniOpera.EventCodec
