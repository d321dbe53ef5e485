import MiniOpera.EventCodec

/-!
# Malformed messages

What `UnmarshalBinary` does with bytes that are not an event.

* `decoding_atomic`: it returns, and with an error its receiver is as before.
  Everything that can fail comes before the first setter: a message that was read
  to its end has a signature of the right length and is long enough to be hashed;
* `truncated_rejected`: no beginning of an encoding that lacks more bytes than the
  payload has is accepted. What two accepted byte strings share determines where
  the second one has its fields, so a cut cannot be made up for;
* `parents_fit_iff`: the list of parents is allocated before it is known that the
  message has room for them.
-/

namespace MiniOpera.MalformedEvents
open GoRuntime LittleEndian Fast InterEvent EventWire EventDecode EventCodec

/-! ## Errors and the receiver -/

section Atomic

variable (sha256 : List UInt8 → Hash)

/-- `UnmarshalBinary` without its deferred function: the receiver when the body
ends, and the panic or the error it ends with. -/
def unmarshalBody (e : MutableEvent) (raw : Slice UInt8) :
    MutableEvent × Option (Fault DecodeError) :=
  match decode raw with
  | .error f => (e, some f)
  | .ok d =>
    match bytesToSignature d.sig with
    | .error f => (e.assign d, some f)
    | .ok sig =>
      match ((e.assign d).setSig sig).fillCaches sha256 raw.data with
      | .error f => ((e.assign d).setSig sig, some f)
      | .ok e => (e, none)

/-- The deferred function: a panic is recovered and replaces the error. -/
def recovered : Option (Fault DecodeError) → Option DecodeError
  | none => none
  | some (.panic _) => some .invalidEncoding
  | some (.error err) => some err

theorem bytesToSignature_panic {b : List UInt8} {f : Fault DecodeError}
    (h : bytesToSignature b = .error f) : recovered (some f) = some .invalidEncoding := by
  unfold bytesToSignature at h
  split at h
  · cases h
  · cases h
    rfl

theorem fillCaches_panic {e : MutableEvent} {b : List UInt8} {f : Fault DecodeError}
    (h : e.fillCaches sha256 b = .error f) : recovered (some f) = some .invalidEncoding := by
  unfold MutableEvent.fillCaches eventHashToSign at h
  split at h
  · cases h
  · cases h
    rfl

theorem unmarshalBinary_eq_recovered (e : MutableEvent) (raw : Slice UInt8) :
    e.unmarshalBinary sha256 raw =
      ((unmarshalBody sha256 e raw).1, recovered (unmarshalBody sha256 e raw).2) := by
  unfold MutableEvent.unmarshalBinary unmarshalBody
  cases decode raw with
  | error f => cases f <;> rfl
  | ok d =>
    simp only
    cases hsig : (bytesToSignature d.sig : Go DecodeError _) with
    | error f => simp only [bytesToSignature_panic hsig]
    | ok sig =>
      simp only
      cases hfill : (((e.assign d).setSig sig).fillCaches sha256 raw.data : Go DecodeError _) with
      | error f => simp only [fillCaches_panic sha256 hfill]
      | ok e' => rfl

/-- A body that panics or returns an error has not called a setter. -/
theorem unmarshalBody_fault (e : MutableEvent) (raw : Slice UInt8) {f : Fault DecodeError}
    (h : (unmarshalBody sha256 e raw).2 = some f) : (unmarshalBody sha256 e raw).1 = e := by
  cases hd : decode raw with
  | error f => rw [unmarshalBody, hd]
  | ok d =>
    -- what was read to its end is accepted, so there is no fault
    obtain ⟨p, hp, hdata, rfl⟩ := decode_inv hd
    have hcall := unmarshalBinary_parts sha256 p hp raw.spare e ⟨p.sig, hp.sig_length⟩ rfl
    rw [← hdata, unmarshalBinary_eq_recovered, h] at hcall
    have herr := congrArg Prod.snd hcall
    cases f with
    | panic _ => cases herr
    | error _ => cases herr

theorem unmarshalBinary_error (e : MutableEvent) (raw : Slice UInt8) {err : DecodeError}
    (h : (e.unmarshalBinary sha256 raw).2 = some err) : (e.unmarshalBinary sha256 raw).1 = e := by
  rw [unmarshalBinary_eq_recovered] at h ⊢
  cases hfault : (unmarshalBody sha256 e raw).2 with
  | none => rw [hfault] at h; cases h
  | some f => exact unmarshalBody_fault sha256 e raw hfault

theorem mutable_decodeRLP_error (rlp : Rlp) (e : MutableEvent)
    (src : List UInt8) {err : DecodeError}
    (h : (e.decodeRLP sha256 rlp src).2 = some err) : (e.decodeRLP sha256 rlp src).1 = e := by
  unfold MutableEvent.decodeRLP at h ⊢
  cases hbytes : rlp.decode src with
  | none => rfl
  | some bytes =>
    rw [hbytes] at h
    exact unmarshalBinary_error sha256 e bytes h

/-- `Event.DecodeRLP` returns: what was decoded has its caches, so `Build` does not
encode it again. -/
theorem event_decodeRLP_returns (rlp : Rlp) (e : Event) (src : List UInt8) :
    ∃ e' err, e.decodeRLP sha256 rlp src = .ok (e', err) ∧ (err ≠ none → e' = e) := by
  unfold Event.decodeRLP MutableEvent.decodeRLP
  cases rlp.decode src with
  | none => exact ⟨e, some .rlp, rfl, fun _ => rfl⟩
  | some bytes =>
    obtain ⟨m, err, hcall⟩ : ∃ m err, MutableEvent.zero.unmarshalBinary sha256 bytes =
      (m, err) :=
      ⟨_, _, rfl⟩
    simp only [hcall]
    cases err with
    | some err => exact ⟨e, some err, rfl, fun _ => rfl⟩
    | none =>
      obtain ⟨p, sig, hp, -, -, rfl⟩ := unmarshalBinary_inv sha256 hcall
      refine ⟨builtFrom sha256 (received sha256 p sig MutableEvent.zero.id) p.bytes,
        none, ?_, fun h => absurd rfl h⟩
      simp only [build_received sha256 p hp sig, ok_bind, pure_eq_ok]

/-- **Decoding is total and atomic.** For every byte string with anything behind it
and every receiver: a fault of the body, recovered panic or error, leaves the
receiver as it was, and so does every error that is returned. -/
theorem decoding_atomic (rlp : Rlp) :
    (∀ (e : MutableEvent) (raw : Slice UInt8),
      e.unmarshalBinary sha256 raw =
        ((unmarshalBody sha256 e raw).1, recovered (unmarshalBody sha256 e raw).2) ∧
      (∀ f, (unmarshalBody sha256 e raw).2 = some f → (unmarshalBody sha256 e raw).1 = e) ∧
      ∀ err, (e.unmarshalBinary sha256 raw).2 = some err →
        (e.unmarshalBinary sha256 raw).1 = e) ∧
    (∀ (e : MutableEvent) (src : List UInt8) (err : DecodeError),
      (e.decodeRLP sha256 rlp src).2 = some err → (e.decodeRLP sha256 rlp src).1 = e) ∧
    ∀ (e : Event) (src : List UInt8),
      ∃ e' err, e.decodeRLP sha256 rlp src = .ok (e', err) ∧ (err ≠ none → e' = e) := by
  refine ⟨fun e raw => ⟨unmarshalBinary_eq_recovered sha256 e raw, ?_, ?_⟩, ?_, ?_⟩
  · exact fun f h => unmarshalBody_fault sha256 e raw h
  · exact fun err h => unmarshalBinary_error sha256 e raw h
  · exact fun e src err h => mutable_decodeRLP_error sha256 rlp e src h
  · exact event_decodeRLP_returns sha256 rlp

end Atomic

/-! ## Truncated messages -/

section Truncated

/-- The bytes of a message up to its payload. -/
def fixedBytes (p : Parts) : List UInt8 :=
  p.h0 :: p.h1 :: p.h2 :: (p.time ++ p.fields.flatten ++ p.tails.flatten)

theorem bytes_eq (p : Parts) : p.bytes = fixedBytes p ++ (p.payload ++ p.sig) := by
  simp [Parts.bytes, fixedBytes]

theorem length_tails {p : Parts} (hp : p.Valid) :
    p.tails.flatten.length = 28 * (p.field 5).toNat := by
  have hmap : p.tails.map List.length = List.replicate p.tails.length 28 :=
    List.eq_replicate_iff.mpr ⟨List.length_map .., by
      intro n hn
      obtain ⟨t, ht, rfl⟩ := List.mem_map.mp hn
      exact hp.tails_length t ht⟩
  rw [List.length_flatten, hmap, List.sum_replicate_nat, hp.tails_count, Nat.mul_comm]

/-- Where two messages agree, they have the same fields and parents: each part
says how long the next one is. -/
theorem fixedBytes_length {p q : Parts} (hp : p.Valid) (hq : q.Valid) {x y : List UInt8}
    (h : p.bytes ++ x = q.bytes ++ y) : (fixedBytes p).length = (fixedBytes q).length := by
  have hcons : ∀ (r : Parts) (z : List UInt8), r.bytes ++ z = r.h0 :: r.h1 :: r.h2 :: (r.time ++
      (r.fields.flatten ++ (r.tails.flatten ++ (r.payload ++ (r.sig ++ z))))) := by
    intro r z
    simp [Parts.bytes]
  rw [hcons, hcons, List.cons.injEq, List.cons.injEq, List.cons.injEq] at h
  obtain ⟨h0, h1, h2, hrest⟩ := h
  have htime : p.time.length = q.time.length := by
    rw [hp.time_length, hq.time_length, h0]
  obtain ⟨-, hrest⟩ := List.append_inj hrest htime
  have hlens : p.fields.map List.length = q.fields.map List.length := by
    rw [hp.fields_length, hq.fields_length, Parts.header2, Parts.header2, h1, h2]
  have hflat : p.fields.flatten.length = q.fields.flatten.length := by
    rw [List.length_flatten, List.length_flatten, hlens]
  obtain ⟨hfields, -⟩ := List.append_inj hrest hflat
  have hcount : p.field 5 = q.field 5 := by
    unfold Parts.field
    rw [List.eq_iff_flatten_eq.mpr ⟨hfields, hlens⟩]
  simp only [fixedBytes, List.length_cons, List.length_append, htime, hflat, length_tails hp,
    length_tails hq, hcount]

/-- A beginning of a message that is a message itself has everything but some of the
payload. -/
theorem accepted_length {p q : Parts} (hp : p.Valid) (hq : q.Valid) {n : Nat}
    (h : p.bytes.take n = q.bytes) : p.bytes.length - p.payload.length ≤ n := by
  have hsplit : p.bytes ++ [] = q.bytes ++ p.bytes.drop n := by
    rw [← h, List.take_append_drop, List.append_nil]
  have hfixed := fixedBytes_length hp hq hsplit
  have hn : q.bytes.length ≤ n := by
    rw [← h]
    exact List.length_take_le n p.bytes
  rw [bytes_eq p]
  rw [bytes_eq q] at hn
  simp only [List.length_append, hp.sig_length, hq.sig_length] at hn ⊢
  omega

/-- With less taken away, bytes of the payload stand in for the signature. -/
theorem cut_accepted {p : Parts} (hp : p.Valid) {n : Nat}
    (hn : p.bytes.length - p.payload.length ≤ n) : ∃ q : Parts, q.Valid ∧
      p.bytes.take n = q.bytes := by
  have hlen := congrArg List.length (bytes_eq p)
  simp only [List.length_append, hp.sig_length] at hlen
  obtain ⟨rest, hrest⟩ : ∃ rest, rest = (p.payload ++ p.sig).take
    (n - (fixedBytes p).length) :=
    ⟨_, rfl⟩
  have hlong : sigSize ≤ rest.length := by
    rw [hrest, List.length_take, List.length_append, hp.sig_length]
    omega
  refine ⟨⟨p.h0, p.h1, p.h2, p.time, p.fields, p.tails, rest.take (rest.length - sigSize),
    rest.drop (rest.length - sigSize)⟩, ⟨hp.version, hp.time_length, hp.time_minimal,
    hp.fields_length, hp.fields_minimal, hp.tails_count, hp.tails_length, ?_⟩, ?_⟩
  · rw [List.length_drop]
    omega
  · rw [bytes_eq, bytes_eq, List.take_append, List.take_of_length_le (by omega), ← hrest,
      List.take_append_drop]
    rfl

/-- **Truncated events are rejected**, whatever lies behind the bytes that are left. -/
theorem truncated_rejected (sha256 : List UInt8 → Hash) (e : Event) (hv : e.version = 0)
    (hcount : e.parents.length < 2 ^ 32) :
    ∃ b, (e.marshalBinary : Go Empty _) = .ok b ∧
      ∀ n < b.length - e.payload.length, ∀ (spare : List UInt8) (r : MutableEvent),
        (r.unmarshalBinary sha256 ⟨b.take n, spare⟩).2 ≠ none := by
  refine ⟨wire e, marshalBinary_eq_wire e (by rw [hv]; decide), ?_⟩
  intro n hn spare r hok
  obtain ⟨r', hr'⟩ : ∃ r', r.unmarshalBinary sha256 ⟨(wire e).take n, spare⟩ =
    (r', none) :=
    ⟨_, Prod.ext rfl hok⟩
  obtain ⟨q, -, hq, hdata, -, -⟩ := unmarshalBinary_inv sha256 hr'
  have hpayload : (partsOf e).payload = e.payload := by
    have hall : (parentTails e.parents).drop (e.parents.length % 2 ^ 32) = [] := by
      rw [Nat.mod_eq_of_lt hcount, List.drop_eq_nil_iff, parentTails, List.length_map]
    rw [partsOf, hall]
    rfl
  rw [← partsOf_bytes] at hdata hn
  have hle := accepted_length (partsOf_valid e hv) hq hdata
  rw [hpayload] at hle
  omega

theorem truncated_rejected_sample :
    sampleEvent.version = 0 ∧ sampleEvent.parents.length < 2 ^ 32 ∧
      ∃ b, (sampleEvent.immutable.marshalBinary : Go Empty _) = .ok b ∧
        ∀ n < b.length - sampleEvent.payload.length, ∀ (spare : List UInt8) (r : MutableEvent),
          (r.unmarshalBinary (fun _ => Bytes.zero 32) ⟨b.take n, spare⟩).2 ≠ none :=
  ⟨by decide, by decide,
    truncated_rejected (fun _ => Bytes.zero 32) sampleEvent.immutable (by decide) (by decide)⟩

/-- An event whose number of parents is written as zero. -/
def crowded : Event :=
  (MutableEvent.zero.setParents (List.replicate (2 ^ 32) (Bytes.zero 32))).immutable

/-- Its first bytes are a message without parents. -/
theorem crowded_truncated_accepted :
    crowded.version = 0 ∧ ∃ b n, (crowded.marshalBinary : Go Empty _) = .ok b ∧
      n < b.length - crowded.payload.length ∧
      ∀ r : MutableEvent, (r.unmarshalBinary (fun _ => Bytes.zero 32) ⟨b.take n, []⟩).2 =
        none := by
  have hparents : crowded.parents.length = 2 ^ 32 := List.length_replicate
  have hp := partsOf_valid crowded rfl
  have hlong : (partsOf crowded).payload.length = 2 ^ 32 * 28 := by
    rw [partsOf, hparents, Nat.mod_self, List.drop_zero, List.length_append, parentTails_length,
      hparents]
    rfl
  have htotal := congrArg List.length (bytes_eq (partsOf crowded))
  rw [List.length_append, List.length_append, hlong] at htotal
  obtain ⟨q, hq, hcut⟩ := cut_accepted hp (le_refl _)
  refine ⟨rfl, wire crowded, (partsOf crowded).bytes.length - (partsOf crowded).payload.length,
    marshalBinary_eq_wire crowded (by decide), ?_, ?_⟩
  · have hnone : crowded.payload.length = 0 := rfl
    rw [← partsOf_bytes, hlong, hnone]
    omega
  · intro r
    rw [← partsOf_bytes, hcut,
      unmarshalBinary_parts _ q hq [] r ⟨q.sig, hq.sig_length⟩ rfl]

end Truncated

/-! ## The allocation of the parents -/

section Allocation

/-- The slots of the second header. -/
def widthSlots (bs : List UInt8) : Nat := leNat [bs.getD 1 0, bs.getD 2 0]

/-- Where the number of parents ends, by the lengths the headers announce. -/
def countEnd (bs : List UInt8) : Nat :=
  3 + ((bs.getD 0 0).toNat / 16 + 1) + (announced 2 (widthSlots bs) 0 6).sum

/-- The number that stands there. -/
def spelledCount (bs : List UInt8) : Nat :=
  leNat ((bs.take (countEnd bs)).drop (countEnd bs - (slot 2 (widthSlots bs) 5 + 1)))

/-- The message has room for as many parents as it says. -/
def RoomForParents (raw : Slice UInt8) : Prop :=
  spelledCount raw.backing = 0 ∨ countEnd raw.backing + 28 * spelledCount raw.backing ≤ raw.len

theorem leNat_field {bs : List UInt8} (h : bs.length ≤ 4) :
    (valueOf bs).toUInt32.toNat = leNat bs := by
  have hlt := leNat_lt bs
  have hpow : 256 ^ bs.length ≤ 256 ^ 4 := Nat.pow_le_pow_right (by decide) h
  rw [UInt64.toNat_toUInt32, valueOf_toNat bs (by omega), Nat.mod_eq_of_lt (by omega)]

/-- The bytes say where the number of parents is and what it is. -/
theorem readFixed_count {raw : Slice UInt8} {x : Fixed} (h : readFixed raw = .ok x) :
    x.parentsCount.toNat = spelledCount raw.backing ∧ x.raw.len = raw.len - 3 ∧
      3 + x.buf.offset = countEnd raw.backing := by
  obtain ⟨h0, h1, h2, time, fields, unread, hfixed⟩ := readFixed_inv h
  have hp := hfixed [] [] []
  obtain ⟨rest, hraw, hxraw, hsplit⟩ := hp.headers
  obtain ⟨f0, f1, f2, f3, f4, f5, rfl⟩ := Parts.six_fields hp.fields_length
  have hbacking : raw.backing =
      h0 :: h1 :: h2 :: (time ++ ([f0, f1, f2, f3, f4, f5].flatten ++ unread)) := by
    rw [Slice.backing, hraw]
    simp only [List.cons_append, hsplit]
  have hslots : widthSlots raw.backing = leNat [h1, h2] := by rw [hbacking]; rfl
  have hwidths : announced 2 (widthSlots raw.backing) 0 6 =
      [f0.length, f1.length, f2.length, f3.length, f4.length, f5.length] := by
    rw [hslots]
    exact hp.fields_length.symm
  have hlast : slot 2 (widthSlots raw.backing) 5 + 1 = f5.length := by
    simpa [announced, List.range_succ] using congrArg (fun l => l.getD 5 0) hwidths
  have hend : countEnd raw.backing = 3 +
      (time.length + [f0, f1, f2, f3, f4, f5].flatten.length) := by
    have htime := hp.time_length
    simp only at htime
    rw [countEnd, hwidths, hbacking]
    simp only [List.getD_cons_zero, ← htime]
    simp
    omega
  have hcount : spelledCount raw.backing = leNat f5 := by
    have hfield : (raw.backing.take (countEnd raw.backing)).drop
        (countEnd raw.backing - (slot 2 (widthSlots raw.backing) 5 + 1)) = f5 := by
      have hcut : raw.backing = (h0 :: h1 :: h2 :: (time ++ (f0 ++ f1 ++ f2 ++ f3 ++ f4)) ++ f5) ++
          unread := by
        rw [hbacking]
        simp
      rw [hlast, hend, hcut, List.take_left' (by simp; omega), List.drop_left' (by simp; omega)]
    rw [spelledCount, hfield]
  have hshort : f5.length ≤ 4 := by
    rw [← hlast]
    have : slot 2 (widthSlots raw.backing) 5 < 4 := Nat.mod_lt _ (by decide)
    omega
  refine ⟨?_, ?_, ?_⟩
  · rw [hp.values, hcount]
    exact leNat_field hshort
  · rw [hxraw, hraw]
    rfl
  · rw [hend, hp.buf]

/-- **The list of parents and the message.** Where `UnmarshalBinary` allocates the
list, it is no longer than the unread bytes allow exactly when the message has
room for the number of parents it spells. Nothing checks that before. -/
theorem parents_fit_iff (raw : Slice UInt8) (x : Fixed) (h : readFixed raw = .ok x) :
    28 * x.parentsCount.toNat ≤ x.raw.len - x.buf.offset ↔ RoomForParents raw := by
  obtain ⟨hcount, hlen, hend⟩ := readFixed_count h
  rw [RoomForParents, ← hcount, ← hend, hlen]
  omega

theorem parents_fit_iff_rootMessage :
    ∃ x, readFixed ⟨rootMessage, []⟩ = .ok x ∧ x.parentsCount = 2 ∧
      RoomForParents ⟨rootMessage, []⟩ := by
  have hreads : (readFixed ⟨rootMessage, []⟩).toOption.map
      (fun x => (x.parentsCount, x.raw.len - x.buf.offset)) = some (2, 121) := by
    decide +kernel
  obtain ⟨x, hx, hvalues⟩ := Option.map_eq_some_iff.mp hreads
  obtain ⟨hcount, hunread⟩ := Prod.mk.inj hvalues
  have hfixed := toOption_eq_some hx
  refine ⟨x, hfixed, hcount, (parents_fit_iff _ x hfixed).mp ?_⟩
  rw [hcount, hunread]
  decide

/-- Thirteen bytes that ask for 4294967295 parents. -/
def greedyMessage : List UInt8 := [0, 0, 0x0c, 0, 0, 0, 0, 0, 0, 0xff, 0xff, 0xff, 0xff]

theorem greedyMessage_allocates :
    ∃ x, readFixed ⟨greedyMessage, []⟩ = .ok x ∧ x.parentsCount = 4294967295 ∧
      ¬ 28 * x.parentsCount.toNat ≤ x.raw.len - x.buf.offset := by
  have hreads : (readFixed ⟨greedyMessage, []⟩).toOption.map
      (fun x => (x.parentsCount, x.raw.len - x.buf.offset)) = some (4294967295, 0) := by
    decide +kernel
  obtain ⟨x, hx, hvalues⟩ := Option.map_eq_some_iff.mp hreads
  obtain ⟨hcount, hunread⟩ := Prod.mk.inj hvalues
  refine ⟨x, toOption_eq_some hx, hcount, ?_⟩
  rw [hcount, hunread]
  decide

end Allocation

end MiniOpera.MalformedEvents
