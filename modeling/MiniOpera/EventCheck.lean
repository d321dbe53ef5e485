import MiniOpera.EventCodec
import MiniOpera.Lib.RlpItem

/-!
# Package `eventcheck`

The event checks that do not need the consensus state. The checks of the
consensus library they extend are parameters (`BaseCheckers`), as is the
signature verification of the crypto library.

`signed_hash_agrees`: the hash the emitter signs, the hash `Build` caches and
the hash a peer computes from the received bytes are one, whatever the
signature; so `heavyCheck` verifies the signature against what was signed.
-/

namespace MiniOpera.EventCheck
open GoRuntime LittleEndian InterEvent EventWire EventDecode EventCodec

inductive CheckError
  | notRelevant
  | auth
  | wrongEventSig
  | version
  | tooManyParents
  | zeroTime
  | wrongSelfParent
  | pastTime
  | alreadyConnected
  | base (code : Nat)
  deriving DecidableEq, Repr

abbrev ValidatorID := UInt32

structure Validator where
  id : ValidatorID
  pubKey : List UInt8
  stake : Nat
  deriving DecidableEq

/-- ValidatorsPubKeys stores info to authenticate validators. -/
structure ValidatorsPubKeys where
  epoch : Nat
  pubKeys : ValidatorID → Option (List UInt8)

/-- A later entry for a validator overwrites an earlier one. -/
def newEpochPubKeys (epoch : Nat) (vv : List Validator) : ValidatorsPubKeys :=
  ⟨epoch, fun id => (vv.reverse.find? (·.id = id)).map (·.pubKey)⟩

/-- The checks of the consensus library, and its notion of a self-parent: the
first parent, unless the event is its creator's first. -/
structure BaseCheckers where
  basic : Event → Go CheckError Unit
  parents : Event → List Event → Go CheckError Unit
  /-- `epochcheck`: reads the epoch and validators of the store. -/
  epoch : List Validator → Nat → Event → Go CheckError Unit
  selfParent : Event → Option EventID
  epoch_relevant : ∀ vv n e, epoch vv n e = .ok () → e.epoch.toNat = n
  basic_seq : ∀ e, basic e = .ok () → e.seq ≠ 0
  selfParent_first : ∀ e, e.seq.toNat ≤ 1 → selfParent e = none
  selfParent_later : ∀ e p ps, 1 < e.seq.toNat → e.parents = p :: ps → selfParent e = some p

/-- Checkers that check no more than the laws ask for. -/
def BaseCheckers.minimal : BaseCheckers where
  basic e := if e.seq = 0 then .error (.error (.base 0)) else .ok ()
  parents _ _ := .ok ()
  epoch _ n e := if e.epoch.toNat = n then .ok () else .error (.error .notRelevant)
  selfParent e := if e.seq.toNat ≤ 1 then none else e.parents.head?
  epoch_relevant vv n e h := by
    split at h
    · assumption
    · cases h
  basic_seq e h := by
    split at h
    · cases h
    · assumption
  selfParent_first e h := if_pos h
  selfParent_later e p ps h hp := by
    rw [if_neg (by omega), hp, List.head?_cons]

section Checks

variable (base : BaseCheckers) (verifySignature : List UInt8 → Hash → Signature → Bool)

def basicCheck (maxParents : Nat) (e : Event) : Go CheckError Unit := do
  base.basic e
  if e.version ≠ 0 then .error (.error .version)
  else if e.rawTime ≤ 0 then .error (.error .zeroTime)
  else if e.parents.length > maxParents then .error (.error .tooManyParents)
  else return ()

def parentsCheck (e : Event) (parents : List Event) : Go CheckError Unit := do
  base.parents e parents
  match base.selfParent e with
  | none => return ()
  | some p =>
    match parents with
    | [] => .error (.panic .indexOutOfRange)
    | selfParent :: _ =>
      -- sanity check, self-parent is always first, it's how it's stored
      if p ≠ selfParent.id then .error (.error .wrongSelfParent)
      else if e.rawTime ≤ selfParent.rawTime then .error (.error .pastTime)
      else return ()

def heavyCheck (keys : ValidatorsPubKeys) (e : Event) : Go CheckError Unit := do
  if e.epoch.toNat ≠ keys.epoch then .error (.error .notRelevant) else
  match keys.pubKeys e.creator with
  | none => .error (.error .auth)
  | some pubKey => do
    let signedHash ← e.hashToSign
    if verifySignature pubKey signedHash e.sig then return () else .error (.error .wrongEventSig)

/-- `Checkers.Validate`: all the checks except Poset-related. -/
def validate (maxParents : Nat) (vv : List Validator) (epoch : Nat) (keys : ValidatorsPubKeys)
    (e : Event) (parents : List Event) : Go CheckError Unit := do
  basicCheck base maxParents e
  base.epoch vv epoch e
  parentsCheck base e parents
  heavyCheck verifySignature keys e

/-- `lightCheck` of `makeFetcher`. -/
def lightCheck (maxParents : Nat) (vv : List Validator) (epoch : Nat) (e : Event) :
    Go CheckError Unit := do
  basicCheck base maxParents e
  base.epoch vv epoch e

/-- A passed heavy check names the epoch of the keys it was made with. -/
theorem heavyCheck_epoch {keys : ValidatorsPubKeys} {e : Event}
    (h : heavyCheck verifySignature keys e = .ok ()) : keys.epoch = e.epoch.toNat := by
  unfold heavyCheck at h
  split at h
  · cases h
  · next hne => exact (Classical.not_not.mp hne).symm

/-- For the creator's key, the heavy check is the verification of the event's
signature against its cached hash. -/
theorem heavyCheck_iff {keys : ValidatorsPubKeys} {e : Event} {pubKey : List UInt8} {h : Hash}
    (hepoch : keys.epoch = e.epoch.toNat) (hkey : keys.pubKeys e.creator = some pubKey)
    (hh : e.hashToSignCache = some h) :
    heavyCheck verifySignature keys e = .ok () ↔ verifySignature pubKey h e.sig = true := by
  simp only [heavyCheck, hepoch, ne_eq, not_true_eq_false, if_false, hkey, Event.hashToSign, hh,
    ok_bind]
  cases verifySignature pubKey h e.sig <;> simp

end Checks

/-! ## Signing and verifying -/

section Signing

variable {ε : Type} (sha256 : List UInt8 → Hash)

/-- The hashed bytes: everything but the signature. -/
theorem wire_unsigned (e : Event) :
    (wire e).take ((wire e).length - sigSize) =
      header3 e ++ header2 e ++ ((timeBytes e).flatten ++ (fieldBytes e).flatten ++
        (parentTails e.parents).flatten ++ e.payload) := by
  have hs := e.sig.size
  obtain ⟨pre, hpre⟩ : ∃ pre, pre = header3 e ++ header2 e ++ ((timeBytes e).flatten ++
    (fieldBytes e).flatten ++ (parentTails e.parents).flatten ++ e.payload) := ⟨_, rfl⟩
  have hw : wire e = pre ++ e.sig.data := by
    rw [hpre, wire, body]; simp
  rw [hw, ← hpre]
  exact List.take_left' (by simp [hs])

theorem wire_unsigned_setSig (m : MutableEvent) (s : Signature) :
    (wire (m.setSig s).immutable).take ((wire (m.setSig s).immutable).length - sigSize) =
      (wire m.immutable).take ((wire m.immutable).length - sigSize) := by
  rw [wire_unsigned, wire_unsigned]
  rfl

/-- What a peer gets out of the RLP encoding of a version-0 event. -/
theorem decodeRLP_encodeRLP (rlp : Rlp) (e : Event) (hv : e.version = 0) :
    ∃ bytes e', (e.encodeRLP rlp : Go DecodeError _) = .ok bytes ∧
      decodeRLP sha256 rlp bytes = .ok e' ∧
      e' = builtFrom sha256 (received sha256 (partsOf e) e.sig MutableEvent.zero.id) (wire e) := by
  obtain ⟨spare, hr⟩ := rlp.decode_encode (wire e)
  have hm : (e.marshalBinary : Go DecodeError _) = .ok (wire e) :=
    marshalBinary_eq_wire e (by rw [hv]; decide)
  have hb := build_received (ε := DecodeError) sha256 (partsOf e) (partsOf_valid e hv) e.sig
    MutableEvent.zero.id
  rw [partsOf_bytes] at hb
  refine ⟨rlp.encode (wire e), _, ?_, ?_, rfl⟩
  · simp only [Event.encodeRLP, hm, ok_bind, pure_eq_ok]
  · simp only [decodeRLP, MutableEvent.decodeRLP, hr, unmarshalBinary_wire sha256 e hv, hb]

theorem encodeRLP_ok {rlp : Rlp} {e : Event} {buf : List UInt8}
    (h : (e.encodeRLP rlp : Go ε _) = .ok buf) : e.version.toNat < 16 ∧
      buf = rlp.encode (wire e) := by
  obtain ⟨bytes, hm, h⟩ := bind_eq_ok h
  obtain ⟨hv, rfl⟩ := marshalBinary_ok hm
  exact ⟨hv, (Except.ok.inj h).symm⟩

/-- Only encodings of version 0 are decoded. -/
theorem version_of_decoded {rlp : Rlp} {e x : Event} {buf : List UInt8}
    (henc : (e.encodeRLP rlp : Go ε _) = .ok buf) (hdec : decodeRLP sha256 rlp buf = .ok x) :
    e.version = 0 := by
  obtain ⟨hv, rfl⟩ := encodeRLP_ok henc
  obtain ⟨spare, hr⟩ := rlp.decode_encode (wire e)
  simp only [decodeRLP, MutableEvent.decodeRLP, hr] at hdec
  split at hdec
  · cases hdec
  · next hu =>
    obtain ⟨p, sig, hp, hdata, -⟩ := unmarshalBinary_inv sha256 hu
    -- the low half of the first byte is the version
    have hhead : (UInt8.ofNat (packBits 4 (e.version.toNat :: slots (timeBytes e)))) = p.h0 :=
      List.head_eq_of_cons_eq hdata
    have hnibble := hp.version
    rw [← hhead, UInt8.toNat_ofNat', packBits] at hnibble
    have hzero : e.version.toNat = 0 := by omega
    exact UInt8.toNat_inj.mp hzero

/-- Every decoded event comes from valid parts. -/
theorem decodeRLP_inv {rlp : Rlp} {buf : List UInt8} {e : Event}
    (h : decodeRLP sha256 rlp buf = .ok e) :
    ∃ (p : Parts) (sig : Signature),
      p.Valid ∧ e = builtFrom sha256 (received sha256 p sig MutableEvent.zero.id) p.bytes := by
  unfold decodeRLP MutableEvent.decodeRLP at h
  cases hr : rlp.decode buf with
  | none => simp [hr] at h
  | some raw =>
    simp only [hr] at h
    split at h
    · cases h
    · next hu =>
      obtain ⟨p, sig, hp, -, -, rfl⟩ := unmarshalBinary_inv sha256 hu
      rw [build_received sha256 p hp] at h
      exact ⟨p, sig, hp, (Except.ok.inj h).symm⟩

/-- The epoch of the parents is not sent but taken from the event. -/
theorem decodeRLP_parents {rlp : Rlp} {buf : List UInt8} {e : Event}
    (h : decodeRLP sha256 rlp buf = .ok e) : ParentsOfEpoch e.epoch e.parents := by
  obtain ⟨p, sig, -, rfl⟩ := decodeRLP_inv sha256 h
  intro q hq
  obtain ⟨tail, -, rfl⟩ := List.mem_map.mp hq
  simp only [parentOf, copyInto, List.take_take, List.append_assoc]
  exact List.take_left' (idxBytes_length _)

/-- The ID is made of the epoch, the Lamport time and the hash. -/
theorem decodeRLP_layout {rlp : Rlp} {buf : List UInt8} {e : Event}
    (h : decodeRLP sha256 rlp buf = .ok e) :
    e.id.data.take 8 = idxBytes e.epoch ++ idxBytes e.lamport := by
  obtain ⟨p, sig, -, rfl⟩ := decodeRLP_inv sha256 h
  simp only [builtFrom, MutableEvent.setID, MutableEvent.immutable, copyInto, List.take_take,
    List.append_assoc]
  rw [← List.append_assoc]
  exact List.take_left' (by simp)

/-- What is decoded from an event's own encoding. -/
theorem decoded_eq {rlp : Rlp} {e x : Event} {buf : List UInt8}
    (henc : (e.encodeRLP rlp : Go ε _) = .ok buf) (hdec : decodeRLP sha256 rlp buf = .ok x) :
    x = builtFrom sha256 (received sha256 (partsOf e) e.sig MutableEvent.zero.id) (wire e) := by
  obtain ⟨bytes, e', hbytes, hdec', he'⟩ :=
    decodeRLP_encodeRLP sha256 rlp e (version_of_decoded sha256 henc hdec)
  have hbuf : bytes = buf := (encodeRLP_ok hbytes).2.trans (encodeRLP_ok henc).2.symm
  rw [hbuf, hdec] at hdec'
  exact (Except.ok.inj hdec').trans he'

/-- Decoding keeps the fields that the ID and the check are made of. -/
theorem received_identity (e : Event) (id : EventID) :
    (received sha256 (partsOf e) e.sig id).epoch = e.epoch ∧
      (received sha256 (partsOf e) e.sig id).creator = e.creator ∧
      (received sha256 (partsOf e) e.sig id).lamport = e.lamport :=
  ⟨partsOf_field e 0 (by decide), partsOf_field e 3 (by decide), partsOf_field e 4 (by decide)⟩

/-- The ID depends on the epoch, the Lamport time and the hash only. -/
theorem setID_id_congr {m m' : MutableEvent} (hepoch : m.epoch = m'.epoch)
    (hlamport : m.lamport = m'.lamport) (rID : Bytes 24) :
    (m.setID rID).id = (m'.setID rID).id := by
  simp only [MutableEvent.setID, hepoch, hlamport]

/-- **Sign path and verify path agree.** One hash and one ID, fixed before the
signature is, on the emitter's side and on the peer's. -/
theorem signed_hash_agrees (rlp : Rlp) (verifySignature : List UInt8 →
    Hash → Signature → Bool)
    (m : MutableEvent) (hsize : m.sizeCache = 0) (hhash : m.hashToSignCache = none)
    (hver : m.version = 0) :
    ∃ (h : Hash) (id : EventID), (m.hashToSign sha256 : Go DecodeError _) = .ok h ∧
      ∀ s : Signature, ∃ (e : Event) (bytes : List UInt8) (e' : Event),
        ((m.setSig s).build sha256 : Go DecodeError _) = .ok e ∧
        (e.hashToSign : Go DecodeError _) = .ok h ∧ e.id = id ∧
        (e.encodeRLP rlp : Go DecodeError _) = .ok bytes ∧
        decodeRLP sha256 rlp bytes = .ok e' ∧
        (e'.hashToSign : Go DecodeError _) = .ok h ∧ e'.id = id ∧
        ∀ x ∈ [e, e'], ∀ keys pubKey, keys.epoch = m.epoch.toNat →
          keys.pubKeys m.creator = some pubKey →
          (heavyCheck verifySignature keys x = .ok () ↔ verifySignature pubKey h s = true) := by
  have hv : m.version.toNat < 16 := by rw [hver]; decide
  obtain ⟨h, hh⟩ : ∃ h, h = sha256 ((wire m.immutable).take
    ((wire m.immutable).length - sigSize)) :=
    ⟨_, rfl⟩
  refine ⟨h, (m.setID (calcEventID h)).id, hh ▸ hashToSign_eq sha256 m hv, ?_⟩
  intro s
  obtain ⟨w, hw⟩ : ∃ w, w = wire (m.setSig s).immutable := ⟨_, rfl⟩
  have hsame : h = sha256 (w.take (w.length - sigSize)) := by
    rw [hh, hw, wire_unsigned_setSig]
  have hbuild := build_uncached (ε := DecodeError) sha256 (m.setSig s) hsize hhash hv
  rw [← hw] at hbuild
  obtain ⟨e, he⟩ : ∃ e, e = builtFrom sha256 (m.setSig s) w := ⟨_, rfl⟩
  have hwire : wire e = w := by rw [he, hw]; rfl
  obtain ⟨bytes, e', hbytes, hdecode, he'⟩ :=
    decodeRLP_encodeRLP sha256 rlp e (by rw [he]; exact hver)
  rw [hwire] at he'
  obtain ⟨hepoch', hcreator', hlamport'⟩ := received_identity sha256 e MutableEvent.zero.id
  have hcache : e.hashToSignCache = some h := by rw [he, hsame]; rfl
  have hcache' : e'.hashToSignCache = some h := by rw [he', hsame]; rfl
  have hid : e.id = (m.setID (calcEventID h)).id := by rw [he, hsame]; rfl
  have hid' : e'.id = (m.setID (calcEventID h)).id := by
    rw [he', hsame]
    exact setID_id_congr (hepoch'.trans (by rw [he]; rfl)) (hlamport'.trans (by rw [he]; rfl)) _
  refine ⟨e, bytes, e', by rw [hbuild, he], by simp only [Event.hashToSign, hcache], hid, hbytes,
    hdecode, by simp only [Event.hashToSign, hcache'], hid', ?_⟩
  -- the check reads the epoch, the creator, the hash and the signature
  have hfields : ∀ x ∈ [e, e'], x.epoch = m.epoch ∧ x.creator = m.creator ∧ x.sig = s ∧
      x.hashToSignCache = some h := by
    intro x hx
    rw [List.mem_cons, List.mem_singleton] at hx
    rcases hx with rfl | rfl
    · exact ⟨by rw [he]; rfl, by rw [he]; rfl, by rw [he]; rfl, hcache⟩
    · refine ⟨?_, ?_, by rw [he', he]; rfl, hcache'⟩
      · rw [he']
        exact hepoch'.trans (by rw [he]; rfl)
      · rw [he']
        exact hcreator'.trans (by rw [he]; rfl)
  intro x hx keys pubKey hepoch hkey
  obtain ⟨hxe, hxc, hxs, hxh⟩ := hfields x hx
  rw [← hxs]
  exact heavyCheck_iff verifySignature (by rw [hepoch, hxe]) (by rw [hxc, hkey]) hxh

/-- The RLP library on byte strings. -/
def rlpString : Rlp where
  encode := RlpItem.encode
  decode := fun src => (RlpItem.decode src).map fun b => ⟨b, []⟩
  decode_encode := fun b => ⟨[], by simp [RlpItem.decode_encode]⟩

theorem signed_hash_agrees_sample :
    ∃ (h : Hash) (id : EventID),
      (sampleEvent.hashToSign (fun _ => Bytes.zero 32) : Go DecodeError _) = .ok h ∧
      ∀ s : Signature, ∃ (e : Event) (bytes : List UInt8) (e' : Event),
        ((sampleEvent.setSig s).build (fun _ => Bytes.zero 32) : Go DecodeError _) = .ok e ∧
        (e.hashToSign : Go DecodeError _) = .ok h ∧ e.id = id ∧
        (e.encodeRLP rlpString : Go DecodeError _) = .ok bytes ∧
        decodeRLP (fun _ => Bytes.zero 32) rlpString bytes = .ok e' ∧
        (e'.hashToSign : Go DecodeError _) = .ok h ∧ e'.id = id ∧
        ∀ x ∈ [e, e'], ∀ keys pubKey, keys.epoch = sampleEvent.epoch.toNat →
          keys.pubKeys sampleEvent.creator = some pubKey →
          (heavyCheck (fun key hash sig => sig.data == key ++ hash.data) keys x = .ok () ↔
            (s.data == pubKey ++ h.data) = true) :=
  signed_hash_agrees _ rlpString (fun key hash sig => sig.data == key ++ hash.data) sampleEvent
    rfl rfl rfl

end Signing

end MiniOpera.EventCheck
