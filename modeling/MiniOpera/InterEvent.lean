import MiniOpera.Fast

/-! Package `inter`: the event, its setters, and its binary encoding and
decoding with the caches `Build` and `UnmarshalBinary` fill. The base event
(consensus fields and the 32-byte ID) belongs to the consensus library; only
its fields and `SetID` (epoch, Lamport time, 24 hash bytes) are used here.
The digest is an arbitrary function `sha256`. -/

namespace MiniOpera.InterEvent
open GoRuntime LittleEndian Fast

abbrev Hash := Bytes 32
abbrev EventID := Bytes 32

def sigSize : Nat := 64

/-- Signature is a secp256k1 in R|S format. -/
abbrev Signature := Bytes sigSize

/-- `copy` of a byte string into a zeroed array. -/
def copyInto (n : Nat) (src : List UInt8) : Bytes n :=
  ⟨(src ++ List.replicate n 0).take n, by simp⟩

/-- Big-endian bytes of a 32-bit index (`idx.Epoch.Bytes`, `idx.Lamport.Bytes`). -/
def idxBytes (v : UInt32) : List UInt8 := (leBytes 4 v.toNat).reverse

@[simp] theorem idxBytes_length (v : UInt32) : (idxBytes v).length = 4 := by simp [idxBytes]

structure BaseEvent where
  epoch : UInt32
  seq : UInt32
  frame : UInt32
  isRoot : Bool
  creator : UInt32
  parents : List EventID
  lamport : UInt32
  rawTime : UInt64
  id : EventID
  deriving DecidableEq

structure ExtEvent where
  version : UInt8
  payload : List UInt8
  sig : Signature
  /-- `_size`, zero when not cached. -/
  sizeCache : Nat
  /-- `_hashToSign`, nil when not cached. -/
  hashToSignCache : Option Hash
  deriving DecidableEq

structure Event extends BaseEvent, ExtEvent
  deriving DecidableEq

structure MutableEvent extends BaseEvent, ExtEvent
  deriving DecidableEq

/-- The zero value `MutableEvent{}`. -/
def MutableEvent.zero : MutableEvent :=
  ⟨⟨0, 0, 0, false, 0, [], 0, 0, Bytes.zero 32⟩, ⟨0, [], Bytes.zero sigSize, 0, none⟩⟩

namespace MutableEvent

def setVersion (e : MutableEvent) (v : UInt8) : MutableEvent := { e with version := v }
def setPayload (e : MutableEvent) (v : List UInt8) : MutableEvent := { e with payload := v }
def setSig (e : MutableEvent) (v : Signature) : MutableEvent := { e with sig := v }
def setEpoch (e : MutableEvent) (v : UInt32) : MutableEvent := { e with epoch := v }
def setSeq (e : MutableEvent) (v : UInt32) : MutableEvent := { e with seq := v }
def setFrame (e : MutableEvent) (v : UInt32) : MutableEvent := { e with frame := v }
def setIsRoot (e : MutableEvent) (v : Bool) : MutableEvent := { e with isRoot := v }
def setCreator (e : MutableEvent) (v : UInt32) : MutableEvent := { e with creator := v }
def setLamport (e : MutableEvent) (v : UInt32) : MutableEvent := { e with lamport := v }
def setParents (e : MutableEvent) (v : List EventID) : MutableEvent := { e with parents := v }
def setRawTime (e : MutableEvent) (v : UInt64) : MutableEvent := { e with rawTime := v }

/-- The ID is made of the epoch, the Lamport time and 24 bytes of the hash. -/
def setID (e : MutableEvent) (rID : Bytes 24) : MutableEvent :=
  { e with id := copyInto 32 (idxBytes e.epoch ++ idxBytes e.lamport ++ rID.data) }

def immutable (e : MutableEvent) : Event := ⟨e.toBaseEvent, e.toExtEvent⟩

end MutableEvent

def mutableFrom (e : Event) : MutableEvent := ⟨e.toBaseEvent, e.toExtEvent⟩

inductive DecodeError
  | nonCanonicalEncoding
  | invalidEncoding
  | wrongVersion
  | malformedSignature
  | rlp
  deriving DecidableEq, Repr

def bytesToSignature {ε : Type} (b : List UInt8) : Go ε Signature :=
  if h : b.length = sigSize then .ok ⟨b, h⟩
  else .error (.panic (.message "invalid signature length"))

/-! ## Encoding -/

section Encoding

variable {ε : Type}

/-- The loop of `writeUintCompact` over the remaining `size`; the second
component counts the bytes written. -/
def writeUintCompact (buf : Buffer) (v : UInt64) : Nat → Go ε (Buffer × Nat)
  | 0 => .ok (buf, 0)
  | size + 1 => do
    let buf ← buf.writeByte v.toUInt8
    if v >>> 8 = 0 then return (buf, 1)
    let (buf, bytes) ← writeUintCompact buf (v >>> 8) size
    return (buf, bytes + 1)

/-- The loops over `fields64` and `fields32`: each number goes to the buffer,
its length minus one to the bit header. -/
def writeFields (size : Nat) :
    List UInt64 → Buffer → BitArrayWriter → Go ε (Buffer × BitArrayWriter)
  | [], buf, headerw => .ok (buf, headerw)
  | x :: xs, buf, headerw => do
    let (buf, n) ← writeUintCompact buf x size
    let headerw ← headerw.push ((n : Int) - 1)
    writeFields size xs buf headerw

def writeBools : List Bool → BitArrayWriter → Go ε BitArrayWriter
  | [], headerw => .ok headerw
  | f :: fs, headerw => do
    let headerw ← headerw.push (if f then 1 else 0)
    writeBools fs headerw

/-- Parents are written without the epoch they share with the event. -/
def writeParents : List EventID → Buffer → Go ε Buffer
  | [], buf => .ok buf
  | p :: ps, buf => do
    let buf ← buf.write (p.data.drop 4)
    writeParents ps buf

def Event.fields64 (e : Event) : List UInt64 := [e.rawTime]

def Event.fields32 (e : Event) : List UInt32 :=
  [e.epoch, e.seq, e.frame, e.creator, e.lamport, UInt32.ofNat e.parents.length]

def Event.fieldsBool (e : Event) : List Bool := [e.isRoot]

def Event.marshalBinary (e : Event) : Go ε (List UInt8) := do
  let header3 ← newBitArray 4 (1 + e.fields64.length)
  let header2 ← newBitArray 2 (e.fields32.length + e.fieldsBool.length)
  let maxBytes := header3.size + header2.size + e.fields64.length * 8 +
    e.fields32.length * 4 + e.parents.length * (32 - 4) + sigSize + e.payload.length
  let raw : Slice UInt8 := ⟨List.replicate maxBytes 0, []⟩
  let header3w ← header3.writer (← raw.sub 0 header3.size).data
  let header2w ← header2.writer (← raw.sub header3.size (header3.size + header2.size)).data
  let buf := newBuffer (← raw.tailFrom (header3.size + header2.size))
  -- write version first
  let header3w ← header3w.push e.version.toNat
  let (buf, header3w) ← writeFields 8 e.fields64 buf header3w
  let (buf, header2w) ← writeFields 4 (e.fields32.map UInt32.toUInt64) buf header2w
  let header2w ← writeBools e.fieldsBool header2w
  let buf ← writeParents e.parents buf
  let buf ← buf.write e.payload
  let buf ← buf.write e.sig.data
  let length := header3.size + header2.size + buf.offset
  -- the three sub-slices are disjoint parts of `raw`, in this order
  return (header3w.raw ++ header2w.raw ++ buf.buf.data).take length

end Encoding

/-! ## Hashes, caches and `Build` -/

section Build

variable {ε : Type} (sha256 : List UInt8 → Hash)

/-- Everything but the signature is hashed. -/
def eventHashToSign (b : List UInt8) : Go ε Hash :=
  if sigSize ≤ b.length then .ok (sha256 (b.take (b.length - sigSize)))
  else .error (.panic .sliceBounds)

def calcEventID (hashToSign : Hash) : Bytes 24 := copyInto 24 (hashToSign.data.take 24)

def Event.hashToSign (e : Event) : Go ε Hash :=
  match e.hashToSignCache with
  | some h => .ok h
  | none => .error (.panic .nilDereference)

def Event.size (e : Event) : Nat := e.sizeCache

namespace MutableEvent

def hashToSign (e : MutableEvent) : Go ε Hash := do
  let b ← e.immutable.marshalBinary
  eventHashToSign sha256 b

def size (e : MutableEvent) : Go ε Nat := do
  let b ← e.immutable.marshalBinary
  return b.length

def fillCaches (e : MutableEvent) (b : List UInt8) : Go ε MutableEvent := do
  let h ← eventHashToSign sha256 b
  return { e with sizeCache := b.length, hashToSignCache := some h }

def build (e : MutableEvent) : Go ε Event := do
  let h ← match e.hashToSignCache with
    | some h => .ok h
    | none => e.hashToSign sha256
  let c := e.setID (calcEventID h)
  if c.sizeCache ≠ 0 ∧ c.hashToSignCache ≠ none then
    return c.immutable
  let b ← e.immutable.marshalBinary
  let c ← c.fillCaches sha256 b
  return c.immutable

end MutableEvent

end Build

/-! ## Decoding -/

section Decoding

/-- `v += uint64(b) << uint(8*i)` over the bytes read; shifts of 64 and more
give zero. -/
def sumBytes (i : Nat) (v : UInt64) : List UInt8 → UInt64
  | [] => v
  | b :: bs => sumBytes (i + 1) (v + UInt64.ofNat (b.toNat <<< (8 * i))) bs

def readUintCompact (buf : Buffer) (bytes : Nat) : Go DecodeError (UInt64 × Buffer) := do
  let (bs, buf) ← buf.read bytes
  if bytes > 1 ∧ bs.getLast?.getD 0 = 0 then
    .error (.error .nonCanonicalEncoding)
  else return (sumBytes 0 0 bs, buf)

/-- The loops over the field pointers: each length comes from the bit header. -/
def readFields : Nat → BitArrayReader → Buffer →
    Go DecodeError (List UInt64 × BitArrayReader × Buffer)
  | 0, headerr, buf => .ok ([], headerr, buf)
  | k + 1, headerr, buf => do
    let (n, headerr) ← headerr.pop
    let (x, buf) ← readUintCompact buf (n + 1)
    let (xs, headerr, buf) ← readFields k headerr buf
    return (x :: xs, headerr, buf)

def readParents (epoch : UInt32) : Nat → Buffer → Go DecodeError (List EventID × Buffer)
  | 0, buf => .ok ([], buf)
  | k + 1, buf => do
    let (bs, buf) ← buf.read (32 - 4)
    let (ps, buf) ← readParents epoch k buf
    return (copyInto 32 (idxBytes epoch ++ bs) :: ps, buf)

/-- The end of the message: parents, then what lies between them and the
signature. `raw` is the message behind its headers. -/
def readTail (raw : Slice UInt8) (epoch : UInt32) (parentsCount : Nat) (buf : Buffer) :
    Go DecodeError (List EventID × List UInt8 × List UInt8) := do
  let (parents, buf) ← readParents epoch parentsCount buf
  if (raw.len : Int) - buf.offset < sigSize then .error (.error .malformedSignature) else
  let (payload, buf) ← buf.read (raw.len - buf.offset - sigSize)
  let (sig, _) ← buf.read sigSize
  return (parents, payload, sig)

/-- The local variables of `UnmarshalBinary` once everything is read. -/
structure Decoded where
  ver : Nat
  rawTime : UInt64
  epoch : UInt32
  seq : UInt32
  frame : UInt32
  creator : UInt32
  lamport : UInt32
  isRoot : Bool
  parents : List EventID
  payload : List UInt8
  sig : List UInt8
  deriving DecidableEq

/-- The part of `UnmarshalBinary` that reads, up to the first setter. -/
def decode (raw : Slice UInt8) : Go DecodeError Decoded := do
  let header3 ← newBitArray 4 2
  let header2 ← newBitArray 2 7
  let header3r ← header3.reader (← raw.sub 0 header3.size).data
  let header2r ← header2.reader (← raw.sub header3.size (header3.size + header2.size)).data
  let raw ← raw.tailFrom (header3.size + header2.size)
  let buf := newBuffer raw
  -- read version first
  let (ver, header3r) ← header3r.pop
  if ver ≠ 0 then .error (.error .wrongVersion) else
  let (fields64, _, buf) ← readFields 1 header3r buf
  let (fields32, header2r, buf) ← readFields 6 header2r buf
  match fields64, fields32.map UInt64.toUInt32 with
  | [rawTime], [epoch, seq, frame, creator, lamport, parentsCount] =>
    let (n, _) ← header2r.pop
    let (parents, payload, sig) ← readTail raw epoch parentsCount.toNat buf
    return ⟨ver, rawTime, epoch, seq, frame, creator, lamport, n ≠ 0, parents, payload, sig⟩
  | _, _ => .error (.panic .indexOutOfRange)

variable (sha256 : List UInt8 → Hash)

/-- The setters that cannot fail, in the order of the source. -/
def MutableEvent.assign (e : MutableEvent) (d : Decoded) : MutableEvent :=
  ((((((((((e.setVersion (UInt8.ofNat d.ver)).setRawTime d.rawTime).setEpoch d.epoch).setSeq
    d.seq).setFrame d.frame).setIsRoot d.isRoot).setCreator d.creator).setLamport
    d.lamport).setParents d.parents).setPayload d.payload)

/-- The receiver after the call and the returned error. A panic anywhere is
recovered and becomes `ErrInvalidEncoding`. -/
def MutableEvent.unmarshalBinary (e : MutableEvent) (raw : Slice UInt8) :
    MutableEvent × Option DecodeError :=
  match decode raw with
  | .error (.panic _) => (e, some .invalidEncoding)
  | .error (.error err) => (e, some err)
  | .ok d =>
    match (bytesToSignature d.sig : Go DecodeError _) with
    | .error _ => (e.assign d, some .invalidEncoding)
    | .ok sig =>
      match (((e.assign d).setSig sig).fillCaches sha256 raw.data : Go DecodeError _) with
      | .error _ => ((e.assign d).setSig sig, some .invalidEncoding)
      | .ok e' => (e', none)

end Decoding

/-! ## RLP -/

/-- RLP of byte strings, as `rlp.Encode` and `Stream.Bytes` of the RLP library
provide it; the decoded slice may have spare capacity. -/
structure Rlp where
  encode : List UInt8 → List UInt8
  decode : List UInt8 → Option (Slice UInt8)
  decode_encode : ∀ b, ∃ spare, decode (encode b) = some ⟨b, spare⟩

section RlpCoding

variable (sha256 : List UInt8 → Hash) (rlp : Rlp)

def Event.encodeRLP {ε : Type} (e : Event) : Go ε (List UInt8) := do
  let bytes ← e.marshalBinary
  return rlp.encode bytes

/-- `MutableEvent.DecodeRLP`: the receiver after the call and the error. -/
def MutableEvent.decodeRLP (e : MutableEvent) (src : List UInt8) :
    MutableEvent × Option DecodeError :=
  match rlp.decode src with
  | none => (e, some .rlp)
  | some bytes => e.unmarshalBinary sha256 bytes

/-- `Event.DecodeRLP`: the event its receiver is set to. -/
def decodeRLP (src : List UInt8) : Go DecodeError Event :=
  match MutableEvent.zero.decodeRLP sha256 rlp src with
  | (_, some err) => .error (.error err)
  | (mutE, none) => mutE.build sha256

/-- `Event.DecodeRLP` with the receiver it is called on. -/
def Event.decodeRLP (e : Event) (src : List UInt8) : Go Empty (Event × Option DecodeError) :=
  match MutableEvent.zero.decodeRLP sha256 rlp src with
  | (_, some err) => .ok (e, some err)
  | (mutE, none) => do
    let e ← mutE.build sha256
    return (e, none)

end RlpCoding

end MiniOpera.InterEvent
