import MiniOpera.Lib.GoRuntime
import MiniOpera.Lib.LittleEndian

/-!
# Package `utils/fast`

The bit array with slots of 1, 2 or 4 bits and the fixed-size byte buffer, as
the event serializer uses them.

* `push_spec`: a push that fits adds the value at its bit position to the
  number the array spells, and cannot panic;
* `pop_spec`: a pop returns the slot's bits of that number;
* `write_filled`, `writeByte_written`: a write that fits appends to the written
  part of a buffer;
* `read_ok`: what a successful read says about the bytes behind the buffer.
-/

namespace MiniOpera.Fast
open GoRuntime LittleEndian

variable {ε : Type}

/-! ## Bit array -/

/-- BitArray stores only first <1,2,4> bits of each of <count> numbers. -/
structure BitArray where
  bits : Nat
  count : Nat
  offset : Nat
  size : Nat
  deriving DecidableEq, Repr

def calcSize (bits count : Nat) : Nat :=
  let bits := bits * count
  let s := bits / 8
  if bits % 8 > 0 then s + 1 else s

def newBitArray (bits count : Nat) : Go ε BitArray :=
  if bits ≠ 1 ∧ bits ≠ 2 ∧ bits ≠ 4 then
    .error (.panic (.message "use 1 or 2 or 4 bits"))
  else .ok ⟨bits, count, 0, calcSize bits count⟩

structure BitArrayWriter where
  array : BitArray
  raw : List UInt8
  deriving DecidableEq

structure BitArrayReader where
  array : BitArray
  raw : List UInt8
  deriving DecidableEq

def BitArray.writer (a : BitArray) (w : List UInt8) : Go ε BitArrayWriter :=
  if w.length ≠ a.size then .error (.panic (.message "need .Size() bytes for writing"))
  else .ok ⟨a, w⟩

def BitArray.reader (a : BitArray) (r : List UInt8) : Go ε BitArrayReader :=
  if r.length ≠ a.size then .error (.panic (.message "need .Size() bytes for reading"))
  else .ok ⟨a, r⟩

/-- Byte offset and offset inside that byte of the next slot, and the array
with its cursor moved. -/
def BitArray.nextPart (a : BitArray) : Nat × Nat × BitArray :=
  let bitsOffset := a.offset * a.bits
  (bitsOffset / 8, bitsOffset % 8, { a with offset := a.offset + 1 })

def BitArrayWriter.push (a : BitArrayWriter) (v : Int) : Go ε BitArrayWriter :=
  if v < 0 then .error (.panic (.message "only positives accepts"))
  else if v ≥ 2 ^ a.array.bits then .error (.panic (.message "too big number"))
  else
    let (byteOffset, bytePartOffset, array) := a.array.nextPart
    match a.raw[byteOffset]? with
    | none => .error (.panic .indexOutOfRange)
    | some b =>
      .ok ⟨array, a.raw.set byteOffset (b ||| UInt8.ofNat (v.toNat <<< bytePartOffset))⟩

def BitArrayReader.pop (a : BitArrayReader) : Go ε (Nat × BitArrayReader) :=
  let (byteOffset, bytePartOffset, array) := a.array.nextPart
  match a.raw[byteOffset]? with
  | none => .error (.panic .indexOutOfRange)
  | some b => .ok ((b.toNat >>> bytePartOffset) &&& (2 ^ a.array.bits - 1), ⟨array, a.raw⟩)

/-- The slot widths for which no slot straddles two bytes. -/
def SlotWidth (bits : Nat) : Prop := bits = 1 ∨ bits = 2 ∨ bits = 4

theorem slot_in_byte {bits : Nat} (h : SlotWidth bits) (k : Nat) :
    k * bits % 8 + bits ≤ 8 := by
  rcases h with rfl | rfl | rfl <;> omega

/-- A disjoint bitwise or is a sum. -/
theorem or_shift_eq_add (b v r : Nat) (h : b < 2 ^ r) : b ||| v <<< r = b + v * 2 ^ r := by
  rw [Nat.or_comm, Nat.shiftLeft_eq, Nat.mul_comm v, ← Nat.two_pow_add_eq_or_of_lt h,
    Nat.add_comm]

theorem pow_byte_split (n : Nat) : 2 ^ n = 256 ^ (n / 8) * 2 ^ (n % 8) := by
  rw [show (256 : Nat) = 2 ^ 8 by rfl, ← Nat.pow_mul, ← Nat.pow_add, Nat.div_add_mod]

/-- One push: the slots above the cursor are still zero, the value fits its
slot and the slot lies inside the array. -/
theorem push_spec (a : BitArrayWriter) (v : Nat) (hw : SlotWidth a.array.bits)
    (hv : v < 2 ^ a.array.bits)
    (hfit : (a.array.offset + 1) * a.array.bits ≤ 8 * a.raw.length)
    (hlow : leNat a.raw < 2 ^ (a.array.offset * a.array.bits)) :
    ∃ raw', (a.push (v : Int) : Go ε _) =
        .ok ⟨{ a.array with offset := a.array.offset + 1 }, raw'⟩ ∧
      raw'.length = a.raw.length ∧
      leNat raw' = leNat a.raw + v * 2 ^ (a.array.offset * a.array.bits) := by
  have hslot := slot_in_byte hw a.array.offset
  have hsplit := pow_byte_split (a.array.offset * a.array.bits)
  generalize hk : a.array.offset * a.array.bits = k at hslot hlow hsplit ⊢
  have hbits : 0 < a.array.bits := by rcases hw with h | h | h <;> omega
  have hq : k / 8 < a.raw.length := by
    rw [Nat.add_one_mul, hk] at hfit
    omega
  refine ⟨a.raw.set (k / 8) (a.raw[k / 8] ||| UInt8.ofNat (v <<< (k % 8))), ?_, by simp, ?_⟩
  · have h0 : ¬ ((v : Int) < 0) := by omega
    have h1 : ¬ ((v : Int) ≥ 2 ^ a.array.bits) := by
      have : ((2 ^ a.array.bits : Nat) : Int) = 2 ^ a.array.bits := by simp
      omega
    simp only [BitArrayWriter.push, h0, h1, ↓reduceIte, BitArray.nextPart, hk,
      List.getElem?_eq_getElem hq, Int.toNat_natCast]
  · -- the byte holds only slots below the cursor, so the or is a sum
    have hb : (a.raw[k / 8]).toNat < 2 ^ (k % 8) := by
      rw [getElem_eq_digit a.raw _ hq]
      refine Nat.lt_of_le_of_lt (Nat.mod_le _ _) (Nat.div_lt_of_lt_mul ?_)
      rw [← hsplit]
      exact hlow
    have hvs : v * 2 ^ (k % 8) + 2 ^ (k % 8) ≤ 256 := by
      have h8 : 2 ^ (k % 8 + a.array.bits) ≤ 2 ^ 8 := Nat.pow_le_pow_right (by omega) hslot
      have hm : (v + 1) * 2 ^ (k % 8) ≤ 2 ^ a.array.bits * 2 ^ (k % 8) :=
        Nat.mul_le_mul_right _ hv
      rw [Nat.pow_add, Nat.mul_comm] at h8
      rw [Nat.add_one_mul] at hm
      omega
    have hor : (a.raw[k / 8] ||| UInt8.ofNat (v <<< (k % 8))).toNat =
        (a.raw[k / 8]).toNat + v * 2 ^ (k % 8) := by
      rw [← or_shift_eq_add _ _ _ hb, UInt8.toNat_or, UInt8.toNat_ofNat', Nat.mod_eq_of_lt]
      rw [Nat.shiftLeft_eq]
      omega
    have hset := leNat_set a.raw (k / 8) hq (a.raw[k / 8] ||| UInt8.ofNat (v <<< (k % 8)))
    rw [hor, Nat.add_mul, Nat.mul_assoc v, Nat.mul_comm (2 ^ (k % 8)), ← hsplit] at hset
    omega

/-- The writer has pushed `vs` into `size` zeroed bytes. -/
structure BitArrayWriter.Holds (a : BitArrayWriter) (bits size : Nat) (vs : List Nat) : Prop where
  bits_eq : a.array.bits = bits
  offset_eq : a.array.offset = vs.length
  length_eq : a.raw.length = size
  value_eq : leNat a.raw = packBits bits vs
  fits : ∀ v ∈ vs, v < 2 ^ bits

theorem BitArrayWriter.Holds.push {a : BitArrayWriter} {bits size : Nat} {vs : List Nat}
    (h : a.Holds bits size vs) (hw : SlotWidth bits) (v : Nat) (hv : v < 2 ^ bits)
    (hfit : (vs.length + 1) * bits ≤ 8 * size) :
    ∃ a', (a.push (v : Int) : Go ε _) = .ok a' ∧ a'.Holds bits size (vs ++ [v]) := by
  obtain ⟨rfl, hoff, rfl, hval, hfits⟩ := h
  have hlow : leNat a.raw < 2 ^ (a.array.offset * a.array.bits) := by
    rw [hval, hoff, Nat.mul_comm]
    exact packBits_lt _ _ hfits
  obtain ⟨raw', hp, hl, hn⟩ := push_spec (ε := ε) a v hw hv (by rw [hoff]; exact hfit) hlow
  refine ⟨_, hp, rfl, by simp [hoff], hl, ?_, ?_⟩
  · rw [hn, hval, packBits_append, hoff]
    simp [packBits, Nat.mul_comm]
  · intro x hx
    rcases List.mem_append.mp hx with hx | hx
    · exact hfits x hx
    · simp only [List.mem_singleton] at hx; subst x; exact hv

theorem BitArrayWriter.Holds.raw_eq {a : BitArrayWriter} {bits size : Nat} {vs : List Nat}
    (h : a.Holds bits size vs) : a.raw = leBytes size (packBits bits vs) := by
  rw [← h.value_eq, ← h.length_eq, leBytes_leNat]

/-- One pop: the slot's bits of the number the array spells. -/
theorem pop_spec (a : BitArrayReader) (hw : SlotWidth a.array.bits)
    (hfit : (a.array.offset + 1) * a.array.bits ≤ 8 * a.raw.length) :
    (a.pop : Go ε _) =
      .ok (leNat a.raw / 2 ^ (a.array.offset * a.array.bits) % 2 ^ a.array.bits,
        ⟨{ a.array with offset := a.array.offset + 1 }, a.raw⟩) := by
  have hslot := slot_in_byte hw a.array.offset
  have hsplit := pow_byte_split (a.array.offset * a.array.bits)
  have hbits : 0 < a.array.bits := by rcases hw with h | h | h <;> omega
  generalize hk : a.array.offset * a.array.bits = k at hslot hsplit ⊢
  have hq : k / 8 < a.raw.length := by
    rw [Nat.add_one_mul, hk] at hfit
    omega
  have hdigit : (a.raw[k / 8]).toNat >>> (k % 8) &&& (2 ^ a.array.bits - 1) =
      leNat a.raw / 2 ^ k % 2 ^ a.array.bits := by
    rw [Nat.and_two_pow_sub_one_eq_mod, Nat.shiftRight_eq_div_pow, getElem_eq_digit a.raw _ hq,
      hsplit, ← Nat.div_div_eq_div_mul]
    generalize leNat a.raw / 256 ^ (k / 8) = x
    have h8 : (256 : Nat) = 2 ^ (k % 8) * 2 ^ (8 - k % 8) := by
      rw [← Nat.pow_add, show k % 8 + (8 - k % 8) = 8 by omega]
    rw [h8, Nat.mod_mul_right_div_self]
    exact Nat.mod_mod_of_dvd _ (Nat.pow_dvd_pow 2 (by omega))
  simp only [BitArrayReader.pop, BitArray.nextPart, hk, List.getElem?_eq_getElem hq, hdigit]

/-! ## Buffer -/

/-- Buffer is a fixed-sized buffer of byte with Read and Write methods. -/
structure Buffer where
  buf : Slice UInt8
  offset : Nat
  deriving DecidableEq

def newBuffer (bb : Slice UInt8) : Buffer := ⟨bb, 0⟩

def Buffer.writeByte (b : Buffer) (v : UInt8) : Go ε Buffer :=
  if b.offset < b.buf.len then
    .ok ⟨⟨b.buf.data.set b.offset v, b.buf.spare⟩, b.offset + 1⟩
  else .error (.panic .indexOutOfRange)

def Buffer.write (b : Buffer) (v : List UInt8) : Go ε Buffer :=
  if b.offset > b.buf.len then .error (.panic .sliceBounds)
  else
    let n := min (b.buf.len - b.offset) v.length
    if n ≠ v.length then .error (.panic (.message "buffer overflow"))
    else
      .ok ⟨⟨b.buf.data.take b.offset ++ v.take n ++ b.buf.data.drop (b.offset + n),
        b.buf.spare⟩, b.offset + n⟩

def Buffer.read (b : Buffer) (n : Nat) : Go ε (List UInt8 × Buffer) := do
  let res ← b.buf.sub b.offset (b.offset + n)
  return (res.data, ⟨b.buf, b.offset + n⟩)

/-- A buffer made of zeroes into which `w` has been written, with `k` bytes left. -/
def filled (w : List UInt8) (k : Nat) : Buffer := ⟨⟨w ++ List.replicate k 0, []⟩, w.length⟩

/-- A buffer into which `w` has been written over older contents, of which `old`
is left behind the cursor. -/
def written (w old spare : List UInt8) : Buffer := ⟨⟨w ++ old, spare⟩, w.length⟩

theorem writeByte_written (w : List UInt8) (x : UInt8) (old spare : List UInt8) (v : UInt8) :
    ((written w (x :: old) spare).writeByte v : Go ε _) = .ok (written (w ++ [v]) old spare) := by
  simp [written, Buffer.writeByte, Slice.len]

theorem write_filled (w v : List UInt8) (k : Nat) (h : v.length ≤ k) :
    ((filled w k).write v : Go ε _) = .ok (filled (w ++ v) (k - v.length)) := by
  have hmin : min k v.length = v.length := Nat.min_eq_right h
  simp [filled, Buffer.write, Slice.len, hmin, Nat.not_lt.mpr]

/-- A successful read consumes the bytes at the cursor, which may lie behind
the length but never behind the capacity. -/
theorem read_ok {b b' : Buffer} {n : Nat} {bs : List UInt8}
    (h : (b.read n : Go ε _) = .ok (bs, b')) :
    bs = (b.buf.backing.drop b.offset).take n ∧ bs.length = n ∧
      b' = ⟨b.buf, b.offset + n⟩ := by
  unfold Buffer.read at h
  obtain ⟨s, hs, hr⟩ := bind_eq_ok h
  obtain ⟨_, hcap, hdata⟩ := Slice.sub_ok hs
  cases hr
  rw [show b.offset + n - b.offset = n by omega] at hdata
  refine ⟨hdata, ?_, rfl⟩
  rw [hdata, List.length_take, List.length_drop]
  omega

end MiniOpera.Fast
