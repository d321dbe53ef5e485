import MiniOpera.Lib.GoRuntime
import MiniOpera.Lib.LittleEndian

/-!
# `utils/bits.go`

The bit array with slots of up to seven bits. A slot may straddle two bytes: the
writer carries the upper part of such a value in a 16-bit buffer and stores it
with the next push, the reader takes the bytes it needs into a buffer of its own.
Sizes and offsets do not wrap: `count` numbers of type `int` take `8 * count`
bytes, so `bits * count` is a `uint`.

Both sides are described by one number, as for the fast array. `push_spec`: what
is stored is the packed number below the byte in which the last value starts,
that byte included. `pop_spec`: a pop returns the slot's bits of the number that the bytes
spell.
-/

namespace MiniOpera.Bits
open GoRuntime LittleEndian

variable {ε : Type}

/-- BitArray stores only first <bits> of each of <count> numbers. -/
structure BitArray where
  bits : Nat
  count : Nat
  size : Nat
  deriving DecidableEq, Repr

def calcSize (bits count : Nat) : Nat :=
  let bits := bits * count
  let s := bits / 8
  if bits % 8 > 0 then s + 1 else s

def newBitArray (bits count : Nat) : Go ε BitArray :=
  if bits ≥ 8 then .error (.panic (.message "too big size, use bytes"))
  else .ok ⟨bits, count, calcSize bits count⟩

structure BitArrayWriter where
  array : BitArray
  offset : Nat
  raw : List UInt8
  i : Nat
  buf : UInt16
  n : Nat
  deriving DecidableEq

structure BitArrayReader where
  array : BitArray
  offset : Nat
  raw : List UInt8
  mask : UInt16
  i : Nat
  buf : UInt16
  n : Nat
  deriving DecidableEq

def BitArray.writer (a : BitArray) (w : List UInt8) : Go ε BitArrayWriter :=
  if w.length ≠ a.size then .error (.panic (.message "need .Size() bytes for writing"))
  else .ok ⟨a, 0, w, 0, 0, 0⟩

def BitArray.reader (a : BitArray) (r : List UInt8) : Go ε BitArrayReader :=
  if r.length ≠ a.size then .error (.panic (.message "need .Size() bytes for reading"))
  else .ok ⟨a, 0, r, UInt16.ofNat (1 <<< a.bits) - 1, 0, 0, 0⟩

/-- The loop of `Push`, which takes eight bits off `n` each time. -/
def BitArrayWriter.carry : Nat → BitArrayWriter → BitArrayWriter
  | 0, a => a
  | fuel + 1, a =>
    if a.n ≥ 8 then
      carry fuel { a with offset := a.offset + 1, buf := a.buf >>> 8, n := a.n - 8 }
    else a

def BitArrayWriter.push (a : BitArrayWriter) (v : Int) : Go ε BitArrayWriter :=
  if v < 0 then .error (.panic (.message "only positives accepts"))
  else if v ≥ 2 ^ a.array.bits then .error (.panic (.message "too big number"))
  else if a.i ≥ a.array.count then .error (.panic (.message "array is full"))
  else
    let buf := a.buf + UInt16.ofNat (v.toNat <<< a.n)
    let n := a.n + a.array.bits
    if a.offset < a.raw.length then
      let a := BitArrayWriter.carry n
        { a with raw := a.raw.set a.offset buf.toUInt8, buf := buf, n := n }
      .ok { a with i := a.i + 1 }
    else .error (.panic .indexOutOfRange)

/-- The next byte goes to the buffer if there are not enough bits in it. -/
def BitArrayReader.refill (a : BitArrayReader) : Go ε BitArrayReader :=
  if a.n < a.array.bits then
    match a.raw[a.offset]? with
    | none => .error (.panic .indexOutOfRange)
    | some v =>
      .ok { a with
        offset := a.offset + 1
        buf := a.buf + UInt16.ofNat (v.toNat <<< a.n)
        n := a.n + 8 }
  else .ok a

def BitArrayReader.pop (a : BitArrayReader) : Go ε (Nat × BitArrayReader) :=
  if a.i ≥ a.array.count then .error (.panic (.message "no numbers more"))
  else do
    let a ← a.refill
    let res := (a.buf &&& a.mask).toNat
    return (res, { a with
      i := a.i + 1
      buf := UInt16.ofNat (a.buf.toNat >>> a.array.bits)
      n := a.n - a.array.bits })

/-! ## Writing -/

theorem pow_eight_mul (q : Nat) : 2 ^ (8 * q) = 256 ^ q := by
  rw [Nat.pow_mul]

/-- The loop runs once at most: fewer than eight bits were there, and at most seven came. -/
theorem carry_eq (array : BitArray) (offset : Nat) (raw : List UInt8) (i : Nat) (buf : UInt16)
    {n : Nat} (hn : n < 16) :
    BitArrayWriter.carry n ⟨array, offset, raw, i, buf, n⟩ =
      if n ≥ 8 then ⟨array, offset + 1, raw, i, buf >>> 8, n - 8⟩
      else ⟨array, offset, raw, i, buf, n⟩ := by
  split
  · next h8 =>
    obtain ⟨fuel, rfl⟩ : ∃ fuel, n = fuel + 2 := ⟨n - 2, by omega⟩
    have hrest : ¬ fuel + 2 - 8 ≥ 8 := by omega
    rw [BitArrayWriter.carry, if_pos h8, BitArrayWriter.carry, if_neg hrest]
  · next h8 =>
    cases n with
    | zero => rfl
    | succ fuel => rw [BitArrayWriter.carry, if_neg h8]

/-- `vs` has been pushed into zeroed bytes. The bytes below `offset` are those of
the packed number, the rest of the number is in the buffer; the byte at `offset`
may hold part of it already. -/
structure BitArrayWriter.Holds (a : BitArrayWriter) (bits count size : Nat)
    (vs : List Nat) : Prop where
  array_eq : a.array = ⟨bits, count, size⟩
  i_eq : a.i = vs.length
  offset_eq : a.offset = bits * vs.length / 8
  n_eq : a.n = bits * vs.length % 8
  length_eq : a.raw.length = size
  buf_eq : a.buf.toNat = packBits bits vs / 256 ^ a.offset
  low : leNat a.raw % 256 ^ a.offset = packBits bits vs % 256 ^ a.offset
  high : leNat a.raw < 256 ^ (a.offset + 1)
  fits : ∀ v ∈ vs, v < 2 ^ bits

section Push

variable {a : BitArrayWriter} {bits count size : Nat} {vs : List Nat} {v : Nat}

theorem packBits_snoc (bits : Nat) (vs : List Nat) (v : Nat) :
    packBits bits (vs ++ [v]) = packBits bits vs + 2 ^ (bits * vs.length) * v := by
  rw [packBits_append]
  simp [packBits]

/-- The buffer with the new value on top, which 16 bits have room for. -/
theorem BitArrayWriter.Holds.buf_add (h : a.Holds bits count size vs) (hbits : bits ≤ 7)
    (hv : v < 2 ^ bits) :
    (a.buf + UInt16.ofNat (v <<< a.n)).toNat = packBits bits (vs ++ [v]) / 256 ^ a.offset := by
  have hpow : 2 ^ (bits * vs.length) = 256 ^ a.offset * 2 ^ a.n := by
    rw [← pow_eight_mul, ← Nat.pow_add, h.offset_eq, h.n_eq, Nat.div_add_mod]
  have hn : a.n < 8 := by rw [h.n_eq]; exact Nat.mod_lt _ (by decide)
  have hsum : packBits bits (vs ++ [v]) / 256 ^ a.offset = a.buf.toNat + v * 2 ^ a.n := by
    rw [packBits_snoc, hpow, h.buf_eq, Nat.mul_assoc, Nat.add_mul_div_left _ _
      (Nat.pow_pos (by decide)),
      Nat.mul_comm v]
  have hbuf : a.buf.toNat < 2 ^ a.n := by
    rw [h.buf_eq]
    apply Nat.div_lt_of_lt_mul
    rw [← hpow]
    exact packBits_lt _ _ h.fits
  have hle : (v + 1) * 2 ^ a.n ≤ 2 ^ 14 := by
    calc (v + 1) * 2 ^ a.n ≤ 2 ^ bits * 2 ^ a.n := Nat.mul_le_mul_right _ hv
      _ = 2 ^ (bits + a.n) := (Nat.pow_add ..).symm
      _ ≤ 2 ^ 14 := Nat.pow_le_pow_right (by decide) (by omega)
  rw [Nat.add_mul] at hle
  rw [hsum, UInt16.toNat_add, UInt16.toNat_ofNat', Nat.shiftLeft_eq]
  omega

/-- The byte that a push stores completes the packed number up to `offset`. -/
theorem BitArrayWriter.Holds.set (h : a.Holds bits count size vs) (hbits : bits ≤ 7)
    (hv : v < 2 ^ bits) (hoff : a.offset < a.raw.length) :
    leNat (a.raw.set a.offset (a.buf + UInt16.ofNat (v <<< a.n)).toUInt8) =
      packBits bits (vs ++ [v]) % 256 ^ (a.offset + 1) := by
  have hset := leNat_set a.raw a.offset hoff (a.buf + UInt16.ofNat (v <<< a.n)).toUInt8
  have hdigit := getElem_eq_digit a.raw a.offset hoff
  have hpow : 2 ^ (bits * vs.length) = 256 ^ a.offset * 2 ^ a.n := by
    rw [← pow_eight_mul, ← Nat.pow_add, h.offset_eq, h.n_eq, Nat.div_add_mod]
  -- nothing was stored above `offset`
  have htop : leNat a.raw / 256 ^ a.offset < 256 := by
    apply Nat.div_lt_of_lt_mul
    rw [← Nat.pow_succ]
    exact h.high
  rw [Nat.mod_eq_of_lt htop] at hdigit
  have hraw := Nat.mod_add_div (leNat a.raw) (256 ^ a.offset)
  have hlow : packBits bits (vs ++ [v]) % 256 ^ a.offset = leNat a.raw % 256 ^ a.offset := by
    rw [h.low, packBits_snoc, hpow, Nat.mul_assoc, Nat.add_mul_mod_self_left]
  have hbyte : (a.buf + UInt16.ofNat (v <<< a.n)).toUInt8.toNat =
      packBits bits (vs ++ [v]) / 256 ^ a.offset % 256 := by
    rw [UInt16.toNat_toUInt8, h.buf_add hbits hv]
  rw [hbyte, hdigit, Nat.mul_comm _ (256 ^ a.offset), Nat.mul_comm _ (256 ^ a.offset)] at hset
  rw [Nat.pow_succ, Nat.mod_mul, hlow]
  omega

/-- The array after a push, whose checks all pass. -/
def BitArrayWriter.pushed (a : BitArrayWriter) (buf : UInt16) (n : Nat) : BitArrayWriter :=
  if n ≥ 8 then
    ⟨a.array, a.offset + 1, a.raw.set a.offset buf.toUInt8, a.i + 1, buf >>> 8, n - 8⟩
  else ⟨a.array, a.offset, a.raw.set a.offset buf.toUInt8, a.i + 1, buf, n⟩

theorem push_eq (hbits : a.n + a.array.bits < 16) (hv : v < 2 ^ a.array.bits)
    (hcount : a.i < a.array.count) (hoff : a.offset < a.raw.length) :
    (a.push (v : Int) : Go ε _) =
      .ok (a.pushed (a.buf + UInt16.ofNat (v <<< a.n)) (a.n + a.array.bits)) := by
  have h0 : ¬ ((v : Int) < 0) := by omega
  have h1 : ¬ ((v : Int) ≥ 2 ^ a.array.bits) := by
    have hcast : ((2 ^ a.array.bits : Nat) : Int) = 2 ^ a.array.bits := by simp
    omega
  rw [BitArrayWriter.push, if_neg h0, if_neg h1, if_neg (Nat.not_le.mpr hcount), Int.toNat_natCast,
    if_pos hoff]
  dsimp only
  rw [carry_eq _ _ _ _ _ hbits, BitArrayWriter.pushed]
  split <;> rfl

/-- One push into an array that is not full. -/
theorem push_spec (h : a.Holds bits count size vs) (hpos : 0 < bits) (hbits : bits ≤ 7)
    (hv : v < 2 ^ bits) (hcount : vs.length < count) (hfit : bits * (vs.length + 1) ≤ 8 * size) :
    ∃ a', (a.push (v : Int) : Go ε _) = .ok a' ∧ a'.Holds bits count size (vs ++ [v]) ∧
      leNat a'.raw = packBits bits (vs ++ [v]) % 256 ^ (bits * vs.length / 8 + 1) := by
  have hoff : a.offset < a.raw.length := by
    rw [h.offset_eq, h.length_eq]
    rw [Nat.mul_succ] at hfit
    omega
  have hset := h.set hbits hv hoff
  have hadd := h.buf_add hbits hv
  obtain ⟨harray, hi, hoffset, hn, hlength, -, -, -, hfits⟩ := h
  have hab : a.array.bits = bits := by rw [harray]
  have hmod : bits * vs.length % 8 < 8 := Nat.mod_lt _ (by decide)
  have hlen : bits * (vs ++ [v]).length = bits * vs.length + bits := by
    rw [List.length_append, List.length_singleton, Nat.mul_succ]
  have hfits' : ∀ w ∈ vs ++ [v], w < 2 ^ bits := by
    intro w hw
    rcases List.mem_append.mp hw with hw | hw
    · exact hfits w hw
    · rw [List.mem_singleton.mp hw]
      exact hv
  have hi' : a.i + 1 = (vs ++ [v]).length := by rw [List.length_append, List.length_singleton, hi]
  refine ⟨_, push_eq (by omega) (by rw [hab]; exact hv)
    (by rw [hi, harray]; exact hcount) hoff, ?_⟩
  generalize a.buf + UInt16.ofNat (v <<< a.n) = buf at hset hadd ⊢
  have hlow : leNat (a.raw.set a.offset buf.toUInt8) < 256 ^ (a.offset + 1) := by
    rw [hset]
    exact Nat.mod_lt _ (Nat.pow_pos (by decide))
  rw [hab, BitArrayWriter.pushed, ← hoffset]
  split
  · -- the byte is full, and what is left of the buffer belongs to the next one
    refine ⟨⟨harray, hi', ?_, ?_, ?_, ?_, ?_, ?_, hfits'⟩, hset⟩
    · rw [hlen]
      show a.offset + 1 = _
      omega
    · rw [hlen]
      show a.n + bits - 8 = _
      omega
    · rw [List.length_set, hlength]
    · show (buf >>> 8).toNat = packBits bits (vs ++ [v]) / 256 ^ (a.offset + 1)
      rw [Nat.pow_succ, ← Nat.div_div_eq_div_mul, ← hadd, UInt16.toNat_shiftRight,
        Nat.shiftRight_eq_div_pow]
      rfl
    · show leNat (a.raw.set a.offset buf.toUInt8) % 256 ^ (a.offset + 1) = _
      rw [hset, Nat.mod_mod]
    · exact Nat.lt_of_lt_of_le hlow (Nat.pow_le_pow_right (by decide) (Nat.le_succ _))
  · refine ⟨⟨harray, hi', ?_, ?_, ?_, hadd, ?_, hlow, hfits'⟩, hset⟩
    · rw [hlen]
      show a.offset = _
      omega
    · rw [hlen]
      show a.n + bits = _
      omega
    · rw [List.length_set, hlength]
    · show leNat (a.raw.set a.offset buf.toUInt8) % 256 ^ a.offset = _
      rw [hset, Nat.mod_mod_of_dvd _ (Nat.pow_dvd_pow 256 (Nat.le_succ _))]

end Push

/-! ## Reading -/

/-- `i` numbers have been popped: the buffer holds the next `n` bits of the number
that the bytes spell. -/
structure BitArrayReader.Read (a : BitArrayReader) (bits count i : Nat) : Prop where
  bits_eq : a.array.bits = bits
  count_eq : a.array.count = count
  mask_eq : a.mask.toNat = 2 ^ bits - 1
  i_eq : a.i = i
  n_eq : a.n + bits * i = 8 * a.offset
  n_lt : a.n < 8
  buf_eq : a.buf.toNat = leNat a.raw / 2 ^ (bits * i) % 2 ^ a.n

section Pop

variable {a : BitArrayReader} {bits count i : Nat}

/-- The buffer before a number is taken from it. -/
theorem refill_spec (h : a.Read bits count i) (hbits : bits ≤ 7)
    (hfit : bits * (i + 1) ≤ 8 * a.raw.length) :
    ∃ a', (a.refill : Go ε _) = .ok a' ∧ a'.array = a.array ∧
      a'.raw = a.raw ∧ a'.mask = a.mask ∧
      a'.i = a.i ∧ a'.n + bits * i = 8 * a'.offset ∧ bits ≤ a'.n ∧ a'.n < 8 + bits ∧
      a'.buf.toNat = leNat a.raw / 2 ^ (bits * i) % 2 ^ a'.n := by
  obtain ⟨hab, -, -, -, hn, hlt, hbuf⟩ := h
  rw [Nat.mul_succ] at hfit
  unfold BitArrayReader.refill
  rw [hab]
  split
  · next hneed =>
    have hoff : a.offset < a.raw.length := by omega
    rw [List.getElem?_eq_getElem hoff]
    refine ⟨_, rfl, rfl, rfl, rfl, rfl, ?_, ?_, ?_, ?_⟩
    · show a.n + 8 + bits * i = 8 * (a.offset + 1)
      omega
    · show bits ≤ a.n + 8
      omega
    · show a.n + 8 < 8 + bits
      omega
    · show (a.buf + UInt16.ofNat ((a.raw[a.offset]).toNat <<< a.n)).toNat = _ % 2 ^ (a.n + 8)
      have hpow : 256 ^ a.offset = 2 ^ (bits * i) * 2 ^ a.n := by
        rw [← pow_eight_mul, ← Nat.pow_add, ← hn, Nat.add_comm]
      have hlow : leNat a.raw / 2 ^ (bits * i) % 2 ^ (a.n + 8) < 2 ^ 16 :=
        Nat.lt_of_lt_of_le (Nat.mod_lt _ (Nat.two_pow_pos _))
          (Nat.pow_le_pow_right (by decide) (by omega))
      rw [UInt16.toNat_add, UInt16.toNat_ofNat', Nat.add_mod_mod, Nat.shiftLeft_eq, hbuf,
        getElem_eq_digit a.raw _ hoff, hpow, ← Nat.div_div_eq_div_mul,
        Nat.mul_comm _ (2 ^ a.n), ← Nat.mod_mul]
      rw [Nat.pow_add] at hlow ⊢
      exact Nat.mod_eq_of_lt hlow
  · next hneed => exact ⟨_, rfl, rfl, rfl, rfl, rfl, hn, Nat.not_lt.mp hneed, by omega, hbuf⟩

/-- One pop: the slot's bits of the number the array spells. -/
theorem pop_spec (h : a.Read bits count i) (hbits : bits ≤ 7) (hcount : i < count)
    (hfit : bits * (i + 1) ≤ 8 * a.raw.length) :
    ∃ a', (a.pop : Go ε _) = .ok (leNat a.raw / 2 ^ (bits * i) % 2 ^ bits, a') ∧
      a'.Read bits count (i + 1) ∧ a'.raw = a.raw := by
  obtain ⟨a', hrefill, harray, hraw, hmask, hi, hn, hle, hlt, hbuf⟩ :=
    refill_spec (ε := ε) h hbits hfit
  obtain ⟨hab, hac, hmaskv, hia, -, -, -⟩ := h
  have hstop : ¬ a.i ≥ a.array.count := by rw [hia, hac]; omega
  have hres : (a'.buf &&& a'.mask).toNat = leNat a.raw / 2 ^ (bits * i) % 2 ^ bits := by
    rw [UInt16.toNat_and, hmask, hmaskv, Nat.and_two_pow_sub_one_eq_mod, hbuf,
      Nat.mod_mod_of_dvd _ (Nat.pow_dvd_pow 2 hle)]
  have hrest : (UInt16.ofNat (a'.buf.toNat >>> a'.array.bits)).toNat =
      leNat a.raw / 2 ^ (bits * (i + 1)) % 2 ^ (a'.n - bits) := by
    have hsplit : 2 ^ a'.n = 2 ^ bits * 2 ^ (a'.n - bits) := by
      rw [← Nat.pow_add, Nat.add_sub_cancel' hle]
    have hsmall : a'.buf.toNat >>> bits < 2 ^ 16 :=
      Nat.lt_of_le_of_lt (Nat.shiftRight_le _ _) a'.buf.toNat_lt
    rw [harray, hab, UInt16.toNat_ofNat', Nat.mod_eq_of_lt hsmall, Nat.shiftRight_eq_div_pow, hbuf,
      hsplit, Nat.mod_mul_right_div_self, Nat.div_div_eq_div_mul, ← Nat.pow_add, Nat.mul_succ]
  rw [BitArrayReader.pop, if_neg hstop, hrefill, ok_bind]
  refine ⟨{ a' with
    i := a'.i + 1
    buf := UInt16.ofNat (a'.buf.toNat >>> a'.array.bits)
    n := a'.n - a'.array.bits }, by rw [hres]; rfl, ⟨?_, ?_, ?_, ?_, ?_, ?_, ?_⟩, hraw⟩
  · rw [harray, hab]
  · rw [harray, hac]
  · rw [hmask, hmaskv]
  · rw [hi, hia]
  · show a'.n - a'.array.bits + bits * (i + 1) = 8 * a'.offset
    rw [harray, hab, Nat.mul_succ]
    omega
  · show a'.n - a'.array.bits < 8
    rw [harray, hab]
    omega
  · show (UInt16.ofNat (a'.buf.toNat >>> a'.array.bits)).toNat =
      leNat a'.raw / 2 ^ (bits * (i + 1)) % 2 ^ (a'.n - a'.array.bits)
    rw [hrest, hraw, harray, hab]

end Pop

end MiniOpera.Bits
