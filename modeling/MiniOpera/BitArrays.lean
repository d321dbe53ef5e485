import MiniOpera.Bits
import MiniOpera.Fast

/-!
# The two bit arrays

A list is pushed into `Size()` zeroed bytes and popped again. The general array
gives back the packed number up to the byte in which the last value starts
(`fill_eq`), so a last value that goes over the end of its byte loses its upper
bits: `round_trip_iff` says when nothing is lost. Slots of 1, 2 and 4 bits never
straddle two bytes, and there both packages store the same bytes
(`fast_agrees`).
-/

namespace MiniOpera.BitArrays
open GoRuntime LittleEndian

variable {ε : Type}

/-! ## The general array -/

def pushAll (a : Bits.BitArrayWriter) : List Nat → Go ε Bits.BitArrayWriter
  | [] => .ok a
  | v :: vs => do
    let a ← a.push v
    pushAll a vs

def popAll (a : Bits.BitArrayReader) : Nat → Go ε (List Nat)
  | 0 => .ok []
  | n + 1 => do
    let (v, a) ← a.pop
    let vs ← popAll a n
    return v :: vs

/-- The bytes that hold the numbers, as the test makes them. -/
def fill (bits : Nat) (vs : List Nat) : Go ε (List UInt8) := do
  let arr ← Bits.newBitArray bits vs.length
  let writer ← arr.writer (List.replicate arr.size 0)
  let writer ← pushAll writer vs
  return writer.raw

/-- The numbers in the bytes. -/
def unpack (bits count : Nat) (raw : List UInt8) : Go ε (List Nat) := do
  let arr ← Bits.newBitArray bits count
  let reader ← arr.reader raw
  popAll reader count

def roundTrip (bits : Nat) (vs : List Nat) : Go ε (List Nat) := do
  let raw ← fill bits vs
  unpack bits vs.length raw

/-- The last value fits in what is left of the byte in which it starts. -/
def LastFits (bits : Nat) (vs : List Nat) : Prop :=
  ∀ v ∈ vs.getLast?, v < 2 ^ (8 - bits * (vs.length - 1) % 8)

theorem calcSize_fits (bits count : Nat) : bits * count ≤ 8 * Bits.calcSize bits count := by
  unfold Bits.calcSize
  dsimp only
  split <;> omega

section General

variable {bits count size : Nat}

/-- By induction on the values to come; the last push decides what is stored. -/
theorem pushAll_spec {a : Bits.BitArrayWriter} {us : List Nat} (h : a.Holds bits count size us)
    (hpos : 0 < bits) (hbits : bits ≤ 7) (vs : List Nat) (hv : ∀ v ∈ vs, v < 2 ^ bits)
    (hcount : us.length + vs.length ≤ count) (hsize : bits * count ≤ 8 * size) :
    ∃ a', (pushAll a vs : Go ε _) = .ok a' ∧ a'.Holds bits count size (us ++ vs) ∧
      (vs ≠ [] → leNat a'.raw =
        packBits bits (us ++ vs) % 256 ^ (bits * ((us ++ vs).length - 1) / 8 + 1)) := by
  induction vs generalizing a us with
  | nil => exact ⟨a, rfl, by rwa [List.append_nil], fun h => absurd rfl h⟩
  | cons v vs ih =>
    rw [List.length_cons] at hcount
    have hfit : bits * (us.length + 1) ≤ 8 * size :=
      Nat.le_trans (Nat.mul_le_mul_left _ (by omega)) hsize
    obtain ⟨a1, hpush, h1, hraw⟩ := Bits.push_spec (ε := ε) h hpos hbits
      (hv v List.mem_cons_self)
      (by omega) hfit
    obtain ⟨a2, hrest, h2, hraw2⟩ := ih h1 (fun w hw => hv w (List.mem_cons_of_mem v hw))
      (by rw [List.length_append, List.length_singleton]; omega)
    rw [List.append_assoc, List.singleton_append] at h2 hraw2
    refine ⟨a2, by rw [pushAll, hpush, ok_bind, hrest], h2, fun _ => ?_⟩
    by_cases hvs : vs = []
    · rw [hvs] at hrest ⊢
      cases hrest
      rw [hraw, List.length_append, List.length_singleton, Nat.add_sub_cancel]
    · exact hraw2 hvs

theorem popAll_spec {a : Bits.BitArrayReader} {i : Nat} (h : a.Read bits count i)
    (hbits : bits ≤ 7)
    (n : Nat) (hcount : i + n ≤ count) (hsize : bits * count ≤ 8 * a.raw.length) :
    (popAll a n : Go ε _) =
      .ok ((List.range n).map fun j => leNat a.raw / 2 ^ (bits * (i + j)) % 2 ^ bits) := by
  induction n generalizing a i with
  | zero => rfl
  | succ n ih =>
    have hfit : bits * (i + 1) ≤ 8 * a.raw.length :=
      Nat.le_trans (Nat.mul_le_mul_left _ (by omega)) hsize
    obtain ⟨a', hpop, h', hraw⟩ := Bits.pop_spec (ε := ε) h hbits (by omega) hfit
    have hrest := ih h' (by omega) (by rw [hraw]; exact hsize)
    rw [popAll, hpop, ok_bind]
    dsimp only
    rw [hrest, ok_bind, hraw, List.range_succ_eq_map, List.map_cons, List.map_map, pure_eq_ok]
    congr 3
    funext j
    show _ = leNat a.raw / 2 ^ (bits * (i + (j + 1))) % 2 ^ bits
    rw [Nat.add_assoc, Nat.add_comm 1 j]

theorem holds_new (bits count size : Nat) :
    (⟨⟨bits, count, size⟩, 0, List.replicate size 0, 0, 0, 0⟩ : Bits.BitArrayWriter).Holds
      bits count size [] where
  array_eq := rfl
  i_eq := rfl
  offset_eq := by simp
  n_eq := by simp
  length_eq := List.length_replicate
  buf_eq := by simp [packBits]
  low := by simp [leNat_replicate_zero, packBits]
  high := by simp [leNat_replicate_zero]
  fits := by simp

theorem read_new (count size : Nat) (hbits : bits ≤ 7) (raw : List UInt8) :
    (⟨⟨bits, count, size⟩, 0, raw, UInt16.ofNat (1 <<< bits) - 1, 0, 0, 0⟩ :
      Bits.BitArrayReader).Read
      bits count 0 where
  bits_eq := rfl
  count_eq := rfl
  mask_eq := by
    have hall : ∀ b : Fin 8, (UInt16.ofNat (1 <<< b.val) - 1).toNat = 2 ^ b.val - 1 := by decide
    exact hall ⟨bits, by omega⟩
  i_eq := rfl
  n_eq := rfl
  n_lt := Nat.zero_lt_succ 7
  buf_eq := by simp [Nat.mod_one]

/-- What is stored: the packed numbers, up to the byte in which the last one starts. -/
theorem fill_eq (hpos : 0 < bits) (hbits : bits ≤ 7) (vs : List Nat)
    (hv : ∀ v ∈ vs, v < 2 ^ bits) :
    (fill bits vs : Go ε _) = .ok (leBytes (Bits.calcSize bits vs.length)
      (packBits bits vs % 256 ^ (bits * (vs.length - 1) / 8 + 1))) := by
  obtain ⟨a, hpush, hholds, hraw⟩ := pushAll_spec (ε := ε)
    (holds_new bits vs.length (Bits.calcSize bits vs.length)) hpos hbits vs hv
    (by rw [List.length_nil, Nat.zero_add]) (calcSize_fits _ _)
  have hnew : (Bits.newBitArray bits vs.length : Go ε _) =
      .ok ⟨bits, vs.length, Bits.calcSize bits vs.length⟩ := if_neg (by omega)
  have hwriter : (Bits.BitArray.writer ⟨bits, vs.length, Bits.calcSize bits vs.length⟩
      (List.replicate (Bits.calcSize bits vs.length) 0) : Go ε _) =
      .ok ⟨⟨bits, vs.length, Bits.calcSize bits vs.length⟩, 0, _, 0, 0, 0⟩ :=
    if_neg (not_not.mpr List.length_replicate)
  rw [fill, hnew, ok_bind, hwriter, ok_bind, hpush, ok_bind, pure_eq_ok]
  rw [List.nil_append] at hholds hraw
  congr 1
  have hbytes := leBytes_leNat a.raw
  rw [hholds.length_eq] at hbytes
  rw [← hbytes]
  by_cases hvs : vs = []
  · simp [hvs, Bits.calcSize, leBytes]
  · rw [hraw hvs]

theorem unpack_eq (hbits : bits ≤ 7) (count : Nat) (raw : List UInt8)
    (hlen : raw.length = Bits.calcSize bits count) :
    (unpack bits count raw : Go ε _) =
      .ok ((List.range count).map fun j => leNat raw / 2 ^ (bits * j) % 2 ^ bits) := by
  have hnew : (Bits.newBitArray bits count : Go ε _) =
      .ok ⟨bits, count, Bits.calcSize bits count⟩ := if_neg (by omega)
  have hreader : (Bits.BitArray.reader ⟨bits, count, Bits.calcSize bits count⟩ raw : Go ε _) =
      .ok ⟨⟨bits, count, Bits.calcSize bits count⟩, 0, raw,
        UInt16.ofNat (1 <<< bits) - 1, 0, 0, 0⟩ :=
    if_neg (not_not.mpr hlen)
  have hpop := popAll_spec (ε := ε)
    (read_new count (Bits.calcSize bits count) hbits raw) hbits count
    (Nat.le_of_eq (Nat.zero_add _)) (by rw [hlen]; exact calcSize_fits bits count)
  rw [unpack, hnew, ok_bind, hreader, ok_bind, hpop]
  simp only [Nat.zero_add]

/-- The digits of the packed number are the numbers. -/
theorem digits_packBits (vs : List Nat) (hv : ∀ v ∈ vs, v < 2 ^ bits) :
    ((List.range vs.length).map fun j => packBits bits vs / 2 ^ (bits * j) % 2 ^ bits) = vs := by
  apply List.ext_getElem (by simp)
  intro j h1 h2
  have hdigit := packBits_digit_getElem bits vs [] hv j h2
  rw [List.append_nil] at hdigit
  simpa using hdigit

theorem roundTrip_eq (hpos : 0 < bits) (hbits : bits ≤ 7) (vs : List Nat)
    (hv : ∀ v ∈ vs, v < 2 ^ bits) :
    (roundTrip bits vs : Go ε _) = .ok ((List.range vs.length).map fun j =>
      packBits bits vs % 256 ^ (bits * (vs.length - 1) / 8 + 1) / 2 ^ (bits * j) % 2 ^ bits) := by
  rw [roundTrip, fill_eq hpos hbits vs hv, ok_bind, unpack_eq hbits _ _ (leBytes_length _ _)]
  cases vs with
  | nil => rfl
  | cons v vs =>
    have hfits := calcSize_fits bits (v :: vs).length
    have hle : bits * ((v :: vs).length - 1) / 8 + 1 ≤ Bits.calcSize bits (v :: vs).length := by
      rw [List.length_cons, Nat.mul_succ] at hfits
      rw [List.length_cons, Nat.add_sub_cancel]
      omega
    rw [leNat_leBytes]
    exact Nat.lt_of_lt_of_le (Nat.mod_lt _ (Nat.pow_pos (by decide)))
      (Nat.pow_le_pow_right (by decide) hle)

/-- Nothing is lost if and only if the last value ends in the byte in which it starts. -/
theorem packed_lt_iff (vs : List Nat) (hv : ∀ v ∈ vs, v < 2 ^ bits) :
    packBits bits vs < 256 ^ (bits * (vs.length - 1) / 8 + 1) ↔ LastFits bits vs := by
  rcases List.eq_nil_or_concat vs with rfl | ⟨us, v, rfl⟩
  · simp [LastFits, packBits]
  · rw [List.concat_eq_append] at hv ⊢
    have hus := packBits_lt bits us fun u hu => hv u (by simp [hu])
    have hpow : 256 ^ (bits * us.length / 8 + 1) =
        2 ^ (bits * us.length) * 2 ^ (8 - bits * us.length % 8) := by
      rw [← Bits.pow_eight_mul, ← Nat.pow_add]
      congr 1
      omega
    have hlen : (us ++ [v]).length - 1 = us.length := by simp
    have hlast : (us ++ [v]).getLast? = some v := by simp
    rw [LastFits, hlen, hlast, Bits.packBits_snoc, hpow]
    simp only [Option.mem_some_iff, forall_eq']
    generalize 2 ^ (8 - bits * us.length % 8) = room
    generalize 2 ^ (bits * us.length) = m at hus ⊢
    constructor
    · intro h
      by_contra hge
      have hmul : m * room ≤ m * v := Nat.mul_le_mul_left m (Nat.not_lt.mp hge)
      omega
    · intro h
      have hmul : m * (v + 1) ≤ m * room := Nat.mul_le_mul_left m h
      rw [Nat.mul_succ] at hmul
      omega

/-- The general array always returns `count` numbers. They are the numbers that
were pushed exactly if the last one fits in the rest of the byte in which it
starts; otherwise its upper bits were still in the writer's buffer. -/
theorem round_trip_iff (bits : Nat) (hpos : 1 ≤ bits) (hbits : bits ≤ 7) (vs : List Nat)
    (hv : ∀ v ∈ vs, v < 2 ^ bits) :
    (∃ got, (roundTrip bits vs : Go ε _) = .ok got ∧ got.length = vs.length) ∧
      ((roundTrip bits vs : Go ε _) = .ok vs ↔ LastFits bits vs) := by
  refine ⟨⟨_, roundTrip_eq hpos hbits vs hv, by simp⟩, ?_⟩
  rw [roundTrip_eq hpos hbits vs hv, ← packed_lt_iff vs hv]
  constructor
  · intro h
    -- the digits that came back make up what was stored
    have hdigits := congrArg (packBits bits) (Except.ok.inj h)
    rw [packBits_digits] at hdigits
    have hle : packBits bits vs ≤ packBits bits vs % 256 ^ (bits * (vs.length - 1) / 8 + 1) := by
      conv_lhs => rw [← hdigits]
      exact Nat.mod_le _ _
    exact Nat.lt_of_le_of_lt hle (Nat.mod_lt _ (Nat.pow_pos (by decide)))
  · intro h
    rw [Nat.mod_eq_of_lt h, digits_packBits vs hv]

/-- Seven values of five bits: the last one starts at bit 30 and ends at bit 34,
but has only two bits. -/
theorem round_trip_iff_seven :
    (∀ v ∈ [31, 0, 17, 4, 9, 30, 3], v < 2 ^ 5) ∧ LastFits 5 [31, 0, 17, 4, 9, 30, 3] ∧
      (roundTrip 5 [31, 0, 17, 4, 9, 30, 3] : Go Empty _) = .ok [31, 0, 17, 4, 9, 30, 3] := by
  have hv : ∀ v ∈ [31, 0, 17, 4, 9, 30, 3], v < 2 ^ 5 := by decide
  have hlast : LastFits 5 [31, 0, 17, 4, 9, 30, 3] := by simp [LastFits]
  exact ⟨hv, hlast, (round_trip_iff 5 (by decide) (by decide) _ hv).2.mpr hlast⟩

/-- Three values of three bits: the upper bit of the last one is never stored. -/
theorem last_bit_lost :
    (∀ v ∈ [0, 0, 4], v < 2 ^ 3) ∧ (roundTrip 3 [0, 0, 4] : Go Empty _) = .ok [0, 0, 0] :=
  ⟨by decide, by decide⟩

end General

/-! ## The fast array -/

def fastPushAll (a : Fast.BitArrayWriter) : List Nat → Go ε Fast.BitArrayWriter
  | [] => .ok a
  | v :: vs => do
    let a ← a.push v
    fastPushAll a vs

def fastPopAll (a : Fast.BitArrayReader) : Nat → Go ε (List Nat)
  | 0 => .ok []
  | n + 1 => do
    let (v, a) ← a.pop
    let vs ← fastPopAll a n
    return v :: vs

def fastFill (bits : Nat) (vs : List Nat) : Go ε (List UInt8) := do
  let arr ← Fast.newBitArray bits vs.length
  let writer ← arr.writer (List.replicate arr.size 0)
  let writer ← fastPushAll writer vs
  return writer.raw

def fastUnpack (bits count : Nat) (raw : List UInt8) : Go ε (List Nat) := do
  let arr ← Fast.newBitArray bits count
  let reader ← arr.reader raw
  fastPopAll reader count

section Fast

variable {bits count size : Nat}

theorem newFast_eq (hw : Fast.SlotWidth bits) (count : Nat) :
    (Fast.newBitArray bits count : Go ε _) = .ok ⟨bits, count, 0,
      Fast.calcSize bits count⟩ := by
  rw [Fast.newBitArray, if_neg]
  rcases hw with rfl | rfl | rfl <;> decide

theorem fastPushAll_spec {a : Fast.BitArrayWriter} {us : List Nat} (h : a.Holds bits size us)
    (hw : Fast.SlotWidth bits) (vs : List Nat) (hv : ∀ v ∈ vs, v < 2 ^ bits)
    (hsize : bits * (us.length + vs.length) ≤ 8 * size) :
    ∃ a', (fastPushAll a vs : Go ε _) = .ok a' ∧ a'.Holds bits size (us ++ vs) := by
  induction vs generalizing a us with
  | nil => exact ⟨a, rfl, by rwa [List.append_nil]⟩
  | cons v vs ih =>
    have hle : bits * (us.length + 1) ≤ bits * (us.length + (v :: vs).length) :=
      Nat.mul_le_mul_left _ (by rw [List.length_cons]; omega)
    obtain ⟨a1, hpush, h1⟩ := h.push (ε := ε) hw v (hv v List.mem_cons_self)
      (by rw [Nat.mul_comm]; omega)
    obtain ⟨a2, hrest, h2⟩ := ih h1 (fun w hw => hv w (List.mem_cons_of_mem v hw))
      (by
        rw [List.length_append, List.length_singleton, Nat.add_assoc, Nat.add_comm 1]
        exact hsize)
    rw [List.append_assoc, List.singleton_append] at h2
    exact ⟨a2, by rw [fastPushAll, hpush, ok_bind, hrest], h2⟩

theorem fastPopAll_spec (a : Fast.BitArrayReader) (hw : Fast.SlotWidth a.array.bits) (n : Nat)
    (hsize : a.array.bits * (a.array.offset + n) ≤ 8 * a.raw.length) :
    (fastPopAll a n : Go ε _) = .ok ((List.range n).map fun j =>
      leNat a.raw / 2 ^ (a.array.bits * (a.array.offset + j)) % 2 ^ a.array.bits) := by
  induction n generalizing a with
  | zero => rfl
  | succ n ih =>
    have hle : a.array.bits * (a.array.offset + 1) ≤ a.array.bits * (a.array.offset + (n + 1)) :=
      Nat.mul_le_mul_left _ (by omega)
    have hpop := Fast.pop_spec (ε := ε) a hw (by rw [Nat.mul_comm]; omega)
    have hrest := ih ⟨{ a.array with offset := a.array.offset + 1 }, a.raw⟩ hw
      (by
        show a.array.bits * (a.array.offset + 1 + n) ≤ _
        rw [Nat.add_assoc, Nat.add_comm 1]
        exact hsize)
    rw [fastPopAll, hpop, ok_bind]
    dsimp only at hrest ⊢
    rw [hrest, ok_bind, List.range_succ_eq_map, List.map_cons, List.map_map, pure_eq_ok,
      Nat.mul_comm a.array.offset]
    congr 3
    funext j
    show _ = leNat a.raw / 2 ^ (a.array.bits * (a.array.offset + (j + 1))) % 2 ^ a.array.bits
    rw [Nat.add_assoc, Nat.add_comm 1 j]

theorem fastFill_eq (hw : Fast.SlotWidth bits) (vs : List Nat) (hv : ∀ v ∈ vs, v < 2 ^ bits) :
    (fastFill bits vs : Go ε _) =
      .ok (leBytes (Fast.calcSize bits vs.length) (packBits bits vs)) := by
  have hempty : (⟨⟨bits, vs.length, 0, Fast.calcSize bits vs.length⟩,
      List.replicate (Fast.calcSize bits vs.length) 0⟩ : Fast.BitArrayWriter).Holds bits
      (Fast.calcSize bits vs.length) [] :=
    ⟨rfl, rfl, List.length_replicate, by simp [leNat_replicate_zero, packBits], by simp⟩
  obtain ⟨a, hpush, hholds⟩ := fastPushAll_spec (ε := ε) hempty hw vs hv
    (by rw [List.length_nil, Nat.zero_add]; exact calcSize_fits _ _)
  have hnew : (Fast.newBitArray bits vs.length : Go ε _) =
      .ok ⟨bits, vs.length, 0, Fast.calcSize bits vs.length⟩ := newFast_eq hw _
  have hwriter : (Fast.BitArray.writer ⟨bits, vs.length, 0, Fast.calcSize bits vs.length⟩
      (List.replicate (Fast.calcSize bits vs.length) 0) : Go ε _) =
      .ok ⟨⟨bits, vs.length, 0, Fast.calcSize bits vs.length⟩, _⟩ :=
    if_neg (not_not.mpr List.length_replicate)
  rw [fastFill, hnew, ok_bind, hwriter, ok_bind, hpush, ok_bind, pure_eq_ok, hholds.raw_eq,
    List.nil_append]

theorem fastUnpack_eq (hw : Fast.SlotWidth bits) (count : Nat) (raw : List UInt8)
    (hlen : raw.length = Fast.calcSize bits count) :
    (fastUnpack bits count raw : Go ε _) =
      .ok ((List.range count).map fun j => leNat raw / 2 ^ (bits * j) % 2 ^ bits) := by
  have hreader : (Fast.BitArray.reader ⟨bits, count, 0, Fast.calcSize bits count⟩ raw :
    Go ε _) =
      .ok ⟨⟨bits, count, 0, Fast.calcSize bits count⟩, raw⟩ := if_neg (not_not.mpr hlen)
  have hpop := fastPopAll_spec (ε := ε)
    ⟨⟨bits, count, 0, Fast.calcSize bits count⟩, raw⟩ hw count
    (by
      show bits * (0 + count) ≤ 8 * raw.length
      rw [hlen, Nat.zero_add]
      exact calcSize_fits _ _)
  rw [fastUnpack, newFast_eq hw, ok_bind, hreader, ok_bind, hpop]
  simp only [Nat.zero_add]

/-- A slot of 1, 2 or 4 bits ends in the byte in which it starts. -/
theorem lastFits_of_slotWidth (hw : Fast.SlotWidth bits) (vs : List Nat)
    (hv : ∀ v ∈ vs, v < 2 ^ bits) : LastFits bits vs := by
  intro v hlast
  have hslot := Fast.slot_in_byte hw (vs.length - 1)
  rw [Nat.mul_comm] at hslot
  exact Nat.lt_of_lt_of_le (hv v (List.mem_of_getLast? hlast))
    (Nat.pow_le_pow_right (by decide) (by omega))

/-- The fast array agrees with the general one: for slots of 1, 2 or 4 bits both
ask for the same size and fill it with the same bytes, and both readers get the list
back from them. -/
theorem fast_agrees (bits : Nat) (hw : bits = 1 ∨ bits = 2 ∨ bits = 4) (vs : List Nat)
    (hv : ∀ v ∈ vs, v < 2 ^ bits) :
    ∃ (fast : Fast.BitArray) (general : Bits.BitArray) (raw : List UInt8),
      (Fast.newBitArray bits vs.length : Go ε _) = .ok fast ∧
      (Bits.newBitArray bits vs.length : Go ε _) = .ok general ∧
      fast.size = general.size ∧ raw.length = fast.size ∧
      (fastFill bits vs : Go ε _) = .ok raw ∧ (fill bits vs : Go ε _) = .ok raw ∧
      (fastUnpack bits vs.length raw : Go ε _) = .ok vs ∧
      (unpack bits vs.length raw : Go ε _) = .ok vs := by
  have hbits : 0 < bits ∧ bits ≤ 7 := by omega
  have hlast := (packed_lt_iff vs hv).mpr (lastFits_of_slotWidth hw vs hv)
  have hfill := fill_eq (ε := ε) hbits.1 hbits.2 vs hv
  rw [Nat.mod_eq_of_lt hlast] at hfill
  have hspell : leNat (leBytes (Bits.calcSize bits vs.length) (packBits bits vs)) =
      packBits bits vs := by
    apply leNat_leBytes
    rw [← Bits.pow_eight_mul]
    exact Nat.lt_of_lt_of_le (packBits_lt bits vs hv)
      (Nat.pow_le_pow_right (by decide) (calcSize_fits _ _))
  have hlen : (leBytes (Bits.calcSize bits vs.length) (packBits bits vs)).length =
      Fast.calcSize bits vs.length := leBytes_length _ _
  refine ⟨_, _, leBytes (Bits.calcSize bits vs.length) (packBits bits vs), newFast_eq hw _,
    if_neg (by omega), rfl, hlen, fastFill_eq hw vs hv, hfill, ?_, ?_⟩
  · rw [fastUnpack_eq hw _ _ hlen, hspell, digits_packBits vs hv]
  · rw [unpack_eq hbits.2 _ _ hlen, hspell, digits_packBits vs hv]

/-- Five values of two bits in two bytes. -/
theorem fast_agrees_five :
    (∀ v ∈ [1, 0, 3, 2, 3], v < 2 ^ 2) ∧
      (fill 2 [1, 0, 3, 2, 3] : Go Empty _) = fastFill 2 [1, 0, 3, 2, 3] := by
  have hv : ∀ v ∈ [1, 0, 3, 2, 3], v < 2 ^ 2 := by decide
  obtain ⟨_, _, raw, -, -, -, -, hfast, hgeneral, -⟩ :=
    fast_agrees (ε := Empty) 2 (by decide) [1, 0, 3, 2, 3] hv
  exact ⟨hv, by rw [hfast, hgeneral]⟩

end Fast

end MiniOpera.BitArrays
