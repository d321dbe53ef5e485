import MiniOpera.InterEvent

/-!
# The wire format of an event

`wire e` says directly which bytes an event is spelled with: two bit headers
holding the version, the isRoot flag and the field lengths, the compact
fields, the parents without their epoch, the payload and the signature.

* `marshalBinary_eq_wire`: `MarshalBinary` returns exactly these bytes; the
  buffer it sizes in advance is never too small and no push overflows a slot;
* `marshalBinary_bigVersion`: from version 16 on it panics instead.
-/

namespace MiniOpera.EventWire
open GoRuntime LittleEndian Fast InterEvent

variable {ε : Type}

/-! ## The format -/

/-- Compact spellings of a list of numbers, at most `size` bytes each. -/
def compacts (size : Nat) (xs : List UInt64) : List (List UInt8) :=
  xs.map fun x => compact size x.toNat

/-- What the bit headers store of the spellings. -/
def slots (bss : List (List UInt8)) : List Nat := bss.map fun bs => bs.length - 1

def timeBytes (e : Event) : List (List UInt8) := compacts 8 e.fields64

def fieldBytes (e : Event) : List (List UInt8) := compacts 4 (e.fields32.map UInt32.toUInt64)

def rootSlot (e : Event) : Nat := if e.isRoot then 1 else 0

def header3 (e : Event) : List UInt8 :=
  leBytes 1 (packBits 4 (e.version.toNat :: slots (timeBytes e)))

def header2 (e : Event) : List UInt8 :=
  leBytes 2 (packBits 2 (slots (fieldBytes e) ++ [rootSlot e]))

def parentTails (ps : List EventID) : List (List UInt8) := ps.map fun p => p.data.drop 4

def body (e : Event) : List UInt8 :=
  (timeBytes e).flatten ++ (fieldBytes e).flatten ++ (parentTails e.parents).flatten ++
    e.payload ++ e.sig.data

def wire (e : Event) : List UInt8 := header3 e ++ header2 e ++ body e

/-! ## The writing loops -/

/-- The loop of `writeUintCompact` puts the compact spelling over what stood at
the cursor; it needs room for these bytes only. -/
theorem writeUintCompact_written (w old spare : List UInt8) (v : UInt64) (size : Nat)
    (h : (compact size v.toNat).length ≤ old.length) :
    (writeUintCompact (written w old spare) v size : Go ε _) =
      .ok (written (w ++ compact size v.toNat) (old.drop (compact size v.toNat).length) spare,
        (compact size v.toNat).length) := by
  induction size generalizing w old v with
  | zero => simp [writeUintCompact, compact]
  | succ size ih =>
    have hshift : (v >>> 8).toNat = v.toNat / 256 := by
      rw [UInt64.toNat_shiftRight]
      exact Nat.shiftRight_eq_div_pow _ _
    have hzero : v >>> 8 = 0 ↔ v.toNat / 256 = 0 := by
      rw [← hshift, ← UInt64.toNat_inj]
      rfl
    have hbyte : v.toUInt8 = UInt8.ofNat v.toNat := by
      apply UInt8.toNat_inj.mp
      rw [UInt64.toNat_toUInt8, UInt8.toNat_ofNat']
    cases old with
    | nil => simp [compact] at h
    | cons x old =>
      simp only [writeUintCompact, writeByte_written, ok_bind, compact, hbyte]
      by_cases hz : v.toNat / 256 = 0
      · simp [hz, hzero.mpr hz]
      · simp only [compact, if_neg hz, List.length_cons, Nat.add_le_add_iff_right] at h
        rw [← hshift] at h
        simp only [if_neg (mt hzero.mp hz), if_neg hz,
          ih (w ++ [UInt8.ofNat v.toNat]) old (v >>> 8) h,
          ok_bind, hshift, pure_eq_ok, List.length_cons, List.drop_succ_cons, List.append_assoc,
          List.singleton_append]

theorem writeUintCompact_filled (w : List UInt8) (v : UInt64) (size k : Nat) (h : size ≤ k) :
    (writeUintCompact (filled w k) v size : Go ε _) =
      .ok (filled (w ++ compact size v.toNat) (k - (compact size v.toNat).length),
        (compact size v.toNat).length) := by
  have hfit := Nat.le_trans (compact_length_le size v.toNat) h
  have hw := writeUintCompact_written (ε := ε) w (List.replicate k 0)
    [] v size (by simpa using hfit)
  simpa [written, filled] using hw

theorem compacts_length_le (size : Nat) (xs : List UInt64) :
    (compacts size xs).flatten.length ≤ xs.length * size := by
  induction xs with
  | nil => simp [compacts]
  | cons x xs ih =>
    have := compact_length_le size x.toNat
    simp only [compacts, List.map_cons, List.flatten_cons, List.length_append,
      List.length_cons, Nat.add_one_mul] at ih ⊢
    omega

/-- The loop over the fields of one width: each number is appended to the
buffer, its length minus one is pushed to the header. -/
theorem writeFields_filled (size : Nat) (xs : List UInt64) (w : List UInt8) (k : Nat)
    (a : BitArrayWriter) (bits n : Nat) (vs : List Nat) (ha : a.Holds bits n vs)
    (hw : SlotWidth bits) (hpos : 0 < size) (hsize : size ≤ 2 ^ bits)
    (hfit : (vs.length + xs.length) * bits ≤ 8 * n) (hk : xs.length * size ≤ k) :
    ∃ a', (writeFields size xs (filled w k) a : Go ε _) =
        .ok (filled (w ++ (compacts size xs).flatten)
          (k - (compacts size xs).flatten.length), a') ∧
      a'.Holds bits n (vs ++ slots (compacts size xs)) := by
  induction xs generalizing w k a vs with
  | nil => exact ⟨a, by simp [writeFields, compacts], by simpa [slots, compacts] using ha⟩
  | cons x xs ih =>
    have hle := compact_length_le size x.toNat
    have hlen := compact_length_pos size x.toNat hpos
    rw [List.length_cons] at hfit hk
    rw [Nat.add_one_mul] at hk
    have hslot : (compact size x.toNat).length - 1 < 2 ^ bits := by omega
    obtain ⟨a₁, hp, ha₁⟩ := ha.push (ε := ε) hw _ hslot
      (Nat.le_trans (Nat.mul_le_mul_right _ (by omega)) hfit)
    obtain ⟨a', hr, ha'⟩ := ih (w ++ compact size x.toNat) (k - (compact size x.toNat).length)
      a₁ (vs ++ [(compact size x.toNat).length - 1]) ha₁
        (by simp; rw [Nat.add_right_comm]; exact hfit)
      (by omega)
    have hcast : ((compact size x.toNat).length : Int) - 1 =
        (((compact size x.toNat).length - 1 : Nat) : Int) := by omega
    refine ⟨a', ?_, by simpa [slots, compacts] using ha'⟩
    simp only [writeFields, writeUintCompact_filled w x size k (by omega), ok_bind, hcast, hp, hr]
    simp [compacts, Nat.sub_sub]

theorem writeParents_filled (ps : List EventID) (w : List UInt8) (k : Nat)
    (hk : ps.length * 28 ≤ k) :
    (writeParents ps (filled w k) : Go ε _) =
      .ok (filled (w ++ (parentTails ps).flatten) (k - (parentTails ps).flatten.length)) := by
  induction ps generalizing w k with
  | nil => simp [writeParents, parentTails]
  | cons p ps ih =>
    have hp : (p.data.drop 4).length = 28 := by simp [p.size]
    rw [List.length_cons, Nat.add_one_mul] at hk
    simp only [writeParents, write_filled _ _ _ (show (p.data.drop 4).length ≤ k by omega),
      ok_bind,
      ih _ _ (show ps.length * 28 ≤ k - (p.data.drop 4).length by omega)]
    simp [parentTails, Nat.sub_sub]

theorem parentTails_length (ps : List EventID) :
    (parentTails ps).flatten.length = ps.length * 28 := by
  induction ps with
  | nil => rfl
  | cons p ps ih =>
    have hp : (p.data.drop 4).length = 28 := by simp [p.size]
    simp only [parentTails, List.map_cons, List.flatten_cons, List.length_append, hp] at ih ⊢
    simp only [ih, List.length_cons]
    omega

/-! ## `MarshalBinary` -/

theorem fresh_holds (bits count n : Nat) :
    BitArrayWriter.Holds ⟨⟨bits, count, 0, n⟩, List.replicate n 0⟩ bits n [] :=
  ⟨rfl, rfl, by simp, by simp [leNat_replicate_zero, packBits], by simp⟩

theorem replicate_sub {α : Type} (a : α) (m lo hi : Nat) (h : lo ≤ hi) (hm : hi ≤ m) :
    (Slice.sub ⟨List.replicate m a, []⟩ lo hi : Go ε _) =
      .ok ⟨List.replicate (hi - lo) a, List.replicate (m - hi) a⟩ := by
  simp [Slice.sub, Slice.backing, h, hm]
  omega

theorem newBitArray_header3 : (newBitArray 4 2 : Go ε _) = .ok ⟨4, 2, 0, 1⟩ := by
  simp [newBitArray, calcSize]

theorem newBitArray_header2 : (newBitArray 2 7 : Go ε _) = .ok ⟨2, 7, 0, 2⟩ := by
  simp [newBitArray, calcSize]

theorem timeBytes_length_le (e : Event) : (timeBytes e).flatten.length ≤ 8 :=
  compacts_length_le 8 e.fields64

theorem fieldBytes_length_le (e : Event) : (fieldBytes e).flatten.length ≤ 24 :=
  compacts_length_le 4 (e.fields32.map UInt32.toUInt64)

/-- Header 3 receives the version and the length of the time. -/
theorem write_header3 (e : Event) (hv : e.version.toNat < 16) (k : Nat) (hk : 8 ≤ k) :
    ∃ a₀ a₁, (BitArrayWriter.push ⟨⟨4, 2, 0, 1⟩, List.replicate 1 0⟩ e.version.toNat :
      Go ε _) =
        .ok a₀ ∧
      (writeFields 8 e.fields64 (filled [] k) a₀ : Go ε _) =
        .ok (filled (timeBytes e).flatten (k - (timeBytes e).flatten.length), a₁) ∧
      a₁.raw = header3 e := by
  have hw : SlotWidth 4 := Or.inr (Or.inr rfl)
  obtain ⟨a₀, hpush, ha₀⟩ := (fresh_holds 4 2 1).push
    (ε := ε) hw e.version.toNat hv (by decide)
  obtain ⟨a₁, hfields, ha₁⟩ := writeFields_filled (ε := ε) 8 e.fields64
    [] k a₀ 4 1 _ ha₀ hw
    (by decide) (by decide) (by simp [Event.fields64]) (by simpa [Event.fields64] using hk)
  exact ⟨a₀, a₁, hpush, hfields, ha₁.raw_eq⟩

/-- Header 2 receives the lengths of the 32-bit fields and the flag. -/
theorem write_header2 (e : Event) (w : List UInt8) (k : Nat) (hk : 24 ≤ k) :
    ∃ a₀ a₁, (writeFields 4 (e.fields32.map UInt32.toUInt64) (filled w k)
        ⟨⟨2, 7, 0, 2⟩, List.replicate 2 0⟩ : Go ε _) =
        .ok (filled (w ++ (fieldBytes e).flatten) (k - (fieldBytes e).flatten.length), a₀) ∧
      (writeBools e.fieldsBool a₀ : Go ε _) = .ok a₁ ∧ a₁.raw = header2 e := by
  have hw : SlotWidth 2 := Or.inr (Or.inl rfl)
  obtain ⟨a₀, hfields, ha₀⟩ := writeFields_filled (ε := ε) 4
    (e.fields32.map UInt32.toUInt64) w k
    ⟨⟨2, 7, 0, 2⟩, List.replicate 2 0⟩ 2 2 [] (fresh_holds 2 7 2) hw
    (by decide) (by decide) (by simp [Event.fields32]) (by simpa [Event.fields32] using hk)
  obtain ⟨a₁, hroot, ha₁⟩ := ha₀.push (ε := ε) hw (rootSlot e)
    (by unfold rootSlot; split <;> decide) (by simp [slots, compacts, Event.fields32])
  refine ⟨a₀, a₁, hfields, ?_, ha₁.raw_eq⟩
  have hcast : (if e.isRoot = true then (1 : Int) else 0) = (rootSlot e : Int) := by
    unfold rootSlot; split <;> rfl
  simp only [writeBools, Event.fieldsBool, hcast, hroot, ok_bind]

/-- The room `MarshalBinary` reserves behind the two headers. -/
def bodyRoom (e : Event) : Nat :=
  8 + 24 + e.parents.length * 28 + sigSize + e.payload.length

/-- `MarshalBinary` after its allocations. -/
def writeAll (e : Event) : Go ε (List UInt8) := do
  let header3w ← BitArrayWriter.push ⟨⟨4, 2, 0, 1⟩, List.replicate 1 0⟩ e.version.toNat
  let (buf, header3w) ← writeFields 8 e.fields64 (filled [] (bodyRoom e)) header3w
  let (buf, header2w) ← writeFields 4 (e.fields32.map UInt32.toUInt64) buf
    ⟨⟨2, 7, 0, 2⟩, List.replicate 2 0⟩
  let header2w ← writeBools e.fieldsBool header2w
  let buf ← writeParents e.parents buf
  let buf ← buf.write e.payload
  let buf ← buf.write e.sig.data
  return (header3w.raw ++ header2w.raw ++ buf.buf.data).take (3 + buf.offset)

theorem marshalBinary_eq_writeAll (e : Event) : (e.marshalBinary : Go ε _) = writeAll e := by
  have hmax : 3 + 1 * 8 + 6 * 4 + e.parents.length * (32 - 4) + sigSize + e.payload.length =
      3 + bodyRoom e := by unfold bodyRoom; omega
  have htail : (Slice.tailFrom ⟨List.replicate (3 + bodyRoom e) (0 : UInt8), []⟩ 3 : Go ε _) =
      .ok ⟨List.replicate (bodyRoom e) 0, []⟩ := by
    simp [Slice.tailFrom, Slice.len]
  have hbuf : newBuffer ⟨List.replicate (bodyRoom e) 0, []⟩ = filled [] (bodyRoom e) := rfl
  have hsub3 := replicate_sub (ε := ε) (0 : UInt8) (3 + bodyRoom e) 0 1 (by omega) (by omega)
  have hsub2 := replicate_sub (ε := ε) (0 : UInt8) (3 + bodyRoom e) 1 3 (by omega) (by omega)
  unfold Event.marshalBinary
  rw [show e.fields64.length = 1 from rfl, show e.fields32.length = 6 from rfl,
    show e.fieldsBool.length = 1 from rfl, show 1 + 1 = 2 from rfl, show 6 + 1 = 7 from rfl,
    newBitArray_header3, newBitArray_header2, ok_bind, ok_bind]
  simp only [show 1 + 2 = 3 from rfl]
  rw [hmax]
  simp only [hsub3, hsub2, htail, hbuf, BitArray.writer, ok_bind, List.length_replicate, ne_eq,
    not_true_eq_false, if_false, Nat.sub_zero, writeAll]

theorem marshalBinary_eq_wire (e : Event) (hv : e.version.toNat < 16) :
    (e.marshalBinary : Go ε _) = .ok (wire e) := by
  have ht := timeBytes_length_le e
  have hf := fieldBytes_length_le e
  have hp := parentTails_length e.parents
  have hs := e.sig.size
  obtain ⟨room, hroom⟩ : ∃ room, room = bodyRoom e := ⟨_, rfl⟩
  have hroom' := hroom
  unfold bodyRoom at hroom'
  obtain ⟨a₀, a₁, hversion, h64, hraw3⟩ := write_header3 (ε := ε) e hv room (by omega)
  obtain ⟨a₂, a₃, h32, hroot, hraw2⟩ := write_header2 (ε := ε) e (timeBytes e).flatten
    (room - (timeBytes e).flatten.length) (by omega)
  have hpar := writeParents_filled (ε := ε) e.parents
    ((timeBytes e).flatten ++ (fieldBytes e).flatten)
    (room - (timeBytes e).flatten.length - (fieldBytes e).flatten.length) (by omega)
  have hpay := write_filled (ε := ε)
    ((timeBytes e).flatten ++ (fieldBytes e).flatten ++ (parentTails e.parents).flatten) e.payload
    (room - (timeBytes e).flatten.length - (fieldBytes e).flatten.length -
      (parentTails e.parents).flatten.length) (by omega)
  have hsig := write_filled (ε := ε)
    ((timeBytes e).flatten ++ (fieldBytes e).flatten ++
      (parentTails e.parents).flatten ++ e.payload)
    e.sig.data
    (room - (timeBytes e).flatten.length - (fieldBytes e).flatten.length -
      (parentTails e.parents).flatten.length - e.payload.length) (by omega)
  rw [marshalBinary_eq_writeAll]
  simp only [writeAll, ← hroom, hversion, h64, h32, hroot, hpar, hpay, hsig, ok_bind, pure_eq_ok,
    hraw3, hraw2]
  have hh3 : (header3 e).length = 1 := by simp [header3]
  have hh2 : (header2 e).length = 2 := by simp [header2]
  simp only [filled]
  rw [← List.append_assoc, List.take_left' (by simp [hh3, hh2]; omega)]
  rfl

/-- A version that does not fit the first slot of header 3. -/
theorem marshalBinary_bigVersion (e : Event) (hv : 16 ≤ e.version.toNat) :
    (e.marshalBinary : Go ε _) = .error (.panic (.message "too big number")) := by
  have hneg : ¬ ((e.version.toNat : Int) < 0) := by omega
  have hbig : (e.version.toNat : Int) ≥ 2 ^ 4 := by omega
  rw [marshalBinary_eq_writeAll]
  simp only [writeAll, BitArrayWriter.push, hneg, hbig, if_false, if_true, error_bind]

theorem marshalBinary_ok {e : Event} {b : List UInt8} (h : (e.marshalBinary : Go ε _) = .ok b) :
    e.version.toNat < 16 ∧ b = wire e := by
  by_cases hv : e.version.toNat < 16
  · rw [marshalBinary_eq_wire e hv] at h
    cases h
    exact ⟨hv, rfl⟩
  · rw [marshalBinary_bigVersion e (by omega)] at h
    cases h

end MiniOpera.EventWire
