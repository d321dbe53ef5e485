import MiniOpera.EventCodec

/-!
# Compact integers

`writeUintCompact` and `readUintCompact` are the two directions of `spellings`,
the bijection between numbers and their shortest spellings: whatever the buffer
held before and wherever its cursor stands, the bytes written are the spelling
of the number, and the bytes read are refused unless they are the spelling of
some number, which is then returned.
-/

namespace MiniOpera.CompactIntegers
open GoRuntime LittleEndian Fast InterEvent EventWire EventDecode EventCodec

/-- `writeUintCompact` writes `bs` for `v`: on every buffer with room for them it
puts these bytes at the cursor, changes no other byte and returns their number. -/
def Writes (v : UInt64) (size : Nat) (bs : List UInt8) : Prop :=
  ∀ (ε : Type) (w old spare : List UInt8), bs.length ≤ old.length →
    (writeUintCompact (written w old spare) v size : Go ε _) =
      .ok (written (w ++ bs) (old.drop bs.length) spare, bs.length)

theorem writes_spelling (size : Nat) (h : 0 < size) (v : UInt64) (hv : v.toNat < 256 ^ size) :
    Writes v size (spellings size h ⟨v.toNat, hv⟩).bytes := by
  intro ε w old spare hroom
  rw [spellings_bytes] at hroom ⊢
  exact writeUintCompact_written w old spare v size hroom

/-- Reading a spelling returns its number, modulo 2^64. -/
theorem readUintCompact_spelling {size : Nat} (h : 0 < size) (s : Spelling size) {b : Buffer}
    {rest : List UInt8} (hat : At b (s.bytes ++ rest)) :
    readUintCompact b s.bytes.length =
      .ok (UInt64.ofNat ((spellings size h).symm s), ⟨b.buf, b.offset + s.bytes.length⟩) := by
  rw [readUintCompact_at hat s.minimal, valueOf, spellings_symm_val]

/-- What is accepted is a spelling, and writing its number spells it again. -/
theorem writes_accepted {b b' : Buffer} {bs rest : List UInt8} {v : UInt64}
    (hat : At b (bs ++ rest)) (h0 : bs ≠ []) (h8 : bs.length ≤ 8)
    (h : readUintCompact b bs.length = .ok (v, b')) : Writes v 8 bs := by
  rw [readUintCompact_eq hat] at h
  split at h
  · next hm =>
    cases h
    let s : Spelling 8 := ⟨bs, h0, hm, h8⟩
    have hval : (valueOf bs).toNat = ((spellings 8 (by decide)).symm s).val := valueOf_toNat bs h8
    have hs := writes_spelling 8 (by decide) (valueOf bs) (hval ▸ Fin.isLt _)
    simp only [hval, Fin.eta, Equiv.apply_symm_apply] at hs
    exact hs
  · cases h

theorem readUintCompact_refused_iff {b : Buffer} {bs rest : List UInt8} (hat : At b (bs ++ rest)) :
    readUintCompact b bs.length = .error (.error .nonCanonicalEncoding) ↔
      1 < bs.length ∧ bs.getLast? = some 0 := by
  rw [← not_minimal_iff, readUintCompact_eq hat]
  split <;> simp [*]

/-- Reading bytes that are there has no other failure. -/
theorem readUintCompact_failure {b : Buffer} {bs rest : List UInt8} {f : Fault DecodeError}
    (hat : At b (bs ++ rest)) (h : readUintCompact b bs.length = .error f) :
    f = .error .nonCanonicalEncoding := by
  rw [readUintCompact_eq hat] at h
  split at h
  · cases h
  · cases h
    rfl

/-- Compact integers are a bijection. A number below `2 ^ (8 * size)` is written
with one to `size` bytes, from which it is read back in any buffer. One to eight
bytes that are accepted are those their number is written with; they are refused
exactly if a last byte of zero could have been left out. -/
theorem compact_integers_bijective :
    (∀ (size : Nat) (v : UInt64), 1 ≤ size → size ≤ 8 → v.toNat < 2 ^ (8 * size) →
      ∃ bs : List UInt8, 1 ≤ bs.length ∧ bs.length ≤ size ∧ Writes v size bs ∧
        ∀ (b : Buffer) (rest : List UInt8), At b (bs ++ rest) →
          readUintCompact b bs.length = .ok (v, ⟨b.buf, b.offset + bs.length⟩)) ∧
    (∀ (bs : List UInt8), 1 ≤ bs.length → bs.length ≤ 8 →
      ∀ (b : Buffer) (rest : List UInt8), At b (bs ++ rest) →
        (∀ v b', readUintCompact b bs.length = .ok (v, b') → Writes v 8 bs) ∧
        (readUintCompact b bs.length = .error (.error .nonCanonicalEncoding) ↔
          1 < bs.length ∧ bs.getLast? = some 0) ∧
        (∀ f, readUintCompact b bs.length = .error f → f = .error .nonCanonicalEncoding)) := by
  refine ⟨?_, ?_⟩
  · intro size v h1 _ hv
    rw [Nat.pow_mul] at hv
    let s := spellings size h1 ⟨v.toNat, hv⟩
    refine ⟨s.bytes, List.length_pos_iff.mpr s.nonempty, s.fits,
      writes_spelling size h1 v hv, ?_⟩
    intro b rest hat
    have hread := readUintCompact_spelling h1 s hat
    rw [Equiv.symm_apply_apply, UInt64.ofNat_toNat] at hread
    exact hread
  · intro bs h1 h8 b rest hat
    refine ⟨?_, readUintCompact_refused_iff hat, ?_⟩
    · intro v b' h
      exact writes_accepted hat (List.length_pos_iff.mp h1) h8 h
    · intro f h
      exact readUintCompact_failure hat h

/-- 65536 takes the three bytes it is allowed, and a zero behind a one is refused. -/
theorem compact_integers_bijective_three :
    (∃ bs : List UInt8, 1 ≤ bs.length ∧ bs.length ≤ 3 ∧ Writes 65536 3 bs) ∧
    Writes 65536 8 [0, 0, 1] ∧
    readUintCompact (newBuffer ⟨[1, 0], []⟩) 2 = .error (.error .nonCanonicalEncoding) := by
  refine ⟨?_, ?_, ?_⟩
  · obtain ⟨bs, h1, h3, hw, _⟩ :=
      compact_integers_bijective.1 3 65536 (by decide) (by decide) (by decide)
    exact ⟨bs, h1, h3, hw⟩
  · have hat := newBuffer_at [0, 0, 1] []
    exact (compact_integers_bijective.2 [0, 0, 1] (by decide) (by decide) _ [] hat).1 65536
      ⟨⟨[0, 0, 1], []⟩, 3⟩ (by decide +kernel)
  · have hat := newBuffer_at [1, 0] []
    exact (compact_integers_bijective.2 [1, 0] (by decide) (by decide) _ [] hat).2.1.mpr
      ⟨by decide, by decide⟩

end MiniOpera.CompactIntegers
