import Mathlib.Algebra.Ring.Int.Defs
import Mathlib.Algebra.Ring.Nat
import Mathlib.Logic.Equiv.Defs

/-! Little-endian numbers: the value of a byte string, the byte string of a
given length with a given value, and numbers packed `bits` at a time. Packing
with `bits` dividing eight and reading bytes are two views of one number, which
is how bit headers are reasoned about. -/

namespace MiniOpera.LittleEndian

/-- The number a byte string spells, least significant byte first. -/
def leNat : List UInt8 → Nat
  | [] => 0
  | b :: bs => b.toNat + 256 * leNat bs

/-- The `n` low bytes of a number, least significant first. -/
def leBytes : Nat → Nat → List UInt8
  | 0, _ => []
  | n + 1, v => UInt8.ofNat v :: leBytes n (v / 256)

/-- Numbers packed `bits` bits apart, the first one lowest. -/
def packBits (bits : Nat) : List Nat → Nat
  | [] => 0
  | v :: vs => v + 2 ^ bits * packBits bits vs

@[simp] theorem leBytes_length (n v : Nat) : (leBytes n v).length = n := by
  induction n generalizing v with
  | zero => rfl
  | succ n ih => simp [leBytes, ih]

theorem leNat_lt (bs : List UInt8) : leNat bs < 256 ^ bs.length := by
  induction bs with
  | nil => simp [leNat]
  | cons b bs ih =>
    have hb := b.toNat_lt
    simp only [leNat, List.length_cons, Nat.pow_succ]
    omega

theorem leNat_append (as bs : List UInt8) :
    leNat (as ++ bs) = leNat as + 256 ^ as.length * leNat bs := by
  induction as with
  | nil => simp [leNat]
  | cons a as ih =>
    simp only [List.cons_append, leNat, ih, List.length_cons, Nat.pow_succ, Nat.mul_add]
    have : 256 * (256 ^ as.length * leNat bs) = 256 ^ as.length * 256 * leNat bs := by
      rw [Nat.mul_comm (256 ^ as.length) 256, Nat.mul_assoc]
    omega

theorem leBytes_leNat (bs : List UInt8) : leBytes bs.length (leNat bs) = bs := by
  induction bs with
  | nil => rfl
  | cons b bs ih =>
    have hb := b.toNat_lt
    have hd : (b.toNat + 256 * leNat bs) / 256 = leNat bs := by omega
    have hm : UInt8.ofNat (b.toNat + 256 * leNat bs) = b := by
      apply UInt8.toNat_inj.mp
      rw [UInt8.toNat_ofNat']
      omega
    simp only [List.length_cons, leNat, leBytes, hd, hm, ih]

theorem leNat_leBytes (n v : Nat) (h : v < 256 ^ n) : leNat (leBytes n v) = v := by
  induction n generalizing v with
  | zero => simp only [Nat.pow_zero] at h; simp only [leBytes, leNat]; omega
  | succ n ih =>
    have hd : v / 256 < 256 ^ n := by
      apply Nat.div_lt_of_lt_mul
      rw [Nat.mul_comm, ← Nat.pow_succ]
      exact h
    simp only [leBytes, leNat, ih _ hd, UInt8.toNat_ofNat']
    omega

theorem leNat_replicate_zero (n : Nat) : leNat (List.replicate n 0) = 0 := by
  induction n with
  | zero => rfl
  | succ n ih => simp [List.replicate_succ, leNat, ih]

/-- The byte at index `q` is the `q`-th base-256 digit. -/
theorem getElem_eq_digit (bs : List UInt8) (q : Nat) (h : q < bs.length) :
    (bs[q]).toNat = leNat bs / 256 ^ q % 256 := by
  induction bs generalizing q with
  | nil => simp at h
  | cons b bs ih =>
    have hb := b.toNat_lt
    cases q with
    | zero => simp only [List.getElem_cons_zero, leNat, Nat.pow_zero, Nat.div_one]; omega
    | succ q =>
      have hd : (b.toNat + 256 * leNat bs) / 256 = leNat bs := by omega
      rw [List.getElem_cons_succ, ih q (by simpa using h), leNat, Nat.pow_succ,
        Nat.mul_comm (256 ^ q), ← Nat.div_div_eq_div_mul, hd]

/-- Writing one byte moves the value by the weighted difference. -/
theorem leNat_set (bs : List UInt8) (q : Nat) (h : q < bs.length) (c : UInt8) :
    leNat (bs.set q c) + (bs[q]).toNat * 256 ^ q = leNat bs + c.toNat * 256 ^ q := by
  induction bs generalizing q with
  | nil => simp at h
  | cons b bs ih =>
    cases q with
    | zero => simp only [List.set_cons_zero, leNat, List.getElem_cons_zero]; omega
    | succ q =>
      have hq := ih q (by simpa using h)
      simp only [List.set_cons_succ, leNat, List.getElem_cons_succ, Nat.pow_succ]
      rw [← Nat.mul_assoc, ← Nat.mul_assoc]
      omega

/-! ## Packed numbers -/

theorem packBits_lt (bits : Nat) (vs : List Nat) (h : ∀ v ∈ vs, v < 2 ^ bits) :
    packBits bits vs < 2 ^ (bits * vs.length) := by
  induction vs with
  | nil => simp [packBits]
  | cons v vs ih =>
    have hv := h v (by simp)
    have hs := ih (fun w hw => h w (by simp [hw]))
    simp only [packBits, List.length_cons, Nat.mul_succ, Nat.pow_add]
    have hm : 2 ^ bits * (packBits bits vs + 1) ≤ 2 ^ bits * 2 ^ (bits * vs.length) :=
      Nat.mul_le_mul_left _ hs
    rw [Nat.mul_comm (2 ^ (bits * vs.length))]
    rw [Nat.mul_add] at hm
    omega

theorem packBits_append (bits : Nat) (us vs : List Nat) :
    packBits bits (us ++ vs) = packBits bits us + 2 ^ (bits * us.length) * packBits bits vs := by
  induction us with
  | nil => simp [packBits]
  | cons u us ih =>
    simp only [List.cons_append, packBits, ih, List.length_cons, Nat.mul_succ, Nat.mul_add,
      Nat.pow_add, Nat.add_assoc]
    rw [Nat.mul_comm (2 ^ (bits * us.length)) (2 ^ bits), Nat.mul_assoc]

/-- Unpacking returns the packed numbers. -/
theorem packBits_digit (bits : Nat) (us : List Nat) (v : Nat) (vs : List Nat)
    (hu : ∀ u ∈ us, u < 2 ^ bits) (hv : v < 2 ^ bits) :
    packBits bits (us ++ v :: vs) / 2 ^ (bits * us.length) % 2 ^ bits = v := by
  rw [packBits_append, Nat.add_mul_div_left _ _ (Nat.two_pow_pos _),
    Nat.div_eq_of_lt (packBits_lt bits us hu), packBits, Nat.zero_add,
    Nat.add_mul_mod_self_left, Nat.mod_eq_of_lt hv]

theorem packBits_digit_getElem (bits : Nat) (vs ws : List Nat) (hv : ∀ v ∈ vs, v < 2 ^ bits)
    (i : Nat) (h : i < vs.length) :
    packBits bits (vs ++ ws) / 2 ^ (bits * i) % 2 ^ bits = vs[i] := by
  have hsplit : vs ++ ws = vs.take i ++ vs[i] :: (vs.drop (i + 1) ++ ws) := by
    rw [← List.cons_append, List.getElem_cons_drop h, ← List.append_assoc,
      List.take_append_drop]
  have hlen : (vs.take i).length = i := by rw [List.length_take]; omega
  have hd := packBits_digit bits (vs.take i) vs[i] (vs.drop (i + 1) ++ ws)
    (fun u hu => hv u (List.mem_of_mem_take hu)) (hv _ (List.getElem_mem h))
  rw [hlen, ← hsplit] at hd
  exact hd

/-- The digits of a number, packed again, give the number below `2 ^ (bits * n)`. -/
theorem packBits_digits (bits n N : Nat) :
    packBits bits ((List.range n).map fun i => N / 2 ^ (bits * i) % 2 ^ bits) =
      N % 2 ^ (bits * n) := by
  induction n with
  | zero => simp [packBits, Nat.mod_one]
  | succ n ih =>
    rw [List.range_succ, List.map_append, packBits_append, ih]
    simp only [List.map_cons, List.map_nil, packBits, List.length_map, List.length_range,
      Nat.mul_zero, Nat.add_zero]
    rw [Nat.mul_succ, Nat.pow_add, Nat.mod_mul]

/-- Lists of one length that are packed into one number are the same. -/
theorem packBits_inj {bits : Nat} {us vs : List Nat} (hlen : us.length = vs.length)
    (hu : ∀ u ∈ us, u < 2 ^ bits) (hv : ∀ v ∈ vs, v < 2 ^ bits)
    (h : packBits bits us = packBits bits vs) : us = vs := by
  induction us generalizing vs with
  | nil => exact (List.length_eq_zero_iff.mp hlen.symm).symm
  | cons u us ih =>
    cases vs with
    | nil => cases hlen
    | cons v vs =>
      have hu0 := hu u List.mem_cons_self
      have hv0 := hv v List.mem_cons_self
      simp only [packBits] at h
      have hmod := congrArg (· % 2 ^ bits) h
      simp only [Nat.add_mul_mod_self_left, Nat.mod_eq_of_lt hu0, Nat.mod_eq_of_lt hv0] at hmod
      rw [hmod] at h
      have hrest := Nat.eq_of_mul_eq_mul_left (Nat.two_pow_pos bits) (Nat.add_left_cancel h)
      rw [hmod, ih (Nat.succ.inj hlen) (fun w hw => hu w (List.mem_cons_of_mem _ hw))
        (fun w hw => hv w (List.mem_cons_of_mem _ hw)) hrest]

/-! ## Minimal spellings -/

/-- The shortest spelling of a number in at most `size` bytes; zero takes one. -/
def compact : Nat → Nat → List UInt8
  | 0, _ => []
  | size + 1, v => UInt8.ofNat v :: if v / 256 = 0 then [] else compact size (v / 256)

/-- No redundant top byte. -/
def Minimal (bs : List UInt8) : Prop := bs.length > 1 → bs.getLast?.getD 0 ≠ 0

instance (bs : List UInt8) : Decidable (Minimal bs) := inferInstanceAs (Decidable (_ → _))

theorem compact_length_le (size v : Nat) : (compact size v).length ≤ size := by
  induction size generalizing v with
  | zero => simp [compact]
  | succ size ih =>
    have := ih (v / 256)
    rw [compact, List.length_cons]
    split
    · exact Nat.le_add_left 1 size
    · omega

theorem compact_ne_nil (size v : Nat) (h : 0 < size) : compact size v ≠ [] := by
  cases size with
  | zero => omega
  | succ size => simp [compact]

theorem compact_length_pos (size v : Nat) (h : 0 < size) : 0 < (compact size v).length :=
  List.length_pos_iff.mpr (compact_ne_nil size v h)

theorem leNat_compact (size v : Nat) (h : v < 256 ^ size) : leNat (compact size v) = v := by
  induction size generalizing v with
  | zero => simp only [Nat.pow_zero] at h; simp only [compact, leNat]; omega
  | succ size ih =>
    have hd : v / 256 < 256 ^ size := by
      apply Nat.div_lt_of_lt_mul
      rw [Nat.mul_comm, ← Nat.pow_succ]
      exact h
    simp only [compact, leNat, UInt8.toNat_ofNat']
    split
    · simp only [leNat]; omega
    · rw [ih _ hd]; omega

theorem compact_minimal (size v : Nat) (h : v < 256 ^ size) : Minimal (compact size v) := by
  induction size generalizing v with
  | zero => simp [compact, Minimal]
  | succ size ih =>
    have hd : v / 256 < 256 ^ size := by
      apply Nat.div_lt_of_lt_mul
      rw [Nat.mul_comm, ← Nat.pow_succ]
      exact h
    intro hlen
    simp only [compact] at hlen ⊢
    split
    · next h0 => simp [h0] at hlen
    · next h0 =>
      have hne : compact size (v / 256) ≠ [] := by
        cases size with
        | zero => simp only [Nat.pow_zero] at hd; omega
        | succ size => exact compact_ne_nil _ _ (by omega)
      rw [List.getLast?_cons_of_ne_nil hne]
      by_cases h1 : (compact size (v / 256)).length > 1
      · exact ih _ hd h1
      · -- a single byte spells `v / 256`, which is not zero
        obtain ⟨b, hb⟩ := List.length_eq_one_iff.mp
          (show (compact size (v / 256)).length = 1 by
            have := List.length_pos_iff.mpr hne; omega)
        have hv := leNat_compact size (v / 256) hd
        rw [hb] at hv ⊢
        simp only [leNat] at hv
        intro hz
        simp only [List.getLast?_singleton, Option.getD_some] at hz
        simp only [hz] at hv
        exact h0 (by simpa using hv.symm)

theorem leNat_pos_of_minimal (b c : UInt8) (bs : List UInt8) (h : Minimal (b :: c :: bs)) :
    0 < leNat (c :: bs) := by
  induction bs generalizing b c with
  | nil =>
    have hc : c ≠ 0 := by simpa [Minimal] using h
    have : c.toNat ≠ 0 := fun h0 => hc (UInt8.toNat_inj.mp h0)
    simp only [leNat]
    omega
  | cons d bs ih =>
    have := ih c d (by intro _; simpa [Minimal] using h)
    simp only [leNat] at this ⊢
    omega

/-- A minimal spelling is the compact one of its value. -/
theorem compact_leNat (size : Nat) (bs : List UInt8) (h0 : bs ≠ []) (hm : Minimal bs)
    (hs : bs.length ≤ size) : compact size (leNat bs) = bs := by
  induction size generalizing bs with
  | zero => exact absurd (List.length_eq_zero_iff.mp (by omega)) h0
  | succ size ih =>
    cases bs with
    | nil => exact absurd rfl h0
    | cons b bs =>
      have hb := b.toNat_lt
      have hd : (b.toNat + 256 * leNat bs) / 256 = leNat bs := by omega
      have hh : UInt8.ofNat (b.toNat + 256 * leNat bs) = b := by
        apply UInt8.toNat_inj.mp
        rw [UInt8.toNat_ofNat']
        omega
      simp only [leNat, compact, hd, hh]
      cases bs with
      | nil => simp [leNat]
      | cons c bs =>
        have hp := leNat_pos_of_minimal b c bs hm
        rw [if_neg (by omega), ih (c :: bs) (by simp) ?_ (by simpa using hs)]
        intro hl
        simpa [Minimal] using hm

theorem not_minimal_iff (bs : List UInt8) :
    ¬ Minimal bs ↔ 1 < bs.length ∧ bs.getLast? = some 0 := by
  cases h : bs.getLast? with
  | none => simp [Minimal, List.getLast?_eq_none_iff.mp h]
  | some b => simp [Minimal, h]

/-- The byte strings that spell a number compactly in at most `size` bytes. -/
@[ext] structure Spelling (size : Nat) where
  bytes : List UInt8
  nonempty : bytes ≠ []
  minimal : Minimal bytes
  fits : bytes.length ≤ size

theorem Spelling.leNat_lt {size : Nat} (s : Spelling size) : leNat s.bytes < 256 ^ size :=
  Nat.lt_of_lt_of_le (LittleEndian.leNat_lt s.bytes) (Nat.pow_le_pow_right (by decide) s.fits)

/-- Every number below `256 ^ size` has exactly one of them. -/
def spellings (size : Nat) (h : 0 < size) : Fin (256 ^ size) ≃ Spelling size where
  toFun v := ⟨compact size v, compact_ne_nil size v h, compact_minimal size v v.isLt,
    compact_length_le size v⟩
  invFun s := ⟨leNat s.bytes, s.leNat_lt⟩
  left_inv v := Fin.ext (leNat_compact size v v.isLt)
  right_inv s := Spelling.ext (compact_leNat size s.bytes s.nonempty s.minimal s.fits)

@[simp] theorem spellings_bytes (size : Nat) (h : 0 < size) (v : Fin (256 ^ size)) :
    (spellings size h v).bytes = compact size v := rfl

@[simp] theorem spellings_symm_val (size : Nat) (h : 0 < size) (s : Spelling size) :
    ((spellings size h).symm s).val = leNat s.bytes := rfl

end MiniOpera.LittleEndian
