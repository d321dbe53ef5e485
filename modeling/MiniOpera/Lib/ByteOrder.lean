import Mathlib.Data.List.Sort
import MiniOpera.Lib.GoRuntime
import MiniOpera.Lib.LittleEndian

/-! The order of byte strings: lexicographic, so on strings of one length it is
the order of the big-endian numbers they write. Byte arrays inherit it, with
the laws that ordered tables need. -/

namespace MiniOpera.ByteOrder
open GoRuntime LittleEndian

instance (n : Nat) : Ord (Bytes n) := ⟨fun a b => compare a.data b.data⟩

instance (n : Nat) : Std.TransOrd (Bytes n) :=
  inferInstanceAs (Std.TransCmp (compareOn Bytes.data))

instance (n : Nat) : Std.LawfulEqOrd (Bytes n) where
  eq_of_compare h := Bytes.ext_data (Std.LawfulEqOrd.eq_of_compare h)

theorem compare_cons (x y : UInt8) (xs ys : List UInt8) :
    compare (x :: xs) (y :: ys) = (compare x y).then (compare xs ys) := by
  rw [List.compare_eq_compareLex, List.compareLex_cons_cons]

theorem compare_byte (x y : UInt8) : compare x y = compare x.toNat y.toNat := by
  show compareOfLessAndEq x y = compareOfLessAndEq x.toNat y.toNat
  simp only [compareOfLessAndEq, UInt8.lt_iff_toNat_lt, UInt8.toNat_inj]

/-- Heads of one length decide before the tails do. -/
theorem compare_append {xs ys : List UInt8} (h : xs.length = ys.length) (us vs : List UInt8) :
    compare (xs ++ us) (ys ++ vs) = (compare xs ys).then (compare us vs) := by
  induction xs generalizing ys with
  | nil =>
    cases ys with
    | nil => rfl
    | cons _ _ => cases h
  | cons x xs ih =>
    cases ys with
    | nil => cases h
    | cons y ys =>
      rw [List.cons_append, List.cons_append, compare_cons, compare_cons,
        ih (Nat.succ.inj h), Ordering.then_assoc]

/-- The empty string comes first. -/
theorem compare_nil_ne_gt (bs : List UInt8) : compare [] bs ≠ .gt := by
  cases bs <;> (intro h; cases h)

/-- A string is at most another one if it is at most the head of its length. -/
theorem compare_head_ne_gt {xs ys : List UInt8} (h : xs.length = ys.length) (rest : List UInt8) :
    compare xs (ys ++ rest) ≠ .gt ↔ compare xs ys ≠ .gt := by
  have hsplit := compare_append h [] rest
  rw [List.append_nil] at hsplit
  rw [hsplit]
  cases compare xs ys with
  | lt => rfl
  | eq => simp [compare_nil_ne_gt]
  | gt => rfl

theorem leNat_reverse_cons (x : UInt8) (xs : List UInt8) :
    leNat (x :: xs).reverse = x.toNat * 256 ^ xs.length + leNat xs.reverse := by
  rw [List.reverse_cons, leNat_append]
  simp [leNat, Nat.mul_comm, Nat.add_comm]

/-- Big-endian numbers of one width compare as their bytes do. -/
theorem compare_bigEndian (xs ys : List UInt8) (h : xs.length = ys.length) :
    compare xs ys = compare (leNat xs.reverse) (leNat ys.reverse) := by
  induction xs generalizing ys with
  | nil =>
    cases ys with
    | nil => rfl
    | cons _ _ => cases h
  | cons x xs ih =>
    cases ys with
    | nil => cases h
    | cons y ys =>
      have hlen : xs.length = ys.length := Nat.succ.inj h
      have hx := leNat_lt xs.reverse
      have hy := leNat_lt ys.reverse
      rw [List.length_reverse] at hx hy
      rw [← hlen] at hy
      rw [compare_cons, ih _ hlen, leNat_reverse_cons, leNat_reverse_cons, ← hlen, compare_byte]
      generalize leNat xs.reverse = u at hx ⊢
      generalize leNat ys.reverse = v at hy ⊢
      generalize 256 ^ xs.length = m at hx hy ⊢
      rcases Nat.lt_trichotomy x.toNat y.toNat with hlt | heq | hgt
      · -- a smaller leading digit outweighs every remainder
        have hmul : (x.toNat + 1) * m ≤ y.toNat * m := Nat.mul_le_mul_right m hlt
        have hbig : x.toNat * m + u < y.toNat * m + v := by rw [Nat.succ_mul] at hmul; omega
        rw [Nat.compare_eq_lt.mpr hlt, Nat.compare_eq_lt.mpr hbig]
        rfl
      · rw [heq, Nat.compare_eq_eq.mpr rfl]
        simp only [Ordering.eq_then, Nat.compare_eq_ite_lt, Nat.add_lt_add_iff_left]
      · have hmul : (y.toNat + 1) * m ≤ x.toNat * m := Nat.mul_le_mul_right m hgt
        have hbig : y.toNat * m + v < x.toNat * m + u := by rw [Nat.succ_mul] at hmul; omega
        rw [Nat.compare_eq_gt.mpr hgt, Nat.compare_eq_gt.mpr hbig]
        rfl

end MiniOpera.ByteOrder
