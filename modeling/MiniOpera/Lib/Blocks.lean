import Mathlib.Algebra.BigOperators.Fin
import Mathlib.Algebra.Order.BigOperators.Group.Finset

/-! Indexes that are split into blocks of one size: `blocks c B f` reads `k` in
block `k / B` at place `k % B`. Writing to one place of one block writes to one
index; a sum over the blocks changes by what one of them changes. -/

namespace MiniOpera.Blocks
open Finset

section Indexing

variable {α : Type} {c B : Nat}

def blocks (c B : Nat) (f : Fin c → Nat → Option α) (k : Nat) : Option α :=
  if h : k / B < c then f ⟨k / B, h⟩ (k % B) else none

/-- The index of place `j` in block `b`. -/
theorem blocks_place (f : Fin c → Nat → Option α) (b : Fin c) {j : Nat} (hj : j < B) :
    blocks c B f (B * b + j) = f b j := by
  have hB : 0 < B := Nat.zero_lt_of_lt hj
  have hdiv : (B * b + j) / B = b := by
    rw [Nat.mul_add_div hB, Nat.div_eq_of_lt hj, Nat.add_zero]
  have hmod : (B * b + j) % B = j := by rw [Nat.mul_add_mod, Nat.mod_eq_of_lt hj]
  have hlt : (B * b + j) / B < c := by rw [hdiv]; exact b.isLt
  rw [blocks, dif_pos hlt, hmod]
  exact congrArg (fun i => f i j) (Fin.ext hdiv)

theorem place_lt (b : Fin c) {j : Nat} (hj : j < B) : B * b + j < B * c := by
  calc
    B * b + j < B * b + B := Nat.add_lt_add_left hj _
    _ = B * (b + 1) := by rw [Nat.mul_add, Nat.mul_one]
    _ ≤ B * c := Nat.mul_le_mul_left B b.isLt

/-- Every index below the end has its place. -/
theorem exists_place (hB : 0 < B) {k : Nat} (hk : k < B * c) :
    ∃ (b : Fin c) (j : Nat), j < B ∧ k = B * b + j := by
  refine ⟨⟨k / B, (Nat.div_lt_iff_lt_mul hB).mpr (by rwa [Nat.mul_comm c])⟩, k % B,
    Nat.mod_lt k hB, ?_⟩
  exact (Nat.div_add_mod k B).symm

theorem blocks_none (hB : 0 < B) (f : Fin c → Nat → Option α) {k : Nat} (hk : B * c ≤ k) :
    blocks c B f k = none := by
  rw [blocks, dif_neg]
  intro hlt
  rw [Nat.div_lt_iff_lt_mul hB, Nat.mul_comm] at hlt
  omega

/-- One place of one block is written. -/
theorem blocks_update (hB : 0 < B) {f g : Fin c → Nat → Option α} {b : Fin c} {j : Nat}
    {v : Option α} (hj : j < B) (hb : ∀ i < B, g b i = Function.update (f b) j v i)
    (hne : ∀ i, i ≠ b → g i = f i) :
    blocks c B g = Function.update (blocks c B f) (B * b + j) v := by
  funext k
  by_cases hk : k < B * c
  · obtain ⟨b', j', hj', rfl⟩ := exists_place hB hk
    rw [blocks_place g b' hj']
    by_cases hbb : b' = b
    · subst hbb
      rw [hb j' hj']
      by_cases hjj : j' = j
      · subst hjj
        rw [Function.update_self, Function.update_self]
      · have hplace : B * b' + j' ≠ B * b' + j := by omega
        rw [Function.update_of_ne hjj, Function.update_of_ne hplace, blocks_place f b' hj']
    · have hplace : B * (b' : Nat) + j' ≠ B * b + j := by
        intro heq
        have hdiv := congrArg (· / B) heq
        simp only [Nat.mul_add_div hB, Nat.div_eq_of_lt hj', Nat.div_eq_of_lt hj,
          Nat.add_zero] at hdiv
        exact hbb (Fin.ext hdiv)
      rw [hne b' hbb, Function.update_of_ne hplace, blocks_place f b' hj']
  · rw [not_lt] at hk
    have hplace : k ≠ B * b + j := by
      have := place_lt b hj
      omega
    rw [blocks_none hB g hk, Function.update_of_ne hplace, blocks_none hB f hk]

/-- A sum over all indexes is the sum over the places of each block. -/
theorem sum_blocks (hB : 0 < B) (f : Fin c → Nat → Option α) (g : Option α → Int) :
    ∑ k ∈ range (B * c), g (blocks c B f k) = ∑ b, ∑ j ∈ range B, g (f b j) := by
  rw [← Finset.sum_product']
  refine (Finset.sum_bij (fun x _ => B * (x.1 : Nat) + x.2) ?_ ?_ ?_ ?_).symm
  · rintro ⟨b, j⟩ hx
    rw [mem_product, mem_range] at hx
    exact mem_range.mpr (place_lt b hx.2)
  · rintro ⟨b, j⟩ hx ⟨b', j'⟩ hx' heq
    rw [mem_product, mem_range] at hx hx'
    have hdiv := congrArg (· / B) heq
    have hmod := congrArg (· % B) heq
    simp only [Nat.mul_add_div hB, Nat.div_eq_of_lt hx.2, Nat.div_eq_of_lt hx'.2,
      Nat.add_zero] at hdiv
    simp only [Nat.mul_add_mod, Nat.mod_eq_of_lt hx.2, Nat.mod_eq_of_lt hx'.2] at hmod
    exact Prod.ext (Fin.ext hdiv) hmod
  · intro k hk
    obtain ⟨b, j, hj, hk⟩ := exists_place hB (mem_range.mp hk)
    exact ⟨(b, j), mem_product.mpr ⟨mem_univ b, mem_range.mpr hj⟩, hk.symm⟩
  · rintro ⟨b, j⟩ hx
    rw [mem_product, mem_range] at hx
    rw [blocks_place f b hx.2]

end Indexing

section Sums

variable {c : Nat} {σ : Type}

theorem sum_update (f : Fin c → Int) (b : Fin c) (v : Int) :
    ∑ i, Function.update f b v i = ∑ i, f i + (v - f b) := by
  rw [Finset.sum_update_of_mem (mem_univ b), Finset.sdiff_singleton_eq_erase,
    ← Finset.add_sum_erase univ f (mem_univ b)]
  omega

/-- A sum of measures, when one of the measured things is replaced. -/
theorem sum_measure_update (measure : σ → Int) (f : Fin c → σ) (b : Fin c) (s : σ) :
    ∑ i, measure (Function.update f b s i) =
      ∑ i, measure (f i) + (measure s - measure (f b)) := by
  rw [← sum_update (fun i => measure (f i)) b (measure s)]
  refine Finset.sum_congr rfl fun i _ => ?_
  by_cases hi : i = b
  · subst hi
    rw [Function.update_self, Function.update_self]
  · rw [Function.update_of_ne hi, Function.update_of_ne hi]

end Sums

end MiniOpera.Blocks
