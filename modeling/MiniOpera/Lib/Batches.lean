import Mathlib.Data.List.Basic

/-! A list that is handed over in pieces of at most `n` elements, from the front. -/

namespace MiniOpera.Batching

variable {α : Type} {n k : Nat} {l : List α}

/-- `l[start:end]` with `end = min (len l) (start + n)`. -/
def batchAt (n : Nat) (l : List α) (start : Nat) : List α := (l.drop start).take n

/-- The pieces of `for start := 0; start < len(l); start += n`. -/
def batches (n : Nat) (l : List α) : List (List α) :=
  (List.range ((l.length + n - 1) / n)).map fun k => batchAt n l (k * n)

theorem batchAt_ne_nil (hn : 0 < n) (hk : k < l.length) : batchAt n l k ≠ [] := by
  intro h
  have hlen := congrArg List.length h
  rw [batchAt, List.length_take, List.length_drop, List.length_nil] at hlen
  omega

theorem batchAt_length_le (n : Nat) (l : List α) (start : Nat) :
    (batchAt n l start).length ≤ n := by
  rw [batchAt, List.length_take]
  omega

/-- There is one more batch as long as something is left. -/
theorem lt_batches_length (hn : 0 < n) : k < (batches n l).length ↔ k * n < l.length := by
  rw [batches, List.length_map, List.length_range, Nat.lt_div_iff_mul_lt hn]
  omega

theorem batches_take_succ (hn : 0 < n) (hk : k * n < l.length) :
    (batches n l).take (k + 1) = (batches n l).take k ++ [batchAt n l (k * n)] := by
  have hlt := (lt_batches_length hn).mpr hk
  rw [List.take_succ_eq_append_getElem hlt]
  simp [batches]

/-- The first `k` batches are the first `k * n` elements, in order. -/
theorem batches_take_flatten (hn : 0 < n) (hk : k ≤ (batches n l).length) :
    ((batches n l).take k).flatten = l.take (k * n) := by
  induction k with
  | zero => simp
  | succ k ih =>
    have hlt : k * n < l.length := (lt_batches_length hn).mp hk
    rw [batches_take_succ hn hlt, List.flatten_append, ih (Nat.le_of_succ_le hk),
      List.flatten_singleton,
      batchAt, Nat.succ_mul, List.take_add]

theorem batches_flatten (hn : 0 < n) (l : List α) : (batches n l).flatten = l := by
  have hall := batches_take_flatten (l := l) hn (Nat.le_refl _)
  have hlen : l.length ≤ (batches n l).length * n := by
    have := (lt_batches_length (l := l) hn).not.mp (Nat.lt_irrefl (batches n l).length)
    omega
  rwa [List.take_length, List.take_of_length_le hlen] at hall

theorem mem_batches (hn : 0 < n) {b : List α} (h : b ∈ batches n l) : b ≠ [] ∧
    b.length ≤ n := by
  obtain ⟨k, hk, rfl⟩ := List.mem_map.mp h
  have hlt : k < (batches n l).length := by simpa [batches] using hk
  exact ⟨batchAt_ne_nil hn ((lt_batches_length hn).mp hlt), batchAt_length_le n l _⟩

end MiniOpera.Batching
