/-! A stream cut greedily into chunks: an element goes to the current chunk,
and a chunk that has become full is closed and stamped. `close` ends the
current chunk as it is, even an empty one. Core Lean only. -/

namespace MiniOpera.Chunking

structure Chunks (α τ : Type) where
  closed : List (List α × τ)
  current : List α

namespace Chunks
variable {α τ : Type} (full : List α → Bool)

def empty : Chunks α τ := ⟨[], []⟩

def add (c : Chunks α τ) (a : α) (stamp : τ) : Chunks α τ :=
  if full (c.current ++ [a]) then ⟨c.closed ++ [(c.current ++ [a], stamp)], []⟩
  else ⟨c.closed, c.current ++ [a]⟩

def close (c : Chunks α τ) (stamp : τ) : Chunks α τ :=
  ⟨c.closed ++ [(c.current, stamp)], []⟩

/-- The chunks in order, the current one last. -/
def all (c : Chunks α τ) : List (List α) := c.closed.map Prod.fst ++ [c.current]

/-- Everything that was added, in order. -/
def elements (c : Chunks α τ) : List α := c.all.flatten

@[simp] theorem elements_empty : (empty : Chunks α τ).elements = [] := rfl

@[simp] theorem elements_add (c : Chunks α τ) (a : α) (stamp : τ) :
    (c.add full a stamp).elements = c.elements ++ [a] := by
  unfold add
  split <;> simp [elements, all]

@[simp] theorem elements_close (c : Chunks α τ) (stamp : τ) :
    (c.close stamp).elements = c.elements := by
  simp [elements, all, close]

@[simp] theorem all_length (c : Chunks α τ) : c.all.length = c.closed.length + 1 := by
  simp [all]

/-- No part of the current chunk was ever full, and no proper part of a closed one. -/
structure Greedy (c : Chunks α τ) : Prop where
  current : ∀ q, q <+: c.current → full q = false
  closed : ∀ p ∈ c.closed, ∀ q, q <+: p.1 → q ≠ p.1 → full q = false

theorem Greedy.empty (h : full [] = false) : Greedy full (Chunks.empty : Chunks α τ) where
  current q hq := by rw [List.prefix_nil.mp hq]; exact h
  closed _ hp := by cases hp

theorem Greedy.add {c : Chunks α τ} (hc : Greedy full c) (h : full [] = false) (a : α)
    (stamp : τ) : Greedy full (c.add full a stamp) := by
  unfold Chunks.add
  split
  · refine ⟨fun q hq => by rw [List.prefix_nil.mp hq]; exact h, fun p hp q hq hne => ?_⟩
    rcases List.mem_append.mp hp with hp | hp
    · exact hc.closed p hp q hq hne
    · rw [List.mem_singleton] at hp
      subst hp
      rcases List.prefix_concat_iff.mp hq with heq | hq
      · exact absurd heq hne
      · exact hc.current q hq
  · next hf =>
    refine ⟨fun q hq => ?_, hc.closed⟩
    rcases List.prefix_concat_iff.mp hq with heq | hq
    · rw [heq]
      exact Bool.eq_false_iff.mpr hf
    · exact hc.current q hq

theorem Greedy.close {c : Chunks α τ} (hc : Greedy full c) (h : full [] = false) (stamp : τ) :
    Greedy full (c.close stamp) := by
  refine ⟨fun q hq => by rw [List.prefix_nil.mp hq]; exact h, fun p hp q hq hne => ?_⟩
  rcases List.mem_append.mp hp with hp | hp
  · exact hc.closed p hp q hq hne
  · rw [List.mem_singleton] at hp
    subst hp
    exact hc.current q hq

/-- No proper part of a chunk was full. -/
theorem Greedy.all {c : Chunks α τ} (hc : Greedy full c) {ch : List α} (h : ch ∈ c.all)
    {q : List α} (hq : q <+: ch) (hne : q ≠ ch) : full q = false := by
  rcases List.mem_append.mp h with h | h
  · obtain ⟨p, hp, rfl⟩ := List.mem_map.mp h
    exact hc.closed p hp q hq hne
  · rw [List.mem_singleton] at h
    subst h
    exact hc.current q hq

end Chunks

end MiniOpera.Chunking
