/-! A bounded list in the order of last use, the least recently used element
first. Using an element moves it to the end; a new element of a full list drives
the first one out. Core Lean only. -/

namespace MiniOpera.Recency

variable {α : Type} [DecidableEq α]

/-- `x` is used: the element that is driven out, and the list. -/
def touch (cap : Nat) (x : α) (l : List α) : Option α × List α :=
  if x ∈ l then (none, l.erase x ++ [x])
  else if l.length = cap then (l.head?, l.tail ++ [x])
  else (none, l ++ [x])

variable {cap : Nat} {x y : α} {l : List α}

theorem touch_old (h : x ∈ l) : touch cap x l = (none, l.erase x ++ [x]) := if_pos h

theorem touch_room (h : x ∉ l) (hroom : l.length ≠ cap) : touch cap x l = (none, l ++ [x]) := by
  rw [touch, if_neg h, if_neg hroom]

theorem touch_full (h : x ∉ l) (hfull : l.length = cap) :
    touch cap x l = (l.head?, l.tail ++ [x]) := by
  rw [touch, if_neg h, if_pos hfull]

/-- Only a new element of a full list drives one out, the first. -/
theorem touch_evicts (h : (touch cap x l).1 = some y) :
    x ∉ l ∧ l.length = cap ∧ l.head? = some y := by
  by_cases hx : x ∈ l
  · rw [touch_old hx] at h
    cases h
  · by_cases hfull : l.length = cap
    · rw [touch_full hx hfull] at h
      exact ⟨hx, hfull, h⟩
    · rw [touch_room hx hfull] at h
      cases h

theorem mem_touch (hl : l.Nodup) :
    y ∈ (touch cap x l).2 ↔ y = x ∨ (y ∈ l ∧ (touch cap x l).1 ≠ some y) := by
  by_cases hx : x ∈ l
  · rw [touch_old hx]
    by_cases hy : y = x
    · simp [hy]
    · simp [hy, hl.mem_erase_iff]
  · by_cases hfull : l.length = cap
    · rw [touch_full hx hfull]
      cases l with
      | nil => simp
      | cons z rest =>
        -- the head does not occur again
        have hz := (List.nodup_cons.mp hl).1
        by_cases hy : y = z
        · subst hy
          simp [hz]
        · simp [hy, Ne.symm hy, or_comm]
    · rw [touch_room hx hfull]
      simp [or_comm]

omit [DecidableEq α] in
theorem nodup_snoc (hl : l.Nodup) (hx : x ∉ l) : (l ++ [x]).Nodup := by
  rw [List.nodup_append]
  refine ⟨hl, List.pairwise_singleton _ x, fun a ha b hb => ?_⟩
  rw [List.mem_singleton.mp hb]
  rintro rfl
  exact hx ha

theorem touch_nodup (hl : l.Nodup) : (touch cap x l).2.Nodup := by
  by_cases hx : x ∈ l
  · rw [touch_old hx]
    exact nodup_snoc (hl.erase x) fun h => (hl.mem_erase_iff.mp h).1 rfl
  · by_cases hfull : l.length = cap
    · rw [touch_full hx hfull]
      exact nodup_snoc (hl.sublist (List.tail_sublist l)) fun h => hx (List.mem_of_mem_tail h)
    · rw [touch_room hx hfull]
      exact nodup_snoc hl hx

theorem touch_length (hcap : 0 < cap) (hl : l.length ≤ cap) :
    (touch cap x l).2.length ≤ cap := by
  by_cases hx : x ∈ l
  · have hpos := List.length_pos_of_mem hx
    rw [touch_old hx, List.length_append, List.length_erase_of_mem hx, List.length_singleton]
    omega
  · by_cases hfull : l.length = cap
    · rw [touch_full hx hfull, List.length_append, List.length_tail, List.length_singleton]
      omega
    · rw [touch_room hx hfull, List.length_append, List.length_singleton]
      omega

/-- The list stays ordered by the times of last use. -/
theorem touch_ordered {time : α → Nat} {now : Nat} (h : l.Pairwise fun a b => time a < time b)
    (hnow : ∀ y ∈ l, time y < now) :
    (touch cap x l).2.Pairwise fun a b =>
      (if a = x then now else time a) < if b = x then now else time b := by
  -- what comes before the last element has kept its time
  have hsnoc : ∀ m : List α, m.Sublist l → x ∉ m → (m ++ [x]).Pairwise fun a b =>
      (if a = x then now else time a) < if b = x then now else time b := by
    intro m hm hx
    have hne : ∀ a ∈ m, a ≠ x := by
      rintro a ha rfl
      exact hx ha
    rw [List.pairwise_append]
    refine ⟨(h.sublist hm).imp_of_mem ?_, List.pairwise_singleton _ x, ?_⟩
    · intro a b ha hb hlt
      rw [if_neg (hne a ha), if_neg (hne b hb)]
      exact hlt
    · intro a ha b hb
      rw [if_neg (hne a ha), if_pos (List.mem_singleton.mp hb)]
      exact hnow a (hm.subset ha)
  have hnodup : l.Nodup := h.imp fun hlt heq => by rw [heq] at hlt; exact Nat.lt_irrefl _ hlt
  by_cases hx : x ∈ l
  · rw [touch_old hx]
    exact hsnoc _ List.erase_sublist fun hmem => (hnodup.mem_erase_iff.mp hmem).1 rfl
  · by_cases hfull : l.length = cap
    · rw [touch_full hx hfull]
      exact hsnoc _ (List.tail_sublist l) fun hmem => hx (List.mem_of_mem_tail hmem)
    · rw [touch_room hx hfull]
      exact hsnoc _ (List.Sublist.refl l) hx

theorem touch_evicts_iff (hcap : 0 < cap) :
    (touch cap x l).1 ≠ none ↔ x ∉ l ∧ l.length = cap := by
  by_cases hx : x ∈ l
  · rw [touch_old hx]
    exact ⟨fun h => absurd rfl h, fun h => absurd hx h.1⟩
  · by_cases hfull : l.length = cap
    · rw [touch_full hx hfull]
      refine ⟨fun _ => ⟨hx, hfull⟩, fun _ => ?_⟩
      cases l with
      | nil => exact absurd hfull (Nat.ne_of_lt hcap)
      | cons y rest => exact Option.some_ne_none y
    · rw [touch_room hx hfull]
      exact ⟨fun h => absurd rfl h, fun h => absurd h.2 hfull⟩

end MiniOpera.Recency
