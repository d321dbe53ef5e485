import Mathlib.Logic.Relation

/-! Directed acyclic graphs given as a log: nodes in the order they were added,
each naming its parents by key. The frontier is what no node of the log names
as a parent; it depends on the set of nodes only. In a log that adds parents
first, the ancestors of a node were all added before it. -/

namespace MiniOpera.Dag

/-- How a node is keyed and which keys it names as its parents. -/
structure Shape (α ι : Type) where
  key : α → ι
  parents : α → List ι

variable {α ι : Type} (g : Shape α ι)

def Known (log : List α) (x : ι) : Prop := ∃ a ∈ log, g.key a = x

/-- New keys only, and parents first. -/
inductive Ordered : List α → Prop
  | nil : Ordered []
  | snoc {log : List α} {a : α} (hlog : Ordered log) (hnew : ¬ Known g log (g.key a))
      (hparents : ∀ p ∈ g.parents a, Known g log p) : Ordered (log ++ [a])

/-- The keys of the nodes that are nobody's parent. -/
def Frontier (log : List α) (x : ι) : Prop :=
  Known g log x ∧ ∀ a ∈ log, x ∉ g.parents a

/-- One parent link. -/
def Link (log : List α) (x y : ι) : Prop := ∃ a ∈ log, g.key a = y ∧ x ∈ g.parents a

def Ancestor (log : List α) : ι → ι → Prop := Relation.TransGen (Link g log)

variable {g}

theorem Known.append_left {pre : List α} {x : ι} (h : Known g pre x) (post : List α) :
    Known g (pre ++ post) x := by
  obtain ⟨a, ha, hx⟩ := h
  exact ⟨a, List.mem_append_left _ ha, hx⟩

theorem known_snoc {log : List α} {a : α} {x : ι} :
    Known g (log ++ [a]) x ↔ Known g log x ∨ x = g.key a := by
  constructor
  · rintro ⟨b, hb, rfl⟩
    rcases List.mem_append.mp hb with hb | hb
    · exact .inl ⟨b, hb, rfl⟩
    · rw [List.mem_singleton] at hb
      exact .inr (by rw [hb])
  · rintro (h | rfl)
    · exact h.append_left _
    · exact ⟨a, by simp, rfl⟩

/-- The frontier after one more node, if no earlier node names it. -/
theorem frontier_snoc {log : List α} {a : α} {x : ι}
    (hearly : ∀ b ∈ log, g.key a ∉ g.parents b) (hself : g.key a ∉ g.parents a) :
    Frontier g (log ++ [a]) x ↔ x = g.key a ∨ (Frontier g log x ∧ x ∉ g.parents a) := by
  constructor
  · rintro ⟨hk, hp⟩
    rcases known_snoc.mp hk with hk | hk
    · refine .inr ⟨⟨hk, fun b hb => hp b (List.mem_append_left _ hb)⟩, hp a (by simp)⟩
    · exact .inl hk
  · rintro (rfl | ⟨⟨hk, hp⟩, hxa⟩)
    · refine ⟨known_snoc.mpr (.inr rfl), fun b hb => ?_⟩
      rcases List.mem_append.mp hb with hb | hb
      · exact hearly b hb
      · rw [List.mem_singleton] at hb
        rw [hb]
        exact hself
    · refine ⟨hk.append_left _, fun b hb => ?_⟩
      rcases List.mem_append.mp hb with hb | hb
      · exact hp b hb
      · rw [List.mem_singleton] at hb
        rw [hb]
        exact hxa

/-! ## Ordered logs -/

theorem Ordered.parents_known {log : List α} (h : Ordered g log) {a : α} (ha : a ∈ log) {p : ι}
    (hp : p ∈ g.parents a) : Known g log p := by
  induction h with
  | nil => cases ha
  | @snoc log b _ _ hparents ih =>
    rcases List.mem_append.mp ha with ha | ha
    · exact (ih ha).append_left _
    · rw [List.mem_singleton] at ha
      subst ha
      exact (hparents p hp).append_left _

/-- The log up to any of its nodes. -/
theorem Ordered.split {pre post : List α} {a : α} (h : Ordered g (pre ++ a :: post)) :
    Ordered g pre ∧ ¬ Known g pre (g.key a) ∧ (∀ b ∈ post, g.key b ≠ g.key a ∧
      ¬ Known g pre (g.key b)) := by
  generalize hlog : pre ++ a :: post = log at h
  induction h generalizing post with
  | nil => simp at hlog
  | @snoc log b hlog' hnew _ ih =>
    rcases List.eq_nil_or_concat post with rfl | ⟨post, c, rfl⟩
    · obtain ⟨rfl, hb⟩ := List.append_inj' hlog rfl
      cases hb
      exact ⟨hlog', hnew, fun _ hb => by cases hb⟩
    · rw [List.concat_eq_append, ← List.cons_append, ← List.append_assoc] at hlog
      obtain ⟨rfl, hb⟩ := List.append_inj' hlog rfl
      cases hb
      obtain ⟨h1, h2, h3⟩ := ih rfl
      refine ⟨h1, h2, fun d hd => ?_⟩
      rw [List.concat_eq_append] at hd
      rcases List.mem_append.mp hd with hd | hd
      · exact h3 d hd
      · rw [List.mem_singleton] at hd
        subst hd
        refine ⟨fun heq => hnew ⟨a, by simp, heq.symm⟩, fun hk => hnew (hk.append_left _)⟩

/-- What is linked below a node of a part of the log is in that part. -/
theorem Ordered.link_known {pre post : List α} {a : α} (h : Ordered g (pre ++ a :: post))
    {x y : ι} (hl : Link g (pre ++ a :: post) x y) (hy : Known g pre y) : Known g pre x := by
  obtain ⟨hpre, hnew, hpost⟩ := h.split
  obtain ⟨b, hb, rfl, hx⟩ := hl
  rcases List.mem_append.mp hb with hb | hb
  · exact hpre.parents_known hb hx
  · rcases List.mem_cons.mp hb with rfl | hb
    · exact absurd hy hnew
    · exact absurd hy (hpost b hb).2

theorem Ordered.ancestor_known {pre post : List α} {a : α} (h : Ordered g (pre ++ a :: post))
    {x y : ι} (ha : Ancestor g (pre ++ a :: post) x y) (hy : Known g pre y) : Known g pre x := by
  induction ha using Relation.TransGen.head_induction_on with
  | single hl => exact h.link_known hl hy
  | head hl _ ih => exact h.link_known hl ih

end MiniOpera.Dag
