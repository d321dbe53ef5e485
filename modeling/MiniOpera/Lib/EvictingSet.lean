import Mathlib.Data.Finset.Card

/-! A set that is kept small by removing elements nobody chooses. `Picks` says
which element each removal takes; the results are for all of them. `shrink`
removes elements until fewer than `bound` are left.

Of the elements that are added before the set is shrunk none is safe: whoever
picks can take the one that was added last (`addEach_loses`, `shrink_loses`). -/

namespace MiniOpera.EvictingSet

variable {α : Type} [DecidableEq α]

/-- The element of a non-empty set that the `t`-th removal takes. -/
abbrev Picks (α : Type) := Nat → (items : Finset α) → items.Nonempty → { x // x ∈ items }

/-- A set, and how often an element was removed from it. -/
structure Evicting (α : Type) where
  items : Finset α
  pops : Nat

namespace Evicting

def add (s : Evicting α) (x : α) : Evicting α := ⟨insert x s.items, s.pops⟩

def addAll (s : Evicting α) (xs : List α) : Evicting α := xs.foldl add s

def pop (pick : Picks α) (s : Evicting α) (h : s.items.Nonempty) : Evicting α :=
  ⟨s.items.erase (pick s.pops s.items h), s.pops + 1⟩

/-- The loop that removes elements, with fuel. -/
def popWhileFull (pick : Picks α) (bound : Nat) : Nat → Evicting α → Evicting α
  | 0, s => s
  | fuel + 1, s =>
    if h : bound ≤ s.items.card ∧ s.items.Nonempty then popWhileFull pick bound fuel
      (s.pop pick h.2)
    else s

def shrink (pick : Picks α) (bound : Nat) (s : Evicting α) : Evicting α :=
  popWhileFull pick bound s.items.card s

/-- Elements are added one by one, and after each of them the set is shrunk. -/
def addEach (pick : Picks α) (bound : Nat) (s : Evicting α) (xs : List α) : Evicting α :=
  xs.foldl (fun s x => (s.add x).shrink pick bound) s

end Evicting

open Evicting

variable {pick : Picks α} {bound : Nat}

@[simp] theorem items_add (s : Evicting α) (x : α) : (s.add x).items = insert x s.items := rfl

@[simp] theorem items_addAll (s : Evicting α) (xs : List α) :
    (s.addAll xs).items = s.items ∪ xs.toFinset := by
  induction xs generalizing s with
  | nil => simp [addAll]
  | cons x xs ih =>
    have hfold : s.addAll (x :: xs) = (s.add x).addAll xs := rfl
    rw [hfold, ih, items_add, List.toFinset_cons, Finset.insert_union, Finset.union_insert]

theorem card_pop (pick : Picks α) {s : Evicting α} (h : s.items.Nonempty) :
    (s.pop pick h).items.card + 1 = s.items.card :=
  Finset.card_erase_add_one (pick s.pops s.items h).2

theorem popWhileFull_subset (fuel : Nat) (s : Evicting α) :
    (popWhileFull pick bound fuel s).items ⊆ s.items := by
  induction fuel generalizing s with
  | zero => exact Finset.Subset.refl _
  | succ fuel ih =>
    rw [popWhileFull]
    split
    · exact (ih _).trans (Finset.erase_subset _ _)
    · exact Finset.Subset.refl _

theorem shrink_of_lt {s : Evicting α} (h : s.items.card < bound) : s.shrink pick bound = s := by
  unfold shrink
  cases s.items.card with
  | zero => rfl
  | succ n => rw [popWhileFull, dif_neg (by omega)]

/-- One removal after the other until one fewer than the bound is left. -/
theorem popWhileFull_card (hb : 0 < bound) {fuel : Nat} {s : Evicting α}
    (hfuel : s.items.card ≤ fuel)
    (h : bound - 1 ≤ s.items.card) : (popWhileFull pick bound fuel s).items.card = bound - 1 := by
  induction fuel generalizing s with
  | zero => rw [popWhileFull]; omega
  | succ fuel ih =>
    rw [popWhileFull]
    split
    · next hfull =>
      have hcard := card_pop pick hfull.2
      exact ih (by omega) (by omega)
    · next hfull =>
      have hempty : bound ≤ s.items.card → s.items.Nonempty :=
        fun hle => Finset.card_pos.mp (by omega)
      have hlt : ¬ bound ≤ s.items.card := fun hle => hfull ⟨hle, hempty hle⟩
      omega

theorem shrink_card (hb : 0 < bound) {s : Evicting α} (h : bound ≤ s.items.card) :
    (s.shrink pick bound).items.card = bound - 1 :=
  popWhileFull_card hb (Nat.le_refl _) (by omega)

theorem shrink_card_lt (hb : 0 < bound) (s : Evicting α) :
    (s.shrink pick bound).items.card < bound := by
  rcases Nat.lt_or_ge s.items.card bound with hlt | hge
  · rw [shrink_of_lt hlt]
    exact hlt
  · rw [shrink_card hb hge]
    omega

/-! ## An element that is removed whenever it can be -/

/-- Whoever picks takes `x` if it is there. -/
def Prefers (x : α) (pick : Picks α) : Prop :=
  ∀ t items h, x ∈ items → (pick t items h : α) = x

/-- Some picks prefer `x`. -/
theorem exists_prefers (x : α) : ∃ pick : Picks α, Prefers x pick := by
  classical
  refine ⟨fun _ items h => if hx : x ∈ items then ⟨x, hx⟩ else ⟨h.choose,
    h.choose_spec⟩, ?_⟩
  intro t items h hx
  exact congrArg Subtype.val (dif_pos hx)

variable {x : α}

theorem shrink_loses (hpick : Prefers x pick) (hb : 0 < bound) {s : Evicting α}
    (h : bound ≤ s.items.card) : x ∉ (s.shrink pick bound).items := by
  have hpos : 0 < s.items.card := by omega
  have hne : s.items.Nonempty := Finset.card_pos.mp hpos
  obtain ⟨fuel, hfuel⟩ : ∃ fuel, s.items.card = fuel + 1 := ⟨s.items.card - 1, by omega⟩
  rw [shrink, hfuel, popWhileFull, dif_pos ⟨h, hne⟩]
  intro hx
  have hpop := popWhileFull_subset fuel _ hx
  -- the first removal took `x`, or it was not there
  obtain ⟨hneq, hin⟩ := Finset.mem_erase.mp hpop
  exact hneq (hpick _ _ hne hin).symm

/-- Nothing is removed as long as all elements fit. -/
theorem addEach_of_lt {s : Evicting α} {xs : List α}
    (h : (s.items ∪ xs.toFinset).card < bound) :
    (s.addEach pick bound xs).items = s.items ∪ xs.toFinset := by
  induction xs generalizing s with
  | nil => simp [addEach]
  | cons y xs ih =>
    have hunion : s.items ∪ (y :: xs).toFinset = (s.add y).items ∪ xs.toFinset := by
      rw [items_add, List.toFinset_cons, Finset.insert_union, Finset.union_insert]
    rw [hunion] at h ⊢
    have hadd : (s.add y).items.card < bound :=
      lt_of_le_of_lt (Finset.card_le_card Finset.subset_union_left) h
    have hfold : s.addEach pick bound (y :: xs) = (s.add y).addEach pick bound xs := by
      unfold addEach
      rw [List.foldl_cons, shrink_of_lt hadd]
    rw [hfold]
    exact ih h

theorem addEach_append (s : Evicting α) (xs : List α) (y : α) :
    s.addEach pick bound (xs ++ [y]) = ((s.addEach pick bound xs).add y).shrink pick bound := by
  unfold addEach
  rw [List.foldl_append]
  rfl

theorem union_append (items : Finset α) (xs : List α) (y : α) :
    items ∪ (xs ++ [y]).toFinset = insert y (items ∪ xs.toFinset) := by
  rw [List.toFinset_append, ← Finset.union_assoc]
  exact Finset.union_comm _ _

/-- Before the last element is added nothing was removed yet, or the set is as large
as it may be and `x` is not in it. -/
theorem addEach_cases (hpick : Prefers x pick) (hb : 0 < bound) (s : Evicting α) (xs : List α) :
    (s.addEach pick bound xs).items = s.items ∪ xs.toFinset ∨
      ((s.addEach pick bound xs).items.card = bound - 1 ∧
        x ∉ (s.addEach pick bound xs).items) := by
  induction xs using List.reverseRecOn with
  | nil => exact .inl (by simp [addEach])
  | append_singleton xs y ih =>
    rw [addEach_append]
    rcases Nat.lt_or_ge ((s.addEach pick bound xs).add y).items.card bound with hlt | hge
    · rw [shrink_of_lt hlt, items_add]
      rcases ih with hall | ⟨hcard, hx⟩
      · exact .inl (by rw [hall, union_append])
      · -- the set stays as it is
        have hy : y ∈ (s.addEach pick bound xs).items := by
          by_contra hy
          rw [items_add, Finset.card_insert_of_notMem hy] at hlt
          omega
        rw [Finset.insert_eq_of_mem hy]
        exact .inr ⟨hcard, hx⟩
    · exact .inr ⟨shrink_card hb hge, shrink_loses hpick hb hge⟩

/-- The element added last can be lost as soon as they do not all fit. -/
theorem addEach_loses (hpick : Prefers x pick) (hb : 0 < bound) {s : Evicting α} {xs : List α}
    (h : bound ≤ (s.items ∪ (xs ++ [x]).toFinset).card) :
    x ∉ (s.addEach pick bound (xs ++ [x])).items := by
  rw [addEach_append]
  rw [union_append] at h
  refine shrink_loses hpick hb ?_
  rw [items_add]
  rcases addEach_cases hpick hb s xs with hall | ⟨hcard, hx⟩
  · rw [hall]
    exact h
  · rw [Finset.card_insert_of_notMem hx]
    omega

end MiniOpera.EvictingSet
