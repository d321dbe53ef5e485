import MiniOpera.Lib.Blocks
import MiniOpera.Lib.GoRuntime

/-!
# `randselect.go`

Weighted random selection from a set of items: a tree of nodes with eight
slots, and a map from the stored items to their leaf slots. The interface values
of a node may be nil, an item or a node, and every type assertion and index
that can panic does so here. Weights wrap as `int64`. Levels and numbers of
items do not: they would at `2 ^ 60` stored items. The recursion over the levels
has fuel, one more than the level of the node it starts at.

`lookup l n` is what the leaf slots below a node hold. A node of level `l` is `Shaped`
if its slots and counts are well formed, and `Good` if its sums are exact too: they are
as long as none wraps around. One lemma for each function says that it does not panic and
what it does to `lookup`: `insert_spec`, `setWeight_spec`, `choose_spec`.
-/

namespace MiniOpera.RandSelect
open GoRuntime Blocks

/-- Max number of branches in the wrsNode tree. -/
abbrev wrsBranches : Nat := 8

/-- An `interface{}` that may hold an item or a node. -/
inductive Slot (ι ν : Type)
  | nil
  | item (x : ι)
  | node (n : ν)

/-- A node of a tree structure that can store items or further nodes. -/
structure WrsNode (ι : Type) where
  items : Fin wrsBranches → Slot ι (WrsNode ι)
  weights : Fin wrsBranches → Int
  sumWeight : Int
  level : Nat
  itemCnt : Int
  maxItems : Nat

/-- The result of an `int64` operation. -/
def wrap64 (a : Int) : Int := a.bmod (2 ^ 64)

def typeAssertion : Panic := .message "interface conversion"

def outOfFuel : Panic := .message "out of fuel"

variable {ι : Type}

namespace WrsNode

/-- A node without items. -/
def empty (maxItems level : Nat) : WrsNode ι :=
  ⟨fun _ => .nil, fun _ => 0, 0, level, 0, maxItems⟩

/-- The loop of `insert` over the branches that are left. -/
def freeBranch (n : WrsNode ι) : List (Fin wrsBranches) → Go Empty (Fin wrsBranches)
  | [] => .error (.panic (.message "nil"))
  | branch :: rest =>
    match n.items branch with
    | .nil => .ok branch
    | .item _ => if n.level = 0 then freeBranch n rest else .error (.panic typeAssertion)
    | .node c =>
      if n.level = 0 ∨ c.itemCnt = c.maxItems then freeBranch n rest else .ok branch

/-- The node with one more item of this weight in the branch. -/
def counted (n : WrsNode ι) (branch : Fin wrsBranches) (weight : Int) : WrsNode ι :=
  { n with
    itemCnt := n.itemCnt + 1
    sumWeight := wrap64 (n.sumWeight + weight)
    weights := Function.update n.weights branch (wrap64 (n.weights branch + weight)) }

/-- The node behind a branch, a new one if there is none. -/
def subNode (n : WrsNode ι) (branch : Fin wrsBranches) : Go Empty (WrsNode ι) :=
  match n.items branch with
  | .nil => .ok (empty (n.maxItems / wrsBranches) (n.level - 1))
  | .node c => .ok c
  | .item _ => .error (.panic typeAssertion)

/-- Recursively inserts a new item to the tree and returns the item index. -/
def insert (item : ι) (weight : Int) : Nat → WrsNode ι → Go Empty (Nat × WrsNode ι)
  | 0, _ => .error (.panic outOfFuel)
  | fuel + 1, n => do
    let branch ← n.freeBranch (List.finRange wrsBranches)
    let n := n.counted branch weight
    if n.level = 0 then
      return (branch, { n with items := Function.update n.items branch (.item item) })
    let subNode ← n.subNode branch
    let (subIdx, subNode) ← insert item weight fuel subNode
    return (subNode.maxItems * branch + subIdx,
      { n with items := Function.update n.items branch (.node subNode) })

/-- Updates the weight of a certain item and returns the change of the last
weight value stored in the tree. -/
def setWeight (weight : Int) : Nat → WrsNode ι → Nat → Go Empty (Int × WrsNode ι)
  | 0, _, _ => .error (.panic outOfFuel)
  | fuel + 1, n, idx =>
    if n.level = 0 then
      if h : idx < wrsBranches then
        let slot : Fin wrsBranches := ⟨idx, h⟩
        let diff := wrap64 (weight - n.weights slot)
        .ok (diff, { n with
          weights := Function.update n.weights slot weight
          sumWeight := wrap64 (n.sumWeight + diff)
          items := if weight = 0 then Function.update n.items slot .nil else n.items
          itemCnt := if weight = 0 then n.itemCnt - 1 else n.itemCnt })
      else .error (.panic .indexOutOfRange)
    else
      let branchItems := n.maxItems / wrsBranches
      if branchItems = 0 then .error (.panic (.message "integer divide by zero"))
      else if h : idx / branchItems < wrsBranches then
        let branch : Fin wrsBranches := ⟨idx / branchItems, h⟩
        match n.items branch with
        | .node c => do
          let (diff, c) ← setWeight weight fuel c (idx - branch * branchItems)
          return (diff, { n with
            items := Function.update n.items branch (.node c)
            weights := Function.update n.weights branch (wrap64 (n.weights branch + diff))
            sumWeight := wrap64 (n.sumWeight + diff)
            itemCnt := if weight = 0 then n.itemCnt - 1 else n.itemCnt })
        | _ => .error (.panic typeAssertion)
      else .error (.panic .indexOutOfRange)

/-- The loop of `choose` over the weights: the branch and what is left of `val`. -/
def chosenBranch (n : WrsNode ι) : List (Fin wrsBranches) → Int →
    Option (Fin wrsBranches × Int)
  | [], _ => none
  | i :: rest, val =>
    if val < n.weights i then some (i, val) else chosenBranch n rest (wrap64 (val - n.weights i))

/-- Recursively selects an item from the tree and returns it along with its weight. -/
def choose : Nat → WrsNode ι → Int → Go Empty (ι × Int)
  | 0, _, _ => .error (.panic outOfFuel)
  | fuel + 1, n, val =>
    match n.chosenBranch (List.finRange wrsBranches) val with
    | none => .error (.panic (.message "nil"))
    | some (i, val) =>
      match n.items i with
      | .nil => .error (.panic typeAssertion)
      | .item x => if n.level = 0 then .ok (x, n.weights i) else .error (.panic typeAssertion)
      | .node c => if n.level = 0 then .error (.panic typeAssertion) else choose fuel c val

end WrsNode

/-- A structure capable of weighted random selection from a set of items. -/
structure WeightedRandomSelect (ι : Type) where
  root : WrsNode ι
  idx : ι → Option Nat

namespace WeightedRandomSelect

def new : WeightedRandomSelect ι := ⟨.empty wrsBranches 0, fun _ => none⟩

/-- A new root above the old one. -/
def grow (root : WrsNode ι) : WrsNode ι :=
  { items := Function.update (fun _ => .nil) 0 (.node root)
    weights := Function.update (fun _ => 0) 0 root.sumWeight
    sumWeight := root.sumWeight
    level := root.level + 1
    itemCnt := root.itemCnt
    maxItems := root.maxItems * wrsBranches }

variable [DecidableEq ι]

/-- Sets an item's weight to a specific value (removes it if zero). -/
def setWeight (w : WeightedRandomSelect ι) (item : ι) (weight : Int) :
    Go Empty (WeightedRandomSelect ι) :=
  match w.idx item with
  | some idx => do
    let (_, root) ← w.root.setWeight weight (w.root.level + 1) idx
    return ⟨root, if weight = 0 then Function.update w.idx item none else w.idx⟩
  | none =>
    if weight ≠ 0 then do
      let root := if w.root.itemCnt = w.root.maxItems then grow w.root else w.root
      let (idx, root) ← root.insert item weight (root.level + 1)
      return ⟨root, Function.update w.idx item (some idx)⟩
    else .ok w

def remove (w : WeightedRandomSelect ι) (item : ι) : Go Empty (WeightedRandomSelect ι) :=
  w.setWeight item 0

/-- The item's weight is asked for and stored. -/
def update (weight : ι → Int) (w : WeightedRandomSelect ι) (item : ι) :
    Go Empty (WeightedRandomSelect ι) :=
  w.setWeight item (weight item)

/-- `rand.Int63n`, from an arbitrary number. -/
def int63n (random : Nat) (n : Int) : Go Empty Int :=
  if n ≤ 0 then .error (.panic (.message "invalid argument to Int63n")) else .ok (random % n)

/-- A weight that has changed is stored. -/
def storeChanged (w : WeightedRandomSelect ι) (item : ι) (lastWeight weight : Int) :
    Go Empty (WeightedRandomSelect ι) :=
  if weight ≠ lastWeight then w.setWeight item weight else .ok w

/-- One iteration of the loop of `choose`, with two random numbers and the
weights the items have now: the set, and the result if the loop ends. -/
def chooseStep (random coin : Nat) (weight : ι → Int) (w : WeightedRandomSelect ι) :
    Go Empty (WeightedRandomSelect ι × Option (Option ι)) :=
  if w.root.sumWeight = 0 then .ok (w, some none)
  else do
    let val ← int63n random w.root.sumWeight
    let (choice, lastWeight) ← w.root.choose (w.root.level + 1) val
    let w ← w.storeChanged choice lastWeight (weight choice)
    if weight choice ≥ lastWeight then return (w, some (some choice))
    let val ← int63n coin lastWeight
    return (w, if val < weight choice then some (some choice) else none)

/-- `choose`, which draws `random t` and `coin t` and meets the weights
`weight t` in iteration `t`. -/
def choose (random coin : Nat → Nat) (weight : Nat → ι → Int) :
    Nat → Nat → WeightedRandomSelect ι → Go Empty (Option ι × WeightedRandomSelect ι)
  | 0, _, _ => .error (.panic outOfFuel)
  | fuel + 1, t, w => do
    let (w, result) ← w.chooseStep (random t) (coin t) (weight t)
    match result with
    | some r => return (r, w)
    | none => choose random coin weight fuel (t + 1) w

end WeightedRandomSelect

/-! ## Well-formed nodes -/

theorem wrap64_eq {a : Int} (h1 : -2 ^ 63 ≤ a) (h2 : a < 2 ^ 63) : wrap64 a = a :=
  Int.bmod_eq_of_le (by omega) (by omega)

def slotCount : Slot ι (WrsNode ι) → Int
  | .nil => 0
  | .item _ => 1
  | .node c => c.itemCnt

/-- A node of level `l` whose slots, with their weights, satisfy `ok`. -/
structure NodeOk (l : Nat) (ok : Slot ι (WrsNode ι) → Int → Prop)
    (n : WrsNode ι) : Prop where
  level : n.level = l
  maxItems : n.maxItems = 8 ^ (l + 1)
  slots : ∀ i, ok (n.items i) (n.weights i)
  sum : n.sumWeight = ∑ i, n.weights i
  count : n.itemCnt = ∑ i, slotCount (n.items i)

/-- A slot of a leaf. -/
def LeafSlot : Slot ι (WrsNode ι) → Int → Prop
  | .nil, v => v = 0
  | .item _, v => 0 < v
  | .node _, _ => False

/-- A slot of an inner node. -/
def InnerSlot (good : WrsNode ι → Prop) : Slot ι (WrsNode ι) → Int → Prop
  | .nil, v => v = 0
  | .item _, _ => False
  | .node c, v => good c ∧ v = c.sumWeight

/-- Well-formed down to the leaves: every sum and every count is exact. -/
def Good : Nat → WrsNode ι → Prop
  | 0 => NodeOk 0 LeafSlot
  | l + 1 => NodeOk (l + 1) (InnerSlot (Good l))

/-- A slot of a node of level `l`. -/
def SlotOk : Nat → Slot ι (WrsNode ι) → Int → Prop
  | 0 => LeafSlot
  | l + 1 => InnerSlot (Good l)

/-- A node of level `l` whose slots satisfy `ok`, whatever its weights are. -/
structure Framed (l : Nat) (ok : Slot ι (WrsNode ι) → Prop) (n : WrsNode ι) : Prop where
  level : n.level = l
  maxItems : n.maxItems = 8 ^ (l + 1)
  slots : ∀ i, ok (n.items i)
  count : n.itemCnt = ∑ i, slotCount (n.items i)

def LeafShape : Slot ι (WrsNode ι) → Prop
  | .node _ => False
  | _ => True

def InnerShape (shaped : WrsNode ι → Prop) : Slot ι (WrsNode ι) → Prop
  | .nil => True
  | .item _ => False
  | .node c => shaped c

/-- Well-formed but for the weights, whose sums may have wrapped around. -/
def Shaped : Nat → WrsNode ι → Prop
  | 0 => Framed 0 LeafShape
  | l + 1 => Framed (l + 1) (InnerShape (Shaped l))

/-- A slot of a shaped node of level `l`. -/
def SlotShape : Nat → Slot ι (WrsNode ι) → Prop
  | 0 => LeafShape
  | l + 1 => InnerShape (Shaped l)

def leafEntry : Slot ι (WrsNode ι) → Int → Option (ι × Int)
  | .item x, v => some (x, v)
  | _, _ => none

def innerEntry (entry : WrsNode ι → Nat → Option (ι × Int)) :
    Slot ι (WrsNode ι) → Nat →
    Option (ι × Int)
  | .node c, j => entry c j
  | _, _ => none

/-- What the leaf slots below a node hold. -/
def lookup : Nat → WrsNode ι → Nat → Option (ι × Int)
  | 0, n => blocks 8 1 fun i _ => leafEntry (n.items i) (n.weights i)
  | l + 1, n => blocks 8 (8 ^ (l + 1)) fun i => innerEntry (lookup l) (n.items i)

section Nodes

variable {l : Nat} {n n' : WrsNode ι} {ok : Slot ι (WrsNode ι) → Int → Prop}

theorem good_iff : Good l n ↔ NodeOk l (SlotOk l) n := by
  cases l <;> exact Iff.rfl

theorem shaped_iff : Shaped l n ↔ Framed l (SlotShape l) n := by
  cases l <;> exact Iff.rfl

/-- One slot is replaced, and the count follows. -/
theorem Shaped.replace (h : Shaped l n) {b : Fin wrsBranches} {s : Slot ι (WrsNode ι)}
    (hs : SlotShape l s) (hlevel : n'.level = n.level) (hmax : n'.maxItems = n.maxItems)
    (hitems : n'.items = Function.update n.items b s)
    (hcount : n'.itemCnt = n.itemCnt + (slotCount s - slotCount (n.items b))) : Shaped l n' := by
  obtain ⟨hl, hm, hslots, hcnt⟩ := shaped_iff.mp h
  refine shaped_iff.mpr ⟨hlevel.trans hl, hmax.trans hm, ?_, ?_⟩
  · intro i
    rw [hitems]
    by_cases hi : i = b
    · subst hi
      rw [Function.update_self]
      exact hs
    · rw [Function.update_of_ne hi]
      exact hslots i
  · rw [hcount, hitems, sum_measure_update, hcnt]

/-- One slot and its weight are replaced, and the totals follow. -/
theorem NodeOk.replace (h : NodeOk l ok n) {b : Fin wrsBranches}
    {s : Slot ι (WrsNode ι)} {v : Int}
    (hs : ok s v) (hlevel : n'.level = n.level) (hmax : n'.maxItems = n.maxItems)
    (hitems : n'.items = Function.update n.items b s)
    (hweights : n'.weights = Function.update n.weights b v)
    (hsum : n'.sumWeight = n.sumWeight + (v - n.weights b))
    (hcount : n'.itemCnt = n.itemCnt + (slotCount s - slotCount (n.items b))) : NodeOk l ok n' where
  level := hlevel.trans h.level
  maxItems := hmax.trans h.maxItems
  slots := by
    intro i
    rw [hitems, hweights]
    by_cases hi : i = b
    · subst hi
      rw [Function.update_self, Function.update_self]
      exact hs
    · rw [Function.update_of_ne hi, Function.update_of_ne hi]
      exact h.slots i
  sum := by rw [hsum, hweights, sum_update, h.sum]
  count := by rw [hcount, hitems, sum_measure_update, h.count]

theorem Framed.count_bounds {ok : Slot ι (WrsNode ι) → Prop} (h : Framed l ok n)
    (hok : ∀ s, ok s → 0 ≤ slotCount s ∧ slotCount s ≤ 8 ^ l) :
    0 ≤ n.itemCnt ∧ n.itemCnt ≤ 8 ^ (l + 1) := by
  rw [h.count]
  refine ⟨Finset.sum_nonneg fun i _ => (hok _ (h.slots i)).1, ?_⟩
  have hle := Finset.sum_le_card_nsmul Finset.univ (fun i => slotCount (n.items i)) (8 ^ l)
    fun i _ => (hok _ (h.slots i)).2
  rw [Finset.card_univ, Fintype.card_fin, nsmul_eq_mul] at hle
  rw [pow_succ, mul_comm]
  exact_mod_cast hle

/-- By the level: a slot of an inner node counts what its child counts. -/
theorem SlotShape.count_bounds {s : Slot ι (WrsNode ι)} (h : SlotShape l s) :
    0 ≤ slotCount s ∧ slotCount s ≤ 8 ^ l := by
  induction l generalizing s with
  | zero =>
    cases s with
    | nil => simp [slotCount]
    | item x => simp [slotCount]
    | node c => exact absurd h id
  | succ l ih =>
    cases s with
    | nil => exact ⟨by simp [slotCount], Int.le_of_lt (Int.pow_pos (by decide))⟩
    | item x => exact absurd h id
    | node c => exact (shaped_iff.mp h).count_bounds fun _ hs => ih hs

theorem Shaped.count_bounds (h : Shaped l n) : 0 ≤ n.itemCnt ∧ n.itemCnt ≤ 8 ^ (l + 1) :=
  (shaped_iff.mp h).count_bounds fun _ hs => hs.count_bounds

theorem Shaped.slot (h : Shaped l n) (i : Fin wrsBranches) : SlotShape l (n.items i) :=
  (shaped_iff.mp h).slots i

theorem Shaped.level (h : Shaped l n) : n.level = l := (shaped_iff.mp h).level

theorem Shaped.maxItems (h : Shaped l n) : n.maxItems = 8 ^ (l + 1) := (shaped_iff.mp h).maxItems

theorem Shaped.cast_maxItems (h : Shaped l n) : (n.maxItems : Int) = 8 ^ (l + 1) := by
  rw [h.maxItems]
  push_cast
  rfl

/-- The capacity of a child. -/
theorem Shaped.branchItems (h : Shaped (l + 1) n) : n.maxItems / wrsBranches = 8 ^ (l + 1) := by
  rw [h.maxItems, pow_succ _ (l + 1)]
  exact Nat.mul_div_cancel _ (by decide)

theorem shaped_empty (l : Nat) : Shaped l (WrsNode.empty (8 ^ (l + 1)) l : WrsNode ι) := by
  refine shaped_iff.mpr ⟨rfl, rfl, fun i => ?_, by simp [WrsNode.empty, slotCount]⟩
  cases l <;> exact trivial

/-- By the level. -/
theorem Good.shaped (h : Good l n) : Shaped l n := by
  induction l generalizing n with
  | zero =>
    refine ⟨NodeOk.level h, NodeOk.maxItems h, ?_, NodeOk.count h⟩
    intro i
    have hslot := NodeOk.slots h i
    cases hitem : n.items i with
    | node c => rw [hitem] at hslot; exact absurd hslot id
    | _ => exact trivial
  | succ l ih =>
    refine ⟨NodeOk.level h, NodeOk.maxItems h, ?_, NodeOk.count h⟩
    intro i
    have hslot := NodeOk.slots h i
    cases hitem : n.items i with
    | nil => exact trivial
    | item x => rw [hitem] at hslot; exact absurd hslot id
    | node c => rw [hitem] at hslot; exact ih hslot.1

theorem NodeOk.sum_nonneg (h : NodeOk l ok n) (hok : ∀ s v, ok s v → 0 ≤ v) :
    0 ≤ n.sumWeight := by
  rw [h.sum]
  exact Finset.sum_nonneg fun i _ => hok _ _ (h.slots i)

theorem SlotOk.nonneg {s : Slot ι (WrsNode ι)} {v : Int} (h : SlotOk l s v) : 0 ≤ v := by
  induction l generalizing s v with
  | zero =>
    cases s with
    | nil => exact Int.le_of_eq (Eq.symm h)
    | item x => exact Int.le_of_lt h
    | node c => exact absurd h id
  | succ l ih =>
    cases s with
    | nil => exact Int.le_of_eq (Eq.symm h)
    | item x => exact absurd h id
    | node c =>
      obtain ⟨hc, rfl⟩ := h
      exact (good_iff.mp hc).sum_nonneg fun _ _ hs => ih hs

theorem Good.sum_nonneg (h : Good l n) : 0 ≤ n.sumWeight :=
  (good_iff.mp h).sum_nonneg fun _ _ hs => hs.nonneg

theorem Good.slot (h : Good l n) (i : Fin wrsBranches) : SlotOk l (n.items i) (n.weights i) :=
  (good_iff.mp h).slots i

theorem Good.level (h : Good l n) : n.level = l := h.shaped.level

theorem Good.weight_le (h : Good l n) (i : Fin wrsBranches) : n.weights i ≤ n.sumWeight := by
  rw [(good_iff.mp h).sum]
  exact Finset.single_le_sum (fun j _ => (h.slot j).nonneg) (Finset.mem_univ i)

theorem good_empty (l : Nat) : Good l (WrsNode.empty (8 ^ (l + 1)) l : WrsNode ι) := by
  refine good_iff.mpr ⟨rfl, rfl, fun i => ?_, by simp [WrsNode.empty],
    by simp [WrsNode.empty, slotCount]⟩
  cases l <;> exact rfl

/-! ## Entries -/

theorem lookup_leaf (n : WrsNode ι) (b : Fin wrsBranches) :
    lookup 0 n b = leafEntry (n.items b) (n.weights b) := by
  have hplace := blocks_place (B := 1) (fun i _ => leafEntry (n.items i) (n.weights i)) b
    (j := 0) Nat.one_pos
  rw [Nat.one_mul, Nat.add_zero] at hplace
  exact hplace

theorem lookup_inner (n : WrsNode ι) (b : Fin wrsBranches) {j : Nat} (hj : j < 8 ^ (l + 1)) :
    lookup (l + 1) n (8 ^ (l + 1) * b + j) = innerEntry (lookup l) (n.items b) j :=
  blocks_place (fun i => innerEntry (lookup l) (n.items i)) b hj

theorem lookup_none (n : WrsNode ι) {k : Nat} (hk : 8 ^ (l + 1) ≤ k) : lookup l n k = none := by
  cases l with
  | zero => exact blocks_none (B := 1) (c := 8) Nat.one_pos _ hk
  | succ l => exact blocks_none (c := 8) (Nat.pow_pos (by decide)) _ (by rwa [← pow_succ])

theorem index_lt {k : Nat} {e : ι × Int} (h : lookup l n k = some e) : k < 8 ^ (l + 1) := by
  by_contra hge
  rw [lookup_none n (not_lt.mp hge)] at h
  cases h

/-- An entry of a leaf is in one of its slots. -/
theorem entry_leaf {k : Nat} {x : ι} {v : Int} (h : lookup 0 n k = some (x, v)) :
    ∃ b : Fin wrsBranches, k = b ∧ n.items b = .item x ∧ n.weights b = v := by
  obtain ⟨b, rfl⟩ : ∃ b : Fin wrsBranches, k = b := ⟨⟨k, index_lt h⟩, rfl⟩
  rw [lookup_leaf] at h
  cases hitem : n.items b with
  | item y =>
    rw [hitem] at h
    cases h
    exact ⟨b, rfl, hitem, rfl⟩
  | _ => rw [hitem] at h; cases h

/-- An entry of an inner node is one of a child. -/
theorem entry_inner {k : Nat} {e : ι × Int} (h : lookup (l + 1) n k = some e) :
    ∃ (b : Fin wrsBranches) (j : Nat) (c : WrsNode ι), j < 8 ^ (l + 1) ∧
      k = 8 ^ (l + 1) * b + j ∧ n.items b = .node c ∧ lookup l c j = some e := by
  have hk := index_lt h
  rw [pow_succ _ (l + 1)] at hk
  obtain ⟨b, j, hj, rfl⟩ := exists_place (c := wrsBranches) (Nat.pow_pos (by decide)) hk
  rw [lookup_inner n b hj] at h
  cases hitem : n.items b with
  | node c =>
    rw [hitem] at h
    exact ⟨b, j, c, hj, rfl, hitem, h⟩
  | _ => rw [hitem] at h; cases h

/-- A stored weight is positive and part of every sum above it. -/
theorem Good.entry_bounds (h : Good l n) {k : Nat} {x : ι} {v : Int}
    (hentry : lookup l n k = some (x, v)) : 0 < v ∧ v ≤ n.sumWeight := by
  induction l generalizing n k with
  | zero =>
    obtain ⟨b, -, hitem, rfl⟩ := entry_leaf hentry
    have hslot := h.slot b
    rw [hitem] at hslot
    exact ⟨hslot, h.weight_le b⟩
  | succ l ih =>
    obtain ⟨b, j, c, -, -, hitem, hc⟩ := entry_inner hentry
    have hslot := h.slot b
    rw [hitem] at hslot
    obtain ⟨hpos, hle⟩ := ih hslot.1 hc
    rw [← hslot.2] at hle
    exact ⟨hpos, hle.trans (h.weight_le b)⟩

theorem lookup_leaf_replace {b : Fin wrsBranches} {s : Slot ι (WrsNode ι)} {v : Int}
    (hitems : n'.items = Function.update n.items b s)
    (hweights : n'.weights = Function.update n.weights b v) :
    lookup 0 n' = Function.update (lookup 0 n) b (leafEntry s v) := by
  have hup := blocks_update (B := 1) (c := 8) (j := 0) (v := leafEntry s v) (b := b)
    (f := fun i _ => leafEntry (n.items i) (n.weights i))
    (g := fun i _ => leafEntry (n'.items i) (n'.weights i)) Nat.one_pos Nat.one_pos
  rw [Nat.one_mul, Nat.add_zero] at hup
  refine hup (fun i hi => ?_) fun i hi => ?_
  · rw [Nat.lt_one_iff.mp hi, hitems, hweights, Function.update_self, Function.update_self,
      Function.update_self]
  · simp only [hitems, hweights, Function.update_of_ne hi]

theorem lookup_inner_replace {b : Fin wrsBranches} {c : WrsNode ι} {k : Nat}
    {e : Option (ι × Int)} (hitems : n'.items = Function.update n.items b (.node c))
    (hk : k < 8 ^ (l + 1))
    (hc : ∀ j, lookup l c j = Function.update (innerEntry (lookup l) (n.items b)) k e j) :
    lookup (l + 1) n' = Function.update (lookup (l + 1) n) (8 ^ (l + 1) * b + k) e := by
  refine blocks_update (c := 8) (Nat.pow_pos (by decide)) hk (fun i _ => ?_) fun i hi => ?_
  · rw [hitems, Function.update_self]
    exact hc i
  · rw [hitems, Function.update_of_ne hi]

/-- The count of a node is the number of its entries. -/
theorem Shaped.count_entries (h : Shaped l n) :
    n.itemCnt = ∑ k ∈ Finset.range (8 ^ (l + 1)), if (lookup l n k).isSome then 1 else 0 := by
  induction l generalizing n with
  | zero =>
    rw [(shaped_iff.mp h).count]
    refine Eq.trans (Finset.sum_congr rfl fun i _ => ?_) (sum_blocks (B := 1) (c := 8) Nat.one_pos
      (fun i _ => leafEntry (n.items i) (n.weights i)) fun e => if e.isSome then 1 else 0).symm
    have hslot := h.slot i
    rw [Finset.range_one, Finset.sum_singleton]
    cases hitem : n.items i with
    | nil => rfl
    | item x => rfl
    | node c => rw [hitem] at hslot; exact absurd hslot id
  | succ l ih =>
    rw [(shaped_iff.mp h).count, pow_succ _ (l + 1)]
    refine Eq.trans (Finset.sum_congr rfl fun i _ => ?_) (sum_blocks (c := 8)
      (Nat.pow_pos (by decide)) (fun i => innerEntry (lookup l) (n.items i))
      fun e => if e.isSome then 1 else 0).symm
    have hslot := h.slot i
    cases hitem : n.items i with
    | nil => exact (Finset.sum_const_zero).symm
    | item x => rw [hitem] at hslot; exact absurd hslot id
    | node c => rw [hitem] at hslot; exact ih hslot

/-! ## `insert` -/

/-- A node that is not full has a slot that is not. -/
theorem Shaped.exists_room (h : Shaped l n) (hlt : n.itemCnt < 8 ^ (l + 1)) :
    ∃ b, slotCount (n.items b) < 8 ^ l := by
  by_contra hfull
  simp only [not_exists, not_lt] at hfull
  have hle := Finset.card_nsmul_le_sum Finset.univ (fun i => slotCount (n.items i)) (8 ^ l)
    fun i _ => hfull i
  rw [Finset.card_univ, Fintype.card_fin, nsmul_eq_mul, ← (shaped_iff.mp h).count] at hle
  rw [pow_succ, mul_comm] at hlt
  exact absurd hlt (not_lt.mpr (by exact_mod_cast hle))

/-- The loop passes over the full slots and stops at the first that is not. -/
theorem freeBranch_spec (h : Shaped l n) (bs : List (Fin wrsBranches))
    (hroom : ∃ b ∈ bs, slotCount (n.items b) < 8 ^ l) :
    ∃ b, (n.freeBranch bs : Go Empty _) = .ok b ∧ slotCount (n.items b) < 8 ^ l := by
  induction bs with
  | nil =>
    obtain ⟨b, hb, -⟩ := hroom
    cases hb
  | cons b rest ih =>
    have hrest : ¬ slotCount (n.items b) < 8 ^ l →
        ∃ b, (n.freeBranch rest : Go Empty _) = .ok b ∧ slotCount (n.items b) < 8 ^ l := by
      intro hfull
      obtain ⟨b', hb', hlt⟩ := hroom
      rcases List.mem_cons.mp hb' with rfl | hb'
      · exact absurd hlt hfull
      · exact ih ⟨b', hb', hlt⟩
    have hslot := h.slot b
    unfold WrsNode.freeBranch
    cases hitem : n.items b with
    | nil => exact ⟨b, rfl, by rw [hitem]; exact Int.pow_pos (by decide)⟩
    | item x =>
      rw [hitem] at hslot
      cases l with
      | zero =>
        simp only [h.level, if_true]
        exact hrest (by rw [hitem]; simp [slotCount])
      | succ l => exact absurd hslot id
    | node c =>
      rw [hitem] at hslot
      cases l with
      | zero => exact absurd hslot id
      | succ l =>
        have hc : Shaped l c := hslot
        have hmax := hc.cast_maxItems
        have hle := hc.count_bounds.2
        simp only [h.level, Nat.succ_ne_zero, false_or, hmax]
        split
        · next hfull => exact hrest (by rw [hitem]; simp only [slotCount]; omega)
        · next hfree => exact ⟨b, rfl, by rw [hitem]; simp only [slotCount]; omega⟩

theorem lookup_empty (l k : Nat) :
    lookup l (WrsNode.empty (8 ^ (l + 1)) l : WrsNode ι) k = none := by
  cases l <;> (simp only [lookup, blocks]; split <;> rfl)

/-- The child that an item goes to. -/
theorem subNode_spec (h : Shaped (l + 1) n) (b : Fin wrsBranches) :
    ∃ sub, (n.subNode b : Go Empty _) = .ok sub ∧ Shaped l sub ∧
      sub.itemCnt = slotCount (n.items b) ∧
      (∀ j, innerEntry (lookup l) (n.items b) j = lookup l sub j) ∧
      (Good (l + 1) n → Good l sub ∧ sub.sumWeight = n.weights b) := by
  have hslot := h.slot b
  unfold WrsNode.subNode
  cases hitem : n.items b with
  | nil =>
    rw [h.branchItems, h.level]
    refine ⟨_, rfl, shaped_empty l, rfl, fun j => (lookup_empty l j).symm, ?_⟩
    intro hgood
    have hzero := hgood.slot b
    rw [hitem] at hzero
    exact ⟨good_empty l, Eq.symm hzero⟩
  | item x => rw [hitem] at hslot; exact absurd hslot id
  | node c =>
    rw [hitem] at hslot
    refine ⟨c, rfl, hslot, rfl, fun _ => rfl, ?_⟩
    intro hgood
    have hc := hgood.slot b
    rw [hitem] at hc
    exact ⟨hc.1, hc.2.symm⟩

/-- What inserting an item does to a node. Its weight is stored as it is and the sums stay
exact if they are in range. -/
structure Inserted (l : Nat) (n : WrsNode ι) (x : ι) (weight : Int) (k : Nat) (n' : WrsNode ι) :
    Prop where
  shaped : Shaped l n'
  index : k < 8 ^ (l + 1)
  fresh : lookup l n k = none
  stored : ∃ v, lookup l n' = Function.update (lookup l n) k (some (x, v))
  count : n'.itemCnt = n.itemCnt + 1
  exact : Good l n → 0 < weight → n.sumWeight + weight < 2 ^ 63 → Good l n' ∧
    lookup l n' = Function.update (lookup l n) k (some (x, weight)) ∧
    n'.sumWeight = n.sumWeight + weight

theorem insert_leaf (h : Shaped 0 n) {b : Fin wrsBranches}
    (hbranch : n.freeBranch (List.finRange wrsBranches) = .ok b)
    (hlt : slotCount (n.items b) < 8 ^ 0)
    (x : ι) (weight : Int) :
    ∃ k n', (WrsNode.insert x weight 1 n : Go Empty _) = .ok (k, n') ∧
      Inserted 0 n x weight k n' := by
  have hslot := h.slot b
  have hnil : n.items b = .nil := by
    cases hitem : n.items b with
    | nil => rfl
    | item y => rw [hitem] at hlt; simp [slotCount] at hlt
    | node c => rw [hitem] at hslot; exact absurd hslot id
  refine ⟨b, { n.counted b weight with items := Function.update n.items b (.item x) }, ?_, ?_⟩
  · simp only [WrsNode.insert, hbranch, ok_bind, WrsNode.counted, h.level, if_true, pure_eq_ok]
  · exact {
      shaped := h.replace (s := .item x) (b := b) trivial rfl rfl rfl (by rw [hnil]; rfl)
      index := b.isLt
      fresh := by rw [lookup_leaf, hnil]; rfl
      stored := ⟨_, lookup_leaf_replace (s := .item x) rfl rfl⟩
      count := rfl
      exact := by
        intro hgood hpos hsum
        have hzero : n.weights b = 0 := by
          have := hgood.slot b
          rw [hnil] at this
          exact this
        have hnonneg := hgood.sum_nonneg
        have hwrap : wrap64 (n.sumWeight + weight) = n.sumWeight + weight :=
          wrap64_eq (by omega) hsum
        have hweights : (n.counted b weight).weights = Function.update n.weights b weight := by
          rw [WrsNode.counted, hzero, Int.zero_add, wrap64_eq (by omega) (by omega)]
        exact ⟨NodeOk.replace hgood (s := .item x) (v := weight)
          (b := b) hpos rfl rfl rfl hweights
          (hwrap.trans (by rw [hzero, Int.sub_zero])) (by rw [hnil]; rfl),
          lookup_leaf_replace (s := .item x) rfl hweights, hwrap⟩ }

/-- The item goes into a child. -/
theorem insert_inner (h : Shaped (l + 1) n) {b : Fin wrsBranches} {weight : Int}
    (hbranch : n.freeBranch (List.finRange wrsBranches) = .ok b) {sub c : WrsNode ι}
    (hsub : (n.subNode b : Go Empty _) = .ok sub) (hsubcount : sub.itemCnt = slotCount (n.items b))
    (hentry : ∀ j, innerEntry (lookup l) (n.items b) j = lookup l sub j)
    (hexact : Good (l + 1) n → Good l sub ∧ sub.sumWeight = n.weights b) {k : Nat} {x : ι}
    (hins : (WrsNode.insert x weight (l + 1) sub : Go Empty _) = .ok (k, c))
    (hc : Inserted l sub x weight k c) :
    ∃ k n', (WrsNode.insert x weight (l + 2) n : Go Empty _) = .ok (k, n') ∧
      Inserted (l + 1) n x weight k n' := by
  have hsubc : ((n.counted b weight).subNode b : Go Empty _) = .ok sub := hsub
  have hcount : n.itemCnt + 1 = n.itemCnt + (slotCount (.node c) - slotCount (n.items b)) := by
    rw [← hsubcount, slotCount, hc.count]
    omega
  refine ⟨8 ^ (l + 1) * b + k,
    { n.counted b weight with items := Function.update n.items b (.node c) }, ?_, ?_⟩
  · have hlevel : (n.counted b weight).level ≠ 0 := by
      rw [WrsNode.counted, h.level]
      exact Nat.succ_ne_zero l
    rw [WrsNode.insert]
    simp only [hbranch, ok_bind, if_neg hlevel, hsubc, hins, pure_eq_ok, hc.shaped.maxItems]
    rfl
  · obtain ⟨v, hv⟩ := hc.stored
    have hstored : ∀ u, lookup l c = Function.update (lookup l sub) k (some (x, u)) →
        lookup (l + 1) { n.counted b weight with items := Function.update n.items b (.node c) } =
          Function.update (lookup (l + 1) n) (8 ^ (l + 1) * b + k) (some (x, u)) := by
      intro u hu
      refine lookup_inner_replace rfl hc.index fun j => ?_
      rw [hu, funext hentry]
    exact {
      shaped := h.replace (s := .node c) (b := b) hc.shaped rfl rfl rfl hcount
      index := by
        rw [pow_succ _ (l + 1)]
        exact place_lt b hc.index
      fresh := by rw [lookup_inner n b hc.index, hentry]; exact hc.fresh
      stored := ⟨v, hstored v hv⟩
      count := rfl
      exact := by
        intro hgood hpos hsum
        obtain ⟨hsubgood, hsubsum⟩ := hexact hgood
        have hle := hgood.weight_le b
        have hnonneg := hgood.sum_nonneg
        have hslot := (hgood.slot b).nonneg
        obtain ⟨hcgood, hcstored, hcsum⟩ := hc.exact hsubgood hpos (by omega)
        have hwrap : wrap64 (n.sumWeight + weight) = n.sumWeight + weight :=
          wrap64_eq (by omega) hsum
        have hweights : (n.counted b weight).weights = Function.update n.weights b c.sumWeight := by
          rw [WrsNode.counted, hcsum, hsubsum, wrap64_eq (by omega) (by omega)]
        exact ⟨NodeOk.replace hgood (s := .node c) (v := c.sumWeight) (b := b)
          ⟨hcgood, rfl⟩ rfl rfl
          rfl hweights (hwrap.trans (by rw [hcsum, hsubsum]; omega)) hcount,
          hstored weight hcstored, hwrap⟩ }

/-- By the level: there is room below a branch that `freeBranch` finds. -/
theorem insert_spec (h : Shaped l n) (hroom : n.itemCnt < 8 ^ (l + 1)) (x : ι) (weight : Int) :
    ∃ k n', (WrsNode.insert x weight (l + 1) n : Go Empty _) = .ok (k, n') ∧
      Inserted l n x weight k n' := by
  induction l generalizing n with
  | zero =>
    obtain ⟨b, hb⟩ := h.exists_room hroom
    obtain ⟨b, hbranch, hlt⟩ := freeBranch_spec h (List.finRange wrsBranches)
      ⟨b, List.mem_finRange b, hb⟩
    exact insert_leaf h hbranch hlt x weight
  | succ l ih =>
    obtain ⟨b, hb⟩ := h.exists_room hroom
    obtain ⟨b, hbranch, hlt⟩ := freeBranch_spec h (List.finRange wrsBranches)
      ⟨b, List.mem_finRange b, hb⟩
    obtain ⟨sub, hsub, hshaped, hsubcount, hentry, hexact⟩ := subNode_spec h b
    obtain ⟨k, c, hins, hc⟩ := ih (n := sub) hshaped (by rw [hsubcount]; exact hlt)
    exact insert_inner h hbranch hsub hsubcount hentry hexact hins hc

/-! ## `setWeight` -/

/-- What setting a weight does to a node. The sums stay exact if they are in range. -/
structure Weighted (l : Nat) (n : WrsNode ι) (x : ι) (k : Nat) (old weight diff : Int)
    (n' : WrsNode ι) : Prop where
  shaped : Shaped l n'
  entries : lookup l n' =
    Function.update (lookup l n) k (if weight = 0 then none else some (x, weight))
  count : n'.itemCnt = if weight = 0 then n.itemCnt - 1 else n.itemCnt
  exact : Good l n → 0 ≤ weight → n.sumWeight < 2 ^ 63 →
    n.sumWeight + (weight - old) < 2 ^ 63 →
    Good l n' ∧ n'.sumWeight = n.sumWeight + (weight - old) ∧ diff = weight - old

/-- The slot that is left of an item. -/
def weightedSlot (x : ι) (weight : Int) : Slot ι (WrsNode ι) :=
  if weight = 0 then .nil else .item x

theorem weightedSlot_shape (x : ι) (weight : Int) :
    SlotShape 0 (weightedSlot x weight) ∧
      slotCount (weightedSlot x weight) = (if weight = 0 then 0 else 1) ∧
      leafEntry (weightedSlot x weight) weight = if weight = 0 then none else some (x, weight) := by
  unfold weightedSlot
  split
  · exact ⟨trivial, rfl, rfl⟩
  · exact ⟨trivial, rfl, rfl⟩

theorem weightedSlot_ok (x : ι) {weight : Int} (h : 0 ≤ weight) :
    SlotOk 0 (weightedSlot x weight) weight := by
  unfold weightedSlot
  split
  · next hzero => exact hzero
  · next hne => exact lt_of_le_of_ne h (Ne.symm hne)

theorem setWeight_leaf (h : Shaped 0 n) {x : ι} {b : Fin wrsBranches} (hitem : n.items b = .item x)
    (weight : Int) :
    ∃ diff n', (WrsNode.setWeight weight 1 n b : Go Empty _) = .ok (diff, n') ∧
      Weighted 0 n x b (n.weights b) weight diff n' := by
  have hitems : (if weight = 0 then Function.update n.items b .nil else n.items) =
      Function.update n.items b (weightedSlot x weight) := by
    unfold weightedSlot
    split
    · rfl
    · rw [← hitem, Function.update_eq_self]
  obtain ⟨hshape, hslot, hleaf⟩ := weightedSlot_shape x weight
  have hcount : (if weight = 0 then n.itemCnt - 1 else n.itemCnt) =
      n.itemCnt + (slotCount (weightedSlot x weight) - slotCount (n.items b)) := by
    rw [hslot, hitem, slotCount]
    split <;> omega
  refine ⟨wrap64 (weight - n.weights b), { n with
      weights := Function.update n.weights b weight
      sumWeight := wrap64 (n.sumWeight + wrap64 (weight - n.weights b))
      items := Function.update n.items b (weightedSlot x weight)
      itemCnt := if weight = 0 then n.itemCnt - 1 else n.itemCnt }, ?_, ?_⟩
  · rw [WrsNode.setWeight]
    simp only [h.level, if_true, b.isLt, dif_pos, Fin.eta, hitems]
  · exact {
      shaped := h.replace (b := b) hshape rfl rfl rfl hcount
      entries := by rw [← hleaf]; exact lookup_leaf_replace rfl rfl
      count := rfl
      exact := by
        intro hgood hnonneg hold hsum
        have hpos := (hgood.slot b).nonneg
        have hle := hgood.weight_le b
        have hdiff : wrap64 (weight - n.weights b) = weight - n.weights b :=
          wrap64_eq (by omega) (by omega)
        have hwrap : wrap64 (n.sumWeight + wrap64 (weight - n.weights b)) =
            n.sumWeight + (weight - n.weights b) := by
          rw [hdiff]
          exact wrap64_eq (by omega) hsum
        exact ⟨NodeOk.replace hgood (b := b)
          (weightedSlot_ok x hnonneg) rfl rfl rfl rfl hwrap hcount,
          hwrap, hdiff⟩ }

/-- The change of a child is passed on. -/
theorem setWeight_inner (h : Shaped (l + 1) n) {x : ι} {b : Fin wrsBranches}
    {j : Nat} {c c' : WrsNode ι}
    {old weight diff : Int} (hj : j < 8 ^ (l + 1)) (hitem : n.items b = .node c)
    (hcall : (WrsNode.setWeight weight (l + 1) c j : Go Empty _) = .ok (diff, c'))
    (hc' : Weighted l c x j old weight diff c') (hle : Good l c → old ≤ c.sumWeight) :
    ∃ diff n', (WrsNode.setWeight weight (l + 2) n (8 ^ (l + 1) * b + j) : Go Empty _) =
      .ok (diff, n') ∧
      Weighted (l + 1) n x (8 ^ (l + 1) * b + j) old weight diff n' := by
  have hB : 0 < 8 ^ (l + 1) := Nat.pow_pos (by decide)
  have hdiv : (8 ^ (l + 1) * (b : Nat) + j) / 8 ^ (l + 1) = b := by
    rw [Nat.mul_add_div hB, Nat.div_eq_of_lt hj, Nat.add_zero]
  have hsub : 8 ^ (l + 1) * (b : Nat) + j - b * 8 ^ (l + 1) = j := by
    rw [Nat.mul_comm]
    omega
  have hcount : (if weight = 0 then n.itemCnt - 1 else n.itemCnt) =
      n.itemCnt + (slotCount (.node c') - slotCount (n.items b)) := by
    rw [hitem, slotCount, slotCount, hc'.count]
    split <;> omega
  refine ⟨diff, { n with
      items := Function.update n.items b (.node c')
      weights := Function.update n.weights b (wrap64 (n.weights b + diff))
      sumWeight := wrap64 (n.sumWeight + diff)
      itemCnt := if weight = 0 then n.itemCnt - 1 else n.itemCnt }, ?_, ?_⟩
  · rw [WrsNode.setWeight]
    simp only [h.level, Nat.succ_ne_zero, if_false, h.branchItems, hB.ne', hdiv, b.isLt, dif_pos,
      Fin.eta, hitem, hsub, hcall, ok_bind, pure_eq_ok]
  · exact {
      shaped := h.replace (b := b) (s := .node c') hc'.shaped rfl rfl rfl hcount
      entries := lookup_inner_replace rfl hj fun i => by
        rw [hc'.entries, hitem]
        rfl
      count := rfl
      exact := by
        intro hgood hnonneg hold hsum
        have hslot := hgood.slot b
        rw [hitem] at hslot
        obtain ⟨hc, hw⟩ := hslot
        have hbound := hgood.weight_le b
        have hle := hle hc
        obtain ⟨hgood', hsum', rfl⟩ := hc'.exact hc hnonneg (by omega) (by omega)
        have hwrap : wrap64 (n.sumWeight + (weight - old)) = n.sumWeight + (weight - old) :=
          wrap64_eq (by omega) hsum
        have hwrapb : wrap64 (n.weights b + (weight - old)) = c'.sumWeight := by
          rw [hsum', hw]
          exact wrap64_eq (by omega) (by omega)
        refine ⟨NodeOk.replace hgood (b := b) (s := .node c') (v := c'.sumWeight)
          ⟨hgood', rfl⟩ rfl rfl
          rfl (by rw [hwrapb]) ?_ hcount, hwrap, rfl⟩
        rw [hsum', hw]
        exact hwrap.trans (by omega) }

/-- By the level. -/
theorem setWeight_spec (h : Shaped l n) {x : ι} {k : Nat} {old : Int}
    (hentry : lookup l n k = some (x, old)) (weight : Int) :
    ∃ diff n', (WrsNode.setWeight weight (l + 1) n k : Go Empty _) = .ok (diff, n') ∧
      Weighted l n x k old weight diff n' := by
  induction l generalizing n k with
  | zero =>
    obtain ⟨b, rfl, hitem, rfl⟩ := entry_leaf hentry
    exact setWeight_leaf h hitem weight
  | succ l ih =>
    obtain ⟨b, j, c, hj, rfl, hitem, hcentry⟩ := entry_inner hentry
    have hslot := h.slot b
    rw [hitem] at hslot
    obtain ⟨diff, c', hcall, hc'⟩ := ih hslot hcentry
    exact setWeight_inner h hj hitem hcall hc' fun hc => (hc.entry_bounds hcentry).2

/-! ## `choose` -/

/-- The loop over the weights stops at the branch that `val` falls into. -/
theorem chosenBranch_spec (h : Good l n) (bs : List (Fin wrsBranches)) {val : Int} (h0 : 0 ≤ val)
    (hval : val < (bs.map n.weights).sum) (hmax : val < 2 ^ 63) :
    ∃ i rest, n.chosenBranch bs val = some (i, rest) ∧ 0 ≤ rest ∧ rest < n.weights i := by
  induction bs generalizing val with
  | nil => simp at hval; omega
  | cons b bs ih =>
    have hb := (h.slot b).nonneg
    rw [List.map_cons, List.sum_cons] at hval
    unfold WrsNode.chosenBranch
    split
    · next hlt => exact ⟨b, val, rfl, h0, hlt⟩
    · next hge =>
      rw [wrap64_eq (by omega) (by omega)]
      exact ih (by omega) (by omega) (by omega)

/-- Whatever is chosen is stored, also when the sums have wrapped around. -/
theorem Shaped.choose (h : Shaped l n) {fuel : Nat} {val v : Int} {x : ι}
    (hok : (WrsNode.choose fuel n val : Go Empty _) = .ok (x, v)) : ∃ k,
      lookup l n k = some (x, v) := by
  induction l generalizing n fuel val with
  | zero =>
    cases fuel with
    | zero => cases hok
    | succ fuel =>
      rw [WrsNode.choose] at hok
      split at hok
      · cases hok
      · next i rest _ =>
        have hslot := h.slot i
        cases hitem : n.items i with
        | nil => simp only [hitem] at hok; cases hok
        | item y =>
          simp only [hitem, h.level, if_true] at hok
          cases hok
          exact ⟨i, by rw [lookup_leaf, hitem]; rfl⟩
        | node c => rw [hitem] at hslot; exact absurd hslot id
  | succ l ih =>
    cases fuel with
    | zero => cases hok
    | succ fuel =>
      rw [WrsNode.choose] at hok
      split at hok
      · cases hok
      · next i rest _ =>
        have hslot := h.slot i
        cases hitem : n.items i with
        | nil => simp only [hitem] at hok; cases hok
        | item y => rw [hitem] at hslot; exact absurd hslot id
        | node c =>
          rw [hitem] at hslot
          simp only [hitem, h.level, Nat.succ_ne_zero, if_false] at hok
          obtain ⟨k, hk⟩ := ih hslot hok
          refine ⟨8 ^ (l + 1) * i + k, ?_⟩
          rw [lookup_inner n i (index_lt hk), hitem]
          exact hk

/-- Some stored item is chosen, with its weight. -/
theorem choose_spec (h : Good l n) {val : Int} (h0 : 0 ≤ val) (hval : val < n.sumWeight)
    (hmax : n.sumWeight < 2 ^ 63) :
    ∃ x v k, (WrsNode.choose (l + 1) n val : Go Empty _) = .ok (x, v) ∧
      lookup l n k = some (x, v) := by
  induction l generalizing n val with
  | zero =>
    rw [(good_iff.mp h).sum, Fin.sum_univ_def] at hval
    obtain ⟨i, rest, hbranch, hrest, hlt⟩ := chosenBranch_spec h _ h0 hval (by
      rw [(good_iff.mp h).sum, Fin.sum_univ_def] at hmax
      omega)
    have hslot := h.slot i
    rw [WrsNode.choose]
    simp only [hbranch]
    cases hitem : n.items i with
    | nil =>
      rw [hitem] at hslot
      have hzero : n.weights i = 0 := hslot
      omega
    | item x =>
      refine ⟨x, n.weights i, i, by simp only [h.level, if_true], ?_⟩
      rw [lookup_leaf, hitem]
      rfl
    | node c => rw [hitem] at hslot; exact absurd hslot id
  | succ l ih =>
    have hwmax : ∀ i, n.weights i < 2 ^ 63 := fun i => lt_of_le_of_lt (h.weight_le i) hmax
    have hvmax : val < 2 ^ 63 := lt_trans hval hmax
    rw [(good_iff.mp h).sum, Fin.sum_univ_def] at hval
    obtain ⟨i, rest, hbranch, hrest, hlt⟩ := chosenBranch_spec h _ h0 hval hvmax
    have hslot := h.slot i
    rw [WrsNode.choose]
    simp only [hbranch]
    cases hitem : n.items i with
    | nil =>
      rw [hitem] at hslot
      have hzero : n.weights i = 0 := hslot
      omega
    | item x => rw [hitem] at hslot; exact absurd hslot id
    | node c =>
      rw [hitem] at hslot
      obtain ⟨hc, hw⟩ := hslot
      obtain ⟨x, v, k, hchoose, hentry⟩ := ih hc hrest (by omega)
        (by rw [← hw]; exact hwmax i)
      have hk := index_lt hentry
      refine ⟨x, v, 8 ^ (l + 1) * i + k, ?_, ?_⟩
      · simp only [h.level, Nat.succ_ne_zero, if_false]
        exact hchoose
      · rw [lookup_inner n i hk, hitem]
        exact hentry

end Nodes

end MiniOpera.RandSelect
