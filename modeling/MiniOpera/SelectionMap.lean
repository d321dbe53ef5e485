import Mathlib.Algebra.BigOperators.Finsupp.Basic
import Mathlib.Data.Finsupp.Basic
import MiniOpera.RandSelect

/-!
# The selection set is a finite map

`Represents w m`: the tree of `w` is well formed, its leaf slots hold exactly
the items with a non-zero weight in the map `m`, and the index of `w` is a
bijection onto these slots. `setWeight` updates the map (`setWeight_represents`),
also when it puts a new root above the old one, and an iteration of `choose`
updates the weight of a stored item (`chooseStep_spec`).

`selection_refines_map`: so does every sequence of calls, and none panics.
-/

namespace MiniOpera.SelectionMap
open GoRuntime Blocks RandSelect

variable {ι : Type}

/-- The sum of all weights. -/
noncomputable def total (m : ι →₀ ℤ) : ℤ := m.sum fun _ v => v

theorem total_zero : total (0 : ι →₀ ℤ) = 0 := Finsupp.sum_zero_index

theorem total_update (m : ι →₀ ℤ) (x : ι) (v : ℤ) :
    total (m.update x v) = total m + (v - m x) := by
  have h := Finsupp.sum_update_add m x v (fun _ v => v) (fun _ => rfl) fun _ _ _ => rfl
  unfold total
  omega

structure Represents (w : WeightedRandomSelect ι) (m : ι →₀ ℤ) : Prop where
  good : Good w.root.level w.root
  index : ∀ x k, w.idx x = some k ↔ lookup w.root.level w.root k = some (x, m x)
  weight : ∀ k x v, lookup w.root.level w.root k = some (x, v) → v = m x
  absent : ∀ x, w.idx x = none ↔ m x = 0
  sum : w.root.sumWeight = total m

theorem represents_new : Represents (WeightedRandomSelect.new : WeightedRandomSelect ι) 0 where
  good := good_empty 0
  index x k := by
    have hnone : lookup 0 (WeightedRandomSelect.new : WeightedRandomSelect ι).root k = none :=
      lookup_empty 0 k
    exact ⟨fun h => (nomatch h), fun h => by cases hnone.symm.trans h⟩
  weight k x v h := by
    have hnone : lookup 0 (WeightedRandomSelect.new : WeightedRandomSelect ι).root k = none :=
      lookup_empty 0 k
    cases hnone.symm.trans h
  absent x := by simp [WeightedRandomSelect.new]
  sum := total_zero.symm

/-- The index is a bijection onto the leaf slots that hold an item, whatever the weights are. -/
structure Indexed (w : WeightedRandomSelect ι) : Prop where
  shaped : Shaped w.root.level w.root
  index : ∀ x k, w.idx x = some k ↔ ∃ v, lookup w.root.level w.root k = some (x, v)

theorem Represents.indexed {w : WeightedRandomSelect ι} {m : ι →₀ ℤ} (h : Represents w m) :
    Indexed w where
  shaped := h.good.shaped
  index x k := by
    rw [h.index]
    constructor
    · intro hk
      exact ⟨m x, hk⟩
    · rintro ⟨v, hv⟩
      rw [hv, h.weight k x v hv]

/-! ## A new root -/

theorem grow_other (root : WrsNode ι) {b : Fin wrsBranches} (hb : b ≠ 0) :
    (WeightedRandomSelect.grow root).items b = .nil ∧
      (WeightedRandomSelect.grow root).weights b = 0 := by
  simp [WeightedRandomSelect.grow, hb]

theorem lookup_grow {l : Nat} {root : WrsNode ι} :
    lookup (l + 1) (WeightedRandomSelect.grow root) = lookup l root := by
  have hB : 0 < 8 ^ (l + 1) := Nat.pow_pos (by decide)
  funext k
  by_cases hk : k < 8 ^ (l + 1)
  · have h := lookup_inner (WeightedRandomSelect.grow root) 0 hk
    rw [Fin.val_zero, Nat.mul_zero, Nat.zero_add] at h
    rw [h]
    rfl
  · rw [not_lt] at hk
    rw [lookup_none root hk]
    by_cases hk' : k < 8 ^ (l + 1) * 8
    · obtain ⟨b, j, hj, rfl⟩ := exists_place (c := wrsBranches) hB hk'
      have hb : b ≠ 0 := by
        rintro rfl
        rw [Fin.val_zero, Nat.mul_zero, Nat.zero_add] at hk
        omega
      rw [lookup_inner _ b hj, (grow_other root hb).1]
      rfl
    · exact lookup_none _ (by rw [pow_succ]; omega)

theorem shaped_grow {l : Nat} {root : WrsNode ι} (h : Shaped l root) :
    Shaped (l + 1) (WeightedRandomSelect.grow root) where
  level := congrArg (· + 1) h.level
  maxItems := by
    rw [WeightedRandomSelect.grow, h.maxItems, ← pow_succ]
  slots i := by
    by_cases hi : i = 0
    · subst hi
      exact h
    · rw [(grow_other root hi).1]
      exact trivial
  count := by
    simp only [WeightedRandomSelect.grow]
    rw [sum_measure_update slotCount (fun _ => .nil)]
    simp [slotCount]

theorem good_grow {l : Nat} {root : WrsNode ι} (h : Good l root) :
    Good (l + 1) (WeightedRandomSelect.grow root) where
  level := (shaped_grow h.shaped).level
  maxItems := (shaped_grow h.shaped).maxItems
  slots i := by
    by_cases hi : i = 0
    · subst hi
      exact ⟨h, rfl⟩
    · rw [(grow_other root hi).1]
      exact (grow_other root hi).2
  sum := by
    simp only [WeightedRandomSelect.grow]
    rw [sum_update (fun _ => 0)]
    simp
  count := Framed.count (shaped_grow h.shaped)

theorem Represents.grow {w : WeightedRandomSelect ι} {m : ι →₀ ℤ} (h : Represents w m) :
    Represents ⟨WeightedRandomSelect.grow w.root, w.idx⟩ m where
  good := good_grow h.good
  index x k := by
    show _ ↔ lookup (w.root.level + 1) _ k = _
    rw [lookup_grow]
    exact h.index x k
  weight k x v := by
    show lookup (w.root.level + 1) _ k = _ → _
    rw [lookup_grow]
    exact h.weight k x v
  absent := h.absent
  sum := h.sum

theorem Indexed.grow {w : WeightedRandomSelect ι} (h : Indexed w) :
    Indexed ⟨WeightedRandomSelect.grow w.root, w.idx⟩ where
  shaped := shaped_grow h.shaped
  index x k := by
    show _ ↔ ∃ v, lookup (w.root.level + 1) _ k = _
    rw [lookup_grow]
    exact h.index x k

theorem grow_room {root : WrsNode ι} (h : Shaped root.level root)
    (hfull : root.itemCnt = root.maxItems) :
    (WeightedRandomSelect.grow root).itemCnt < (WeightedRandomSelect.grow root).maxItems := by
  have hpow : (0 : Int) < 8 ^ (root.level + 1) := Int.pow_pos (by decide)
  have hmax := h.cast_maxItems
  simp only [WeightedRandomSelect.grow, Nat.cast_mul, hfull, hmax, Nat.cast_ofNat]
  omega

/-! ## `setWeight` -/

section SetWeight

variable {w w' : WeightedRandomSelect ι} {m : ι →₀ ℤ}

/-- An item has no slot but the one of its index. -/
theorem Indexed.only (h : Indexed w) {x : ι} {k k' : Nat}
    (hidx : w.idx x = some k ∨ w.idx x = none) (hk : k' ≠ k) (u : Int) :
    lookup w.root.level w.root k' ≠ some (x, u) := by
  intro hsome
  have hx := (h.index x k').mpr ⟨u, hsome⟩
  rcases hidx with hidx | hidx <;> rw [hx] at hidx
  · exact hk (Option.some.inj hidx)
  · cases hidx

variable [DecidableEq ι]

/-- One slot and one index entry change together. -/
theorem Indexed.replace (h : Indexed w) {x : ι} {k : Nat} {e : Option Int}
    (hshaped : Shaped w.root.level w'.root)
    (hslot : ∀ y u, lookup w.root.level w.root k = some (y, u) → y = x)
    (hidx : w.idx x = some k ∨ w.idx x = none)
    (hentries : lookup w.root.level w'.root =
      Function.update (lookup w.root.level w.root) k (e.map fun v => (x, v)))
    (hindex : w'.idx = Function.update w.idx x (e.map fun _ => k)) : Indexed w' where
  shaped := by rw [hshaped.level]; exact hshaped
  index y k' := by
    rw [hshaped.level, hentries, hindex]
    by_cases hy : y = x
    · subst hy
      rw [Function.update_self]
      by_cases hk : k' = k
      · subst hk
        rw [Function.update_self]
        cases e <;> simp
      · rw [Function.update_of_ne hk]
        constructor
        · intro hsome
          obtain ⟨v, -, hkk⟩ := Option.map_eq_some_iff.mp hsome
          exact absurd hkk.symm hk
        · rintro ⟨v, hv⟩
          exact absurd hv (h.only hidx hk v)
    · rw [Function.update_of_ne hy, h.index y k']
      by_cases hk : k' = k
      · subst hk
        rw [Function.update_self]
        constructor
        · rintro ⟨v, hv⟩
          exact absurd (hslot y v hv) hy
        · rintro ⟨v, hv⟩
          obtain ⟨u, -, hitem⟩ := Option.map_eq_some_iff.mp hv
          exact absurd (congrArg Prod.fst hitem).symm hy
      · rw [Function.update_of_ne hk]

/-- One slot, one index entry and one weight change together. -/
theorem Represents.replace (h : Represents w m) {x : ι} {k : Nat} {v : Int}
    (hgood : Good w.root.level w'.root)
    (hslot : ∀ y u, lookup w.root.level w.root k = some (y, u) → y = x)
    (hidx : w.idx x = some k ∨ w.idx x = none)
    (hentries : lookup w.root.level w'.root =
      Function.update (lookup w.root.level w.root) k (if v = 0 then none else some (x, v)))
    (hindex : w'.idx = Function.update w.idx x (if v = 0 then none else some k))
    (hsum : w'.root.sumWeight = w.root.sumWeight + (v - m x)) : Represents w' (m.update x v) := by
  have hindexed : Indexed w' := by
    refine h.indexed.replace (e := if v = 0 then none else some v) hgood.shaped hslot hidx ?_ ?_
    · rw [hentries]
      split <;> rfl
    · rw [hindex]
      split <;> rfl
  have hweight : ∀ k' y u, lookup w'.root.level w'.root k' = some (y, u) →
      u = m.update x v y := by
    intro k' y u
    rw [hgood.level, hentries, Finsupp.update_apply]
    by_cases hk : k' = k
    · subst hk
      rw [Function.update_self]
      intro hsome
      obtain ⟨-, hitem⟩ := Option.ite_none_left_eq_some.mp hsome
      cases hitem
      rw [if_pos rfl]
    · rw [Function.update_of_ne hk]
      intro hsome
      have hy : y ≠ x := by
        rintro rfl
        exact h.indexed.only hidx hk u hsome
      rw [if_neg hy]
      exact h.weight k' y u hsome
  refine ⟨by rw [hgood.level]; exact hgood, ?_, hweight, ?_, by rw [hsum, h.sum, total_update]⟩
  · intro y k'
    rw [hindexed.index]
    constructor
    · rintro ⟨u, hu⟩
      rw [hu, hweight k' y u hu]
    · intro hsome
      exact ⟨_, hsome⟩
  · intro y
    rw [hindex, Finsupp.update_apply]
    by_cases hy : y = x
    · subst hy
      rw [Function.update_self, if_pos rfl]
      split <;> simp_all
    · rw [Function.update_of_ne hy, if_neg hy]
      exact h.absent y

/-- Where a new item goes. -/
theorem insert_indexed (h : Indexed w) {x : ι} (hidx : w.idx x = none) (v : Int)
    (hroom : w.root.itemCnt < w.root.maxItems) :
    ∃ k n', (w.root.insert x v (w.root.level + 1) : Go Empty _) = .ok (k, n') ∧
      Inserted w.root.level w.root x v k n' ∧
        Indexed ⟨n', Function.update w.idx x (some k)⟩ := by
  rw [h.shaped.cast_maxItems] at hroom
  obtain ⟨k, n', hcall, hn'⟩ := insert_spec h.shaped hroom x v
  obtain ⟨u, hu⟩ := hn'.stored
  refine ⟨k, n', hcall, hn', h.replace (e := some u) hn'.shaped ?_ (.inr hidx) hu rfl⟩
  intro y u hsome
  rw [hn'.fresh] at hsome
  cases hsome

/-- `setWeight` returns for every weight, and moves no other item. -/
theorem setWeight_indexed (h : Indexed w) (x : ι) (v : Int) :
    ∃ w', (w.setWeight x v : Go Empty _) = .ok w' ∧ Indexed w' ∧
      (v = 0 → w'.idx x = none) ∧ ∀ y, y ≠ x → w'.idx y = w.idx y := by
  unfold WeightedRandomSelect.setWeight
  cases hidx : w.idx x with
  | some k =>
    obtain ⟨old, hentry⟩ := (h.index x k).mp hidx
    obtain ⟨diff, n', hcall, hn'⟩ := setWeight_spec h.shaped hentry v
    have hindex : (if v = 0 then Function.update w.idx x none else w.idx) =
        Function.update w.idx x ((if v = 0 then none else some v).map fun _ => k) := by
      split
      · rfl
      · rw [Option.map_some, ← hidx, Function.update_eq_self]
    refine ⟨⟨n', if v = 0 then Function.update w.idx x none else w.idx⟩, ?_, ?_, ?_, ?_⟩
    · simp only [hcall, ok_bind, pure_eq_ok]
    · refine h.replace hn'.shaped ?_ (.inl hidx) ?_ hindex
      · intro y u hsome
        rw [hentry] at hsome
        cases hsome
        rfl
      · rw [hn'.entries]
        split <;> rfl
    · intro hv
      simp only [if_pos hv, Function.update_self]
    · intro y hy
      rw [hindex]
      exact Function.update_of_ne hy ..
  | none =>
    by_cases hv0 : v = 0
    · exact ⟨w, by simp [hv0], h, fun _ => hidx, fun _ _ => rfl⟩
    · have hbounds := h.shaped.count_bounds
      have hmax := h.shaped.cast_maxItems
      have hothers : ∀ (k : Nat) (y : ι), y ≠ x →
        Function.update w.idx x (some k) y = w.idx y :=
        fun _ _ hy => Function.update_of_ne hy ..
      rw [if_pos hv0]
      by_cases hfull : w.root.itemCnt = w.root.maxItems
      · obtain ⟨k, n', hcall, -, hw'⟩ := insert_indexed h.grow hidx v
          (grow_room h.shaped hfull)
        refine ⟨_, ?_, hw', fun hv => absurd hv hv0, hothers k⟩
        simp only [if_pos hfull, hcall, ok_bind, pure_eq_ok]
      · obtain ⟨k, n', hcall, -, hw'⟩ := insert_indexed h hidx v (by omega)
        refine ⟨_, ?_, hw', fun hv => absurd hv hv0, hothers k⟩
        simp only [if_neg hfull, hcall, ok_bind, pure_eq_ok]

theorem insert_represents (h : Represents w m) {x : ι} {v : Int}
    (hidx : w.idx x = none) (hv : 0 < v)
    (hroom : w.root.itemCnt < w.root.maxItems) (hnew : w.root.sumWeight + v < 2 ^ 63) :
    ∃ k n', (w.root.insert x v (w.root.level + 1) : Go Empty _) = .ok (k, n') ∧
      Represents ⟨n', Function.update w.idx x (some k)⟩ (m.update x v) := by
  obtain ⟨k, n', hcall, hn', -⟩ := insert_indexed h.indexed hidx v hroom
  obtain ⟨hgood, hentries, hsum⟩ := hn'.exact h.good hv hnew
  refine ⟨k, n', hcall, h.replace (k := k) hgood ?_ (.inr hidx) ?_ ?_ ?_⟩
  · intro y u hsome
    rw [hn'.fresh] at hsome
    cases hsome
  · rw [if_neg hv.ne']
    exact hentries
  · rw [if_neg hv.ne']
  · rw [(h.absent x).mp hidx, Int.sub_zero]
    exact hsum

theorem setWeight_represents (h : Represents w m) {x : ι} {v : Int} (hv : 0 ≤ v)
    (hold : total m < 2 ^ 63) (hnew : total (m.update x v) < 2 ^ 63) :
    ∃ w', (w.setWeight x v : Go Empty _) = .ok w' ∧ Represents w' (m.update x v) := by
  rw [total_update, ← h.sum] at hnew
  rw [← h.sum] at hold
  unfold WeightedRandomSelect.setWeight
  cases hidx : w.idx x with
  | some k =>
    have hentry := (h.index x k).mp hidx
    obtain ⟨diff, n', hcall, hn'⟩ := setWeight_spec h.good.shaped hentry v
    obtain ⟨hgood, hsum, -⟩ := hn'.exact h.good hv hold hnew
    refine ⟨⟨n', if v = 0 then Function.update w.idx x none else w.idx⟩, ?_, ?_⟩
    · simp only [hcall, ok_bind, pure_eq_ok]
    · refine h.replace hgood ?_ (.inl hidx) hn'.entries ?_ hsum
      · intro y u hsome
        rw [hentry] at hsome
        cases hsome
        rfl
      · dsimp only
        split
        · rfl
        · rw [← hidx, Function.update_eq_self]
  | none =>
    have hzero := (h.absent x).mp hidx
    by_cases hv0 : v = 0
    · refine ⟨w, by simp [hv0], ?_⟩
      rw [hv0, ← hzero, Finsupp.update_self]
      exact h
    · have hpos : 0 < v := lt_of_le_of_ne hv (Ne.symm hv0)
      rw [hzero, Int.sub_zero] at hnew
      have hbounds := h.good.shaped.count_bounds
      have hmax := h.good.shaped.cast_maxItems
      rw [if_pos hv0]
      by_cases hfull : w.root.itemCnt = w.root.maxItems
      · -- the old root becomes a child: nothing else changes its index
        obtain ⟨k, n', hcall, hrep⟩ := insert_represents h.grow hidx hpos
          (grow_room h.good.shaped hfull) hnew
        refine ⟨_, ?_, hrep⟩
        simp only [if_pos hfull, hcall, ok_bind, pure_eq_ok]
      · obtain ⟨k, n', hcall, hrep⟩ := insert_represents h hidx hpos (by omega) hnew
        refine ⟨_, ?_, hrep⟩
        simp only [if_neg hfull, hcall, ok_bind, pure_eq_ok]

end SetWeight

/-! ## `choose` -/

section Choose

variable [DecidableEq ι]

/-- The item an iteration draws. -/
def drawnItem (random : Nat) (w : WeightedRandomSelect ι) : Option ι :=
  match WeightedRandomSelect.int63n random w.root.sumWeight >>= w.root.choose
    (w.root.level + 1) with
  | .ok (x, _) => some x
  | .error _ => none

/-- The weight that the chosen item is given is not negative and keeps the total
in range. -/
def stepFits (random : Nat) (weight : ι → Int) (w : WeightedRandomSelect ι) : Bool :=
  match WeightedRandomSelect.int63n random w.root.sumWeight >>= w.root.choose
    (w.root.level + 1) with
  | .ok (x, last) => 0 ≤ weight x ∧ w.root.sumWeight + (weight x - last) < 2 ^ 63
  | .error _ => true

/-- So does every iteration. -/
def chooseFits (random coin : Nat → Nat) (weight : Nat → ι → Int) :
    Nat → Nat → WeightedRandomSelect ι → Bool
  | 0, _, _ => true
  | fuel + 1, t, w =>
    stepFits (random t) (weight t) w &&
      match w.chooseStep (random t) (coin t) (weight t) with
      | .ok (w, none) => chooseFits random coin weight fuel (t + 1) w
      | _ => true

/-- Weights of stored items are replaced by later ones. -/
inductive Redrawn (weight : Nat → ι → Int) : (ι →₀ ℤ) → (ι →₀ ℤ) → Prop
  | refl (m : ι →₀ ℤ) : Redrawn weight m m
  | next {m m' : ι →₀ ℤ} (t : Nat) (x : ι) (hx : m x ≠ 0)
      (h : Redrawn weight (m.update x (weight t x)) m') : Redrawn weight m m'

variable {w : WeightedRandomSelect ι} {m : ι →₀ ℤ}

omit [DecidableEq ι] in
/-- A stored weight is positive and part of the total. -/
theorem Represents.stored (h : Represents w m) {x : ι} (hx : m x ≠ 0) :
    0 < m x ∧ m x ≤ total m := by
  cases hidx : w.idx x with
  | none => exact absurd ((h.absent x).mp hidx) hx
  | some k =>
    rw [← h.sum]
    exact h.good.entry_bounds ((h.index x k).mp hidx)

theorem int63n_spec (random : Nat) {n : Int} (hn : 0 < n) :
    ∃ val, WeightedRandomSelect.int63n random n = .ok val ∧ 0 ≤ val ∧ val < n :=
  ⟨random % n, if_neg (not_le.mpr hn), Int.emod_nonneg _ hn.ne', Int.emod_lt_of_pos _ hn⟩

theorem storeChanged_spec (h : Represents w m) (htotal : total m < 2 ^ 63) {x : ι}
    {v : Int} (hv : 0 ≤ v)
    (hnew : total (m.update x v) < 2 ^ 63) :
    ∃ w', w.storeChanged x (m x) v = .ok w' ∧ Represents w' (m.update x v) := by
  unfold WeightedRandomSelect.storeChanged
  split
  · exact setWeight_represents h hv htotal hnew
  · next hsame =>
    rw [not_not] at hsame
    exact ⟨w, rfl, by rw [hsame, Finsupp.update_self]; exact h⟩

/-- An iteration ends the loop on an empty set, and otherwise stores the weight
of an item that was stored before; it goes on only if that weight is less. -/
theorem chooseStep_spec (h : Represents w m) (htotal : total m < 2 ^ 63) {random : Nat}
    {weight : ι → Int} (hfits : stepFits random weight w = true) (coin : Nat) :
    (total m = 0 ∧ drawnItem random w = none ∧
      w.chooseStep random coin weight = .ok (w, some none)) ∨
    ∃ x w', drawnItem random w = some x ∧ m x ≠ 0 ∧
      Represents w' (m.update x (weight x)) ∧
      total (m.update x (weight x)) < 2 ^ 63 ∧
      (w.chooseStep random coin weight = .ok (w', some (some x)) ∧ 0 < weight x ∨
        w.chooseStep random coin weight = .ok (w', none) ∧ 0 ≤ weight x ∧
          weight x < m x) := by
  have hnonneg := h.good.sum_nonneg
  have hsum := h.sum
  unfold WeightedRandomSelect.chooseStep
  by_cases hzero : w.root.sumWeight = 0
  · exact .inl ⟨by rw [← hsum, hzero], by rw [drawnItem, hzero]; rfl, if_pos hzero⟩
  · obtain ⟨val, hval, h0, hlt⟩ := int63n_spec random (n := w.root.sumWeight) (by omega)
    obtain ⟨x, v, k, hchoose, hentry⟩ := choose_spec h.good h0 hlt (by omega)
    obtain rfl := h.weight k x v hentry
    have hpos := (h.good.entry_bounds hentry).1
    rw [stepFits, hval, ok_bind, hchoose] at hfits
    obtain ⟨hweight, hbelow⟩ := of_decide_eq_true hfits
    have hnew : total (m.update x (weight x)) < 2 ^ 63 := by
      rw [total_update, ← hsum]
      exact hbelow
    obtain ⟨w', hstore, hrep⟩ := storeChanged_spec h htotal hweight hnew
    have hdrawn : drawnItem random w = some x := by rw [drawnItem, hval, ok_bind, hchoose]
    refine .inr ⟨x, w', hdrawn, hpos.ne', hrep, hnew, ?_⟩
    simp only [if_neg hzero, hval, ok_bind, hchoose, hstore]
    by_cases hge : weight x ≥ m x
    · exact .inl ⟨by rw [if_pos hge]; rfl, by omega⟩
    · obtain ⟨flip, hflip, hf0, -⟩ := int63n_spec coin hpos
      rw [if_neg hge]
      simp only [hflip, ok_bind, pure_eq_ok]
      by_cases hkeep : flip < weight x
      · exact .inl ⟨by rw [if_pos hkeep], by omega⟩
      · exact .inr ⟨by rw [if_neg hkeep], hweight, by omega⟩

/-- A weight that is never zero is replaced by another. -/
theorem Redrawn.stored {weight : Nat → ι → Int} {m' : ι →₀ ℤ}
    (h : Redrawn weight m m') {x : ι}
    (hx : m x ≠ 0) (hweight : ∀ t, weight t x ≠ 0) : m' x ≠ 0 := by
  induction h with
  | refl m => exact hx
  | next t y _ _ ih =>
    apply ih
    rw [Finsupp.update_apply]
    split
    · next heq =>
      rw [← heq]
      exact hweight t
    · exact hx

/-- The loop ends before the total, which falls with every iteration, is used up.
It picks an item that has a weight then, and gives up when nothing is stored any more. -/
theorem choose_represents (h : Represents w m) (htotal : total m < 2 ^ 63)
    {random coin : Nat → Nat} {weight : Nat → ι → Int} {fuel t : Nat}
    (hfuel : total m < fuel)
    (hfits : chooseFits random coin weight fuel t w = true) :
    ∃ r w' m', w.choose random coin weight fuel t = .ok (r, w') ∧ Redrawn weight m m' ∧
      Represents w' m' ∧ total m' < 2 ^ 63 ∧ (∀ x, r = some x → ∃ t, 0 < weight t x) ∧
      (r = none → total m' = 0) := by
  induction fuel generalizing w m t with
  | zero =>
    have hnonneg := h.good.sum_nonneg
    rw [h.sum] at hnonneg
    omega
  | succ fuel ih =>
    rw [chooseFits, Bool.and_eq_true] at hfits
    obtain ⟨hstep, hrest⟩ := hfits
    rw [WeightedRandomSelect.choose]
    rcases chooseStep_spec h htotal hstep (coin t) with
      ⟨hzero, -, hcall⟩ | ⟨x, w', -, hx, hrep, hnew,
        ⟨hcall, hpos⟩ | ⟨hcall, -, hless⟩⟩
    · refine ⟨none, w, m, by rw [hcall]; rfl, .refl m, h, htotal, ?_, fun _ => hzero⟩
      intro y hy
      cases hy
    · refine ⟨some x, w', _, by rw [hcall]; rfl, .next t x hx (.refl _), hrep, hnew, ?_, ?_⟩
      · intro y hy
        cases hy
        exact ⟨t, hpos⟩
      · intro hnone
        cases hnone
    · rw [hcall] at hrest
      have hfall : total (m.update x (weight t x)) < fuel := by
        rw [total_update]
        omega
      obtain ⟨r, w'', m', hchoose, hred, hrep', hnew', hpick⟩ := ih hrep hnew hfall hrest
      exact ⟨r, w'', m', by rw [hcall]; exact hchoose, .next t x hx hred, hrep', hnew', hpick⟩

/-- One iteration with any weights: it draws a stored item and may store it again. -/
theorem chooseStep_indexed (h : Indexed w) {random coin : Nat} {weight : ι → Int}
    {w' : WeightedRandomSelect ι} {result : Option (Option ι)}
    (hok : w.chooseStep random coin weight = .ok (w', result)) :
    Indexed w' ∧ (∀ y, w'.idx y ≠ none → w.idx y ≠ none) ∧
      ∀ x, result = some (some x) → w.idx x ≠ none := by
  unfold WeightedRandomSelect.chooseStep at hok
  split at hok
  · cases hok
    refine ⟨h, fun _ hy => hy, ?_⟩
    intro x hx
    cases hx
  · obtain ⟨val, -, hok⟩ := bind_eq_ok hok
    obtain ⟨⟨x, last⟩, hchoose, hok⟩ := bind_eq_ok hok
    obtain ⟨w1, hstore, hok⟩ := bind_eq_ok hok
    obtain ⟨k, hk⟩ := h.shaped.choose hchoose
    have hx : w.idx x ≠ none := by
      rw [(h.index x k).mpr ⟨last, hk⟩]
      exact Option.some_ne_none k
    have hw1 : Indexed w1 ∧ ∀ y, w1.idx y ≠ none → w.idx y ≠ none := by
      unfold WeightedRandomSelect.storeChanged at hstore
      split at hstore
      · obtain ⟨w2, hcall, hw2, -, hothers⟩ := setWeight_indexed h x (weight x)
        cases hcall.symm.trans hstore
        refine ⟨hw2, ?_⟩
        intro y hy
        by_cases hyx : y = x
        · rw [hyx]
          exact hx
        · rw [← hothers y hyx]
          exact hy
      · cases hstore
        exact ⟨h, fun _ hy => hy⟩
    split at hok
    · cases hok
      refine ⟨hw1.1, hw1.2, ?_⟩
      intro y hy
      cases hy
      exact hx
    · obtain ⟨flip, -, hok⟩ := bind_eq_ok hok
      cases hok
      refine ⟨hw1.1, hw1.2, ?_⟩
      intro y hy
      split at hy
      · cases hy
        exact hx
      · cases hy

/-- `choose` with any weights, as far as it returns. -/
theorem choose_indexed (h : Indexed w) {random coin : Nat → Nat} {weight : Nat → ι → Int}
    {fuel t : Nat} {r : Option ι} {w' : WeightedRandomSelect ι}
    (hok : w.choose random coin weight fuel t = .ok (r, w')) :
    Indexed w' ∧ (∀ y, w'.idx y ≠ none → w.idx y ≠ none) ∧ ∀ x, r = some x →
      w.idx x ≠ none := by
  induction fuel generalizing w t with
  | zero => cases hok
  | succ fuel ih =>
    rw [WeightedRandomSelect.choose] at hok
    obtain ⟨⟨w1, result⟩, hstep, hok⟩ := bind_eq_ok hok
    obtain ⟨hw1, hkept, hpick⟩ := chooseStep_indexed h hstep
    cases result with
    | some r1 =>
      cases hok
      exact ⟨hw1, hkept, fun x hx => hpick x (congrArg some hx)⟩
    | none =>
      obtain ⟨hw', hkept', hpick'⟩ := ih hw1 hok
      exact ⟨hw', fun y hy => hkept y (hkept' y hy), fun x hx => hkept x (hpick' x hx)⟩

end Choose

/-! ## Calls -/

inductive Call (ι : Type)
  | setWeight (x : ι) (v : Int)
  | update (x : ι) (weight : ι → Int)
  | remove (x : ι)
  | choose (random coin : Nat → Nat) (weight : Nat → ι → Int)

section Calls

variable [DecidableEq ι]

/-- A call, without the item that `choose` returns. -/
def exec (w : WeightedRandomSelect ι) : Call ι → Go Empty (WeightedRandomSelect ι)
  | .setWeight x v => w.setWeight x v
  | .update x weight => w.update weight x
  | .remove x => w.remove x
  | .choose random coin weight => do
    let (_, w) ← w.choose random coin weight (w.root.sumWeight.toNat + 1) 0
    return w

def run (w : WeightedRandomSelect ι) : List (Call ι) → Go Empty (WeightedRandomSelect ι)
  | [] => .ok w
  | c :: rest => do
    let w ← exec w c
    run w rest

/-- The weight an item is stored with. -/
def storedWeight (w : WeightedRandomSelect ι) (x : ι) : Int :=
  match w.idx x with
  | none => 0
  | some k => ((lookup w.root.level w.root k).map Prod.snd).getD 0

/-- The weights that a call stores are not negative and keep the total in range. -/
def fits (w : WeightedRandomSelect ι) : Call ι → Bool
  | .setWeight x v => 0 ≤ v ∧ w.root.sumWeight + (v - storedWeight w x) < 2 ^ 63
  | .update x weight => 0 ≤ weight x ∧ w.root.sumWeight + (weight x - storedWeight w x) < 2 ^ 63
  | .remove _ => true
  | .choose random coin weight => chooseFits random coin weight (w.root.sumWeight.toNat + 1) 0 w

def runFits (w : WeightedRandomSelect ι) : List (Call ι) → Bool
  | [] => true
  | c :: rest =>
    fits w c && match exec w c with
      | .ok w => runFits w rest
      | .error _ => true

/-- A call on the map; `choose` replaces weights of stored items. -/
inductive MapStep : (ι →₀ ℤ) → Call ι → (ι →₀ ℤ) → Prop
  | setWeight (m : ι →₀ ℤ) (x : ι) (v : Int) : MapStep m (.setWeight x v) (m.update x v)
  | update (m : ι →₀ ℤ) (x : ι) (weight : ι → Int) :
      MapStep m (.update x weight) (m.update x (weight x))
  | remove (m : ι →₀ ℤ) (x : ι) : MapStep m (.remove x) (m.update x 0)
  | choose {m m' : ι →₀ ℤ} (random coin : Nat → Nat) {weight : Nat → ι → Int}
      (h : Redrawn weight m m') : MapStep m (.choose random coin weight) m'

inductive MapRun : (ι →₀ ℤ) → List (Call ι) → (ι →₀ ℤ) → Prop
  | nil (m : ι →₀ ℤ) : MapRun m [] m
  | cons {m m' m'' : ι →₀ ℤ} {c : Call ι} {rest : List (Call ι)} (h : MapStep m c m')
      (hrest : MapRun m' rest m'') : MapRun m (c :: rest) m''

variable {w : WeightedRandomSelect ι} {m : ι →₀ ℤ}

omit [DecidableEq ι] in
theorem Represents.storedWeight (h : Represents w m) (x : ι) : storedWeight w x = m x := by
  unfold SelectionMap.storedWeight
  split
  · next hidx => exact ((h.absent x).mp hidx).symm
  · next k hidx =>
    rw [(h.index x k).mp hidx]
    rfl

/-- One call. -/
theorem exec_represents (h : Represents w m) (htotal : total m < 2 ^ 63) {c : Call ι}
    (hfits : fits w c = true) :
    ∃ w' m', exec w c = .ok w' ∧ MapStep m c m' ∧ Represents w' m' ∧ total m' < 2 ^ 63 := by
  have hstore : ∀ x v, 0 ≤ v → total (m.update x v) < 2 ^ 63 →
    ∃ w', w.setWeight x v = .ok w' ∧
      Represents w' (m.update x v) := fun x v hv hnew => setWeight_represents h hv htotal hnew
  have hrange : ∀ x v, w.root.sumWeight + (v - storedWeight w x) < 2 ^ 63 →
      total (m.update x v) < 2 ^ 63 := by
    intro x v hlt
    rw [total_update, ← h.sum, ← h.storedWeight x]
    exact hlt
  cases c with
  | setWeight x v =>
    obtain ⟨hv, hlt⟩ := of_decide_eq_true hfits
    obtain ⟨w', hcall, hrep⟩ := hstore x v hv (hrange x v hlt)
    exact ⟨w', _, hcall, .setWeight m x v, hrep, hrange x v hlt⟩
  | update x weight =>
    obtain ⟨hv, hlt⟩ := of_decide_eq_true hfits
    obtain ⟨w', hcall, hrep⟩ := hstore x _ hv (hrange x _ hlt)
    exact ⟨w', _, hcall, .update m x weight, hrep, hrange x _ hlt⟩
  | remove x =>
    have hnew : total (m.update x 0) < 2 ^ 63 := by
      rw [total_update]
      by_cases hx : m x = 0
      · omega
      · have := (h.stored hx).1
        omega
    obtain ⟨w', hcall, hrep⟩ := hstore x 0 (Int.le_refl 0) hnew
    exact ⟨w', _, hcall, .remove m x, hrep, hnew⟩
  | choose random coin weight =>
    have hfuel : total m < ((w.root.sumWeight.toNat + 1 : Nat) : Int) := by
      rw [h.sum]
      omega
    obtain ⟨r, w', m', hcall, hred, hrep, hnew, -⟩ := choose_represents h htotal hfuel hfits
    exact ⟨w', m', by simp only [exec, hcall, ok_bind, pure_eq_ok],
      .choose random coin hred, hrep,
      hnew⟩

/-- A whole sequence, by induction on it. -/
theorem run_represents (h : Represents w m) (htotal : total m < 2 ^ 63) {calls : List (Call ι)}
    (hfits : runFits w calls = true) :
    ∃ w' m', run w calls = .ok w' ∧ MapRun m calls m' ∧ Represents w' m' ∧
      total m' < 2 ^ 63 := by
  induction calls generalizing w m with
  | nil => exact ⟨w, m, rfl, .nil m, h, htotal⟩
  | cons c rest ih =>
    rw [runFits, Bool.and_eq_true] at hfits
    obtain ⟨hc, hrest⟩ := hfits
    obtain ⟨w', m', hcall, hstep, hrep, hnew⟩ := exec_represents h htotal hc
    rw [hcall] at hrest
    obtain ⟨w'', m'', hrun, hmap, hrep', htotal'⟩ := ih hrep hnew hrest
    exact ⟨w'', m'', by rw [run, hcall]; exact hrun, .cons hstep hmap, hrep', htotal'⟩

/-! ## Sums in range -/

/-- The stored sum is that of the weights, and an `int64`. -/
def InRange (w : WeightedRandomSelect ι) : Prop := ∃ m, Represents w m ∧ total m < 2 ^ 63

omit [DecidableEq ι] in
theorem inRange_new : InRange (WeightedRandomSelect.new : WeightedRandomSelect ι) :=
  ⟨0, represents_new, by rw [total_zero]; decide⟩

omit [DecidableEq ι] in
/-- Something is stored if the sum is positive, and the other way round. -/
theorem Represents.sum_pos_iff (h : Represents w m) : 0 < w.root.sumWeight ↔
    ∃ x, m x ≠ 0 := by
  constructor
  · intro hpos
    by_contra hnone
    have hzero : m = 0 := Finsupp.ext fun x => by_contra fun hx => hnone ⟨x, hx⟩
    rw [h.sum, hzero, total_zero] at hpos
    exact absurd hpos (lt_irrefl _)
  · rintro ⟨x, hx⟩
    obtain ⟨hpos, hle⟩ := h.stored hx
    rw [h.sum]
    omega

omit [DecidableEq ι] in
theorem InRange.stored (h : InRange w) (hpos : 0 < w.root.sumWeight) :
    ∃ x, 0 < SelectionMap.storedWeight w x := by
  obtain ⟨m, hrep, -⟩ := h
  obtain ⟨x, hx⟩ := hrep.sum_pos_iff.mp hpos
  refine ⟨x, ?_⟩
  rw [hrep.storedWeight]
  exact (hrep.stored hx).1

theorem InRange.update (h : InRange w) {x : ι} {weight : ι → Int}
    (hfits : fits w (.update x weight) = true) :
    ∃ w', w.update weight x = .ok w' ∧ InRange w' ∧
      (0 < weight x → 0 < w'.root.sumWeight) := by
  obtain ⟨m, hrep, htotal⟩ := h
  obtain ⟨w', m', hcall, hstep, hrep', htotal'⟩ := exec_represents hrep htotal hfits
  cases hstep
  refine ⟨w', hcall, ⟨_, hrep', htotal'⟩, ?_⟩
  intro hpos
  refine hrep'.sum_pos_iff.mpr ⟨x, ?_⟩
  rw [Finsupp.update_apply, if_pos rfl]
  exact hpos.ne'

theorem InRange.remove (h : InRange w) (x : ι) : ∃ w', w.remove x = .ok w' ∧ InRange w' := by
  obtain ⟨m, hrep, htotal⟩ := h
  obtain ⟨w', m', hcall, -, hrep', htotal'⟩ := exec_represents hrep htotal (c := .remove x) rfl
  exact ⟨w', hcall, m', hrep', htotal'⟩

/-- Weights that are never zero cannot all be used up. -/
theorem InRange.choose (h : InRange w) {random coin : Nat → Nat} {weight : Nat → ι → Int}
    (hfits : fits w (.choose random coin weight) = true) :
    ∃ r w', w.choose random coin weight (w.root.sumWeight.toNat + 1) 0 = .ok (r, w') ∧
      InRange w' ∧
      (∀ x, r = some x → ∃ t, 0 < weight t x) ∧
      (0 < w.root.sumWeight → (∀ t x, weight t x ≠ 0) → r ≠ none ∧
        0 < w'.root.sumWeight) := by
  obtain ⟨m, hrep, htotal⟩ := h
  have hfuel : total m < ((w.root.sumWeight.toNat + 1 : Nat) : Int) := by
    rw [hrep.sum]
    omega
  obtain ⟨r, w', m', hcall, hred, hrep', htotal', hpick, hnone⟩ :=
    choose_represents hrep htotal hfuel hfits
  refine ⟨r, w', hcall, ⟨m', hrep', htotal'⟩, hpick, ?_⟩
  intro hpos hweight
  obtain ⟨x, hx⟩ := hrep.sum_pos_iff.mp hpos
  have hleft := hrep'.sum_pos_iff.mpr ⟨x, hred.stored hx fun t => hweight t x⟩
  refine ⟨?_, hleft⟩
  intro hend
  rw [hrep'.sum, hnone hend] at hleft
  exact absurd hleft (lt_irrefl _)

end Calls

/-! ## Every node -/

/-- The nodes of a tree. -/
inductive NodeOf (root : WrsNode ι) : WrsNode ι → Prop
  | root : NodeOf root root
  | child {n c : WrsNode ι} {i : Fin wrsBranches} (h : NodeOf root n) (hi : n.items i = .node c) :
      NodeOf root c

/-- Sums, counts and bounds of a node, in full. -/
structure Exact (n : WrsNode ι) : Prop where
  sum : n.sumWeight = ∑ i, n.weights i
  child : ∀ i c, n.items i = .node c → n.weights i = c.sumWeight
  count : n.itemCnt =
    ∑ k ∈ Finset.range (8 ^ (n.level + 1)), if (lookup n.level n k).isSome then 1 else 0
  bound : n.itemCnt ≤ n.maxItems
  maxItems : n.maxItems = 8 ^ (n.level + 1)

theorem exact_of_good {l : Nat} {n : WrsNode ι} (h : Good l n) : Exact n where
  sum := (good_iff.mp h).sum
  child i c hi := by
    have hslot := h.slot i
    rw [hi] at hslot
    cases l with
    | zero => exact absurd hslot id
    | succ l => exact hslot.2
  count := by rw [h.level]; exact h.shaped.count_entries
  bound := by rw [h.shaped.cast_maxItems]; exact h.shaped.count_bounds.2
  maxItems := by rw [h.level]; exact h.shaped.maxItems

/-- The nodes of a well-formed tree are well formed. -/
theorem Good.nodeOf {l : Nat} {root n : WrsNode ι} (h : Good l root) (hn : NodeOf root n) :
    ∃ k, Good k n := by
  induction hn with
  | root => exact ⟨l, h⟩
  | @child n c i _ hi ih =>
    obtain ⟨k, hk⟩ := ih
    have hslot := hk.slot i
    rw [hi] at hslot
    cases k with
    | zero => exact absurd hslot id
    | succ k => exact ⟨k, hslot.1⟩

/-- **The selection set refines a finite map.** -/
theorem selection_refines_map [DecidableEq ι] (calls : List (Call ι))
    (hfits : runFits .new calls = true) :
    ∃ w m, run .new calls = .ok w ∧ MapRun 0 calls m ∧ Represents w m ∧
      ∀ n, NodeOf w.root n → Exact n := by
  obtain ⟨w, m, hrun, hmap, hrep, -⟩ := run_represents represents_new
    (by rw [total_zero]; decide) hfits
  refine ⟨w, m, hrun, hmap, hrep, fun n hn => ?_⟩
  obtain ⟨k, hk⟩ := Good.nodeOf hrep.good hn
  exact exact_of_good hk

/-- Nine items, for which the root is replaced, then a removal and a choice that
passes over the item it draws first. -/
def nineItems : List (Call Nat) :=
  (List.range 9).map (fun i => .setWeight i (i + 1)) ++
    [.remove 3, .choose (fun _ => 5) (fun _ => 4) fun t _ => if t = 0 then 1 else 9]

theorem selection_refines_map_nineItems :
    ∃ w m, run .new nineItems = .ok w ∧ Represents w m ∧ w.root.level = 1 ∧
      w.root.itemCnt = 8 := by
  have hrun : (run .new nineItems).map (fun w => (w.root.level, w.root.itemCnt)) = .ok (1, 8) := by
    decide +kernel
  obtain ⟨w, m, hw, -, hrep, -⟩ := selection_refines_map nineItems (by decide +kernel)
  rw [hw] at hrun
  have hreads := Except.ok.inj hrun
  exact ⟨w, m, hw, hrep, congrArg Prod.fst hreads, congrArg Prod.snd hreads⟩

end MiniOpera.SelectionMap
