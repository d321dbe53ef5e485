import MiniOpera.SelectionMap

/-!
# Choosing from the selection set

How often each item is chosen, and how the loop around it ends.

`sum_choose` adds up any function of what `choose` returns over all values below
the sum of the weights: every stored entry is returned as often as its weight
says. It goes level by level, the values of a node being those of its branches
one after the other.

The items that the loop of `choose` draws are `draws`; `Drawn` is the same
loop on the map of weights, with its result.
-/

namespace MiniOpera.SelectionChoice
open GoRuntime Blocks RandSelect SelectionMap Finset

variable {ι : Type}

/-! ## The values that lead to an entry -/

section Values

variable {l : Nat} {n : WrsNode ι}

/-- The values below the sum of some branches are those of the first, then those
of the rest. -/
theorem sum_chosenBranch (h : Good l n) (bs : List (Fin wrsBranches))
    (hmax : (bs.map n.weights).sum < 2 ^ 63) (g : Option (Fin wrsBranches × Int) → ℤ) :
    ∑ v ∈ range (bs.map n.weights).sum.toNat, g (n.chosenBranch bs v) =
      (bs.map fun b => ∑ r ∈ range (n.weights b).toNat, g (some (b, (r : Int)))).sum := by
  induction bs with
  | nil => simp
  | cons b bs ih =>
    have hb := (h.slot b).nonneg
    have hrest : 0 ≤ (bs.map n.weights).sum :=
      List.sum_nonneg fun v hv => by
        obtain ⟨i, -, rfl⟩ := List.mem_map.mp hv
        exact (h.slot i).nonneg
    rw [List.map_cons, List.sum_cons] at hmax
    rw [List.map_cons, List.sum_cons, List.map_cons, List.sum_cons, Int.toNat_add hb hrest,
      Finset.sum_range_add, ← ih (by omega)]
    congr 1
    · refine Finset.sum_congr rfl fun v hv => ?_
      have hlt := mem_range.mp hv
      rw [WrsNode.chosenBranch, if_pos (by omega)]
    · refine Finset.sum_congr rfl fun v hv => ?_
      have hlt := mem_range.mp hv
      have hleft : wrap64 (((n.weights b).toNat + v : Nat) - n.weights b) = v := by
        rw [wrap64_eq (by omega) (by omega)]
        omega
      rw [WrsNode.chosenBranch, if_neg (by omega), hleft]

/-- What an entry adds to a sum over all values. -/
def entryMass (g : Go Empty (ι × Int) → ℤ) : Option (ι × Int) → ℤ
  | none => 0
  | some (x, v) => v * g (.ok (x, v))

/-- What `choose` does at the branch it stops at. -/
def enterBranch (fuel : Nat) (n : WrsNode ι) : Option (Fin wrsBranches × Int) →
    Go Empty (ι × Int)
  | none => .error (.panic (.message "nil"))
  | some (i, val) =>
    match n.items i with
    | .nil => .error (.panic typeAssertion)
    | .item x => if n.level = 0 then .ok (x, n.weights i) else .error (.panic typeAssertion)
    | .node c => if n.level = 0 then .error (.panic typeAssertion) else WrsNode.choose fuel c val

theorem choose_succ (fuel : Nat) (n : WrsNode ι) (val : Int) :
    WrsNode.choose (fuel + 1) n val =
      enterBranch fuel n (n.chosenBranch (List.finRange wrsBranches) val) := by
  rw [WrsNode.choose]
  cases n.chosenBranch (List.finRange wrsBranches) val with
  | none => rfl
  | some branch => rfl

theorem sum_choose_branches (h : Good l n) (hmax : n.sumWeight < 2 ^ 63)
    (g : Go Empty (ι × Int) → ℤ) (fuel : Nat) :
    ∑ v ∈ range n.sumWeight.toNat, g (WrsNode.choose (fuel + 1) n v) =
      ∑ b, ∑ r ∈ range (n.weights b).toNat, g (enterBranch fuel n (some (b, (r : Int)))) := by
  rw [(good_iff.mp h).sum, Fin.sum_univ_def] at hmax ⊢
  rw [Fin.sum_univ_def, ← sum_chosenBranch h _ hmax fun o => g (enterBranch fuel n o)]
  exact Finset.sum_congr rfl fun v _ => by rw [choose_succ]

theorem sum_leaf (h : Good 0 n) (g : Go Empty (ι × Int) → ℤ) (b : Fin wrsBranches) :
    ∑ r ∈ range (n.weights b).toNat, g (enterBranch 0 n (some (b, (r : Int)))) =
      entryMass g (leafEntry (n.items b) (n.weights b)) := by
  have hslot := h.slot b
  cases hitem : n.items b with
  | nil =>
    rw [hitem] at hslot
    have hzero : n.weights b = 0 := hslot
    rw [hzero]
    rfl
  | item x =>
    have henter : ∀ r, enterBranch 0 n (some (b, r)) = .ok (x, n.weights b) := by
      intro r
      simp only [enterBranch, hitem, h.level, if_true]
    simp only [henter, Finset.sum_const, card_range, nsmul_eq_mul, leafEntry, entryMass]
    rw [Int.toNat_of_nonneg (h.slot b).nonneg]
  | node c => rw [hitem] at hslot; exact absurd hslot id

theorem sum_inner (h : Good (l + 1) n) (hmax : n.sumWeight < 2 ^ 63)
    (g : Go Empty (ι × Int) → ℤ)
    (hsum : ∀ c : WrsNode ι, Good l c → c.sumWeight < 2 ^ 63 →
      ∑ v ∈ range c.sumWeight.toNat, g (WrsNode.choose (l + 1) c v) =
        ∑ k ∈ range (8 ^ (l + 1)), entryMass g (lookup l c k)) (b : Fin wrsBranches) :
    ∑ r ∈ range (n.weights b).toNat, g (enterBranch (l + 1) n (some (b, (r : Int)))) =
      ∑ j ∈ range (8 ^ (l + 1)), entryMass g (innerEntry (lookup l) (n.items b) j) := by
  have hslot := h.slot b
  cases hitem : n.items b with
  | nil =>
    rw [hitem] at hslot
    have hzero : n.weights b = 0 := hslot
    rw [hzero]
    simp [innerEntry, entryMass]
  | item x => rw [hitem] at hslot; exact absurd hslot id
  | node c =>
    rw [hitem] at hslot
    obtain ⟨hc, hw⟩ := hslot
    have henter : ∀ r, enterBranch (l + 1) n (some (b, r)) = WrsNode.choose (l + 1) c r := by
      intro r
      simp only [enterBranch, hitem, h.level, Nat.succ_ne_zero, if_false]
    have hcmax : c.sumWeight < 2 ^ 63 := by
      rw [← hw]
      exact lt_of_le_of_lt (h.weight_le b) hmax
    simp only [henter, hw, innerEntry]
    exact hsum c hc hcmax

/-- Every entry is returned as often as its weight says. -/
theorem sum_choose (h : Good l n) (hmax : n.sumWeight < 2 ^ 63) (g : Go Empty (ι × Int) → ℤ) :
    ∑ v ∈ range n.sumWeight.toNat, g (WrsNode.choose (l + 1) n v) =
      ∑ k ∈ range (8 ^ (l + 1)), entryMass g (lookup l n k) := by
  induction l generalizing n with
  | zero =>
    rw [sum_choose_branches h hmax, lookup, show 8 ^ (0 + 1) = 1 * 8 from rfl,
      sum_blocks Nat.one_pos]
    refine Finset.sum_congr rfl fun b _ => ?_
    rw [Finset.sum_range_one, sum_leaf h]
  | succ l ih =>
    rw [sum_choose_branches h hmax, lookup, pow_succ, sum_blocks (Nat.pow_pos (by decide))]
    exact Finset.sum_congr rfl fun b _ => sum_inner h hmax g (fun c hc hcmax => ih hc hcmax) b

end Values

/-! ## Each item as often as its weight says -/

/-- 1 if the item was returned. -/
def returned [DecidableEq ι] (x : ι) : Go Empty (ι × Int) → ℤ
  | .ok (y, _) => if y = x then 1 else 0
  | .error _ => 0

theorem returned_eq_ite [DecidableEq ι] (x : ι) (result : Go Empty (ι × Int)) :
    (if returned x result = 1 then 1 else 0) = returned x result := by
  cases result with
  | error _ => rfl
  | ok e =>
    unfold returned
    by_cases hx : e.1 = x <;> simp [hx]

/-- The root's `choose` returns the item at this value. -/
def selects [DecidableEq ι] (w : WeightedRandomSelect ι) (x : ι) (val : Nat) : Prop :=
  returned x (w.root.choose (w.root.level + 1) val) = 1

instance [DecidableEq ι] (w : WeightedRandomSelect ι) (x : ι) (val : Nat) :
    Decidable (selects w x val) := inferInstanceAs (Decidable (_ = _))

section Represented

variable {w : WeightedRandomSelect ι} {m : ι →₀ ℤ}

theorem choose_stored (h : Represents w m) (htotal : total m < 2 ^ 63) {val : Int} (h0 : 0 ≤ val)
    (hval : val < w.root.sumWeight) :
    ∃ x, w.root.choose (w.root.level + 1) val = .ok (x, m x) ∧ m x ≠ 0 := by
  obtain ⟨x, v, k, hchoose, hentry⟩ := choose_spec h.good h0 hval (by rw [h.sum]; exact htotal)
  obtain rfl := h.weight k x v hentry
  exact ⟨x, hchoose, (h.good.entry_bounds hentry).1.ne'⟩

theorem all_zero (h : Represents w m) (hzero : total m = 0) (x : ι) : m x = 0 := by
  by_contra hx
  have := h.stored hx
  omega

variable [DecidableEq ι]

/-- Only the slot of an item adds to the sum over all entries. -/
theorem sum_entries (h : Represents w m) (x : ι) :
    ∑ k ∈ range (8 ^ (w.root.level + 1)), entryMass (returned x)
    (lookup w.root.level w.root k) =
      m x := by
  have hother : ∀ k, w.idx x ≠ some k →
      entryMass (returned x) (lookup w.root.level w.root k) = 0 := by
    intro k hk
    cases hentry : lookup w.root.level w.root k with
    | none => rfl
    | some e =>
      obtain ⟨y, v⟩ := e
      obtain rfl := h.weight k y v hentry
      have hyx : y ≠ x := by
        rintro rfl
        exact hk ((h.index y k).mpr hentry)
      simp [entryMass, returned, hyx]
  cases hidx : w.idx x with
  | none =>
    rw [(h.absent x).mp hidx]
    exact Finset.sum_eq_zero fun k _ => hother k (by rw [hidx]; exact nofun)
  | some k =>
    have hentry := (h.index x k).mp hidx
    rw [Finset.sum_eq_single_of_mem k (mem_range.mpr (index_lt hentry))]
    · rw [hentry]
      simp [entryMass, returned]
    · intro j _ hj
      refine hother j ?_
      rw [hidx]
      exact fun heq => hj (Option.some.inj heq).symm

theorem card_selects (h : Represents w m) (htotal : total m < 2 ^ 63) (x : ι) :
    (((range w.root.sumWeight.toNat).filter (selects w x)).card : ℤ) = m x := by
  rw [← sum_entries h x, ← sum_choose h.good (by rw [h.sum]; exact htotal),
    Finset.natCast_card_filter]
  exact Finset.sum_congr rfl fun v _ => returned_eq_ite x _

end Represented

/-- **The choice is proportional.** After any calls that keep the weights in
range, every value below the sum of the weights selects a stored item and its
stored weight, and each item is selected by as many values as its weight says. -/
theorem choice_proportional [DecidableEq ι] (calls : List (Call ι))
    (hfits : runFits .new calls = true) :
    ∃ w, run .new calls = .ok w ∧
      (∀ val, 0 ≤ val → val < w.root.sumWeight →
        ∃ x, w.root.choose (w.root.level + 1) val = .ok (x, storedWeight w x) ∧
          storedWeight w x ≠ 0) ∧
      ∀ x, (((range w.root.sumWeight.toNat).filter (selects w x)).card : ℤ) =
        storedWeight w x := by
  obtain ⟨w, m, hrun, -, hrep, htotal⟩ := run_represents represents_new
    (by rw [total_zero]; decide) hfits
  refine ⟨w, hrun, ?_, ?_⟩
  · intro val h0 hval
    obtain ⟨x, hchoose, hx⟩ := choose_stored hrep htotal h0 hval
    refine ⟨x, ?_, ?_⟩
    · rw [hrep.storedWeight]; exact hchoose
    · rw [hrep.storedWeight]; exact hx
  · intro x
    rw [hrep.storedWeight]
    exact card_selects hrep htotal x

theorem choice_proportional_nineItems :
    ∃ w, run .new nineItems = .ok w ∧
      (((range w.root.sumWeight.toNat).filter (selects w 6)).card : ℤ) = 7 := by
  have hrun : (run .new nineItems).map (fun w => storedWeight w 6) = .ok 7 := by decide +kernel
  obtain ⟨w, hw, -, hcount⟩ := choice_proportional nineItems (by decide +kernel)
  rw [hw] at hrun
  exact ⟨w, hw, (hcount 6).trans (Except.ok.inj hrun)⟩

/-! ## How the loop ends -/

section Loop

variable [DecidableEq ι]

/-- The items that `choose` draws, one in each iteration. -/
def draws (random coin : Nat → Nat) (weight : Nat → ι → Int) :
    Nat → Nat → WeightedRandomSelect ι → List ι
  | 0, _, _ => []
  | fuel + 1, t, w =>
    match drawnItem (random t) w with
    | none => []
    | some x =>
      x :: match w.chooseStep (random t) (coin t) (weight t) with
        | .ok (w, none) => draws random coin weight fuel (t + 1) w
        | _ => []

/-- What a call of `choose` that began at iteration `t` did to the map: it returned
its last draw, stored with the weight it has then, or nothing is stored. -/
structure Outcome (weight : Nat → ι → Int) (t : Nat) (drawn : List ι) (m m' : ι →₀ ℤ)
    (r : Option ι) : Prop where
  chosen : ∀ x, r = some x → ∃ n, drawn.length = n + 1 ∧ drawn[n]? = some x ∧
    0 < weight (t + n) x ∧ m' x = weight (t + n) x
  empty : r = none → total m' = 0
  kept : ∀ y, y ∉ drawn → m' y = m y

theorem Outcome.next {weight : Nat → ι → Int} {t : Nat}
    {drawn : List ι} {m m' : ι →₀ ℤ}
    {r : Option ι} {x : ι} (h : Outcome weight (t + 1) drawn (m.update x (weight t x)) m' r) :
    Outcome weight t (x :: drawn) m m' r where
  chosen y hy := by
    obtain ⟨n, hlen, hlast, hpos, hstored⟩ := h.chosen y hy
    have hiter : t + 1 + n = t + (n + 1) := by omega
    rw [hiter] at hpos hstored
    exact ⟨n + 1, by rw [List.length_cons, hlen], hlast, hpos, hstored⟩
  empty := h.empty
  kept y hy := by
    rw [List.mem_cons, not_or] at hy
    rw [h.kept y hy.2, Finsupp.update_apply, if_neg hy.1]

omit [DecidableEq ι] in
/-- Nothing is stored, so nothing is drawn. -/
theorem Outcome.exhausted (weight : Nat → ι → Int) (t : Nat)
    {m : ι →₀ ℤ} (h : total m = 0) :
    Outcome weight t [] m m none where
  chosen x hx := by cases hx
  empty _ := h
  kept _ _ := rfl

/-- The item drawn is returned, stored with the weight it has now. -/
theorem Outcome.accepted {weight : Nat → ι → Int} {t : Nat} {x : ι} (m : ι →₀ ℤ)
    (h : 0 < weight t x) : Outcome weight t [x] m (m.update x (weight t x)) (some x) where
  chosen y hy := by
    cases hy
    exact ⟨0, rfl, rfl, h, by rw [Finsupp.update_apply, if_pos rfl]; rfl⟩
  empty hnone := by cases hnone
  kept y hy := by
    rw [List.mem_singleton] at hy
    rw [Finsupp.update_apply, if_neg hy]

variable {w : WeightedRandomSelect ι} {m : ι →₀ ℤ}

/-- There is fuel for one more iteration. -/
theorem choose_of_succ (h : Represents w m) {random coin : Nat → Nat}
    {weight : Nat → ι → Int}
    {t : Nat} {result : Go Empty (Option ι × WeightedRandomSelect ι)}
    (hresult : ∀ fuel : Nat, total m ≤ fuel →
      w.choose random coin weight (fuel + 1) t = result) (fuel : Nat) (hfuel : total m < fuel) :
    w.choose random coin weight fuel t = result := by
  have hnonneg := h.good.sum_nonneg
  rw [h.sum] at hnonneg
  cases fuel with
  | zero => omega
  | succ fuel => exact hresult fuel (by omega)

/-- The loop ends whatever is drawn: the total falls with every iteration. -/
theorem choose_outcome (h : Represents w m) (htotal : total m < 2 ^ 63)
    {random coin : Nat → Nat} {weight : Nat → ι → Int} {n t : Nat} (hn : total m < n)
    (hfits : chooseFits random coin weight n t w = true) :
    ∃ r w' m', (∀ fuel : Nat, total m < fuel →
      w.choose random coin weight fuel t = .ok (r, w')) ∧
      Represents w' m' ∧ Outcome weight t (draws random coin weight n t w) m m' r := by
  induction n generalizing w m t with
  | zero =>
    have hnonneg := h.good.sum_nonneg
    rw [h.sum] at hnonneg
    omega
  | succ n ih =>
    rw [chooseFits, Bool.and_eq_true] at hfits
    obtain ⟨hstep, hrest⟩ := hfits
    rw [draws]
    rcases chooseStep_spec h htotal hstep (coin t) with
      ⟨hzero, hdrawn, hcall⟩ | ⟨x, w', hdrawn, hx, hrep, hnew,
        ⟨hcall, hpos⟩ | ⟨hcall, -, hless⟩⟩
    · refine ⟨none, w, m, choose_of_succ h ?_, h, ?_⟩
      · intro fuel _
        rw [WeightedRandomSelect.choose, hcall]
        rfl
      · rw [hdrawn]
        exact .exhausted weight t hzero
    · refine ⟨some x, w', _, choose_of_succ h ?_, hrep, ?_⟩
      · intro fuel _
        rw [WeightedRandomSelect.choose, hcall]
        rfl
      · rw [hdrawn, hcall]
        exact .accepted m hpos
    · rw [hcall] at hrest
      have hfall : total (m.update x (weight t x)) < total m := by
        rw [total_update]
        omega
      obtain ⟨r, w'', m', hchoose, hrep', hout⟩ := ih hrep hnew (by omega) hrest
      refine ⟨r, w'', m', choose_of_succ h ?_, hrep', ?_⟩
      · intro fuel hfuel
        rw [WeightedRandomSelect.choose, hcall]
        exact hchoose fuel (by omega)
      · rw [hdrawn, hcall]
        exact hout.next

/-- **The loop ends and its result is sound.** After any calls that keep the
weights in range, whatever `choose` draws and whatever the items weigh in each
iteration, it returns. An item it returns is the last one drawn, it has a weight
in that iteration and is stored with it; nil is returned only when nothing is
stored; what was not drawn keeps its stored weight. -/
theorem choose_ends_soundly (calls : List (Call ι)) (hfits : runFits .new calls = true) :
    ∃ w, run .new calls = .ok w ∧
      ∀ (random coin : Nat → Nat) (weight : Nat → ι → Int),
        chooseFits random coin weight (w.root.sumWeight.toNat + 1) 0 w = true →
        ∃ r w',
          (∀ fuel : Nat, w.root.sumWeight < fuel →
            w.choose random coin weight fuel 0 = .ok (r, w')) ∧
          let drawn := draws random coin weight (w.root.sumWeight.toNat + 1) 0 w
          (∀ x, r = some x → ∃ n, drawn.length = n + 1 ∧ drawn[n]? = some x ∧
            0 < weight n x ∧ storedWeight w' x = weight n x) ∧
          (r = none → ∀ x, storedWeight w' x = 0) ∧
          ∀ y, y ∉ drawn → storedWeight w' y = storedWeight w y := by
  obtain ⟨w, m, hrun, -, hrep, htotal⟩ := run_represents represents_new
    (by rw [total_zero]; decide) hfits
  refine ⟨w, hrun, ?_⟩
  intro random coin weight hchoose
  have hfuel : total m < ((w.root.sumWeight.toNat + 1 : Nat) : Int) := by
    rw [hrep.sum]
    omega
  obtain ⟨r, w', m', hends, hrep', hout⟩ := choose_outcome hrep htotal hfuel hchoose
  refine ⟨r, w', ?_, ?_, ?_, ?_⟩
  · rw [hrep.sum]
    exact hends
  · intro x hx
    rw [hrep'.storedWeight]
    simpa only [Nat.zero_add] using hout.chosen x hx
  · intro hnone x
    rw [hrep'.storedWeight]
    exact all_zero hrep' (hout.empty hnone) x
  · intro y hy
    rw [hrep'.storedWeight, hrep.storedWeight]
    exact hout.kept y hy

end Loop

/-- Two items, the first of which weighs less when it is drawn first. -/
def twoItems : List (Call Nat) := [.setWeight 0 4, .setWeight 1 2]

def lighter (t : Nat) (_ : Nat) : Int := if t = 0 then 1 else 9

theorem choose_ends_soundly_twoItems :
    ∃ w w', run .new twoItems = .ok w ∧
      w.choose (fun _ => 0) (fun _ => 3) lighter 7 0 = .ok (some 0, w') ∧
      storedWeight w' 0 = 9 ∧ storedWeight w' 1 = 2 := by
  obtain ⟨w, hw, hsound⟩ := choose_ends_soundly twoItems (by decide +kernel)
  have hread : ∀ {β : Type} (f : WeightedRandomSelect Nat → β) (v : β),
      (run .new twoItems).map f = .ok v → f w = v := by
    intro β f v h
    rw [hw] at h
    exact Except.ok.inj h
  have hsum := hread (fun w => w.root.sumWeight) 6 (by decide +kernel)
  have hone := hread (fun w => storedWeight w 1) 2 (by decide +kernel)
  have hfits := hread (fun w =>
    chooseFits (fun _ => 0) (fun _ => 3) lighter (w.root.sumWeight.toNat + 1) 0 w) true
    (by decide +kernel)
  have hdrawn := hread (fun w =>
    draws (fun _ => 0) (fun _ => 3) lighter (w.root.sumWeight.toNat + 1) 0 w) [0, 0]
    (by decide +kernel)
  have hresult := hread (fun w =>
    (w.choose (fun _ => 0) (fun _ => 3) lighter 7 0).toOption.map Prod.fst) (some (some 0))
    (by decide +kernel)
  obtain ⟨r, w', hends, hchosen, -, hkept⟩ := hsound _ _ _ hfits
  have hcall := hends 7 (by rw [hsum]; decide)
  rw [hcall] at hresult
  obtain rfl : r = some 0 := Option.some.inj hresult
  rw [hdrawn] at hchosen hkept
  obtain ⟨n, hlen, -, -, hstored⟩ := hchosen 0 rfl
  obtain rfl : n = 1 := by simpa using hlen.symm
  exact ⟨w, w', hw, hcall, hstored, (hkept 1 (by decide)).trans hone⟩

end MiniOpera.SelectionChoice
