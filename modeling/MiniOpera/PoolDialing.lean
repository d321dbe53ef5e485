import MiniOpera.ServerPool

/-!
# What `checkDial` does

`Dialed env p ds p'`: the pool `p'` is `p` after the dials `ds`, each of an entry and
with the flag it was selected with. An entry is dialed at most once, because it
is not idle any more; it gets an address, its counter goes up by one, and nothing
else changes. `checkDial_dials`: this is what `checkDial` does to any pool whenever
it returns.
-/

namespace MiniOpera.PoolDialing
open GoRuntime RandSelect EntryQueue Pool ServerPool

variable {ι K F : Type}

/-- The entry after a dial. -/
def dialing (e : PoolEntry ι K F) (known : Bool) (a : Nat) (w : WeightedRandomSelect Nat) :
    PoolEntry ι K F :=
  { e with state := .dialed, knownSelected := known, addrSelect := w, dialed := some a }

structure Dialed (env : Env ι K F) (p : ServerPool ι K F) (ds : List (Ref × Bool))
    (p' : ServerPool ι K F) : Prop where
  once : (ds.map Prod.fst).Nodup
  dialed : ∀ r known, (r, known) ∈ ds → (p.heap r).state = .notConnected ∧
    ∃ call a w, (p.heap r).chooseAddr env call = .ok (a, w) ∧
      p'.heap r = dialing (p.heap r) known a w
  others : ∀ r, r ∉ ds.map Prod.fst → p'.heap r = p.heap r
  selected : ∀ k, p'.selected k = p.selected k + ds.countP fun d => d.2 = k
  timers : p'.dialTimers = (ds.map Prod.fst).reverse ++ p.dialTimers
  frame : p' = { p with
    heap := p'.heap
    knownSelect := p'.knownSelect
    newSelect := p'.newSelect
    knownSelected := p'.knownSelected
    newSelected := p'.newSelected
    dialTimers := p'.dialTimers }

section Dialed

variable {env : Env ι K F} {p p1 p' : ServerPool ι K F} {ds ds' : List (Ref × Bool)} {r : Ref}
  {known : Bool} {call : Nat}

/-- Only the weights that are stored change. -/
theorem Dialed.none (env : Env ι K F) (p : ServerPool ι K F) (known : Bool)
    (w : WeightedRandomSelect Ref) : Dialed env p [] (p.setSelect known w) := by
  refine ⟨.nil, ?_, ?_, ?_, ?_, ?_⟩
  · intro r k hr
    cases hr
  · intro r _
    cases known <;> rfl
  · intro k
    cases known <;> cases k <;> simp [ServerPool.selected, setSelect]
  · cases known <;> rfl
  · cases known <;> rfl

theorem Dialed.state (h : Dialed env p ds p') (hr : (r, known) ∈ ds) :
    (p'.heap r).state = .dialed := by
  obtain ⟨-, _, _, _, -, heq⟩ := h.dialed r known hr
  rw [heq]
  rfl

theorem Dialed.delayed (h : Dialed env p ds p') (r : Ref) :
    (p'.heap r).delayedRetry = (p.heap r).delayedRetry := by
  by_cases hmem : r ∈ ds.map Prod.fst
  · obtain ⟨⟨_, known⟩, hd, rfl⟩ := List.mem_map.mp hmem
    obtain ⟨-, _, _, _, -, heq⟩ := h.dialed _ _ hd
    rw [heq]
    rfl
  · rw [h.others r hmem]

theorem Dialed.append (h : Dialed env p ds p1) (h' : Dialed env p1 ds' p') :
    Dialed env p (ds ++ ds') p' := by
  -- an entry that was dialed is not idle
  have hapart : ∀ r, r ∈ ds.map Prod.fst → r ∉ ds'.map Prod.fst := by
    intro r hr hr'
    obtain ⟨⟨_, k⟩, hd, rfl⟩ := List.mem_map.mp hr
    obtain ⟨⟨_, k'⟩, hd', rfl⟩ := List.mem_map.mp hr'
    have hstate := h.state hd
    rw [(h'.dialed _ _ hd').1] at hstate
    cases hstate
  refine ⟨?_, ?_, ?_, ?_, ?_, ?_⟩
  · rw [List.map_append, List.nodup_append]
    refine ⟨h.once, h'.once, ?_⟩
    rintro r hr _ hr' rfl
    exact hapart r hr hr'
  · intro r known hd
    rcases List.mem_append.mp hd with hd | hd
    · obtain ⟨hidle, call, a, w, hchoose, heq⟩ := h.dialed r known hd
      refine ⟨hidle, call, a, w, hchoose, ?_⟩
      rw [h'.others r (hapart r (List.mem_map_of_mem hd)), heq]
    · have hbefore : p1.heap r = p.heap r := by
        apply h.others
        intro hr
        exact hapart r hr (List.mem_map_of_mem hd)
      have hlater := h'.dialed r known hd
      rw [hbefore] at hlater
      exact hlater
  · intro r hr
    rw [List.map_append, List.mem_append, not_or] at hr
    rw [h'.others r hr.2, h.others r hr.1]
  · intro k
    rw [h'.selected, h.selected, List.countP_append]
    omega
  · rw [h'.timers, h.timers, List.map_append, List.reverse_append, List.append_assoc]
  · refine h'.frame.trans ?_
    rw [h.frame]

/-- A dial of an idle entry; any other entry is left alone. -/
theorem dial_cases (hok : p.dial env call r known = .ok p') :
    (p' = p ∧ (p.server = false ∨ (p.heap r).state ≠ .notConnected)) ∨
      Dialed env p [(r, known)] p' := by
  unfold ServerPool.dial at hok
  split at hok
  · next hskip =>
    cases hok
    exact .inl ⟨rfl, hskip.imp_left fun h => by simpa using h⟩
  · next hdial =>
    obtain ⟨⟨a, w⟩, hchoose, hret⟩ := bind_eq_ok hok
    cases hret
    have hidle : (p.heap r).state = .notConnected := by
      by_contra hne
      exact hdial (.inr hne)
    refine .inr ⟨by simp, ?_, ?_, ?_, ?_, ?_⟩
    · intro x k hx
      cases List.mem_singleton.mp hx
      refine ⟨hidle, call, a, w, hchoose, ?_⟩
      cases known <;> exact Function.update_self ..
    · intro x hx
      have hne : x ≠ r := by simpa using hx
      cases known <;> exact Function.update_of_ne hne ..
    · intro k
      cases known <;> cases k <;> simp [ServerPool.selected, addSelected, put]
    · cases known <;> rfl
    · cases known <;> rfl

/-- An iteration dials one entry at most. -/
theorem dialNext_dials {found : Bool} (hok : p.dialNext env known call = .ok (found, p')) :
    ∃ ds, Dialed env p ds p' ∧ (ds = [] ∨ ∃ r, ds = [(r, known)]) := by
  obtain ⟨⟨choice, w⟩, -, hok⟩ := bind_eq_ok hok
  have hnone := Dialed.none env p known w
  cases choice with
  | none =>
    cases hok
    exact ⟨[], hnone, .inl rfl⟩
  | some r =>
    obtain ⟨p1, hdial, hret⟩ := bind_eq_ok hok
    cases hret
    rcases dial_cases hdial with ⟨rfl, -⟩ | hone
    · exact ⟨[], hnone, .inl rfl⟩
    · exact ⟨[(r, known)], hnone.append hone, .inr ⟨r, rfl⟩⟩

/-- By the number of iterations. -/
theorem dialWhile_dials {more : ServerPool ι K F → Bool} {fuel : Nat}
    {out : Bool × Nat × ServerPool ι K F}
    (hok : ServerPool.dialWhile env known more fuel call p = .ok out) :
    ∃ ds, Dialed env p ds out.2.2 ∧ ∀ d ∈ ds, d.2 = known := by
  induction fuel generalizing p call with
  | zero => cases hok
  | succ fuel ih =>
    rw [ServerPool.dialWhile] at hok
    split at hok
    · obtain ⟨⟨found, p1⟩, hnext, hrest⟩ := bind_eq_ok hok
      obtain ⟨ds, hds, hone⟩ := dialNext_dials hnext
      have hflag : ∀ d ∈ ds, d.2 = known := by
        rcases hone with rfl | ⟨r, rfl⟩
        · intro d hd
          cases hd
        · intro d hd
          rw [List.mem_singleton.mp hd]
      cases found with
      | true =>
        obtain ⟨ds', hds', hflag'⟩ := ih hrest
        refine ⟨ds ++ ds', hds.append hds', ?_⟩
        intro d hd
        exact (List.mem_append.mp hd).elim (hflag d) (hflag' d)
      | false =>
        cases hrest
        exact ⟨ds, hds, hflag⟩
    · cases hok
      have hnone := Dialed.none env p true p.knownSelect
      exact ⟨[], hnone, fun d hd => by cases hd⟩

/-- **What `checkDial` does.** -/
theorem checkDial_dials (hok : p.checkDial env = .ok p') : ∃ ds, Dialed env p ds p' := by
  obtain ⟨⟨noneKnown, call1, p1⟩, h1, hrest⟩ := bind_eq_ok hok
  obtain ⟨⟨b, call2, p2⟩, h2, hrest⟩ := bind_eq_ok hrest
  obtain ⟨ds1, hds1, -⟩ := dialWhile_dials h1
  obtain ⟨ds2, hds2, -⟩ := dialWhile_dials h2
  dsimp only at hrest
  split at hrest
  · obtain ⟨⟨b', call3, p3⟩, h3, hret⟩ := bind_eq_ok hrest
    cases hret
    obtain ⟨ds3, hds3, -⟩ := dialWhile_dials h3
    exact ⟨_, (hds1.append hds2).append hds3⟩
  · cases hrest
    exact ⟨_, hds1.append hds2⟩

/-! ## The counters -/

/-- What a loop of `checkDial` compares with its target. -/
def load (known : Bool) (p : ServerPool ι K F) : Int :=
  if known then p.knownSelected else p.knownSelected + p.newSelected

theorem Dialed.load_one (h : Dialed env p [(r, known)] p') : load known p' = load known p + 1 := by
  have htrue := h.selected true
  have hfalse := h.selected false
  cases known with
  | true => simpa [load, ServerPool.selected] using htrue
  | false =>
    simp [ServerPool.selected] at htrue hfalse
    simp only [load, Bool.false_eq_true, if_false]
    omega

/-- The known entries are dialed on account of their own counter. -/
theorem Dialed.newSelected (h : Dialed env p ds p') (hflag : ∀ d ∈ ds, d.2 = true) :
    p'.newSelected = p.newSelected := by
  have hnone : (ds.countP fun d => d.2 = false) = 0 := by
    rw [List.countP_eq_zero]
    intro d hd
    simp [hflag d hd]
  have hfalse := h.selected false
  rw [hnone] at hfalse
  simpa [ServerPool.selected] using hfalse

theorem Dialed.server_next (h : Dialed env p ds p') : p'.server = p.server ∧
    p'.next = p.next := by
  rw [h.frame]
  exact ⟨rfl, rfl⟩

theorem Dialed.fastDiscover (h : Dialed env p ds p') : p'.fastDiscover = p.fastDiscover := by
  rw [h.frame]

/-- A loop stops at its target. -/
theorem dialWhile_load (known : Bool) {target : Int} {fuel : Nat}
    {out : Bool × Nat × ServerPool ι K F}
    (hok : ServerPool.dialWhile env known (fun p => load known p < target) fuel call p = .ok out) :
    load known out.2.2 ≤ max (load known p) target := by
  induction fuel generalizing p call with
  | zero => cases hok
  | succ fuel ih =>
    rw [ServerPool.dialWhile] at hok
    split at hok
    · next hmore =>
      have hlt : load known p < target := of_decide_eq_true hmore
      obtain ⟨⟨found, p1⟩, hnext, hrest⟩ := bind_eq_ok hok
      have hone : load known p1 ≤ load known p + 1 := by
        obtain ⟨ds, hds, rfl | ⟨r, rfl⟩⟩ := dialNext_dials hnext
        · have htrue := hds.selected true
          have hfalse := hds.selected false
          simp [ServerPool.selected] at htrue hfalse
          unfold load
          split <;> omega
        · exact Int.le_of_eq hds.load_one
      cases found with
      | true =>
        have hrest := ih hrest
        omega
      | false =>
        cases hrest
        dsimp only
        omega
    · cases hok
      exact Int.le_max_left ..

end Dialed

end MiniOpera.PoolDialing
