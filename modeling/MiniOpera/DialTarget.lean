import MiniOpera.PoolDialing
import MiniOpera.PoolRuns

/-!
# The dial target

`checkDial` is to keep at most `targetServerCount` servers selected. Its second loop
looks at the sum of both counters, but the first and the third look at the known
entries only, so the servers that were selected from the new entries come on top.

`dial_target_iff`: the target is respected for all contents of the selections if
and only if at most two new entries are selected during fast discovery, or all
five servers are known ones after it.
-/

namespace MiniOpera.DialTarget
open GoRuntime RandSelect EntryQueue Pool ServerPool PoolDialing PoolRuns

/-- From these counters no `checkDial` of any pool selects more than the target. -/
def Respected (knownSelected newSelected : Int) (fastDiscover : Bool) : Prop :=
  ∀ (ι K F : Type) (env : Env ι K F) (p p' : ServerPool ι K F),
    p.knownSelected = knownSelected →
    p.newSelected = newSelected → p.fastDiscover = fastDiscover → p.checkDial env = .ok p' →
    p'.knownSelected + p'.newSelected ≤ targetServerCount

section Sufficient

variable {ι K F : Type} {env : Env ι K F} {p p' : ServerPool ι K F}

theorem dialKnown_spec {target : Int} {call : Nat} {out : Bool × Nat × ServerPool ι K F}
    (hok : p.dialKnown env target call = .ok out) :
    out.2.2.knownSelected ≤ max p.knownSelected target ∧
      out.2.2.newSelected = p.newSelected ∧ out.2.2.fastDiscover = p.fastDiscover := by
  obtain ⟨ds, hds, hflag⟩ := dialWhile_dials hok
  exact ⟨dialWhile_load true hok, hds.newSelected hflag, hds.fastDiscover⟩

theorem dialNew_spec {call : Nat} {out : Bool × Nat × ServerPool ι K F}
    (hok : p.dialNew env call = .ok out) :
    out.2.2.knownSelected + out.2.2.newSelected ≤
        max (p.knownSelected + p.newSelected) targetServerCount ∧
      out.2.2.fastDiscover = p.fastDiscover := by
  obtain ⟨ds, hds, -⟩ := dialWhile_dials hok
  exact ⟨dialWhile_load false hok, hds.fastDiscover⟩

/-- During fast discovery only the first loop can dial too many. -/
theorem checkDial_fast (hfast : p.fastDiscover = true)
    (hsum : p.knownSelected + p.newSelected ≤ targetServerCount) (hnew : p.newSelected ≤ 2)
    (hok : p.checkDial env = .ok p') : p'.knownSelected + p'.newSelected ≤ targetServerCount := by
  obtain ⟨⟨noneKnown, call1, p1⟩, h1, hrest⟩ := bind_eq_ok hok
  obtain ⟨⟨b, call2, p2⟩, h2, hrest⟩ := bind_eq_ok hrest
  obtain ⟨hknown1, hnew1, hfast1⟩ := dialKnown_spec h1
  obtain ⟨hsum2, hfast2⟩ := dialNew_spec h2
  dsimp only at *
  rw [if_neg (by simp [hfast2, hfast1, hfast])] at hrest
  cases hrest
  simp only [targetServerCount, targetKnownSelect] at *
  omega

/-- With five known servers no loop is entered. -/
theorem checkDial_full (hknown : p.knownSelected = targetServerCount) (hnew : 0 ≤ p.newSelected)
    (hok : p.checkDial env = .ok p') : p' = p := by
  have hfirst : p.dialKnown env targetKnownSelect 2 = .ok (false, 2, p) := by
    rw [dialKnown, dialWhile, if_neg (by rw [hknown]; decide)]
  have hsecond : p.dialNew env 2 = .ok (false, 2, p) := by
    rw [dialNew, dialWhile, if_neg (by simp [hknown]; omega)]
  have hthird : p.dialKnown env targetServerCount 2 = .ok (false, 2, p) := by
    rw [dialKnown, dialWhile, if_neg (by simp [hknown])]
  simp only [checkDial, hfirst, hsecond, hthird, ok_bind, pure_eq_ok] at hok
  split at hok
  · cases hok
    rfl
  · cases hok
    rfl

end Sufficient

/-! ## Pools with something to dial -/

/-- Five known and five new entries that are idle. -/
def stocked : Go Empty (ServerPool Nat Nat Int) := do
  let env := plainEnv 0
  let p ← loadNodes env id 0 { newServerPool (fun _ => false) with server := true }
    [plainStored 1, plainStored 2, plainStored 3, plainStored 4, plainStored 5]
  [6, 7, 8, 9, 10].foldlM (fun p id => do
    let (r, p) ← p.findOrNewNode env (plainNode id)
    let newSelect ← p.newSelect.update (fun r => discoveredWeight env 0 0 (p.heap r)) r
    return { p with newSelect := newSelect }) p

/-- The same with other counters. -/
def selecting (p : ServerPool Nat Nat Int) (knownSelected newSelected : Int) (fastDiscover : Bool) :
    ServerPool Nat Nat Int :=
  { p with
    knownSelected := knownSelected
    newSelected := newSelected
    fastDiscover := fastDiscover }

/-- The number of servers selected in the end. -/
def endsWith (p : Go Empty (ServerPool Nat Nat Int)) : Option Int :=
  p.toOption.map fun p => p.knownSelected + p.newSelected

theorem stocked_overdials : ∀ k n : Fin 6, ∀ fast : Bool, k.val + n.val ≤ 5 →
    (if fast then n.val ≤ 2 else k.val = 5) ∨
      ∃ total ∈ endsWith (do (selecting (← stocked) k n fast).checkDial (plainEnv 0)),
        5 < total := by
  decide +kernel

/-- **The dial target.** -/
theorem dial_target_iff (knownSelected newSelected : Int) (hknown : 0 ≤ knownSelected)
    (hnew : 0 ≤ newSelected) (hsum : knownSelected + newSelected ≤ targetServerCount)
    (fastDiscover : Bool) :
    Respected knownSelected newSelected fastDiscover ↔
      if fastDiscover then newSelected ≤ 2 else knownSelected = targetServerCount := by
  constructor
  · intro hrespected
    simp only [targetServerCount] at hsum ⊢
    have hk : knownSelected.toNat < 6 := by omega
    have hn : newSelected.toNat < 6 := by omega
    have hfit : knownSelected.toNat + newSelected.toNat ≤ 5 := by omega
    rcases stocked_overdials ⟨_, hk⟩ ⟨_, hn⟩ fastDiscover
      hfit with hcond | ⟨total, htotal, hgt⟩
    · split
      · next hfast =>
        rw [if_pos hfast] at hcond
        dsimp only at hcond
        omega
      · next hfast =>
        rw [if_neg hfast] at hcond
        dsimp only at hcond
        omega
    · -- the pool with these counters selects too many
      exfalso
      obtain ⟨p, hp⟩ : ∃ p, stocked = .ok p := by
        cases hstocked : stocked with
        | error f =>
          rw [hstocked] at htotal
          cases htotal
        | ok p => exact ⟨p, rfl⟩
      rw [hp, ok_bind] at htotal
      obtain ⟨p', hp', hsum'⟩ := Option.map_eq_some_iff.mp htotal
      have hbound := hrespected Nat Nat Int (plainEnv 0) _ p' (by simp [selecting, hknown])
        (by simp [selecting, hnew]) rfl (toOption_eq_some hp')
      simp only [targetServerCount] at hbound
      omega
  · intro hcond ι K F env p p' hk hn hfast hok
    cases fastDiscover with
    | true => exact checkDial_fast hfast (by rw [hk, hn]; exact hsum) (by rw [hn]; exact hcond) hok
    | false =>
      have hsame := checkDial_full (hk.trans hcond) (by rw [hn]; exact hnew) hok
      rw [hsame, hk, hn]
      exact hsum

/-- Nothing is selected and discovery is fast. -/
theorem dial_target_iff_start :
    Respected 0 0 true ∧
      endsWith (do (selecting (← stocked) 0 0 true).checkDial (plainEnv 0)) = some 5 :=
  ⟨(dial_target_iff 0 0 (by decide) (by decide) (by decide) true).mpr (by decide),
    by decide +kernel⟩

/-- The pool starts with five known nodes and dials three of them, discovers two nodes
and dials both; a minute later fast discovery ends. The next node that is discovered
makes it dial the other two known nodes. -/
def overdialing : List (Env Nat Nat Int × Msg Nat Nat Int) :=
  [(plainEnv 0, .discNode (plainNode 6)), (plainEnv 0, .discNode (plainNode 7)),
    (plainEnv 0, .discLookup true), (plainEnv (2 * minute), .discLookup true),
    (plainEnv (2 * minute), .discNode (plainNode 8))]

def storedNodes : List (StoredNode Nat Int) :=
  [plainStored 1, plainStored 2, plainStored 3, plainStored 4, plainStored 5]

theorem seven_selected :
    (runStarted (fun _ => false) id storedNodes (plainEnv 0) (fun _ _ => True)
        (overdialing.take 4)).map (fun p => (p.knownSelected, p.newSelected, p.fastDiscover)) =
      some (3, 2, false) ∧
    (runStarted (fun _ => false) id storedNodes (plainEnv 0) (fun _ _ => True)
        overdialing).map (fun p => (p.knownSelected, p.newSelected)) = some (5, 2) := by
  decide +kernel

end MiniOpera.DialTarget
