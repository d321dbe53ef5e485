import MiniOpera.UnlockedReads

/-!
# The tables while an event is processed

`Sound`: what holds of the tables that others read at every statement of `processEvent`,
given what the thread with `engineMu` has in its variables. `writes_sound`: every statement
keeps it. `writes_pinned`, `writes_grows`: what a statement leaves as it was.
-/

namespace MiniOpera.SharedView
open GossipStore Consensus Service UnlockedReads

/-! ## The tables -/

/-- The pack that is counted as pinned while its info is not written. -/
def window : Pc → Option (Nat × Nat)
  | .recording e _ packIdx _ => some (e.epoch.toNat, packIdx)
  | _ => none

/-- The epoch whose last info has its heads while it is not counted as pinned. -/
def closed : Pc → Option Nat
  | .closing oldEpoch _ _ => some oldEpoch
  | _ => none

/-- The block that `EndBlock` has stored and is going to count. -/
def NextBlock (v : View) (bs' : BlockState) : Prop :=
  ∃ bs, v.blockState = some bs ∧ bs'.block = bs.block + 1 ∧ v.blocks (bs.block + 1) ≠ none

/-- What the thread with `engineMu` has in its variables. -/
def Holds (v : View) : Pc → Prop
  | .idle => True
  | .engine e oldEpoch _ => e.epoch.toNat = oldEpoch
  | .sealing e oldEpoch ending => e.epoch.toNat = oldEpoch ∧ NextBlock v ending.blockState ∧
      ∀ es', ending.sealed = some es' →
        ∃ es, v.epochState = some es ∧ es' = { es with epoch := es.epoch + 1 }
  | .ending e oldEpoch bs => e.epoch.toNat = oldEpoch ∧ NextBlock v bs
  | .counting e oldEpoch packIdx packInfo =>
    e.epoch.toNat = oldEpoch ∧ packIdx = v.num oldEpoch ∧
      packInfo.index = packIdx ∧ packInfo.heads = [] ∧
      packInfo.numOfEvents = (v.info oldEpoch packIdx).numOfEvents + 1
  | .recording e oldEpoch packIdx packInfo => e.epoch.toNat = oldEpoch ∧
      packIdx + 1 = v.num oldEpoch ∧ 1 ≤ packIdx ∧ packInfo.index = packIdx ∧
      (v.info oldEpoch packIdx).heads = [] ∧
      packInfo.numOfEvents = (v.info oldEpoch packIdx).numOfEvents + 1
  | .linking e oldEpoch => e.epoch.toNat = oldEpoch
  | .closing oldEpoch _ packIdx => packIdx = v.num oldEpoch
  | .resetting _ => True

structure Sound (v : View) (pc : Pc) : Prop where
  blocks : ∃ bs, v.blockState = some bs ∧ ∀ i, i ≤ bs.block → v.blocks i ≠ none
  epoch : ∃ es, v.epochState = some es
  one : ∀ epoch, 1 ≤ v.num epoch
  rows : ∀ epoch i info, v.packInfos (epoch, i) = some info →
    info.index = i ∧ 1 ≤ i ∧ i ≤ v.num epoch
  unpinned : ∀ epoch info, v.packInfos (epoch, v.num epoch) = some info →
    closed pc ≠ some epoch →
    info.heads = []
  holds : Holds v pc

theorem window_eq {pc : Pc} {epoch i : Nat} (h : window pc = some (epoch, i)) :
    ∃ e oldEpoch info, pc = .recording e oldEpoch i info ∧ e.epoch.toNat = epoch := by
  cases pc with
  | recording e oldEpoch packIdx info =>
    cases h
    exact ⟨e, oldEpoch, info, rfl, rfl⟩
  | idle | engine | sealing | ending | counting | linking | closing | resetting => cases h

/-! ## Reading what was written -/

section View

variable {v : View} {epoch epoch' idx idx' num : Nat} {info : PackInfo}

@[simp] theorem num_setPacksNum : (v.setPacksNum epoch num).num epoch = num := by
  simp [View.num, View.setPacksNum]

theorem num_setPacksNum_of_ne (h : epoch' ≠ epoch) : (v.setPacksNum epoch num).num epoch' =
    v.num epoch' := by
  simp [View.num, View.setPacksNum, h]

theorem num_le_setPacksNum (hnum : num = v.num epoch) :
    v.num epoch' ≤ (v.setPacksNum epoch (num + 1)).num epoch' := by
  by_cases h : epoch' = epoch
  · subst h
    rw [num_setPacksNum]
    omega
  · rw [num_setPacksNum_of_ne h]

@[simp] theorem packInfos_setPackInfo :
    (v.setPackInfo epoch idx info).packInfos (epoch, idx) = some info := by
  simp [View.setPackInfo]

theorem packInfos_setPackInfo_of_ne (h : (epoch', idx') ≠ (epoch, idx)) :
    (v.setPackInfo epoch idx info).packInfos (epoch', idx') = v.packInfos (epoch', idx') := by
  simp only [View.setPackInfo, Function.update_of_ne h]

/-- The default value has the index and no heads. -/
theorem info_cases (v : View) (epoch idx : Nat) :
    v.packInfos (epoch, idx) = some (v.info epoch idx) ∨
      v.packInfos (epoch, idx) = none ∧ v.info epoch idx = ⟨idx, 0, 0, []⟩ := by
  unfold View.info
  cases v.packInfos (epoch, idx) with
  | none => exact .inr ⟨rfl, rfl⟩
  | some info => exact .inl rfl

theorem blocks_setBlock {n : Nat} {b : Block} {i : Nat} (h : v.blocks i ≠ none) :
    (v.setBlock n b).blocks i ≠ none := by
  by_cases hi : i = n
  · subst hi
    simp [View.setBlock]
  · simpa [View.setBlock, hi] using h

end View

/-! ## Steps -/

section Steps

variable {v v' : View} {pc pc' : Pc}

theorem Sound.info_index (h : Sound v pc) (epoch idx : Nat) : (v.info epoch idx).index = idx := by
  rcases info_cases v epoch idx with hrow | ⟨-, hdefault⟩
  · exact (h.rows _ _ _ hrow).1
  · rw [hdefault]

theorem Sound.info_heads (h : Sound v pc) {epoch : Nat} (hopen : closed pc ≠ some epoch) :
    (v.info epoch (v.num epoch)).heads = [] := by
  rcases info_cases v epoch (v.num epoch) with hrow | ⟨-, hdefault⟩
  · exact h.unpinned _ _ hrow hopen
  · rw [hdefault]

/-- The thread with `engineMu` moves and the view stays. -/
theorem Sound.goto (h : Sound v pc) (hclosed : closed pc = none)
    (hholds : Holds v pc') : Sound v pc' :=
  ⟨h.blocks, h.epoch, h.one, h.rows, fun epoch info hrow _ =>
    h.unpinned epoch info hrow (by simp [hclosed]),
    hholds⟩

theorem Sound.setPacksNum (h : Sound v pc) {epoch idx : Nat} (hidx : idx = v.num epoch)
    (hclosed : ∀ other, other ≠ epoch → closed pc ≠ some other)
    (hholds : Holds (v.setPacksNum epoch (idx + 1)) pc') :
    Sound (v.setPacksNum epoch (idx + 1)) pc' := by
  refine ⟨h.blocks, h.epoch, fun other => (h.one other).trans (num_le_setPacksNum hidx),
    fun other i info hrow => ?_, fun other info hrow _ => ?_, hholds⟩
  · obtain ⟨hindex, hone, hle⟩ := h.rows other i info hrow
    exact ⟨hindex, hone, hle.trans (num_le_setPacksNum hidx)⟩
  · by_cases hother : other = epoch
    · -- there is no info of the new pack
      subst hother
      rw [num_setPacksNum] at hrow
      have hle := (h.rows other _ info hrow).2.2
      omega
    · rw [num_setPacksNum_of_ne hother] at hrow
      exact h.unpinned other info hrow (hclosed other hother)

theorem Sound.setPackInfo (h : Sound v pc) {epoch idx : Nat} {info : PackInfo}
    (hclosed : closed pc = none) (hindex : info.index = idx) (hone : 1 ≤ idx)
    (hle : idx ≤ v.num epoch)
    (hheads : idx = v.num epoch → closed pc' ≠ some epoch → info.heads = [])
    (hholds : Holds (v.setPackInfo epoch idx info) pc') :
    Sound (v.setPackInfo epoch idx info) pc' := by
  refine ⟨h.blocks, h.epoch, h.one, fun other i info' hrow =>
    ?_, fun other info' hrow hopen => ?_, hholds⟩
  · by_cases heq : (other, i) = (epoch, idx)
    · cases heq
      rw [packInfos_setPackInfo] at hrow
      cases hrow
      exact ⟨hindex, hone, hle⟩
    · rw [packInfos_setPackInfo_of_ne heq] at hrow
      exact h.rows other i info' hrow
  · by_cases heq : (other, v.num other) = (epoch, idx)
    · have hidx : idx = v.num epoch := by
        cases heq
        rfl
      obtain rfl : other = epoch := congrArg Prod.fst heq
      have hrow : (v.setPackInfo other idx info).packInfos (other, v.num other) = some info' := hrow
      rw [← hidx, packInfos_setPackInfo] at hrow
      cases hrow
      exact hheads hidx hopen
    · have hrow : (v.setPackInfo epoch idx info).packInfos (other, v.num other) =
        some info' := hrow
      rw [packInfos_setPackInfo_of_ne heq] at hrow
      exact h.unpinned other info' hrow (by simp [hclosed])

theorem writes_sound (h : Sound v pc) (hw : Writes v pc v' pc') : Sound v' pc' := by
  have hholds := h.holds
  cases hw with
  | enter hes hrelevant => exact h.goto rfl hrelevant
  | refuse => exact h.goto rfl trivial
  | @block e oldEpoch called bs b ending hbs hnext hsealed =>
    obtain ⟨bs', hbs', hblocks⟩ := h.blocks
    refine ⟨⟨bs', hbs', fun i hi => blocks_setBlock (hblocks i hi)⟩, h.epoch, h.one, h.rows,
      fun epoch info hrow _ => h.unpinned epoch info hrow (by simp [closed]), hholds, ?_, hsealed⟩
    exact ⟨bs, hbs, hnext, by simp [View.setBlock]⟩
  | @sealEpoch e oldEpoch ending =>
    obtain ⟨hepoch, hnext, hsealed⟩ := hholds
    refine ⟨h.blocks, ?_, h.one, h.rows, fun epoch info hrow _ =>
      h.unpinned epoch info hrow (by simp [closed]),
      hepoch, hnext⟩
    obtain ⟨es, hes⟩ := h.epoch
    cases ending.sealed with
    | none => exact ⟨es, hes⟩
    | some es' => exact ⟨es', rfl⟩
  | @endBlock e oldEpoch bs' =>
    obtain ⟨hepoch, bs, hbs, hnext, hblock⟩ := hholds
    obtain ⟨bs₀, hbs₀, hblocks⟩ := h.blocks
    rw [hbs] at hbs₀
    cases hbs₀
    refine ⟨⟨bs', rfl, fun i hi => ?_⟩, h.epoch, h.one, h.rows,
      fun epoch info hrow _ => h.unpinned epoch info hrow (by simp [closed]), hepoch⟩
    rcases Nat.lt_or_ge bs.block i with hlt | hge
    · obtain rfl : i = bs.block + 1 := by omega
      exact hblock
    · exact hblocks i hge
  | @pack e oldEpoch called =>
    obtain rfl : e.epoch.toNat = oldEpoch := hholds
    exact ⟨h.blocks, h.epoch, h.one, h.rows,
      fun epoch info hrow _ => h.unpinned epoch info hrow (by simp [closed]), rfl, rfl, rfl,
      h.info_heads (by simp [closed]), rfl⟩
  | @count e oldEpoch packIdx packInfo heads hfull =>
    obtain ⟨rfl, hidx, hindex, hheads, hnum⟩ := hholds
    refine h.setPacksNum hidx (fun _ _ => by simp [closed])
      ⟨rfl, num_setPacksNum.symm, ?_, hindex, ?_, hnum⟩
    · rw [hidx]
      exact h.one _
    · rw [hidx]
      exact h.info_heads (by simp [closed])
  | @note e oldEpoch packIdx packInfo hroom =>
    obtain ⟨rfl, hidx, hindex, hheads, -⟩ := hholds
    exact h.setPackInfo rfl hindex (hidx ▸ h.one _) (Nat.le_of_eq hidx) (fun _ _ => hheads) rfl
  | @record e oldEpoch packIdx packInfo =>
    obtain ⟨rfl, hidx, hone, hindex, -⟩ := hholds
    exact h.setPackInfo rfl hindex hone (by omega) (fun heq => by omega) rfl
  | link => exact h.goto rfl trivial
  | @close e oldEpoch es heads hes hsealed =>
    exact h.setPackInfo rfl (h.info_index _ _) (h.one _) (Nat.le_refl _)
      (fun _ hopen => absurd rfl hopen) rfl
  | @pin oldEpoch newEpoch packIdx =>
    refine h.setPacksNum hholds (fun other hother hclosed => hother ?_) trivial
    exact (Option.some.inj hclosed).symm
  | reset => exact h.goto rfl trivial

end Steps

/-! ## Pinned packs -/

/-- A pinned pack stays pinned, with its events and, outside the window, its info. -/
structure Pinned (v : View) (pc : Pc) (v' : View) (pc' : Pc) (epoch i : Nat) : Prop where
  pinned : i < v'.num epoch
  packs : v'.packs (epoch, i) = v.packs (epoch, i)
  info : window pc ≠ some (epoch, i) →
    v'.packInfos (epoch, i) = v.packInfos (epoch, i) ∧ window pc' ≠ some (epoch, i)

theorem writes_pinned {v v' : View} {pc pc' : Pc} {epoch i : Nat} (h : Sound v pc)
    (hw : Writes v pc v' pc')
    (hpinned : i < v.num epoch) : Pinned v pc v' pc' epoch i := by
  have hholds := h.holds
  -- a pack that is written to is the last one of its epoch
  have hother : ∀ {old idx : Nat}, v.num old ≤ idx → (epoch, i) ≠ (old, idx) := by
    rintro old idx hle heq
    cases heq
    omega
  cases hw with
  | @pack e oldEpoch called =>
    refine ⟨hpinned, ?_, fun _ => ⟨rfl, by simp [window]⟩⟩
    simp only [View.addToPack, Function.update_of_ne (hother (Nat.le_refl _))]
  | @count e oldEpoch packIdx packInfo heads hfull =>
    obtain ⟨rfl, rfl, -⟩ := hholds
    refine ⟨Nat.lt_of_lt_of_le hpinned (num_le_setPacksNum rfl), rfl,
      fun _ => ⟨rfl, fun heq => ?_⟩⟩
    exact hother (Nat.le_refl _) (Option.some.inj heq).symm
  | @note e oldEpoch packIdx packInfo hroom =>
    obtain ⟨rfl, rfl, -⟩ := hholds
    exact ⟨hpinned, rfl, fun _ =>
      ⟨packInfos_setPackInfo_of_ne (hother (Nat.le_refl _)), by simp [window]⟩⟩
  | @record e oldEpoch packIdx packInfo =>
    refine ⟨hpinned, rfl, fun hne => ⟨packInfos_setPackInfo_of_ne fun heq =>
      hne ?_, by simp [window]⟩⟩
    rw [heq]
    rfl
  | close =>
    exact ⟨hpinned, rfl, fun _ =>
      ⟨packInfos_setPackInfo_of_ne (hother (Nat.le_refl _)), by simp [window]⟩⟩
  | @pin oldEpoch newEpoch packIdx =>
    exact ⟨Nat.lt_of_lt_of_le hpinned (num_le_setPacksNum hholds), rfl,
      fun _ => ⟨rfl, by simp [window]⟩⟩
  | enter | refuse | block | sealEpoch | endBlock | link | reset =>
    exact ⟨hpinned, rfl, fun _ => ⟨rfl, by simp [window]⟩⟩

/-! ## What only grows -/

/-- What a reader may rely on later. -/
structure Grows (v v' : View) : Prop where
  blocks : ∀ bs, v.blockState = some bs → ∃ bs', v'.blockState = some bs' ∧
    bs.block ≤ bs'.block ∧
    ∀ i, i ≤ bs.block → v'.blocks i = v.blocks i
  epoch : ∀ es, v.epochState = some es → ∃ es', v'.epochState = some es' ∧
    es.epoch ≤ es'.epoch
  num : ∀ epoch, v.num epoch ≤ v'.num epoch

section Grows

variable {v v' : View} {pc pc' : Pc}

/-- Of the blocks, only the next one is written, and counted afterwards. -/
theorem writes_blocks (h : Sound v pc) (hw : Writes v pc v' pc') {bs : BlockState}
    (hbs : v.blockState = some bs) : ∃ bs', v'.blockState = some bs' ∧
      bs.block ≤ bs'.block ∧
      ∀ i, i ≤ bs.block → v'.blocks i = v.blocks i := by
  have hholds := h.holds
  cases hw with
  | @block e oldEpoch called bs' b ending hbs' hnext hsealed =>
    rw [hbs] at hbs'
    cases hbs'
    refine ⟨bs, hbs, Nat.le_refl _, fun i hi => ?_⟩
    exact Function.update_of_ne (by omega) _ _
  | @endBlock e oldEpoch bs' =>
    obtain ⟨-, bs₀, hbs₀, hnext, -⟩ := hholds
    rw [hbs] at hbs₀
    cases hbs₀
    exact ⟨bs', rfl, by omega, fun _ _ => rfl⟩
  | enter | refuse | sealEpoch | pack | count | note | record | link | close | pin | reset =>
    exact ⟨bs, hbs, Nat.le_refl _, fun _ _ => rfl⟩

theorem writes_epoch (h : Sound v pc) (hw : Writes v pc v' pc') {es : EpochState}
    (hes : v.epochState = some es) : ∃ es', v'.epochState = some es' ∧
      es.epoch ≤ es'.epoch := by
  have hholds := h.holds
  cases hw with
  | @sealEpoch e oldEpoch ending =>
    cases hsealed : ending.sealed with
    | none => exact ⟨es, hes, Nat.le_refl _⟩
    | some es' =>
      obtain ⟨es₀, hes₀, rfl⟩ := hholds.2.2 es' hsealed
      rw [hes] at hes₀
      cases hes₀
      exact ⟨_, rfl, Nat.le_succ _⟩
  | enter | refuse | block | endBlock | pack | count | note | record | link | close | pin | reset =>
    exact ⟨es, hes, Nat.le_refl _⟩

theorem writes_num (h : Sound v pc) (hw : Writes v pc v' pc') (epoch : Nat) :
    v.num epoch ≤ v'.num epoch := by
  have hone := h.one epoch
  have hlast : v.num epoch - 1 < v.num epoch := by omega
  have hpinned := (writes_pinned h hw hlast).pinned
  omega

theorem writes_grows (h : Sound v pc) (hw : Writes v pc v' pc') : Grows v v' :=
  ⟨fun _ => writes_blocks h hw, fun _ => writes_epoch h hw, writes_num h hw⟩

end Grows

end MiniOpera.SharedView
