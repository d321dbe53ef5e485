import MiniOpera.AdvertisedPacks
import MiniOpera.Readers

/-!
# What is final when others can read it

`packsOnNewEvent` counts a full pack as pinned before it writes the info with its heads,
and a sealed epoch is announced before its last pack is pinned. A thread that reads the
store in between sees what is going to change.

`pinned_final_iff`: the events of a pinned pack never change again, and its info never
changes again except in the moment between `SetPacksNum` and `SetPackInfo`.
`packsNum_final_iff`: the number of packs of an epoch that is over never changes again,
except during the call of `processEvent` that sealed it.
-/

namespace MiniOpera.Publication
open GoRuntime InterEvent EventCheck GossipStore Caching Consensus Service Genesis
  PackMessages Threads
  UnlockedReads SharedView Readers AdvertisedPacks
open Runs (deciding sampleConfig idleEmitter)

/-- The epoch of the call of `processEvent` whose packs are not settled. -/
def unsettled : Pc → Option Nat
  | .idle => none
  | .engine _ oldEpoch _ => some oldEpoch
  | .sealing _ oldEpoch _ => some oldEpoch
  | .ending _ oldEpoch _ => some oldEpoch
  | .counting _ oldEpoch _ _ => some oldEpoch
  | .recording _ oldEpoch _ _ => some oldEpoch
  | .linking _ oldEpoch => some oldEpoch
  | .closing oldEpoch _ _ => some oldEpoch
  | .resetting _ => none

/-! ## Runs -/

section Runs

variable {w : World} {cfg : CacheConfig} {em : Emitter} {codec : PackInfoCodec}
  {n : Node} {c c' : Conf}
  {l : List Action} {epoch i : Nat}

/-! ## Pinned packs -/

theorem run_pinned (h : SoundConf c) (hpinned : i < (view c.node.store.data).num epoch)
    (hrun : run (Conf.step w codec) c l = some c') :
    Pinned (view c.node.store.data) c.pc (view c'.node.store.data) c'.pc epoch i := by
  refine (run_keeps (I := fun d => SoundConf d ∧
    Pinned (view c.node.store.data) c.pc (view d.node.store.data) d.pc epoch i) ?_
    ⟨h, hpinned, rfl, fun hne => ⟨rfl, hne⟩⟩ hrun).2
  rintro d action d' ⟨hd, hp⟩ hstep
  refine ⟨step_sound hd hstep, ?_⟩
  rcases step_view hd hstep with hw | ⟨hview, hpc⟩
  · obtain ⟨hpinned', hpacks, hinfo⟩ := writes_pinned hd.sound hw hp.pinned
    refine ⟨hpinned', hpacks.trans hp.packs, fun hne => ?_⟩
    obtain ⟨hsame, hout⟩ := hp.info hne
    obtain ⟨hsame', hout'⟩ := hinfo hout
    exact ⟨hsame'.trans hsame, hout'⟩
  · rw [hview, hpc]
    exact hp

/-- In every interleaving the events of a pinned pack never change again. Its info never
changes again either, unless `packsOnNewEvent` is between `SetPacksNum` and `SetPackInfo`:
then the info that can be read is the one without heads. -/
theorem pinned_final_iff (hstart : start w cfg em = .ok n)
    (h : run (Conf.step w codec) (.init n) l = some c)
    (hpinned : i < c.node.store.getPacksNumOrDefault epoch) :
    (∀ more c', run (Conf.step w codec) c more = some c' →
      i < c'.node.store.getPacksNumOrDefault epoch ∧
      c'.node.store.getPack epoch i = c.node.store.getPack epoch i) ∧
    ((∀ more c', run (Conf.step w codec) c more = some c' →
      getPackInfoRLP codec c'.node.store epoch i = getPackInfoRLP codec c.node.store epoch i) ↔
        window c.pc ≠ some (epoch, i)) ∧
    (window c.pc = some (epoch, i) →
      (c.node.store.getPackInfoOrDefault epoch i).1.heads = []) := by
  have hsound := run_sound hstart h
  refine ⟨fun more c' hrun => ?_, ⟨fun hfinal hwindow => ?_, fun hout more c' hrun => ?_⟩,
    fun hwindow => ?_⟩
  · have hp := run_pinned hsound hpinned hrun
    exact ⟨hp.pinned, congrArg Std.ExtTreeSet.toList hp.packs⟩
  · -- the next statement writes the info with one more event
    obtain ⟨e, oldEpoch, packInfo, hpc, rfl⟩ := window_eq hwindow
    have hholds := hsound.sound.holds
    rw [hpc] at hholds
    obtain ⟨rfl, -, -, -, -, hnum⟩ := hholds
    have hstep : run (Conf.step w codec) c [.next (deciding [])] = some { c with
        node := { c.node with store := c.node.store.setPackInfo e.epoch.toNat i packInfo }
        pc := .linking e e.epoch.toNat } := by
      simp only [run, Conf.step, hpc, statement, Option.map_some, Option.bind_some]
    have hsame := hfinal _ _ hstep
    have hafter : getPackInfoRLP codec (c.node.store.setPackInfo e.epoch.toNat i packInfo)
        e.epoch.toNat i = some (codec.encode packInfo) := by
      simp [getPackInfoRLP, Store.setPackInfo]
    rw [hafter] at hsame
    obtain ⟨old, hold, hencode⟩ := Option.map_eq_some_iff.mp hsame.symm
    have hdecode := congrArg codec.decode hencode
    rw [codec.decode_encode, codec.decode_encode] at hdecode
    obtain rfl : old = packInfo := Option.some.inj hdecode
    have hinfo : (view c.node.store.data).info e.epoch.toNat i = old := by
      show (c.node.store.data.packInfos _).getD _ = old
      rw [hold]
      rfl
    rw [hinfo] at hnum
    simp at hnum
  · have hp := run_pinned hsound hpinned hrun
    exact congrArg (Option.map codec.encode) (hp.info hout).1
  · obtain ⟨e, oldEpoch, packInfo, hpc, rfl⟩ := window_eq hwindow
    have hholds := hsound.sound.holds
    rw [hpc] at hholds
    obtain ⟨rfl, -, -, -, hheads, -⟩ := hholds
    have hknown := hsound.current.getPackInfoOrDefault hsound.sound e.epoch.toNat i
    rcases (hknown.served hpinned).row with hrow | hstale
    · rw [hknown.index] at hrow
      rw [← hrow]
      exact hheads
    · exact hstale.1

/-- The second event of an epoch fills the pack; its info is not written yet. -/
noncomputable def fullPack : List Action :=
  [.enter (chainEvent 1), .next (deciding []), .next (deciding []), .next (deciding []),
    .enter (payloadEvent 2 bigPayload 2097152), .next (deciding []), .next (deciding [])]

theorem fullPack_window : ((start (sampleWorld 1) sampleConfig idleEmitter).toOption.bind fun n =>
      run (Conf.step (sampleWorld 1) rlpPackInfo) (.init n) fullPack).map
        (fun c => (window c.pc, c.node.store.getPacksNumOrDefault 1)) = some (some (1, 1), 2) := by
  simp only [fullPack, run, Conf.step, admitEvent, setEvent_payload, ok_bind]
  decide +kernel

theorem pinned_final_iff_fullPack :
    ∃ n c, start (sampleWorld 1) sampleConfig idleEmitter = .ok n ∧
      run (Conf.step (sampleWorld 1) rlpPackInfo) (.init n) fullPack = some c ∧
      1 < c.node.store.getPacksNumOrDefault 1 ∧
      ¬ ∀ more c', run (Conf.step (sampleWorld 1) rlpPackInfo) c more = some c' →
        getPackInfoRLP rlpPackInfo c'.node.store 1 1 =
          getPackInfoRLP rlpPackInfo c.node.store 1 1 := by
  obtain ⟨c, hc, hread⟩ := Option.map_eq_some_iff.mp fullPack_window
  obtain ⟨n, hn, hrun⟩ := Option.bind_eq_some_iff.mp hc
  obtain ⟨hwindow, hnum⟩ := Prod.mk.inj hread
  have hstart := toOption_eq_some hn
  have hlt : 1 < c.node.store.getPacksNumOrDefault 1 := by
    rw [hnum]
    decide
  exact ⟨n, c, hstart, hrun, hlt,
    fun hfinal => (pinned_final_iff hstart hrun hlt).2.1.mp hfinal hwindow⟩

/-! ## Epochs that are over -/

/-- The epoch is over, and its packs are not written to any more. -/
structure Settled (v : View) (pc : Pc) (epoch : Nat) : Prop where
  past : ∃ es, v.epochState = some es ∧ epoch < es.epoch
  settled : unsettled pc ≠ some epoch

section Writes

variable {v v' : View} {pc pc' : Pc}

theorem writes_past (h : Sound v pc) (hw : Writes v pc v' pc')
    (hpast : ∃ es, v.epochState = some es ∧ epoch < es.epoch) :
    ∃ es, v'.epochState = some es ∧ epoch < es.epoch := by
  obtain ⟨es, hes, hlt⟩ := hpast
  obtain ⟨es', hes', hle⟩ := writes_epoch h hw hes
  exact ⟨es', hes', Nat.lt_of_lt_of_le hlt hle⟩

theorem writes_settled (h : Sound v pc) (hw : Writes v pc v' pc')
    (hs : Settled v pc epoch) : v'.packsNum epoch = v.packsNum epoch ∧ Settled v' pc' epoch := by
  have hpast := writes_past h hw hs.past
  have hholds := h.holds
  obtain ⟨⟨es, hes, hlt⟩, hsettled⟩ := hs
  cases hw with
  | enter hes' hrelevant =>
    rw [hes] at hes'
    cases hes'
    exact ⟨rfl, hpast, fun heq => Nat.ne_of_gt hlt (Option.some.inj heq)⟩
  | @count e oldEpoch packIdx packInfo heads hfull =>
    obtain ⟨rfl, -⟩ := hholds
    have hne : epoch ≠ e.epoch.toNat := fun heq => hsettled (congrArg some heq.symm)
    exact ⟨Function.update_of_ne hne _ _, hpast, hsettled⟩
  | @pin oldEpoch newEpoch packIdx =>
    have hne : epoch ≠ oldEpoch := fun heq => hsettled (congrArg some heq.symm)
    exact ⟨Function.update_of_ne hne _ _, hpast, by simp [unsettled]⟩
  | refuse | link | reset => exact ⟨rfl, hpast, by simp [unsettled]⟩
  | block | sealEpoch | endBlock | pack | note | record | close => exact ⟨rfl, hpast, hsettled⟩

end Writes

theorem run_settled (h : SoundConf c) (hs : Settled (view c.node.store.data) c.pc epoch)
    (hrun : run (Conf.step w codec) c l = some c') :
    c'.node.store.data.packsNum epoch = c.node.store.data.packsNum epoch := by
  refine (run_keeps (I := fun d => SoundConf d ∧ Settled (view d.node.store.data) d.pc epoch ∧
    d.node.store.data.packsNum epoch = c.node.store.data.packsNum epoch) ?_
      ⟨h, hs, rfl⟩ hrun).2.2
  rintro d action d' ⟨hd, hset, hsame⟩ hstep
  rcases step_view hd hstep with hw | ⟨hview, hpc⟩
  · obtain ⟨hnum, hset'⟩ := writes_settled hd.sound hw hset
    exact ⟨step_sound hd hstep, hset', Eq.trans hnum hsame⟩
  · refine ⟨step_sound hd hstep, ?_, ?_⟩
    · rw [hview, hpc]
      exact hset
    · exact Eq.trans (congrFun (congrArg View.packsNum hview) epoch) hsame

/-- How far the call is from its end. -/
def statementsLeft : Pc → Nat
  | .idle => 0
  | .resetting _ => 1
  | .closing _ _ _ => 2
  | .linking _ _ => 3
  | .recording _ _ _ _ => 4
  | .counting _ _ _ _ => 5
  | .engine _ _ _ => 6
  | .ending _ _ _ => 7
  | .sealing _ _ _ => 8

/-- The call of a sealed epoch has not pinned its last pack. -/
structure Sealing (c : Conf) (epoch : Nat) : Prop where
  sound : SoundConf c
  past : ∃ es, c.node.store.data.epochState = some es ∧ epoch < es.epoch
  unsettled : unsettled c.pc = some epoch

theorem onNewEvent_ok {em : Option Emitter} (h : em ≠ none) (e : Event) :
    onNewEvent em e false = .ok () := by
  cases em with
  | none => exact absurd rfl h
  | some em =>
    simp only [onNewEvent]
    split
    · rfl
    · split <;> rfl

/-- Nothing but the end of the call stops it, unless the emitter is missing. -/
theorem statement_enabled {n : Node} {es : EpochState} {pc : Pc} (hem : n.emitter ≠ none)
    (hes : n.store.cache.epochState = some es) (hpc : pc ≠ .idle) :
    ∃ n' pc', statement n (deciding []) pc = some (n', pc') := by
  cases pc with
  | idle => exact absurd rfl hpc
  | counting e oldEpoch packIdx packInfo =>
    simp only [statement]
    split <;> exact ⟨_, _, rfl⟩
  | linking e oldEpoch =>
    have hepoch : (n.store.getEpoch : Go ServiceError _) = .ok (es.epoch, n.store) := by
      rw [Store.getEpoch, Store.getEpochState, hes]
      rfl
    simp only [statement, onNewEvent_ok hem, deciding, hepoch]
    split <;> exact ⟨_, _, rfl⟩
  | engine | sealing | ending | recording | closing | resetting => exact ⟨_, _, rfl⟩

theorem statement_left {n n' : Node} {o : Outcome} {pc pc' : Pc}
    (h : statement n o pc = some (n', pc')) : statementsLeft pc' < statementsLeft pc := by
  cases pc with
  | idle => cases h
  | counting e oldEpoch packIdx packInfo =>
    simp only [statement] at h
    split at h <;> cases h <;> simp [statementsLeft]
  | linking e oldEpoch =>
    simp only [statement] at h
    split at h
    · cases h
    · split at h
      · cases h
      · split at h <;> cases h <;> simp [statementsLeft]
  | engine | sealing | ending | recording | closing | resetting =>
    cases h
    simp [statementsLeft]

/-- The packs of the sealed epoch stay unsettled up to the statement that pins the last one. -/
theorem statement_unsettled {n n' : Node} {o : Outcome} {pc pc' : Pc}
    (h : statement n o pc = some (n', pc')) (hf : Fresh n.store)
    (hs : Sound (view n.store.data) pc)
    (hpast : ∃ es, (view n.store.data).epochState = some es ∧ epoch < es.epoch)
    (hun : unsettled pc = some epoch) : unsettled pc' = some epoch ∨
      (view n.store.data).num epoch < (view n'.store.data).num epoch := by
  have hw := (statement_writes hf h).1
  have hholds := hs.holds
  generalize view n'.store.data = v' at hw ⊢
  cases hw with
  | enter | reset => cases hun
  | refuse =>
    -- the engine refuses the event in a step of its own
    cases h
  | link hes hsame =>
    obtain ⟨es, hes', hlt⟩ := hpast
    obtain rfl := Option.some.inj (hes.symm.trans hes')
    exact absurd (hsame.trans (Option.some.inj hun)) (Nat.ne_of_gt hlt)
  | pin =>
    obtain rfl := Option.some.inj hun
    refine .inr ?_
    rw [show _ = _ from hholds, num_setPacksNum]
    exact Nat.lt_succ_self _
  | block | sealEpoch | endBlock | pack | count | note | record | close => exact .inl hun

/-- The call can go on, and comes closer to the last pack or pins it. -/
theorem Sealing.next (h : Sealing c epoch) (w : World) (codec : PackInfoCodec) :
    ∃ c', c.step w codec (.next (deciding [])) = some c' ∧
      statementsLeft c'.pc < statementsLeft c.pc ∧
      c.node.store.getPacksNumOrDefault epoch ≤ c'.node.store.getPacksNumOrDefault epoch ∧
      (Sealing c' epoch ∨
        c.node.store.getPacksNumOrDefault epoch < c'.node.store.getPacksNumOrDefault epoch) := by
  obtain ⟨es, hes, -⟩ := h.past
  have hbusy : c.pc ≠ .idle := by
    intro hpc
    have hun := h.unsettled
    rw [hpc] at hun
    cases hun
  obtain ⟨n', pc', hst⟩ := statement_enabled h.sound.emitter
    (h.sound.current.epochState.trans hes) hbusy
  have hstep : c.step w codec (.next (deciding [])) = some { c with node := n', pc := pc' } := by
    rw [Conf.step, hst]
    rfl
  have hw := (statement_writes h.sound.current.fresh hst).1
  refine ⟨_, hstep, statement_left hst, writes_num h.sound.sound hw epoch, ?_⟩
  refine (statement_unsettled hst h.sound.current.fresh h.sound.sound h.past
    h.unsettled).imp_left fun hun => ?_
  exact ⟨step_sound h.sound hstep, writes_past h.sound.sound hw h.past, hun⟩

theorem Sealing.pins (h : Sealing c epoch) (w : World) (codec : PackInfoCodec) :
    ∃ more c', run (Conf.step w codec) c more = some c' ∧
    c.node.store.getPacksNumOrDefault epoch < c'.node.store.getPacksNumOrDefault epoch := by
  have hprogress : ∀ d : Conf,
      (c.node.store.getPacksNumOrDefault epoch ≤ d.node.store.getPacksNumOrDefault epoch ∧
        (Sealing d epoch ∨
          c.node.store.getPacksNumOrDefault epoch < d.node.store.getPacksNumOrDefault epoch)) →
      ¬ c.node.store.getPacksNumOrDefault epoch < d.node.store.getPacksNumOrDefault epoch →
      ∃ action d', d.step w codec action = some d' ∧
        (c.node.store.getPacksNumOrDefault epoch ≤ d'.node.store.getPacksNumOrDefault epoch ∧
          (Sealing d' epoch ∨
            c.node.store.getPacksNumOrDefault epoch < d'.node.store.getPacksNumOrDefault epoch)) ∧
        statementsLeft d'.pc < statementsLeft d.pc := by
    rintro d ⟨hle, hd⟩ hnot
    obtain ⟨d', hstep, hless, hmono, hd'⟩ := (hd.resolve_right hnot).next w codec
    exact ⟨_, d', hstep, ⟨hle.trans hmono, hd'.imp_right (Nat.lt_of_le_of_lt hle)⟩, hless⟩
  obtain ⟨more, c', hrun, -, hdone⟩ :=
    run_ends (fun d : Conf => statementsLeft d.pc) hprogress ⟨Nat.le_refl _, .inl h⟩
  exact ⟨more, c', hrun, hdone⟩

/-- In every interleaving the number of packs of an epoch that is over never changes again,
except during the call of `processEvent` that sealed it: others see the new epoch while
the last pack of the old one is still to be counted. -/
theorem packsNum_final_iff (hstart : start w cfg em = .ok n)
    (h : run (Conf.step w codec) (.init n) l = some c) {es : EpochState}
    (hes : c.node.store.data.epochState = some es) (hpast : epoch < es.epoch) :
    (∀ more c', run (Conf.step w codec) c more = some c' →
      c'.node.store.getPacksNum epoch = c.node.store.getPacksNum epoch) ↔
      unsettled c.pc ≠ some epoch := by
  have hsound := run_sound hstart h
  constructor
  · intro hfinal hun
    have hsealing : Sealing c epoch := ⟨hsound, ⟨es, hes, hpast⟩, hun⟩
    obtain ⟨more, c', hrun, hlt⟩ := hsealing.pins w codec
    rw [Store.getPacksNumOrDefault, Store.getPacksNumOrDefault, hfinal more c' hrun] at hlt
    exact Nat.lt_irrefl _ hlt
  · intro hsettled more c' hrun
    exact run_settled hsound ⟨⟨es, hes, hpast⟩, hsettled⟩ hrun

/-- The first event of an epoch seals it; `EndBlock` has not returned. -/
def sealedFirst : List Action :=
  [.enter (chainEvent 1), .block ⟨(chainEvent 1).id, [], [chainEvent 1]⟩, .next (deciding [])]

theorem packsNum_final_iff_sealedFirst :
    ∃ n c, start (sampleWorld 1) sampleConfig idleEmitter = .ok n ∧
      run (Conf.step (sampleWorld 1) rlpPackInfo) (.init n) sealedFirst = some c ∧
      c.node.store.data.epochState.map (·.epoch) = some 2 ∧
      ¬ ∀ more c', run (Conf.step (sampleWorld 1) rlpPackInfo) c more = some c' →
        c'.node.store.getPacksNum 1 = c.node.store.getPacksNum 1 := by
  have hrun : ((start (sampleWorld 1) sampleConfig idleEmitter).toOption.bind fun n =>
      run (Conf.step (sampleWorld 1) rlpPackInfo) (.init n) sealedFirst).map
        (fun c => (unsettled c.pc, c.node.store.data.epochState.map (·.epoch))) =
      some (some 1, some 2) := by
    decide +kernel
  obtain ⟨c, hc, hread⟩ := Option.map_eq_some_iff.mp hrun
  obtain ⟨n, hn, hrun⟩ := Option.bind_eq_some_iff.mp hc
  obtain ⟨hunsettled, hepoch⟩ := Prod.mk.inj hread
  have hstart := toOption_eq_some hn
  obtain ⟨es, hes, htwo⟩ := Option.map_eq_some_iff.mp hepoch
  exact ⟨n, c, hstart, hrun, hepoch, fun hfinal =>
    (packsNum_final_iff hstart hrun hes (by rw [htwo]; decide)).mp hfinal hunsettled⟩

end Runs

end MiniOpera.Publication
