import MiniOpera.Runs

/-!
# The counters of the chain

`EndBlock` moves a block number, a block count of the epoch, the epoch and the
keys of the checkers, in separate writes. `processBlock_effect` says what one
call writes as a function of the two state rows. A run (`Chain`) keeps what every
call has returned, and the counters are closed forms of that list.

`chain_counters`: in every state of every run the counters are these closed
forms, the block table has no gap, and what is in it stays.
-/

namespace MiniOpera.BlockCounters
open GoRuntime InterEvent EventCheck GossipStore Caching Consensus Service Genesis

/-! ## One block -/

/-- The condition under which `EndBlock` seals the epoch. -/
def Seals (w : World) (bs : BlockState) (cBlock : CBlock) : Prop :=
  w.net.maxEpochBlocks ≤ bs.epochBlocks + 1 ∨ cBlock.cheaters.length ≠ 0

instance (w : World) (bs : BlockState) (cBlock : CBlock) : Decidable (Seals w bs cBlock) :=
  inferInstanceAs (Decidable (_ ∨ _))

def nextBlockState (w : World) (bs : BlockState) (cBlock : CBlock) : BlockState :=
  ⟨bs.block + 1, if Seals w bs cBlock then 0 else bs.epochBlocks + 1⟩

def nextEpochState (w : World) (bs : BlockState) (es : EpochState) (cBlock : CBlock) : EpochState :=
  if Seals w bs cBlock then { es with epoch := es.epoch + 1 } else es

/-- What the callbacks of a block leave behind, given the two state rows. -/
structure Ended (w : World) (n : Node) (bs : BlockState) (es : EpochState) (cBlock : CBlock)
    (v : Option (List Validator)) (n' : Node) : Prop where
  coherent : Coherent n'.store
  data : ∃ b, n'.store.data = { n.store.data with
    blocks := Function.update n.store.data.blocks (bs.block + 1) (some b)
    blockState := some (nextBlockState w bs cBlock)
    epochState := some (nextEpochState w bs es cBlock) }
  result : v = if Seals w bs cBlock then some es.validators else none
  keys : n'.pubKeys = if Seals w bs cBlock then newEpochPubKeys (es.epoch + 1) w.net.validators
    else n.pubKeys

section Block

variable {w : World} {n n' : Node} {bs : BlockState} {es : EpochState} {cBlock : CBlock}
  {v : Option (List Validator)}

theorem processBlock_effect (hc : Coherent n.store) (hbs : n.store.data.blockState = some bs)
    (hes : n.store.data.epochState = some es)
    (h : (processBlock w n cBlock : Go ServiceError _) = .ok (v, n')) :
    Ended w n bs es cBlock v n' := by
  obtain ⟨⟨ending, n1⟩, hpub, hw⟩ := bind_eq_ok h
  obtain ⟨⟨bs', s1⟩, hget, hpub⟩ := bind_eq_ok hpub
  obtain ⟨hrow, hd1, -, hc1⟩ := getBlockState_spec hc hget
  rw [hbs] at hrow
  cases hrow
  dsimp only at hpub
  split at hpub
  · cases hpub
  · next atropos _ =>
    generalize Block.mk _ _ _ = block at hpub
    have hset := hc1.setBlock (bs.block + 1) block
    split at hpub
    · next hseal =>
      have hs : Seals w bs cBlock := hseal
      obtain ⟨⟨es', s2⟩, hget', hpub⟩ := bind_eq_ok hpub
      obtain ⟨hrow', hd2, -, hc2⟩ := getEpochState_spec hset hget'
      have hsame : (s1.setBlock (bs.block + 1) block).data.epochState = some es := by
        rw [← hes, ← hd1]
        rfl
      rw [hsame] at hrow'
      cases hrow'
      cases hpub
      cases hw
      refine ⟨(hc2.setEpochState _).setBlockState _, ⟨block, ?_⟩, ?_, ?_⟩
      · simp only [Store.setBlockState, Store.setEpochState, hd2, Store.setBlock, hd1,
          nextBlockState, nextEpochState, if_pos hs]
      · rw [if_pos hs]
        rfl
      · rw [if_pos hs]
    · next hseal =>
      have hs : ¬ Seals w bs cBlock := hseal
      cases hpub
      cases hw
      refine ⟨hset.setBlockState _, ⟨block, ?_⟩, ?_, ?_⟩
      · simp only [Store.setBlockState, Store.setBlock, hd1, nextBlockState, nextEpochState,
          if_neg hs, ← hes]
      · rw [if_neg hs]
        rfl
      · rw [if_neg hs]

/-- `EndBlock` returns once the atropos was applied. -/
theorem processBlock_returns (hc : Coherent n.store) (hbs : n.store.data.blockState = some bs)
    (hes : n.store.data.epochState = some es)
    (ha : ∃ a ∈ cBlock.applied, a.id = cBlock.atropos) :
    ∃ v n', (processBlock w n cBlock : Go ServiceError _) = .ok (v, n') := by
  obtain ⟨s1, hget⟩ := getBlockState_returns (ε := ServiceError) hc hbs
  obtain ⟨-, hd1, -, hc1⟩ := getBlockState_spec hc hget
  obtain ⟨a, hmem, hid⟩ := ha
  -- the atropos was found while the events were applied
  obtain ⟨a', hfind⟩ : ∃ a', cBlock.applied.reverse.find?
      (cBlock.atropos = ·.id) = some a' := by
    refine Option.isSome_iff_exists.mp (List.find?_isSome.mpr
      ⟨a, List.mem_reverse.mpr hmem, ?_⟩)
    exact decide_eq_true hid.symm
  simp only [processBlock, endBlock, endBlockPublish, foldl_applyEvent, beginBlock, hget, ok_bind,
    hfind, Option.some_or]
  split
  · next hseal =>
    generalize Block.mk _ _ _ = block
    have hrow : (s1.setBlock (bs.block + 1) block).data.epochState = some es := by
      rw [← hes, ← hd1]
      rfl
    obtain ⟨s2, hget'⟩ := getEpochState_returns (ε := ServiceError)
      (hc1.setBlock (bs.block + 1) block) hrow
    simp only [hget', ok_bind, pure_eq_ok]
    exact ⟨_, _, rfl⟩
  · exact ⟨_, _, rfl⟩

end Block

/-! ## Runs -/

/-- The service, and what every `EndBlock` has returned so far. -/
structure Chain where
  node : Node
  results : List (Option (List Validator))

/-- What the service does: blocks, and between them the other parts of
`processEvent` and the reads of other threads. -/
inductive Step (w : World) : Chain → Chain → Prop
  | endBlock {s : Chain} {cBlock : CBlock} {v : Option (List Validator)} {n : Node}
      (h : (processBlock w s.node cBlock : Go ServiceError _) = .ok (v, n)) :
      Step w s ⟨n, s.results ++ [v]⟩
  | admitEvent {s : Chain} {e : Event} {n : Node} {r : Except ServiceError Nat}
      (h : admitEvent w s.node e = .ok (n, r)) : Step w s ⟨n, s.results⟩
  | readEvents {s : Chain} {ids : List EventID} {store : Store}
      (h : readEvents w s.node.store ids = .ok store) :
      Step w s ⟨{ s.node with store := store }, s.results⟩
  | delEvent {s : Chain} (id : EventID) :
      Step w s ⟨{ s.node with store := s.node.store.delEvent id }, s.results⟩
  | connectEvent {s : Chain} {e : Event} {oldEpoch : Nat} {o : Outcome} {n : Node}
      {r : Option ServiceError} (h : connectEvent s.node e oldEpoch o = .ok (n, r)) :
      Step w s ⟨n, s.results⟩
  | readBlock {s : Chain} (i : Nat) :
      Step w s ⟨{ s.node with store := (s.node.store.getBlock i).2 }, s.results⟩
  | readPackInfo {s : Chain} (epoch idx : Nat) :
      Step w s ⟨{ s.node with store := (s.node.store.getPackInfo epoch idx).2 }, s.results⟩
  | stop {s : Chain} : Step w s ⟨{ s.node with stopped := true }, s.results⟩

/-- The states of the runs from a genesis. -/
def Reachable (w : World) (cfg : CacheConfig) (em : Emitter) (s : Chain) : Prop :=
  ∃ n, start w cfg em = .ok n ∧ Relation.ReflTransGen (Step w) ⟨n, []⟩ s

section Calls

variable {w : World} {n n' : Node}

theorem processBlocks_chain (vs : List (Option (List Validator))) {blocks : List CBlock}
    (h : processBlocks w n blocks = .ok n') :
    ∃ vs', Relation.ReflTransGen (Step w) ⟨n, vs⟩ ⟨n', vs ++ vs'⟩ := by
  induction blocks generalizing n vs with
  | nil =>
    cases h
    exact ⟨[], by rw [List.append_nil]⟩
  | cons cBlock rest ih =>
    obtain ⟨⟨v, n1⟩, hblock, hrest⟩ := bind_eq_ok h
    obtain ⟨vs', hrun⟩ := ih (vs ++ [v]) hrest
    rw [List.append_assoc] at hrun
    exact ⟨[v] ++ vs', .head (.endBlock hblock) hrun⟩

/-- A call of `processEvent` is a run of these steps. -/
theorem processEvent_chain (vs : List (Option (List Validator))) {e : Event} {o : Outcome}
    {r : Option ServiceError}
    (h : processEvent w n e o = .ok (n', r)) :
    ∃ vs', Relation.ReflTransGen (Step w) ⟨n, vs⟩ ⟨n', vs ++ vs'⟩ := by
  rw [processEvent_eq] at h
  obtain ⟨⟨n1, r1⟩, hadmit, h⟩ := bind_eq_ok h
  have hfirst : Step w ⟨n, vs⟩ ⟨n1, vs⟩ := .admitEvent hadmit
  dsimp only at h
  split at h
  · cases h
    exact ⟨[], by rw [List.append_nil]; exact .single hfirst⟩
  · obtain ⟨store, hreads, h⟩ := bind_eq_ok h
    have hsecond : Step w ⟨n1, vs⟩ ⟨{ n1 with store := store }, vs⟩ := .readEvents hreads
    split at h
    · cases h
      refine ⟨[], ?_⟩
      rw [List.append_nil]
      exact .head hfirst (.head hsecond (.single (.delEvent e.id)))
    · obtain ⟨n2, hblocks, h⟩ := bind_eq_ok h
      obtain ⟨vs', hrun⟩ := processBlocks_chain vs hblocks
      exact ⟨vs', .head hfirst (.head hsecond (hrun.tail (.connectEvent h)))⟩

end Calls

/-! ## The closed forms -/

/-- The calls of `EndBlock` that returned validators. -/
def sealCount (vs : List (Option (List Validator))) : Nat := vs.countP Option.isSome

/-- The blocks since the last of them. -/
def sinceSeal (vs : List (Option (List Validator))) : Nat :=
  (vs.reverse.takeWhile Option.isNone).length

theorem sealCount_snoc (vs : List (Option (List Validator))) (v : Option (List Validator)) :
    sealCount (vs ++ [v]) = sealCount vs + if v.isSome then 1 else 0 := by
  rw [sealCount, List.countP_append, List.countP_singleton]
  rfl

theorem sinceSeal_snoc (vs : List (Option (List Validator))) (v : Option (List Validator)) :
    sinceSeal (vs ++ [v]) = if v.isSome then 0 else sinceSeal vs + 1 := by
  cases v <;> simp [sinceSeal]

/-- The rows and the keys after calls that returned `vs`. -/
structure Counted (w : World) (n : Node) (vs : List (Option (List Validator))) : Prop where
  coherent : Coherent n.store
  blockState : n.store.data.blockState = some ⟨vs.length, sinceSeal vs⟩
  epochState : n.store.data.epochState = some ⟨firstEpoch + sealCount vs, w.net.validators⟩
  keys : n.pubKeys = newEpochPubKeys (firstEpoch + sealCount vs) w.net.validators
  dense : ∀ i ≤ vs.length, n.store.data.blocks i ≠ none
  below : sinceSeal vs < w.net.maxEpochBlocks

section Steps

variable {w : World} {n n' : Node} {vs : List (Option (List Validator))} {s s' : Chain}

/-- What does not write the block table, the states and the keys. -/
theorem Counted.frame {m : Node} (h : Counted w n vs) (hc : Coherent m.store)
    (hb : m.store.data.blocks = n.store.data.blocks)
    (hbs : m.store.data.blockState = n.store.data.blockState)
    (hes : m.store.data.epochState = n.store.data.epochState) (hk : m.pubKeys = n.pubKeys) :
    Counted w m vs :=
  ⟨hc, hbs.trans h.blockState, hes.trans h.epochState, hk.trans h.keys,
    fun i hi => by rw [hb]; exact h.dense i hi, h.below⟩

/-- A block extends the list and leaves the rows of the blocks before it. -/
theorem Counted.endBlock (h : Counted w n vs) (hmax : 1 ≤ w.net.maxEpochBlocks) {cBlock : CBlock}
    {v : Option (List Validator)}
    (hp : (processBlock w n cBlock : Go ServiceError _) = .ok (v, n')) :
    Counted w n' (vs ++ [v]) ∧
      ∀ i ≤ vs.length, n'.store.data.blocks i = n.store.data.blocks i := by
  obtain ⟨hc, ⟨b, hd⟩, hv, hk⟩ :=
    processBlock_effect h.coherent h.blockState h.epochState hp
  have hrow : ∀ i ≤ vs.length, n'.store.data.blocks i = n.store.data.blocks i := by
    intro i hi
    rw [hd]
    exact Function.update_of_ne (Nat.ne_of_lt (Nat.lt_succ_of_le hi)) _ _
  refine ⟨⟨hc, ?_, ?_, ?_, ?_, ?_⟩, hrow⟩
  · rw [hd, sinceSeal_snoc, hv, List.length_append]
    by_cases hs : Seals w ⟨vs.length, sinceSeal vs⟩ cBlock <;> simp [nextBlockState, hs]
  · rw [hd, sealCount_snoc, hv]
    by_cases hs : Seals w ⟨vs.length, sinceSeal vs⟩ cBlock <;>
      simp [nextEpochState, hs, Nat.add_assoc]
  · rw [hk, sealCount_snoc, hv, h.keys]
    by_cases hs : Seals w ⟨vs.length, sinceSeal vs⟩ cBlock <;> simp [hs, Nat.add_assoc]
  · intro i hi
    rw [List.length_append, List.length_singleton] at hi
    rcases Nat.lt_or_ge vs.length i with hlt | hle
    · have hi' : i = vs.length + 1 := by omega
      rw [hd, hi']
      simp
    · rw [hrow i hle]
      exact h.dense i hle
  · rw [sinceSeal_snoc, hv]
    by_cases hs : Seals w ⟨vs.length, sinceSeal vs⟩ cBlock
    · simp only [hs, if_true, Option.isSome_some]
      exact hmax
    · have hlt : ¬ w.net.maxEpochBlocks ≤ sinceSeal vs + 1 := fun hle => hs (.inl hle)
      simp only [hs, if_false, Option.isSome_none, Bool.false_eq_true]
      omega

theorem step_counted (h : Counted w s.node s.results) (hmax : 1 ≤ w.net.maxEpochBlocks)
    (hstep : Step w s s') :
    Counted w s'.node s'.results ∧ s.results.length ≤ s'.results.length ∧
      ∀ i ≤ s.results.length, s'.node.store.data.blocks i = s.node.store.data.blocks i := by
  cases hstep with
  | endBlock hp =>
    obtain ⟨hcount, hrow⟩ := h.endBlock hmax hp
    exact ⟨hcount, by simp, hrow⟩
  | admitEvent hp =>
    rcases admitEvent_cases h.coherent hp with ⟨err, -, hrej⟩ | ⟨es, buf, -, hadm⟩
    · exact ⟨h.frame hrej.coherent (by rw [hrej.data]) (by rw [hrej.data]) (by rw [hrej.data])
        hrej.pubKeys, Nat.le_refl _, fun i _ => by rw [hrej.data]⟩
    · exact ⟨h.frame hadm.coherent (by rw [hadm.data]) (by rw [hadm.data]) (by rw [hadm.data])
        hadm.pubKeys, Nat.le_refl _, fun i _ => by rw [hadm.data]⟩
  | @readEvents ids store hp =>
    obtain ⟨hd, hc, -⟩ := readEvents_spec (eventsRule_true _) hp
    exact ⟨h.frame (m := { s.node with store := store }) (hc h.coherent) (by rw [hd]) (by rw [hd])
      (by rw [hd]) rfl, Nat.le_refl _, fun i _ => by rw [hd]⟩
  | delEvent id =>
    exact ⟨h.frame (m := { s.node with store := s.node.store.delEvent id })
      ⟨h.coherent.blocks, h.coherent.packInfos, h.coherent.blockState, h.coherent.epochState⟩
      rfl rfl rfl rfl, Nat.le_refl _, fun i _ => rfl⟩
  | @connectEvent e oldEpoch o n r hp =>
    obtain ⟨hd, -, hc, hk, -⟩ := connectEvent_spec h.coherent h.epochState hp
    -- the rest of `processEvent` writes neither blocks nor states
    have hpack := (recordInPack_frame s.node.store.data e e.epoch.toNat).1
    have hrest := settle_frame (recordInPack s.node.store.data e e.epoch.toNat) e oldEpoch
      (firstEpoch + sealCount s.results) o.epochDBClosed
    rw [← hd] at hrest
    have hblocks := hrest.blocks.trans hpack.blocks
    exact ⟨h.frame hc hblocks (hrest.blockState.trans hpack.blockState)
      (hrest.epochState.trans hpack.epochState) hk, Nat.le_refl _, fun i _ => congrFun hblocks i⟩
  | readBlock i =>
    have hun := (getBlock_spec h.coherent i).2
    exact ⟨h.frame (m := { s.node with store := (s.node.store.getBlock i).2 }) hun.coherent
      (by rw [hun.data]) (by rw [hun.data]) (by rw [hun.data]) rfl, Nat.le_refl _, fun i _ => by
        rw [hun.data]⟩
  | readPackInfo epoch idx =>
    have hun := (getPackInfo_spec h.coherent epoch idx).2
    exact ⟨h.frame (m := { s.node with store := (s.node.store.getPackInfo epoch idx).2 })
      hun.coherent (by rw [hun.data]) (by rw [hun.data]) (by rw [hun.data]) rfl, Nat.le_refl _,
      fun i _ => by rw [hun.data]⟩
  | stop => exact ⟨h.frame h.coherent rfl rfl rfl rfl, Nat.le_refl _, fun _ _ => rfl⟩

theorem run_counted (h : Counted w s.node s.results) (hmax : 1 ≤ w.net.maxEpochBlocks)
    (hrun : Relation.ReflTransGen (Step w) s s') :
    Counted w s'.node s'.results ∧ s.results.length ≤ s'.results.length ∧
      ∀ i ≤ s.results.length, s'.node.store.data.blocks i = s.node.store.data.blocks i := by
  induction hrun with
  | refl => exact ⟨h, Nat.le_refl _, fun _ _ => rfl⟩
  | tail _ hstep ih =>
    obtain ⟨hcount, hle, hrow⟩ := ih
    obtain ⟨hcount', hle', hrow'⟩ := step_counted hcount hmax hstep
    exact ⟨hcount', Nat.le_trans hle hle', fun i hi =>
      (hrow' i (Nat.le_trans hi hle)).trans (hrow i hi)⟩

theorem start_counted {cfg : CacheConfig} {em : Emitter} (hmax : 1 ≤ w.net.maxEpochBlocks)
    (h : start w cfg em = .ok n) : Counted w n [] := by
  obtain ⟨n', b, hn, hd, hc, -, hk, -, -⟩ := start_spec w cfg em
  rw [h] at hn
  cases hn
  refine ⟨hc, by rw [hd]; rfl, by rw [hd]; rfl, hk, ?_, hmax⟩
  intro i hi
  rw [Nat.le_zero.mp hi, hd]
  simp

end Steps

/-- **The counters of the chain.** They are those of the calls of `EndBlock`, no
block is missing or overwritten, and the keys are those of the epoch. A block
whose atropos was applied can always be ended. -/
theorem chain_counters (w : World) (cfg : CacheConfig) (em : Emitter)
    (hmax : 1 ≤ w.net.maxEpochBlocks) (s : Chain) (h : Reachable w cfg em s) :
    ∃ bs es store store',
      (s.node.store.getBlockState : Go ServiceError _) = .ok (bs, store) ∧
      (s.node.store.getEpochState : Go ServiceError _) = .ok (es, store') ∧
      bs.block = s.results.length ∧
      (∀ i ≤ bs.block, (s.node.store.getBlock i).1 ≠ none) ∧
      (∀ s', Relation.ReflTransGen (Step w) s s' →
        ∀ i ≤ bs.block, (s'.node.store.getBlock i).1 = (s.node.store.getBlock i).1) ∧
      bs.epochBlocks = sinceSeal s.results ∧ bs.epochBlocks < w.net.maxEpochBlocks ∧
      es.epoch = firstEpoch + sealCount s.results ∧ s.node.pubKeys.epoch = es.epoch ∧
      ∀ cBlock, (∃ a ∈ cBlock.applied, a.id = cBlock.atropos) →
        ∃ v n, (processBlock w s.node cBlock : Go ServiceError _) = .ok (v, n) := by
  obtain ⟨n, hstart, hrun⟩ := h
  obtain ⟨hcount, -, -⟩ := run_counted (start_counted hmax hstart) hmax hrun
  obtain ⟨store, hbs⟩ := getBlockState_returns (ε := ServiceError)
    hcount.coherent hcount.blockState
  obtain ⟨store', hes⟩ := getEpochState_returns (ε := ServiceError)
    hcount.coherent hcount.epochState
  refine ⟨_, _, store, store', hbs, hes, rfl, ?_, ?_, rfl, hcount.below, rfl, ?_, ?_⟩
  · intro i hi
    rw [(getBlock_spec hcount.coherent i).1]
    exact hcount.dense i hi
  · intro s' hrun' i hi
    obtain ⟨hcount', -, hrow⟩ := run_counted hcount hmax hrun'
    rw [(getBlock_spec hcount'.coherent i).1, (getBlock_spec hcount.coherent i).1]
    exact hrow i hi
  · rw [hcount.keys]
    rfl
  · intro cBlock ha
    exact processBlock_returns hcount.coherent hcount.blockState hcount.epochState ha

/-- End these blocks one after the other. -/
def endBlocks (w : World) : Chain → List CBlock → Option Chain
  | s, [] => some s
  | s, cBlock :: rest =>
    match (processBlock w s.node cBlock : Go ServiceError _) with
    | .ok (v, n) => endBlocks w ⟨n, s.results ++ [v]⟩ rest
    | .error _ => none

theorem endBlocks_reaches {w : World} {s s' : Chain} {blocks : List CBlock}
    (h : endBlocks w s blocks = some s') : Relation.ReflTransGen (Step w) s s' := by
  induction blocks generalizing s with
  | nil =>
    cases h
    exact .refl
  | cons cBlock rest ih =>
    simp only [endBlocks] at h
    split at h
    · next v n hp => exact .head (.endBlock hp) (ih h)
    · cases h

/-- A block on top of the first event, with or without a cheater. -/
def firstBlock (cheaters : List ValidatorID) : CBlock :=
  ⟨(chainEvent 1).id, cheaters, [chainEvent 1]⟩

/-- Three blocks, at most two to an epoch: a cheater seals the first epoch early. -/
theorem chain_counters_cheater :
    ∃ s bs es store store',
      Reachable (sampleWorld 2) Runs.sampleConfig Runs.idleEmitter s ∧
      (s.node.store.getBlockState : Go ServiceError _) = .ok (bs, store) ∧
      (s.node.store.getEpochState : Go ServiceError _) = .ok (es, store') ∧
      bs.block = 3 ∧ bs.epochBlocks = 0 ∧ es.epoch = 3 ∧ s.node.pubKeys.epoch = 3 := by
  have hrun : ((start (sampleWorld 2) Runs.sampleConfig Runs.idleEmitter).toOption.bind fun n =>
      (endBlocks (sampleWorld 2) ⟨n, []⟩ [firstBlock [1], firstBlock [], firstBlock []]).map
        (·.results)) = some [some [⟨1, [1], 1⟩], none, some [⟨1, [1], 1⟩]] := by
          decide +kernel
  obtain ⟨n, hn, hrun⟩ := Option.bind_eq_some_iff.mp hrun
  obtain ⟨s, hs, hres⟩ := Option.map_eq_some_iff.mp hrun
  have hreach : Reachable (sampleWorld 2) Runs.sampleConfig Runs.idleEmitter s :=
    ⟨n, toOption_eq_some hn, endBlocks_reaches hs⟩
  obtain ⟨bs, es, store, store', hbs, hes, hblock, -, -, hsince, -, hepoch, hkeys, -⟩ :=
    chain_counters (sampleWorld 2) Runs.sampleConfig Runs.idleEmitter (by decide) s hreach
  rw [hres] at hblock hsince hepoch
  exact ⟨s, bs, es, store, store', hreach, hbs, hes, hblock, hsince, hepoch, hkeys.trans hepoch⟩

end MiniOpera.BlockCounters
