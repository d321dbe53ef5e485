import MiniOpera.GossipStore

/-!
# Consensus callbacks

`BeginBlock`, `ApplyEvent` and `EndBlock` of `consensus_callbacks.go`, with the
state of the service they work on. The sorting function of the standard library
is a parameter that is only known to sort (`Sorter`).

`block_deterministic`: the block that is stored does not depend on the order in
which its events were applied, nor on how the sorting function treats its input.
-/

namespace MiniOpera.Consensus
open GoRuntime LittleEndian InterEvent EventCheck GossipStore Caching ByteOrder

/-! ## The service and its surroundings -/

/-- `Events.Less`. -/
def less (a b : Event) : Bool := compare a.id b.id = .lt

/-- A sorting function: `sort.Sort` on `Events`. -/
structure Sorter where
  sort : List Event → List Event
  perm : ∀ l, (sort l).Perm l
  sorted : ∀ l, (sort l).Pairwise fun a b => less b a = false

/-- The part of the network configuration that is read. -/
structure Net where
  maxParents : Nat
  maxEpochBlocks : Nat
  validators : List Validator
  genesisTime : UInt64
  extraData : List UInt8

/-- The code the service calls that is not its own. -/
structure World where
  net : Net
  sha256 : List UInt8 → Hash
  rlp : Rlp
  base : BaseCheckers
  verifySignature : List UInt8 → Hash → Signature → Bool
  sorter : Sorter

/-- The emitter: what it was configured with and what it remembers. -/
structure Emitter where
  validator : ValidatorID
  maxInterval : Int
  epochTailLength : UInt32
  prevLocalEmittedID : EventID
  prevEmittedTime : Int

structure Node where
  store : Store
  /-- What `heavyCheckReader` has published. -/
  pubKeys : ValidatorsPubKeys
  emitter : Option Emitter
  stopped : Bool

/-- A decided block, with the events the engine applies in the order it does. -/
structure CBlock where
  atropos : EventID
  cheaters : List ValidatorID
  applied : List Event

/-! ## The callbacks -/

/-- The variables the callbacks of one block share. -/
structure BlockVars where
  confirmedEvents : List Event
  atropos : Option Event
  payloadSize : Nat

def beginBlock : BlockVars := ⟨[], none, 0⟩

def applyEvent (atropos : EventID) (b : BlockVars) (e : Event) : BlockVars where
  confirmedEvents := if e.payload.length ≠ 0 then b.confirmedEvents ++ [e] else b.confirmedEvents
  atropos := if atropos = e.id then some e else b.atropos
  payloadSize := b.payloadSize + e.payload.length

/-- What `EndBlock` still has to write once the keys are published. -/
structure Ending where
  blockState : BlockState
  sealed : Option EpochState

section Callbacks

variable {ε : Type} (w : World)

/-- `EndBlock` up to the publication of the new keys. -/
def endBlockPublish (n : Node) (cBlock : CBlock) (b : BlockVars) : Go ε (Ending × Node) := do
  let confirmedEvents := w.sorter.sort b.confirmedEvents
  let (bs, store) ← n.store.getBlockState
  match b.atropos with
  | none => .error (.panic .nilDereference)
  | some atropos =>
    let block : Block := ⟨atropos.rawTime, cBlock.atropos, confirmedEvents.map (·.id)⟩
    let bs : BlockState := ⟨bs.block + 1, bs.epochBlocks + 1⟩
    let store := store.setBlock bs.block block
    if w.net.maxEpochBlocks ≤ bs.epochBlocks ∨ cBlock.cheaters.length ≠ 0 then
      let (es, store) ← store.getEpochState
      let es : EpochState := { es with epoch := es.epoch + 1 }
      return (⟨{ bs with epochBlocks := 0 }, some es⟩,
        { n with store := store, pubKeys := newEpochPubKeys es.epoch w.net.validators })
    else
      return (⟨bs, none⟩, { n with store := store })

/-- The rest of `EndBlock`; the validators are those of a sealed epoch. -/
def endBlockWrite (n : Node) (ending : Ending) : Option (List Validator) × Node :=
  let store := match ending.sealed with
    | some es => n.store.setEpochState es
    | none => n.store
  (ending.sealed.map (·.validators), { n with store := store.setBlockState ending.blockState })

def endBlock (n : Node) (cBlock : CBlock) (b : BlockVars) :
    Go ε (Option (List Validator) × Node) := do
  let (ending, n) ← endBlockPublish w n cBlock b
  return endBlockWrite n ending

/-- All the callbacks of one block. -/
def processBlock (n : Node) (cBlock : CBlock) : Go ε (Option (List Validator) × Node) :=
  endBlock w n cBlock (cBlock.applied.foldl (applyEvent cBlock.atropos) beginBlock)

end Callbacks

/-! ## What the applied events leave behind -/

theorem foldl_applyEvent (atropos : EventID) (l : List Event) (b : BlockVars) :
    l.foldl (applyEvent atropos) b =
      ⟨b.confirmedEvents ++ l.filter (·.payload.length ≠ 0),
        (l.reverse.find? (atropos = ·.id)).or b.atropos,
        b.payloadSize + (l.map (·.payload.length)).sum⟩ := by
  induction l generalizing b with
  | nil => simp
  | cons e l ih =>
    rw [List.foldl_cons, ih]
    by_cases hp : e.payload = [] <;> by_cases ha : atropos = e.id <;>
      simp [applyEvent, hp, ha, List.find?_append, Nat.add_assoc]

/-- With distinct IDs, the atropos is found wherever it was applied. -/
theorem find_atropos {l : List Event} (hnodup : (l.map (·.id)).Nodup) {a : Event} (ha : a ∈ l) :
    l.reverse.find? (a.id = ·.id) = some a := by
  cases hf : l.reverse.find? (a.id = ·.id) with
  | none =>
    rw [List.find?_eq_none] at hf
    exact absurd (decide_eq_true rfl) (hf a (List.mem_reverse.mpr ha))
  | some b =>
    have hb := List.mem_reverse.mp (List.mem_of_find?_eq_some hf)
    have hid : a.id = b.id := by simpa using List.find?_some hf
    rw [List.inj_on_of_nodup_map hnodup ha hb hid]

/-- Two sorted arrangements of events with distinct IDs are one. -/
theorem sort_deterministic (s s' : Sorter) {l l' : List Event} (hperm : l'.Perm l)
    (hnodup : (l.map (·.id)).Nodup) : s'.sort l' = s.sort l := by
  have hp : (s'.sort l').Perm (s.sort l) := (s'.perm l').trans (hperm.trans (s.perm l).symm)
  refine List.Perm.eq_of_pairwise ?_ (s'.sorted l') (s.sorted l) hp
  intro a b ha hb hab hba
  have ha' : a ∈ l := hperm.mem_iff.mp ((s'.perm l').mem_iff.mp ha)
  have hb' : b ∈ l := (s.perm l).mem_iff.mp hb
  -- neither ID is below the other
  have hcmp : compare a.id b.id = .eq := by
    have h1 : compare b.id a.id ≠ .lt := of_decide_eq_false hab
    have h2 : compare a.id b.id ≠ .lt := of_decide_eq_false hba
    rw [Std.OrientedOrd.eq_swap (a := b.id)] at h1
    cases hc : compare a.id b.id with
    | lt => exact absurd hc h2
    | eq => rfl
    | gt => rw [hc] at h1; exact absurd rfl h1
  exact List.inj_on_of_nodup_map hnodup ha' hb' (Std.LawfulEqOrd.eq_of_compare hcmp)

/-- Sorting events with distinct IDs orders the IDs strictly. -/
theorem sort_strict (s : Sorter) {l : List Event} (hnodup : (l.map (·.id)).Nodup) :
    (s.sort l).Pairwise fun a b => compare a.id b.id = .lt := by
  have hn : ((s.sort l).map (·.id)).Nodup := ((s.perm l).map _).nodup_iff.mpr hnodup
  have hne : (s.sort l).Pairwise fun a b => a.id ≠ b.id := List.pairwise_map.mp hn
  refine ((s.sorted l).and hne).imp ?_
  rintro a b ⟨hle, hne⟩
  have h1 : compare b.id a.id ≠ .lt := of_decide_eq_false hle
  rw [Std.OrientedOrd.eq_swap (a := b.id)] at h1
  cases hc : compare a.id b.id with
  | lt => rfl
  | eq => exact absurd (Std.LawfulEqOrd.eq_of_compare hc) hne
  | gt => rw [hc] at h1; exact absurd rfl h1

/-! ## IDs and Lamport times -/

/-- The ID starts with the epoch and the Lamport time. -/
def IdLayout (e : Event) : Prop := e.id.data.take 8 = idxBytes e.epoch ++ idxBytes e.lamport

theorem leNat_idxBytes (v : UInt32) : leNat (idxBytes v).reverse = v.toNat := by
  rw [idxBytes, List.reverse_reverse]
  exact leNat_leBytes 4 v.toNat v.toNat_lt

theorem idxBytes_injective : Function.Injective idxBytes := by
  intro a b h
  have hnat := congrArg (fun bs : List UInt8 => leNat bs.reverse) h
  simp only [leNat_idxBytes] at hnat
  exact UInt32.toNat_inj.mp hnat

/-- IDs compare by the epoch, then by the Lamport time, then by the hash. -/
theorem compare_ids {i j : EventID} {e e' l l' : UInt32}
    (hi : i.data.take 8 = idxBytes e ++ idxBytes l)
    (hj : j.data.take 8 = idxBytes e' ++ idxBytes l') :
    compare i j = ((compare e.toNat e'.toNat).then (compare l.toNat l'.toNat)).then
      (compare (i.data.drop 8) (j.data.drop 8)) := by
  have hsplit : compare i.data j.data = (compare (i.data.take 8) (j.data.take 8)).then
      (compare (i.data.drop 8) (j.data.drop 8)) := by
    rw [← compare_append (by simp [hi, hj]), List.take_append_drop, List.take_append_drop]
  have hidx : ∀ u v : UInt32, compare (idxBytes u) (idxBytes v) = compare u.toNat v.toNat := by
    intro u v
    rw [compare_bigEndian _ _ (by simp), leNat_idxBytes, leNat_idxBytes]
  rw [hi, hj, compare_append (by simp), hidx, hidx] at hsplit
  exact hsplit

/-- Inside an epoch, the order of the IDs refines that of the Lamport times. -/
theorem lamport_le_of_id_lt {a b : Event} (ha : IdLayout a) (hb : IdLayout b)
    (hepoch : a.epoch = b.epoch) (h : compare a.id b.id = .lt) : a.lamport ≤ b.lamport := by
  rw [compare_ids ha hb, hepoch, Std.ReflOrd.compare_self, Ordering.eq_then] at h
  rw [UInt32.le_iff_toNat_le]
  rcases Nat.lt_or_ge b.lamport.toNat a.lamport.toNat with hgt | hle
  · rw [Nat.compare_eq_gt.mpr hgt] at h
    cases h
  · exact hle

/-! ## The stored block -/

/-- The block of an applied set: its payload events in the order of their IDs. -/
def blockOf (s : Sorter) (cBlock : CBlock) (a : Event) : Block :=
  ⟨a.rawTime, cBlock.atropos, (s.sort (cBlock.applied.filter (·.payload.length ≠ 0))).map
    (·.id)⟩

/-- A block is read back right after it was written, cached or not. -/
theorem getBlock_written {s : Store} {c : OptCache Nat Block} {k : Nat} {b : Block}
    (hcache : s.cache.blocks = c.add k b) (hrow : s.data.blocks k = some b) :
    (s.getBlock k).1 = some b := by
  unfold Store.getBlock
  split
  · next b' hb =>
    rw [hcache] at hb
    rcases OptCache.get_add hb with ⟨_, rfl⟩ | ⟨hne, _⟩
    · rfl
    · exact absurd rfl hne
  · rw [hrow]

section Stored

variable {ε : Type} {w : World} {n : Node}

theorem getBlockState_frame {s s' : Store} {bs : BlockState}
    (h : (s.getBlockState : Go ε _) = .ok (bs, s')) :
    s'.data = s.data ∧ s'.cache.blocks = s.cache.blocks ∧
      s'.cache.epochState = s.cache.epochState := by
  unfold Store.getBlockState at h
  split at h
  · cases h; exact ⟨rfl, rfl, rfl⟩
  · split at h
    · cases h
    · cases h; exact ⟨rfl, rfl, rfl⟩

/-- The epoch state is read from two places only. -/
theorem getEpochState_total {s s' t : Store} {es : EpochState}
    (h : (s.getEpochState : Go ε _) = .ok (es, s')) (hc : t.cache.epochState = s.cache.epochState)
    (hd : t.data.epochState = s.data.epochState) :
    ∃ t', (t.getEpochState : Go ε _) = .ok (es, t') ∧ t'.data = t.data ∧
      t'.cache.blocks = t.cache.blocks := by
  unfold Store.getEpochState at h ⊢
  rw [hc, hd]
  split at h
  · cases h
    exact ⟨t, rfl, rfl, rfl⟩
  · split at h
    · cases h
    · cases h
      exact ⟨_, rfl, rfl, rfl⟩

/-- Once the genesis is applied, a block with its atropos is stored. -/
theorem processBlock_stores (cBlock : CBlock) {a : Event} {bs : BlockState} {es : EpochState}
    {s₁ s₂ : Store} (hbs : (n.store.getBlockState : Go ε _) = .ok (bs, s₁))
    (hes : (n.store.getEpochState : Go ε _) = .ok (es, s₂))
    (hnodup : (cBlock.applied.map (·.id)).Nodup) (ha : a ∈ cBlock.applied)
    (hid : a.id = cBlock.atropos) :
    ∃ v n', (processBlock w n cBlock : Go ε _) = .ok (v, n') ∧
      (n'.store.getBlock (bs.block + 1)).1 = some (blockOf w.sorter cBlock a) := by
  obtain ⟨hdata, hblocks, hepoch⟩ := getBlockState_frame hbs
  have hfind := find_atropos hnodup ha
  rw [hid] at hfind
  simp only [processBlock, endBlock, endBlockPublish, foldl_applyEvent, beginBlock, hbs, hfind,
    ok_bind, Option.some_or, List.nil_append]
  obtain ⟨t', ht, htdata, htblocks⟩ := getEpochState_total hes
    (t := s₁.setBlock (bs.block + 1) (blockOf w.sorter cBlock a)) hepoch (by rw [← hdata]; rfl)
  have hrow : (s₁.setBlock (bs.block + 1) (blockOf w.sorter cBlock a)).data.blocks
    (bs.block + 1) =
      some (blockOf w.sorter cBlock a) := by simp [Store.setBlock]
  split
  · -- the epoch is sealed
    simp only [blockOf] at ht
    simp only [ht, ok_bind, pure_eq_ok]
    refine ⟨_, _, rfl, getBlock_written (c := s₁.cache.blocks) ?_ ?_⟩
    · exact htblocks
    · exact (congrArg (fun d => d.blocks (bs.block + 1)) htdata).trans hrow
  · refine ⟨_, _, rfl, getBlock_written (c := s₁.cache.blocks) rfl hrow⟩

/-- **Every node derives the same block.** Whatever the order in which the
events are applied and however the sorting function works, `EndBlock` stores
one and the same block. -/
theorem block_deterministic (w : World) (n : Node) (cBlock : CBlock) (a : Event) (epoch : UInt32)
    (bs : BlockState) (es : EpochState) (s₁ s₂ : Store)
    (hbs : (n.store.getBlockState : Go DecodeError _) = .ok (bs, s₁))
    (hes : (n.store.getEpochState : Go DecodeError _) = .ok (es, s₂))
    (hnodup : (cBlock.applied.map (·.id)).Nodup) (ha : a ∈ cBlock.applied)
    (hid : a.id = cBlock.atropos) (hepoch : ∀ e ∈ cBlock.applied, e.epoch = epoch)
    (hlayout : ∀ e ∈ cBlock.applied, IdLayout e) :
    ∃ (block : Block) (events : List Event),
      (∀ (sorter : Sorter) (order : List Event), order.Perm cBlock.applied →
        ∃ v n', (processBlock { w with sorter := sorter } n { cBlock with applied := order } :
            Go DecodeError _) = .ok (v, n') ∧
          (n'.store.getBlock (bs.block + 1)).1 = some block) ∧
      block.time = a.rawTime ∧ block.atropos = cBlock.atropos ∧
      block.events = events.map (·.id) ∧
      (∀ e, e ∈ events ↔ e ∈ cBlock.applied ∧ e.payload ≠ []) ∧
      block.events.Pairwise (fun x y => compare x y = .lt) ∧ block.events.Nodup ∧
      events.Pairwise (fun x y => x.lamport ≤ y.lamport) := by
  have hfilter : ((cBlock.applied.filter (·.payload.length ≠ 0)).map (·.id)).Nodup :=
    hnodup.sublist (List.filter_sublist.map _)
  have hstrict := sort_strict w.sorter hfilter
  have hmem : ∀ e, e ∈ w.sorter.sort (cBlock.applied.filter (·.payload.length ≠ 0)) ↔
      e ∈ cBlock.applied ∧ e.payload ≠ [] := by
    intro e
    rw [(w.sorter.perm _).mem_iff]
    simp
  refine ⟨blockOf w.sorter cBlock a,
    w.sorter.sort (cBlock.applied.filter (·.payload.length ≠ 0)), ?_, rfl, rfl,
      rfl, hmem, ?_, ?_, ?_⟩
  · intro sorter order hperm
    have horder : (order.map (·.id)).Nodup := (hperm.map _).nodup_iff.mpr hnodup
    obtain ⟨v, n', hrun, hget⟩ := processBlock_stores (w := { w with sorter := sorter })
      { cBlock with applied := order } hbs hes horder (hperm.mem_iff.mpr ha) hid
    refine ⟨v, n', hrun, hget.trans ?_⟩
    simp only [blockOf, sort_deterministic w.sorter sorter (hperm.filter _) hfilter]
  · exact List.pairwise_map.mpr hstrict
  · exact ((w.sorter.perm _).map _).nodup_iff.mpr hfilter
  · refine hstrict.imp_of_mem ?_
    intro x y hx hy hlt
    have hx' := ((hmem x).mp hx).1
    have hy' := ((hmem y).mp hy).1
    exact lamport_le_of_id_lt (hlayout x hx') (hlayout y hy')
      ((hepoch x hx').trans (hepoch y hy').symm) hlt

end Stored

/-! ## A world to run in -/

theorem less_trans {a b c : Event} (h1 : less b a = false) (h2 : less c b = false) :
    less c a = false := by
  have h1' : (compare a.id b.id).isLE := by
    rw [Std.OrientedOrd.eq_swap, Ordering.isLE_swap]
    cases hc : compare b.id a.id <;> simp_all [less]
  have h2' : (compare b.id c.id).isLE := by
    rw [Std.OrientedOrd.eq_swap, Ordering.isLE_swap]
    cases hc : compare c.id b.id <;> simp_all [less]
  have h3 := Std.TransOrd.isLE_trans h1' h2'
  rw [Std.OrientedOrd.eq_swap, Ordering.isLE_swap] at h3
  cases hc : compare c.id a.id <;> simp_all [less]

def mergeSorter : Sorter where
  sort l := l.mergeSort fun a b => !less b a
  perm l := List.mergeSort_perm l _
  sorted l := by
    have h := @List.pairwise_mergeSort _ (fun a b => !less b a)
      (fun a b c h1 h2 => by
        rw [Bool.not_eq_true'] at h1 h2 ⊢
        exact less_trans h1 h2)
      (fun a b => by
        unfold less
        rw [Std.OrientedOrd.eq_swap (a := b.id)]
        cases compare a.id b.id <;> rfl) l
    exact h.imp fun hab => by simpa using hab

/-- One validator, and a hash function that tells events apart by epoch and
Lamport time alone. -/
def sampleWorld (maxEpochBlocks : Nat) : World where
  net := ⟨3, maxEpochBlocks, [⟨1, [1], 1⟩], 1, []⟩
  sha256 := fun _ => Bytes.zero 32
  rlp := rlpString
  base := .minimal
  verifySignature := fun _ _ _ => true
  sorter := mergeSorter

/-- The `k`-th event of the validator, on top of its previous one. -/
def chainEvent (k : UInt32) : Event :=
  let parent := (((MutableEvent.zero.setEpoch 1).setLamport (k - 1)).setID (Bytes.zero 24)).id
  let m : MutableEvent := { MutableEvent.zero with
    epoch := 1
    seq := k
    creator := 1
    lamport := k
    rawTime := k.toUInt64
    parents := if k ≤ 1 then [] else [parent]
    payload := [k.toUInt8] }
  EventCodec.builtFrom (fun _ => Bytes.zero 32) m (EventWire.wire m.immutable)

/-- Only the two state rows, and no cache. -/
def sampleNode : Node where
  store := ⟨{ Data.empty with blockState := some ⟨0, 0⟩, epochState := some ⟨1, []⟩ },
    ⟨none, none, none, none, none⟩⟩
  pubKeys := newEpochPubKeys 1 []
  emitter := none
  stopped := false

theorem block_deterministic_chain :
    ∃ (block : Block) (events : List Event),
      (∀ (sorter : Sorter) (order : List Event), order.Perm [chainEvent 2, chainEvent 1] →
        ∃ v n', (processBlock { sampleWorld 1 with sorter := sorter } sampleNode
            ⟨(chainEvent 1).id, [], order⟩ : Go DecodeError _) = .ok (v, n') ∧
          (n'.store.getBlock 1).1 = some block) ∧
      block.time = 1 ∧ block.atropos = (chainEvent 1).id ∧
      block.events = events.map (·.id) ∧
      (∀ e, e ∈ events ↔ e ∈ [chainEvent 2, chainEvent 1] ∧ e.payload ≠ []) ∧
      block.events.Pairwise (fun x y => compare x y = .lt) ∧ block.events.Nodup ∧
      events.Pairwise (fun x y => x.lamport ≤ y.lamport) :=
  block_deterministic (sampleWorld 1) sampleNode
    ⟨(chainEvent 1).id, [], [chainEvent 2, chainEvent 1]⟩
      (chainEvent 1) 1 ⟨0, 0⟩ ⟨1, []⟩ _ _ rfl rfl
    (by decide) (by simp) rfl (by decide) (by unfold IdLayout; decide)

end MiniOpera.Consensus
