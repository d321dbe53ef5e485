import MiniOpera.Lib.Threads
import MiniOpera.RestartRuns

/-!
# The block state, shared

`GetBlockState` returns what `cache.BlockState` holds; if that is nothing, it reads the row
and puts it into the cache. `SetBlockState` writes the row and then the cache. `EndBlock`
does both under `engineMu`; `myProgress` calls `GetLatestBlockIndex` and then `GetBlock` from
the goroutines of the peers, without it. Here every access to a table or to a cache is a step
of its own.

A reader that found the cache empty may fill it with a row that `EndBlock` has replaced in the
meantime. The next `EndBlock` then counts from the old state: it gives the number of the last
block to the new one. `blocks_kept_iff`: this can happen exactly when the cache is empty
at the beginning. The process that writes the genesis has it filled by `ApplyGenesis`, a
process that finds the genesis on its disk has not (`booted_blocks_kept_iff`).
-/

namespace MiniOpera.SharedState
open GoRuntime InterEvent EventCheck GossipStore Caching Consensus Service BlockCounters Threads

/-! ## The threads -/

/-- `GetLatestBlockIndex` and `GetBlock` of a call of `myProgress`. -/
inductive Reader
  | idle
  | stateMissed
  | stateFetched (v : BlockState)
  | stateRead (v : BlockState)
  | blockMissed (v : BlockState)
  | blockFetched (v : BlockState) (b : Block)
  /-- The block is nil if there is no such row. -/
  | blockRead (v : BlockState) (b : Option Block)

/-- `EndBlock`, without the part that seals an epoch: it accesses other rows. -/
inductive Writer
  | idle
  | stateMissed (c : CBlock)
  | stateFetched (c : CBlock) (v : BlockState)
  | stateRead (c : CBlock) (v : BlockState)
  | blockPut (c : CBlock) (v : BlockState) (b : Block)
  | blockSet (c : CBlock) (v : BlockState) (b : Block)
  | statePut (v : BlockState) (b : Block)

structure Conf where
  store : Store
  writer : Writer
  readers : List Reader
  /-- The blocks of the calls of `EndBlock` that have returned. -/
  ended : List Block

inductive Action
  /-- `EndBlock` is called, and looks into the cache. -/
  | endBlock (c : CBlock)
  | writer
  | reader (i : Nat)

def putState (s : Store) (v : BlockState) : Store :=
  { s with data := { s.data with blockState := some v } }

def putBlock (s : Store) (k : Nat) (b : Block) : Store :=
  { s with data := { s.data with blocks := Function.update s.data.blocks k (some b) } }

/-- The block of `EndBlock`; without the atropos there is a nil dereference. -/
def endedBlock (w : World) (c : CBlock) : Option Block :=
  let b := c.applied.foldl (applyEvent c.atropos) beginBlock
  b.atropos.map fun atropos =>
    ⟨atropos.rawTime, c.atropos, (w.sorter.sort b.confirmedEvents).map (·.id)⟩

def Reader.step (s : Store) : Reader → Option (Store × Reader)
  | .idle | .blockRead _ _ =>
    match s.cache.blockState with
    | some v => some (s, .stateRead v)
    | none => some (s, .stateMissed)
  | .stateMissed => s.data.blockState.map fun v => (s, .stateFetched v)
  | .stateFetched v => some (s.cacheBlockState v, .stateRead v)
  | .stateRead v =>
    match s.cache.blocks.get v.block with
    | some b => some (s, .blockRead v (some b))
    | none => some (s, .blockMissed v)
  | .blockMissed v =>
    match s.data.blocks v.block with
    | some b => some (s, .blockFetched v b)
    | none => some (s, .blockRead v none)
  | .blockFetched v b => some (s.cacheBlock v.block b, .blockRead v (some b))

section

variable (w : World)

def Conf.step (c : Conf) : Action → Option Conf
  | .endBlock cBlock =>
    match c.writer with
    | .idle =>
      match c.store.cache.blockState with
      | some v => some { c with writer := .stateRead cBlock v }
      | none => some { c with writer := .stateMissed cBlock }
    | _ => none
  | .writer =>
    match c.writer with
    | .idle => none
    | .stateMissed cBlock =>
      c.store.data.blockState.map fun v => { c with writer := .stateFetched cBlock v }
    | .stateFetched cBlock v =>
      some { c with store := c.store.cacheBlockState v, writer := .stateRead cBlock v }
    | .stateRead cBlock v =>
      (endedBlock w cBlock).map fun b =>
        { c with store := putBlock c.store (v.block + 1) b, writer := .blockPut cBlock v b }
    | .blockPut cBlock v b =>
      some { c with store := c.store.cacheBlock (v.block + 1) b, writer := .blockSet cBlock v b }
    | .blockSet cBlock v b =>
      let v := nextBlockState w v cBlock
      some { c with store := putState c.store v, writer := .statePut v b }
    | .statePut v b =>
      some { c with store := c.store.cacheBlockState v, writer := .idle, ended := c.ended ++ [b] }
  | .reader i =>
    (c.readers[i]?).bind fun r =>
      (r.step c.store).map fun p => { c with store := p.1, readers := c.readers.set i p.2 }

end

def Conf.init (s : Store) (k : Nat) : Conf := ⟨s, .idle, List.replicate k .idle, []⟩

/-- The blocks are under the numbers that they were given, from `first` on. -/
def InPlace (first : Nat) (c : Conf) : Prop :=
  ∀ i b, c.ended[i]? = some b → c.store.data.blocks (first + i) = some b

/-! ## `EndBlock` alone -/

/-- The steps of a call. -/
def call (missed : Bool) (c : CBlock) : List Action :=
  .endBlock c :: List.replicate (if missed then 6 else 4) .writer

section Alone

variable {w : World} {c : Conf} {cBlock : CBlock} {v : BlockState} {b : Block}

/-- What a call leaves behind. -/
def Conf.ends (w : World) (c : Conf) (cBlock : CBlock) (v : BlockState) (b : Block) : Conf :=
  { c with
    store :=
      { data := { c.store.data with
          blocks := Function.update c.store.data.blocks (v.block + 1) (some b)
          blockState := some (nextBlockState w v cBlock) }
        cache := { c.store.cache with
          blocks := c.store.cache.blocks.add (v.block + 1) b
          blockState := some (nextBlockState w v cBlock) } }
    ended := c.ended ++ [b] }

theorem call_hit (hidle : c.writer = .idle) (hcache : c.store.cache.blockState = some v)
    (hb : endedBlock w cBlock = some b) :
    run (Conf.step w) c (call false cBlock) = some (c.ends w cBlock v b) := by
  obtain ⟨⟨data, cache⟩, writer, readers, ended⟩ := c
  dsimp only at hidle hcache
  subst hidle
  simp only [call, run, Conf.step, hcache, hb, Option.bind_some, Option.map_some, List.replicate,
    Bool.false_eq_true, if_false]
  rfl

theorem call_missed (hidle : c.writer = .idle) (hcache : c.store.cache.blockState = none)
    (hrow : c.store.data.blockState = some v) (hb : endedBlock w cBlock = some b) :
    run (Conf.step w) c (call true cBlock) = some (c.ends w cBlock v b) := by
  obtain ⟨⟨data, cache⟩, writer, readers, ended⟩ := c
  dsimp only at hidle hcache hrow
  subst hidle
  simp only [call, run, Conf.step, hcache, hrow, hb, Option.bind_some,
    Option.map_some, List.replicate,
    if_true]
  rfl

/-- The block that `EndBlock` stores. -/
theorem processBlock_ended {n n' : Node} {r : Option (List Validator)} (hc : Coherent n.store)
    (hbs : n.store.data.blockState = some v)
    (hp : (processBlock w n cBlock : Go ServiceError _) = .ok (r, n')) :
    ∃ b, endedBlock w cBlock = some b ∧
      n'.store.data.blocks = Function.update n.store.data.blocks (v.block + 1) (some b) := by
  obtain ⟨⟨ending, n1⟩, hpub, hw⟩ := bind_eq_ok hp
  obtain ⟨⟨bs, s1⟩, hget, hpub⟩ := bind_eq_ok hpub
  obtain ⟨hrow, hd1, -, hc1⟩ := getBlockState_spec hc hget
  rw [hbs] at hrow
  cases hrow
  dsimp only at hpub
  split at hpub
  · cases hpub
  · next atropos hat =>
    refine ⟨_, by rw [endedBlock, hat]; rfl, ?_⟩
    split at hpub
    · obtain ⟨⟨es, s2⟩, hes, hpub⟩ := bind_eq_ok hpub
      have hd2 := (getEpochState_spec (hc1.setBlock _ _) hes).2.data
      cases hpub
      cases hw
      simp only [Store.setBlockState, Store.setEpochState, hd2, Store.setBlock, hd1]
    · cases hpub
      cases hw
      simp only [Store.setBlockState, Store.setBlock, hd1]

/-- Without other threads the steps are `EndBlock`. -/
theorem call_processBlock {n n' : Node} {es : EpochState} {r : Option (List Validator)}
    (hidle : c.writer = .idle) (hstore : c.store = n.store) (hc : Coherent n.store)
    (hbs : n.store.data.blockState = some v) (hes : n.store.data.epochState = some es)
    (hp : (processBlock w n cBlock : Go ServiceError _) = .ok (r, n')) :
    ∃ missed c', run (Conf.step w) c (call missed cBlock) = some c' ∧
      c'.store.data.blocks = n'.store.data.blocks ∧
      c'.store.data.blockState = n'.store.data.blockState := by
  obtain ⟨b, hb, hblocks⟩ := processBlock_ended hc hbs hp
  obtain ⟨-, ⟨_, hdata⟩, -⟩ := processBlock_effect hc hbs hes hp
  have hends : (c.ends w cBlock v b).store.data.blocks = n'.store.data.blocks ∧
      (c.ends w cBlock v b).store.data.blockState = n'.store.data.blockState := by
    rw [hblocks, hdata]
    simp only [Conf.ends, hstore, and_self]
  cases hcache : c.store.cache.blockState with
  | none => exact ⟨true, _, call_missed hidle hcache (by rw [hstore]; exact hbs) hb, hends⟩
  | some v' =>
    have hsame : v' = v := by
      rw [hstore] at hcache
      exact Option.some.inj ((hc.blockState v' hcache).symm.trans hbs)
    subst hsame
    exact ⟨false, _, call_hit hidle hcache hb, hends⟩

end Alone

/-! ## With a filled cache -/

/-- The reader has found the cache of the block state empty. -/
def Reader.cold : Reader → Bool
  | .stateMissed | .stateFetched _ => true
  | _ => false

/-- The row and the cache at the control points of `EndBlock`; `k` blocks were ended before. -/
def Counts (s : Store) (k : Nat) : Writer → Prop
  | .idle => ∃ v, s.cache.blockState = some v ∧ s.data.blockState = some v ∧ v.block = k
  | .stateMissed _ | .stateFetched _ _ => False
  | .stateRead _ v => s.cache.blockState = some v ∧ v.block = k
  | .blockPut _ v b | .blockSet _ v b =>
    s.cache.blockState = some v ∧ v.block = k ∧ s.data.blocks (k + 1) = some b
  | .statePut v b =>
    (∃ v', s.cache.blockState = some v') ∧ s.data.blockState = some v ∧ v.block = k + 1 ∧
      s.data.blocks (k + 1) = some b

structure Warm (base : Nat) (c : Conf) : Prop where
  counts : Counts c.store (base + c.ended.length) c.writer
  readers : ∀ r ∈ c.readers, r.cold = false
  kept : InPlace (base + 1) c

section Warm

variable {w : World} {c c' : Conf} {base : Nat}

theorem Counts.filled {s : Store} {k : Nat} {x : Writer} (h : Counts s k x) :
    ∃ v, s.cache.blockState = some v := by
  cases x with
  | idle => exact h.imp fun _ h => h.1
  | stateMissed | stateFetched => exact h.elim
  | stateRead c v => exact ⟨v, h.1⟩
  | blockPut c v b | blockSet c v b => exact ⟨v, h.1⟩
  | statePut v b => exact h.1

/-- A reader leaves the tables alone, and the cached state as well if it finds it. -/
theorem Reader.step_warm {s s' : Store} {r r' : Reader} (h : r.step s = some (s', r'))
    (hcold : r.cold = false) {v : BlockState} (hcache : s.cache.blockState = some v) :
    s'.data = s.data ∧ s'.cache.blockState = s.cache.blockState ∧ r'.cold = false := by
  cases r with
  | stateMissed | stateFetched => cases hcold
  | idle | blockRead =>
    simp only [Reader.step, hcache] at h
    cases h
    exact ⟨rfl, rfl, rfl⟩
  | stateRead u | blockMissed u =>
    simp only [Reader.step] at h
    split at h
    · cases h
      exact ⟨rfl, rfl, rfl⟩
    · cases h
      exact ⟨rfl, rfl, rfl⟩
  | blockFetched u b =>
    cases h
    exact ⟨rfl, rfl, rfl⟩

theorem Counts.congr {s s' : Store} {k : Nat} {x : Writer} (h : Counts s k x)
    (hd : s'.data = s.data)
    (hc : s'.cache.blockState = s.cache.blockState) : Counts s' k x := by
  cases x <;> simp only [Counts, hd, hc] at h ⊢ <;> exact h

/-- Another block under a number that no block has been given yet. -/
theorem InPlace.put {first k : Nat} (h : InPlace first c) (hk : first + c.ended.length ≤ k)
    (b : Block) (x : Writer) :
    InPlace first { c with store := putBlock c.store k b, writer := x } := by
  intro i b' hi
  have hlt : i < c.ended.length := (List.getElem?_eq_some_iff.mp hi).1
  show Function.update c.store.data.blocks k (some b) (first + i) = some b'
  rw [Function.update_of_ne (by omega)]
  exact h i b' hi

theorem step_warm (h : Warm base c) {a : Action} (hstep : c.step w a = some c') : Warm base c' := by
  obtain ⟨store, writer, readers, ended⟩ := c
  obtain ⟨hcounts, hreaders, hkept⟩ := h
  dsimp only at hcounts hreaders
  cases a with
  | endBlock cBlock =>
    simp only [Conf.step] at hstep
    split at hstep
    · obtain ⟨v, hcache, hrow, hv⟩ := hcounts
      simp only [hcache] at hstep
      cases hstep
      exact ⟨⟨hcache, hv⟩, hreaders, hkept⟩
    · cases hstep
  | writer =>
    cases writer with
    | idle => cases hstep
    | stateMissed | stateFetched => exact hcounts.elim
    | stateRead cBlock v =>
      obtain ⟨hcache, hv⟩ := hcounts
      obtain ⟨b, -, hstep⟩ := Option.map_eq_some_iff.mp hstep
      subst hstep
      have hput := hkept.put (k := v.block + 1)
        (by show base + 1 + ended.length ≤ v.block + 1; omega) b
        (.blockPut cBlock v b)
      refine ⟨⟨hcache, hv, ?_⟩, hreaders, hput⟩
      show Function.update store.data.blocks (v.block + 1) (some b)
        (base + ended.length + 1) = some b
      rw [hv, Function.update_self]
    | blockPut cBlock v b =>
      cases hstep
      exact ⟨hcounts, hreaders, hkept⟩
    | blockSet cBlock v b =>
      obtain ⟨hcache, hv, hb⟩ := hcounts
      cases hstep
      exact ⟨⟨⟨v, hcache⟩, rfl, congrArg (· + 1) hv, hb⟩, hreaders, hkept⟩
    | statePut v b =>
      obtain ⟨-, hrow, hv, hb⟩ := hcounts
      cases hstep
      refine ⟨⟨v, rfl, hrow, ?_⟩, hreaders, ?_⟩
      · rw [hv, List.length_append, List.length_singleton, Nat.add_assoc]
      · intro i b' hi
        rcases snoc_cases hi with ⟨rfl, rfl⟩ | ⟨hlt, hi⟩
        · show store.data.blocks (base + 1 + ended.length) = some b'
          rw [Nat.add_right_comm]
          exact hb
        · exact hkept i b' hi
  | reader i =>
    obtain ⟨r, hr, hstep⟩ := Option.bind_eq_some_iff.mp hstep
    obtain ⟨⟨s', r'⟩, hrstep, hstep⟩ := Option.map_eq_some_iff.mp hstep
    subst hstep
    obtain ⟨v, hcache⟩ := hcounts.filled
    obtain ⟨hd, hc, hcold⟩ := Reader.step_warm hrstep
      (hreaders r (List.mem_of_getElem? hr)) hcache
    refine ⟨hcounts.congr hd hc, ?_, ?_⟩
    · exact forall_mem_set hreaders hcold
    · intro j b hj
      show s'.data.blocks (base + 1 + j) = some b
      rw [hd]
      exact hkept j b hj

theorem init_warm {s : Store} {v : BlockState} (hcache : s.cache.blockState = some v)
    (hrow : s.data.blockState = some v) (k : Nat) : Warm v.block (Conf.init s k) := by
  refine ⟨⟨v, hcache, hrow, rfl⟩, ?_, ?_⟩
  · intro r hr
    rw [List.eq_of_mem_replicate hr]
    rfl
  · intro i b hi
    cases hi

end Warm

/-! ## With an empty cache -/

/-- A reader fills the cache with the state before the first block, after that block. -/
def staleFill (c₁ c₂ : CBlock) : List Action :=
  [.reader 0, .reader 0] ++ call true c₁ ++ [.reader 0, .endBlock c₂, .writer]

theorem staleFill_run {w : World} {s : Store} {v : BlockState} (hcache : s.cache.blockState = none)
    (hrow : s.data.blockState = some v) (k : Nat) {c₁ c₂ : CBlock} {b₁ b₂ : Block}
    (h₁ : endedBlock w c₁ = some b₁) (h₂ : endedBlock w c₂ = some b₂) :
    ∃ c, run (Conf.step w) (Conf.init s (k + 1)) (staleFill c₁ c₂) = some c ∧
      c.ended = [b₁] ∧
      c.store.data.blocks (v.block + 1) = some b₂ := by
  let missed : Conf := ⟨s, .idle, .stateFetched v :: List.replicate k .idle, []⟩
  have hmiss : run (Conf.step w) (Conf.init s (k + 1)) [.reader 0, .reader 0] = some missed := by
    simp only [run, Conf.step, Conf.init, List.replicate_succ, List.getElem?_cons_zero, Reader.step,
      hcache, hrow, Option.bind_some, Option.map_some, List.set_cons_zero, missed]
  have hcall : run (Conf.step w) missed (call true c₁) = some (missed.ends w c₁ v b₁) :=
    call_missed rfl hcache hrow h₁
  -- the late fill, and the next call counts from it
  have hlate : ∃ c, run (Conf.step w) (missed.ends w c₁ v b₁)
    [.reader 0, .endBlock c₂, .writer] = some c ∧
      c.ended = [b₁] ∧ c.store.data.blocks (v.block + 1) = some b₂ := by
    simp only [run, Conf.step, Conf.ends, missed, List.getElem?_cons_zero, Reader.step,
      h₂, Option.bind_some,
      Option.map_some, Store.cacheBlockState]
    exact ⟨_, rfl, rfl, Function.update_self ..⟩
  obtain ⟨c, hc, hrest⟩ := hlate
  exact ⟨c, run_trans (run_trans hmiss hcall) hc, hrest⟩

/-- A block of one event. -/
def singleBlock (e : Event) : CBlock := ⟨e.id, [], [e]⟩

theorem endedBlock_single (w : World) (e : Event) :
    ∃ b, endedBlock w (singleBlock e) = some b ∧ b.time = e.rawTime := by
  have hat : ((singleBlock e).applied.foldl (applyEvent (singleBlock e).atropos)
      beginBlock).atropos = some e := by
    simp [singleBlock, applyEvent, beginBlock]
  obtain ⟨b, hb⟩ : ∃ b, endedBlock w (singleBlock e) = some b := by
    rw [endedBlock, hat]
    exact ⟨_, rfl⟩
  refine ⟨b, hb, ?_⟩
  rw [endedBlock, hat] at hb
  cases hb
  rfl

/-- **When no block loses its number.** -/
theorem blocks_kept_iff (w : World) {s : Store} (hc : Coherent s) {v : BlockState}
    (hrow : s.data.blockState = some v) (k : Nat) :
    (∀ acts c, run (Conf.step w) (Conf.init s (k + 1)) acts = some c →
      InPlace (v.block + 1) c) ↔
      s.cache.blockState ≠ none := by
  constructor
  · intro hall hcold
    obtain ⟨b₁, h₁, ht₁⟩ := endedBlock_single w (chainEvent 1)
    obtain ⟨b₂, h₂, ht₂⟩ := endedBlock_single w (chainEvent 2)
    obtain ⟨c, hrun, hended, hblock⟩ := staleFill_run hcold hrow k h₁ h₂
    have hfirst := hall _ c hrun 0 b₁ (by rw [hended]; rfl)
    have htime : (chainEvent 2).rawTime = (chainEvent 1).rawTime := by
      rw [← ht₁, ← ht₂, Option.some.inj (hblock.symm.trans hfirst)]
    exact absurd htime (by decide)
  · intro hfilled acts c hrun
    obtain ⟨v', hcache⟩ := Option.ne_none_iff_exists'.mp hfilled
    have hsame : v' = v := Option.some.inj ((hc.blockState v' hcache).symm.trans hrow)
    subst hsame
    exact (run_keeps (fun _ _ _ h hstep => step_warm h hstep)
      (init_warm hcache hrow (k + 1)) hrun).kept

/-! ## After a start -/

section Start

variable {w : World} {store store' : Store}

theorem getEpochState_keeps {es : EpochState}
    (h : (store.getEpochState : Go ServiceError _) = .ok (es, store')) :
    store'.cache.blockState = store.cache.blockState := by
  unfold Store.getEpochState at h
  split at h
  · cases h
    rfl
  · split at h
    · cases h
    · cases h
      rfl

theorem getEpoch_keeps {epoch : Nat} (h : (store.getEpoch : Go ServiceError _) =
    .ok (epoch, store')) :
    store'.cache.blockState = store.cache.blockState := by
  obtain ⟨⟨es, s1⟩, hes, h⟩ := bind_eq_ok h
  cases h
  exact getEpochState_keeps hes

theorem getBlock_keeps (store : Store) (i : Nat) :
    (store.getBlock i).2.cache.blockState = store.cache.blockState := by
  unfold Store.getBlock
  split
  · rfl
  · split <;> rfl

theorem getEvent_keeps {id : EventID} {r : Option Event}
    (h : (store.getEvent w.sha256 w.rlp id : Go ServiceError _) = .ok (r, store')) :
    store'.cache.blockState = store.cache.blockState := by
  unfold Store.getEvent at h
  split at h
  · cases h
    rfl
  · split at h
    · cases h
      rfl
    · split at h
      · cases h
      · cases h
        rfl

theorem startEventEmission_keeps {n n' : Node} (h : Startup.startEventEmission w n = .ok n') :
    n'.store.cache.blockState = n.store.cache.blockState := by
  unfold Startup.startEventEmission at h
  split at h
  · cases h
  · next em _ =>
    obtain ⟨⟨es, s1⟩, hes, h⟩ := bind_eq_ok h
    obtain ⟨⟨time, s2⟩, htime, h⟩ := bind_eq_ok h
    cases h
    refine Eq.trans ?_ (getEpochState_keeps hes)
    unfold Startup.loadPrevEmitTime at htime
    split at htime
    · cases htime
      rfl
    · split at htime
      · cases htime
        rfl
      · obtain ⟨⟨prevEvent, s3⟩, hget, htime⟩ := bind_eq_ok htime
        cases prevEvent <;> cases htime <;> exact getEvent_keeps hget

/-- No statement of `Start` reads the block state. -/
theorem exec_keeps {em : Emitter} {p p' : Startup.Process} {x : Startup.Statement}
    (h : Startup.exec w em p x = .ok p') :
    p'.node.store.cache.blockState = p.node.store.cache.blockState := by
  cases x with
  | loadEpochStore =>
    obtain ⟨⟨epoch, s1⟩, hget, h⟩ := bind_eq_ok h
    cases h
    refine Eq.trans ?_ (getEpoch_keeps hget)
    show (s1.loadEpochStore epoch).cache.blockState = _
    unfold Store.loadEpochStore
    split <;> rfl
  | readGenesis =>
    have hkeep := getBlock_keeps p.node.store 0
    simp only [Startup.exec] at h
    split at h
    · cases h
    · next b s1 hget =>
      cases h
      rw [hget] at hkeep
      exact hkeep
  | pmStart | serverPoolStart | makeEmitter =>
    cases h
    rfl
  | startEventEmission =>
    obtain ⟨n, hn, h⟩ := bind_eq_ok h
    cases h
    exact startEventEmission_keeps (n := p.node) hn

theorem starts_keep {em : Emitter} {p p' : Startup.Process} (k : List Startup.Statement)
    (h : Startup.run w em p (k.map fun _ => .start) = .ok p') :
    p'.node.store.cache.blockState = p.node.store.cache.blockState := by
  induction k generalizing p with
  | nil =>
    cases h
    rfl
  | cons x k ih =>
    obtain ⟨p1, hstep, h⟩ := bind_eq_ok h
    rw [ih h]
    simp only [Startup.step] at hstep
    split at hstep
    · cases hstep
      rfl
    · next x rest _ => exact exec_keeps (p := { p with rest := rest }) hstep

theorem startService_keeps {em : Emitter} {n : Node} (h : Restart.startService w em store = .ok n) :
    n.store.cache.blockState = store.cache.blockState := by
  obtain ⟨n0, hnew, h⟩ := bind_eq_ok h
  obtain ⟨p, hrun, h⟩ := bind_eq_ok h
  cases h
  rw [starts_keep _ hrun]
  obtain ⟨⟨epoch, s1⟩, hget, hnew⟩ := bind_eq_ok hnew
  cases hnew
  exact getEpoch_keeps hget

/-- `ApplyGenesis` fills the cache exactly when it writes the genesis. -/
theorem applyGenesis_fills {d : Data} {cfg : Genesis.CacheConfig} {r : GenesisDigest.Applied}
    (h : GenesisDigest.applyGenesis w (CacheTransparency.openStore d cfg) = .ok (r, store)) :
    store.cache.blockState ≠ none ↔ d.blocks 0 = none := by
  have hopen := Restart.openStore_opened d cfg
  have hread := (getBlock_spec hopen.coherent 0).1
  have hkeep := getBlock_keeps (CacheTransparency.openStore d cfg) 0
  unfold GenesisDigest.applyGenesis at h
  split at h
  · next b s1 hget =>
    rw [hget] at hread hkeep
    obtain ⟨id, -, h⟩ := bind_eq_ok h
    have hrow : d.blocks 0 = some b := hread.symm
    split at h
    · cases h
    · cases h
      simp [hrow, show store.cache.blockState = none from hkeep]
  · next s1 hget =>
    rw [hget] at hread
    obtain ⟨⟨id, s2⟩, hgen, h⟩ := bind_eq_ok h
    cases h
    obtain ⟨e, -, hgen⟩ := bind_eq_ok hgen
    cases hgen
    have hrow : d.blocks 0 = none := hread.symm
    simp [hrow, Store.setBlockState]

end Start

section Boot
open Restart

/-- **Only the first process keeps the numbers of its blocks in every schedule.** -/
theorem booted_blocks_kept_iff (w : World) (hmax : 1 ≤ w.net.maxEpochBlocks) (m : Machine)
    (h : Reachable w anything m) (hoff : m.service = none) (cfg : Genesis.CacheConfig)
    (em : Emitter) (k : Nat) :
    ∃ n bs, (Restart.step w m (.boot cfg em none)).service = some ⟨n, m.saved⟩ ∧
      n.store.data.blockState = some bs ∧
      ((∀ acts c, Threads.run (Conf.step w) (Conf.init n.store (k + 1)) acts = some c →
        InPlace (bs.block + 1) c) ↔ m.disk = closed .empty) := by
  have hkept := Restart.Reachable.kept hmax h
  obtain ⟨d, n, l, vs, hboot, hbooted⟩ := boot_booted hmax hkept cfg em
  have hn : (m.boot w cfg em none).service = some ⟨n, m.saved⟩ := by rw [hboot]
  have hrow := hbooted.running.counted.blockState
  refine ⟨n, _, by rw [step_boot hoff]; exact hn, hrow, ?_⟩
  rw [blocks_kept_iff w hbooted.running.counted.coherent hrow k]
  -- what the process has read and written on its way
  obtain ⟨r, store, happ, hstart⟩ : ∃ r store,
      GenesisDigest.applyGenesis w (CacheTransparency.openStore m.disk cfg) = .ok (r, store) ∧
        startService w em store = .ok n := by
    unfold Machine.boot at hn
    split at hn
    · rw [hoff] at hn
      cases hn
    · next r store happ =>
      dsimp only at hn
      split at hn
      · rw [hoff] at hn
        cases hn
      · next n' hstart =>
        cases hn
        exact ⟨r, store, happ, hstart⟩
  rw [startService_keeps hstart, applyGenesis_fills happ]
  constructor
  · intro hblock
    rcases hkept.disk with ⟨hnew, -⟩ | ⟨l', vs', himage, -⟩
    · exact hnew
    · obtain ⟨b, hb, -⟩ := himage.genesis
      rw [hblock] at hb
      cases hb
  · intro hnew
    rw [hnew]
    rfl

/-- The genesis is on the disk; then the second process gives a number twice. -/
theorem booted_blocks_kept_iff_second :
    ∃ m n bs acts c, Reachable (sampleWorld 1) anything m ∧
      (Restart.step (sampleWorld 1) m bootIdle).service = some ⟨n, []⟩ ∧
      n.store.data.blockState = some bs ∧
      Threads.run (Conf.step (sampleWorld 1)) (Conf.init n.store 1) acts = some c ∧
      ¬ InPlace (bs.block + 1) c := by
  have hrun : (Restart.run (sampleWorld 1) .new [bootIdle, .crash]).service.isNone = true ∧
      (Restart.run (sampleWorld 1) .new [bootIdle, .crash]).saved = [] ∧
      ((Restart.run (sampleWorld 1) .new [bootIdle, .crash]).disk.blocks 0).isSome = true := by
    decide +kernel
  have hreach : Reachable (sampleWorld 1) anything
      (Restart.run (sampleWorld 1) .new [bootIdle, .crash]) := by
    apply run_steps
    simp only [List.forall_mem_cons, List.not_mem_nil, false_implies, implies_true, and_true]
    exact ⟨⟨trivial, fun _ => trivial⟩, trivial, fun _ => trivial⟩
  generalize Restart.run (sampleWorld 1) .new [bootIdle, .crash] = m at hrun hreach
  obtain ⟨hoff, hsaved, hgenesis⟩ := hrun
  obtain ⟨n, bs, hn, hrow, hiff⟩ := booted_blocks_kept_iff (sampleWorld 1) (by decide) m hreach
    (Option.isNone_iff_eq_none.mp hoff) Runs.sampleConfig Runs.idleEmitter 0
  have hnot : ¬ m.disk = closed .empty := by
    intro hnew
    rw [hnew] at hgenesis
    cases hgenesis
  rw [← hiff] at hnot
  simp only [not_forall] at hnot
  obtain ⟨acts, c, hsched, hlost⟩ := hnot
  rw [hsaved] at hn
  exact ⟨m, n, bs, acts, c, hreach, hn, hrow, hsched, hlost⟩

end Boot

end MiniOpera.SharedState
