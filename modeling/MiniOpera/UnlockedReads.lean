import MiniOpera.Genesis
import MiniOpera.Lib.Threads
import MiniOpera.PackMessages

/-!
# Reading the store without `engineMu`

`myProgress` and the answers to other nodes read the store while `processEvent` writes
it under `engineMu`. Here `processEvent` is taken apart into its writes, `myProgress` and
the loop of the `GetPackInfosMsg` branch into their accesses to caches and tables, and any
two of these can have others between them. A getter that found nothing in its cache reads
the row and puts it into the cache, where the row may have been written in between. A
setter is one step: between its row and its cache no access of a reader makes a difference.

`processEvent_statements`: a call of `processEvent` is a run of these steps.
`step_moves`: what a step changes of that which the readers look at (`View`), and of the
caches (`Kept`).
-/

namespace MiniOpera.UnlockedReads
open GoRuntime InterEvent EventCheck GossipStore Caching Consensus Service Genesis
  PackMessages Threads

/-! ## The threads -/

structure PeerProgress where
  epoch : Nat
  numOfBlocks : Nat
  lastBlock : EventID
  lastPackInfo : PackInfo
  deriving DecidableEq

/-- `PeerProgress.Less`. -/
def PeerProgress.less (a b : PeerProgress) : Bool :=
  if a.epoch ≠ b.epoch then a.epoch < b.epoch
  else if a.numOfBlocks ≠ b.numOfBlocks then a.numOfBlocks < b.numOfBlocks
  else a.lastPackInfo.index < b.lastPackInfo.index

/-- Where the thread that holds `engineMu` is in `processEvent`. -/
inductive Pc
  | idle
  /-- The event is stored and in the engine, which has called back or not. -/
  | engine (e : Event) (oldEpoch : Nat) (called : Bool)
  /-- The block is stored; `SetEpochState` is next if the epoch is sealed. -/
  | sealing (e : Event) (oldEpoch : Nat) (ending : Ending)
  /-- `SetBlockState` is next. -/
  | ending (e : Event) (oldEpoch : Nat) (bs : BlockState)
  /-- `packsOnNewEvent` has added the event to the pack. -/
  | counting (e : Event) (oldEpoch packIdx : Nat) (packInfo : PackInfo)
  /-- `packsOnNewEvent` has counted the full pack; `SetPackInfo` is next. -/
  | recording (e : Event) (oldEpoch packIdx : Nat) (packInfo : PackInfo)
  /-- `packsOnNewEvent` has returned. -/
  | linking (e : Event) (oldEpoch : Nat)
  /-- `packsOnNewEpoch` has written the info of the last pack; `SetPacksNum` is next. -/
  | closing (oldEpoch newEpoch packIdx : Nat)
  /-- `resetEpochStore` is next. -/
  | resetting (newEpoch : Nat)

/-- `myProgress`: the getter that it is in, with what it has read before. -/
inductive Progress
  | getBlockState (g : Getter BlockState)
  | getBlock (blockI : Nat) (g : Getter Block)
  | getEpoch (blockI : Nat) (atropos : EventID) (g : Getter EpochState)
  | getPacksNum (blockI : Nat) (atropos : EventID) (epoch : Nat)
  | getPackInfo (blockI : Nat) (atropos : EventID) (epoch packsNum : Nat) (g : Getter PackInfo)
  deriving DecidableEq

def Progress.start : Progress := .getBlockState .looking

inductive Thread
  /-- `handle` before the handshake. -/
  | greeting (reads : Progress)
  | greeted (p : PeerProgress)
  /-- `progressBroadcastLoop`, with what it has sent. -/
  | broadcasting (sent : List PeerProgress) (reads : Progress)
  | broadcast (sent : List PeerProgress) (prevProgress : PeerProgress)
  /-- `handleMsg` with a `GetPackInfosMsg` that passed `checkLenLimits`. -/
  | asked (epoch : Nat) (indexes : List Nat)
  /-- The loop over the indexes, with the rows it has collected. -/
  | answering (epoch packsNum : Nat) (indexes : List Nat) (size : Nat) (infos : List PackInfo)
  | answered (epoch packsNum : Nat) (infos : List PackInfo)
  | unanswered
  /-- A nil dereference or `log.Crit`. -/
  | crashed
  deriving DecidableEq

structure Conf where
  node : Node
  pc : Pc
  threads : List Thread

/-! ## Steps -/

inductive Action
  | enter (e : Event)
  | refuse
  | block (cBlock : CBlock)
  /-- The next statement of `EndBlock` or of what follows the engine. -/
  | next (o : Outcome)
  /-- Any thread reads an event. -/
  | getEvent (id : EventID)
  | greet
  | broadcast
  | ask (epoch : Nat) (indexes : List Nat)
  /-- The next access of a thread. -/
  | read (i : Nat)
  /-- The loop is notified of a new pack. -/
  | announce (i : Nat)

section Steps

variable (w : World)

/-- The statements of `processEvent` from the return of the engine on; what is read before a
write is read by this thread only. -/
def statement (n : Node) (o : Outcome) : Pc → Option (Node × Pc)
  | .idle => none
  | .engine e oldEpoch _ =>
    let epoch := e.epoch.toNat
    let packIdx := n.store.getPacksNumOrDefault epoch
    let (packInfo, store) := n.store.getPackInfoOrDefault epoch packIdx
    some ({ n with store := store.addToPack epoch packIdx e.id },
      .counting e oldEpoch packIdx { packInfo with
        index := packIdx
        numOfEvents := packInfo.numOfEvents + 1
        size := packInfo.size + UInt32.ofNat e.size })
  | .sealing e oldEpoch ending =>
    let store := match ending.sealed with
      | some es => n.store.setEpochState es
      | none => n.store
    some ({ n with store := store }, .ending e oldEpoch ending.blockState)
  | .ending e oldEpoch bs =>
    some ({ n with store := n.store.setBlockState bs }, .engine e oldEpoch true)
  | .counting e oldEpoch packIdx packInfo =>
    let epoch := e.epoch.toNat
    if isFull packInfo then
      some ({ n with store := n.store.setPacksNum epoch (packIdx + 1) },
        .recording e oldEpoch packIdx { packInfo with heads := n.store.getHeads })
    else some ({ n with store := n.store.setPackInfo epoch packIdx packInfo }, .linking e oldEpoch)
  | .recording e oldEpoch packIdx packInfo =>
    some ({ n with store := n.store.setPackInfo e.epoch.toNat packIdx packInfo },
      .linking e oldEpoch)
  | .linking e oldEpoch =>
    match onNewEvent n.emitter e o.parallelInstance with
    | .error _ => none
    | .ok () =>
      match (n.store.getEpoch : Go ServiceError _) with
      | .error _ => none
      | .ok (newEpoch, store) =>
        if newEpoch = oldEpoch then
          some ({ n with
            store := (e.parents.foldl Store.delHead
              (store.setLastEvent e.creator e.id)).addHead e.id },
            .idle)
        else
          let packIdx := store.getPacksNumOrDefault oldEpoch
          let (packInfo, store) := store.getPackInfoOrDefault oldEpoch packIdx
          some ({ n with
            store := store.setPackInfo oldEpoch packIdx { packInfo with heads := store.getHeads } },
            .closing oldEpoch newEpoch packIdx)
  | .closing oldEpoch newEpoch packIdx =>
    some ({ n with store := n.store.setPacksNum oldEpoch (packIdx + 1) }, .resetting newEpoch)
  | .resetting newEpoch =>
    some ({ n with store := n.store.resetEpochStore newEpoch o.epochDBClosed }, .idle)

/-- One access of `myProgress`: it goes on, has its result, or crashes, because a state is
missing or because it dereferences a nil block. -/
def Progress.read (s : Store) : Progress → Store × Option (Progress ⊕ PeerProgress)
  | .getBlockState g =>
    (g.fill Store.cacheBlockState s,
      match g.step s.cache.blockState s.data.blockState with
      | .inl g => some (.inl (.getBlockState g))
      | .inr none => none
      | .inr (some bs) => some (.inl (.getBlock bs.block .looking)))
  | .getBlock blockI g =>
    (g.fill (Store.cacheBlock blockI) s,
      match g.step (s.cache.blocks.get blockI) (s.data.blocks blockI) with
      | .inl g => some (.inl (.getBlock blockI g))
      | .inr none => none
      | .inr (some b) => some (.inl (.getEpoch blockI b.atropos .looking)))
  | .getEpoch blockI atropos g =>
    (g.fill Store.cacheEpochState s,
      match g.step s.cache.epochState s.data.epochState with
      | .inl g => some (.inl (.getEpoch blockI atropos g))
      | .inr none => none
      | .inr (some es) => some (.inl (.getPacksNum blockI atropos es.epoch)))
  | .getPacksNum blockI atropos epoch =>
    (s, some (.inl (.getPackInfo blockI atropos epoch (s.getPacksNumOrDefault epoch) .looking)))
  | .getPackInfo blockI atropos epoch packsNum g =>
    let idx := packsNum - 1
    (g.fill (Store.cachePackInfo epoch idx) s,
      match g.step (s.cache.packInfos.get (epoch, idx)) (s.data.packInfos (epoch, idx)) with
      | .inl g => some (.inl (.getPackInfo blockI atropos epoch packsNum g))
      | .inr info => some (.inr ⟨epoch, blockI, atropos, info.getD ⟨idx, 0, 0, []⟩⟩))

/-- One index of the loop over the requested infos; `rows` is the table of the infos. -/
def answer (codec : PackInfoCodec) (rows : Nat × Nat → Option PackInfo)
    (epoch packsNum size : Nat)
    (infos : List PackInfo) : List Nat → Thread
  | [] => if infos.length ≠ 0 then .answered epoch packsNum infos else .unanswered
  | index :: rest =>
    if index ≥ packsNum then .answering epoch packsNum rest size infos
    else
      let (size, infos) := match rows (epoch, index) with
        | some info => (size + (codec.encode info).length, infos ++ [info])
        | none => (size, infos)
      if size ≥ softResponseLimitSize then .answering epoch packsNum [] size infos
      else .answering epoch packsNum rest size infos

def greetWith : Option (Progress ⊕ PeerProgress) → Thread
  | none => .crashed
  | some (.inl reads) => .greeting reads
  | some (.inr p) => .greeted p

def prepareWith (sent : List PeerProgress) : Option (Progress ⊕ PeerProgress) → Thread
  | none => .crashed
  | some (.inl reads) => .broadcasting sent reads
  | some (.inr p) => .broadcast sent p

def Thread.read (codec : PackInfoCodec) (s : Store) : Thread → Option (Store × Thread)
  | .greeting reads => some ((reads.read s).1, greetWith (reads.read s).2)
  | .broadcasting sent reads => some ((reads.read s).1, prepareWith sent (reads.read s).2)
  | .asked epoch indexes =>
    some (s, match s.getPacksNum epoch with
      | none => .unanswered
      | some packsNum => .answering epoch packsNum indexes 0 [])
  | .answering epoch packsNum indexes size infos =>
    some (s, answer codec s.data.packInfos epoch packsNum size infos indexes)
  | _ => none

variable (codec : PackInfoCodec)

def Conf.step (c : Conf) : Action → Option Conf
  | .enter e =>
    match c.pc, admitEvent w c.node e with
    | .idle, .ok (n, .ok oldEpoch) => some { c with node := n, pc := .engine e oldEpoch false }
    | .idle, .ok (n, .error _) => some { c with node := n }
    | _, _ => none
  | .refuse =>
    match c.pc with
    | .engine e _ false =>
      some { c with node := { c.node with store := c.node.store.delEvent e.id }, pc := .idle }
    | _ => none
  | .block cBlock =>
    match c.pc with
    | .engine e oldEpoch _ =>
      match (endBlockPublish w c.node cBlock
        (cBlock.applied.foldl (applyEvent cBlock.atropos) beginBlock) : Go ServiceError _) with
      | .ok (ending, n) => some { c with node := n, pc := .sealing e oldEpoch ending }
      | .error _ => none
    | _ => none
  | .next o => (statement c.node o c.pc).map fun r => { c with node := r.1, pc := r.2 }
  | .getEvent id =>
    match (c.node.store.getEvent w.sha256 w.rlp id : Go ServiceError _) with
    | .ok (_, store) => some { c with node := { c.node with store := store } }
    | .error _ => none
  | .greet => some { c with threads := c.threads ++ [.greeting .start] }
  | .broadcast => some { c with threads := c.threads ++ [.broadcasting [] .start] }
  | .ask epoch indexes =>
    match checkLenLimits indexes.length with
    | some _ => none
    | none => some { c with threads := c.threads ++ [.asked epoch indexes] }
  | .read i =>
    (c.threads[i]?.bind (Thread.read codec c.node.store)).map fun r => { c with
      node := { c.node with store := r.1 }
      threads := c.threads.set i r.2 }
  | .announce i =>
    match c.threads[i]? with
    | some (.broadcast sent prevProgress) =>
      some { c with threads := c.threads.set i (.broadcasting (sent ++ [prevProgress]) .start) }
    | _ => none

end Steps

/-- A service that has started. -/
def Conf.init (n : Node) : Conf := ⟨n, .idle, []⟩

/-! ## A call is a run -/

section Calls

variable {w : World} (codec : PackInfoCodec) {c : Conf} {e : Event} {oldEpoch : Nat} {called : Bool}
  {o : Outcome} {n : Node}

theorem readEvents_statements {ids : List EventID} {store : Store}
    (h : readEvents w c.node.store ids = .ok store) :
    run (Conf.step w codec) c (ids.map .getEvent) =
      some { c with node := { c.node with store := store } } := by
  induction ids generalizing c with
  | nil =>
    cases h
    rfl
  | cons id ids ih =>
    obtain ⟨⟨r, s1⟩, hget, hrest⟩ := bind_eq_ok h
    have hstep : c.step w codec (.getEvent id) = some
        { c with node := { c.node with store := s1 } } := by
      simp only [Conf.step, hget]
    rw [List.map_cons, run, hstep]
    exact ih (c := { c with node := { c.node with store := s1 } }) hrest

theorem processBlock_statements {cBlock : CBlock} {v : Option (List Validator)} (o : Outcome)
    (hpc : c.pc = .engine e oldEpoch called)
    (h : (processBlock w c.node cBlock : Go ServiceError _) = .ok (v, n)) :
    run (Conf.step w codec) c [.block cBlock, .next o, .next o] =
      some { c with node := n, pc := .engine e oldEpoch true } := by
  obtain ⟨⟨ending, n0⟩, hpub, hwrite⟩ := bind_eq_ok h
  obtain rfl : (endBlockWrite n0 ending).2 = n := congrArg Prod.snd (Except.ok.inj hwrite)
  simp only [run, Conf.step, hpc, hpub, statement, Option.map_some, Option.bind_some]
  rfl

theorem processBlocks_statements {blocks : List CBlock} (o : Outcome)
    (hpc : c.pc = .engine e oldEpoch called) (h : processBlocks w c.node blocks = .ok n) :
    ∃ l called', run (Conf.step w codec) c l =
      some { c with node := n, pc := .engine e oldEpoch called' } := by
  induction blocks generalizing c called with
  | nil =>
    cases h
    exact ⟨[], called, by rw [run, ← hpc]⟩
  | cons cBlock rest ih =>
    obtain ⟨⟨v, n1⟩, hblock, hrest⟩ := bind_eq_ok h
    have hfirst := processBlock_statements codec o hpc hblock
    obtain ⟨l, called', hrun⟩ :=
      ih (c := { c with node := n1, pc := .engine e oldEpoch true }) rfl hrest
    exact ⟨_, called', run_trans hfirst hrun⟩

theorem packsOnNewEvent_statements (w : World) (o : Outcome)
    (hpc : c.pc = .engine e oldEpoch called) :
    ∃ l, run (Conf.step w codec) c l = some { c with
      node := { c.node with store := packsOnNewEvent c.node.store e e.epoch.toNat }
      pc := .linking e oldEpoch } := by
  cases hg : c.node.store.getPackInfoOrDefault e.epoch.toNat
    (c.node.store.getPacksNumOrDefault e.epoch.toNat) with
  | mk packInfo s1 =>
    simp only [packsOnNewEvent, hg]
    split
    · next hfull =>
      refine ⟨[.next o, .next o, .next o], ?_⟩
      simp only [run, Conf.step, hpc, statement, hg, isFull, hfull, ↓reduceIte, Option.map_some,
        Option.bind_some]
    · next hroom =>
      refine ⟨[.next o, .next o], ?_⟩
      simp only [run, Conf.step, hpc, statement, hg, isFull, hroom, ↓reduceIte, Option.map_some,
        Option.bind_some]

theorem linking_statements (w : World) {r : Option ServiceError}
    (hpc : c.pc = .engine e oldEpoch called)
    (h : connectEvent c.node e oldEpoch o = .ok (n, r)) :
    ∃ l, run (Conf.step w codec) c l = some { c with node := n, pc := .idle } := by
  obtain ⟨l, hpacks⟩ := packsOnNewEvent_statements codec w o hpc
  obtain ⟨⟨⟩, hevent, h⟩ := bind_eq_ok h
  obtain ⟨⟨newEpoch, s1⟩, hget, h⟩ := bind_eq_ok h
  cases h
  split
  · next hsame =>
    refine ⟨l ++ [.next o], run_trans hpacks ?_⟩
    simp only [run, Conf.step, statement, hevent, hget, if_pos hsame,
      Option.map_some, Option.bind_some]
  · next hsealed =>
    refine ⟨l ++ [.next o, .next o, .next o], run_trans hpacks ?_⟩
    simp only [run, Conf.step, statement, hevent, hget, if_neg hsealed,
      Option.map_some, Option.bind_some]
    rfl

/-- **A call of `processEvent` is a run of the statements.** -/
theorem processEvent_statements {r : Option ServiceError} (hpc : c.pc = .idle)
    (h : processEvent w c.node e o = .ok (n, r)) :
    ∃ l, run (Conf.step w codec) c l = some { c with node := n } := by
  rw [processEvent_eq] at h
  obtain ⟨⟨n1, r1⟩, hadmit, h⟩ := bind_eq_ok h
  cases r1 with
  | error err =>
    cases h
    refine ⟨[.enter e], ?_⟩
    rw [run]
    simp only [Conf.step, hpc, hadmit]
    rfl
  | ok oldEpoch =>
    obtain ⟨store, hreads, h⟩ := bind_eq_ok h
    have henter : c.step w codec (.enter e) =
        some { c with node := n1, pc := .engine e oldEpoch false } := by
      simp only [Conf.step, hpc, hadmit]
    have hread := readEvents_statements codec
      (c := { c with node := n1, pc := .engine e oldEpoch false }) hreads
    have hfirst : run (Conf.step w codec) c (.enter e :: o.reads.map .getEvent) = some { c with
        node := { n1 with store := store }
        pc := .engine e oldEpoch false } := by
      rw [run, henter]
      exact hread
    split at h
    · cases h
      refine ⟨_ ++ [.refuse], run_trans hfirst ?_⟩
      rw [run]
      simp only [Conf.step, ← hpc]
      rfl
    · obtain ⟨n4, hblocks, hcon⟩ := bind_eq_ok h
      obtain ⟨l, called, hrun⟩ := processBlocks_statements codec (c := { c with
        node := { n1 with store := store }
        pc := .engine e oldEpoch false }) o rfl hblocks
      obtain ⟨l', hrun'⟩ := linking_statements codec w (c := { c with
        node := n4
        pc := .engine e oldEpoch called }) rfl hcon
      refine ⟨_, run_trans (run_trans hfirst hrun) (hrun'.trans ?_)⟩
      rw [hpc]

end Calls

/-! ## What the readers look at -/

structure View where
  blocks : Nat → Option Block
  blockState : Option BlockState
  epochState : Option EpochState
  packInfos : Nat × Nat → Option PackInfo
  packs : Nat × Nat → EventSet
  packsNum : Nat → Option Nat

def view (d : Data) : View :=
  ⟨d.blocks, d.blockState, d.epochState, d.packInfos, d.packs, d.packsNum⟩

namespace View

/-- `GetPacksNumOrDefault`. -/
def num (v : View) (epoch : Nat) : Nat := (v.packsNum epoch).getD 1

/-- `GetPackInfoOrDefault`. -/
def info (v : View) (epoch idx : Nat) : PackInfo :=
  (v.packInfos (epoch, idx)).getD ⟨idx, 0, 0, []⟩

def setBlock (v : View) (n : Nat) (b : Block) : View :=
  { v with blocks := Function.update v.blocks n (some b) }

def setPackInfo (v : View) (epoch idx : Nat) (info : PackInfo) : View :=
  { v with packInfos := Function.update v.packInfos (epoch, idx) (some info) }

def addToPack (v : View) (epoch idx : Nat) (id : EventID) : View :=
  { v with packs := Function.update v.packs (epoch, idx) ((v.packs (epoch, idx)).insert id) }

def setPacksNum (v : View) (epoch num : Nat) : View :=
  { v with packsNum := Function.update v.packsNum epoch (some num) }

/-- The info of the current pack with one more event. -/
def entry (v : View) (e : Event) : PackInfo :=
  let info := v.info e.epoch.toNat (v.num e.epoch.toNat)
  { info with
    index := v.num e.epoch.toNat
    numOfEvents := info.numOfEvents + 1
    size := info.size + UInt32.ofNat e.size }

end View

/-- What the thread with `engineMu` does to the view, and where it goes. -/
inductive Writes (v : View) : Pc → View → Pc → Prop
  | enter {e : Event} {es : EpochState} (hes : v.epochState = some es)
      (hrelevant : e.epoch.toNat = es.epoch) : Writes v .idle v (.engine e es.epoch false)
  | refuse {e : Event} {oldEpoch : Nat} : Writes v (.engine e oldEpoch false) v .idle
  | block {e : Event} {oldEpoch : Nat} {called : Bool} {bs : BlockState} {b : Block}
      {ending : Ending} (hbs : v.blockState = some bs)
      (hnext : ending.blockState.block = bs.block + 1)
      (hsealed : ∀ es', ending.sealed = some es' →
        ∃ es, v.epochState = some es ∧ es' = { es with epoch := es.epoch + 1 }) :
      Writes v (.engine e oldEpoch called) (v.setBlock (bs.block + 1) b)
        (.sealing e oldEpoch ending)
  | sealEpoch {e : Event} {oldEpoch : Nat} {ending : Ending} :
      Writes v (.sealing e oldEpoch ending) { v with epochState := ending.sealed.or v.epochState }
        (.ending e oldEpoch ending.blockState)
  | endBlock {e : Event} {oldEpoch : Nat} {bs : BlockState} :
      Writes v (.ending e oldEpoch bs) { v with blockState := some bs } (.engine e oldEpoch true)
  | pack {e : Event} {oldEpoch : Nat} {called : Bool} :
      Writes v (.engine e oldEpoch called)
        (v.addToPack e.epoch.toNat (v.num e.epoch.toNat) e.id)
        (.counting e oldEpoch (v.num e.epoch.toNat) (v.entry e))
  | count {e : Event} {oldEpoch packIdx : Nat} {packInfo : PackInfo} (heads : List EventID)
      (hfull : isFull packInfo) :
      Writes v (.counting e oldEpoch packIdx packInfo) (v.setPacksNum e.epoch.toNat (packIdx + 1))
        (.recording e oldEpoch packIdx { packInfo with heads := heads })
  | note {e : Event} {oldEpoch packIdx : Nat} {packInfo : PackInfo} (hroom : ¬ isFull packInfo) :
      Writes v (.counting e oldEpoch packIdx packInfo)
        (v.setPackInfo e.epoch.toNat packIdx packInfo) (.linking e oldEpoch)
  | record {e : Event} {oldEpoch packIdx : Nat} {packInfo : PackInfo} :
      Writes v (.recording e oldEpoch packIdx packInfo)
        (v.setPackInfo e.epoch.toNat packIdx packInfo) (.linking e oldEpoch)
  | link {e : Event} {oldEpoch : Nat} {es : EpochState} (hes : v.epochState = some es)
      (hsame : es.epoch = oldEpoch) : Writes v (.linking e oldEpoch) v .idle
  | close {e : Event} {oldEpoch : Nat} {es : EpochState} (heads : List EventID)
      (hes : v.epochState = some es) (hsealed : es.epoch ≠ oldEpoch) :
      Writes v (.linking e oldEpoch)
        (v.setPackInfo oldEpoch (v.num oldEpoch)
          { v.info oldEpoch (v.num oldEpoch) with heads := heads })
        (.closing oldEpoch es.epoch (v.num oldEpoch))
  | pin {oldEpoch newEpoch packIdx : Nat} :
      Writes v (.closing oldEpoch newEpoch packIdx) (v.setPacksNum oldEpoch (packIdx + 1))
        (.resetting newEpoch)
  | reset {newEpoch : Nat} : Writes v (.resetting newEpoch) v .idle

/-- A step of a thread without `engineMu` that uses no cache. -/
inductive Turns (codec : PackInfoCodec) (v : View) : List Thread → List Thread → Prop
  | same {l : List Thread} : Turns codec v l l
  | greet {l : List Thread} : Turns codec v l (l ++ [.greeting .start])
  | prepare {l : List Thread} : Turns codec v l (l ++ [.broadcasting [] .start])
  | ask {l : List Thread} {epoch : Nat} {indexes : List Nat}
      (h : checkLenLimits indexes.length = none) : Turns codec v l (l ++ [.asked epoch indexes])
  | announce {l : List Thread} {i : Nat} {sent : List PeerProgress} {prevProgress : PeerProgress}
      (hi : l[i]? = some (.broadcast sent prevProgress)) :
      Turns codec v l (l.set i (.broadcasting (sent ++ [prevProgress]) .start))
  | noPacks {l : List Thread} {i epoch : Nat} {indexes : List Nat}
      (hi : l[i]? = some (.asked epoch indexes)) (h : v.packsNum epoch = none) :
      Turns codec v l (l.set i .unanswered)
  | packs {l : List Thread} {i epoch packsNum : Nat} {indexes : List Nat}
      (hi : l[i]? = some (.asked epoch indexes)) (h : v.packsNum epoch = some packsNum) :
      Turns codec v l (l.set i (.answering epoch packsNum indexes 0 []))
  | answering {l : List Thread} {i epoch packsNum size : Nat} {indexes : List Nat}
      {infos : List PackInfo} (hi : l[i]? = some (.answering epoch packsNum indexes size infos)) :
      Turns codec v l (l.set i (answer codec v.packInfos epoch packsNum size infos indexes))

/-- What the thread with `engineMu` reads through a cache is the row. -/
structure Fresh (s : Store) : Prop where
  blockState : s.cache.blockState = s.data.blockState
  epochState : s.cache.epochState = s.data.epochState
  packInfo : ∀ epoch info,
    s.cache.packInfos.get (epoch, s.getPacksNumOrDefault epoch) = some info →
    (view s.data).info epoch (s.getPacksNumOrDefault epoch) = info

/-- What a step other than that of a getter does to the caches: what is cached afterwards is
the row, or it was cached before and its row is the same. -/
structure Kept (s s' : Store) : Prop where
  blockState : s.cache.blockState = s.data.blockState → s'.cache.blockState = s'.data.blockState
  epochState : s.cache.epochState = s.data.epochState → s'.cache.epochState = s'.data.epochState
  blocks : Agrees (fun i b => s'.data.blocks i = some b ∨
    s.cache.blocks.get i = some b ∧ s'.data.blocks i = s.data.blocks i) s'.cache.blocks
  packInfos : Agrees (fun k info => s'.data.packInfos k = some info ∨
    s.cache.packInfos.get k = some info ∧ s'.data.packInfos k = s.data.packInfos k)
      s'.cache.packInfos

/-- One of the kinds of steps. -/
inductive Moves (codec : PackInfoCodec) (c c' : Conf) : Prop
  | write (h : Writes (view c.node.store.data) c.pc (view c'.node.store.data) c'.pc)
      (hkept : Kept c.node.store c'.node.store) (hthreads : c'.threads = c.threads)
  | turn (hview : view c'.node.store.data = view c.node.store.data) (hpc : c'.pc = c.pc)
      (hkept : Kept c.node.store c'.node.store)
      (h : Turns codec (view c.node.store.data) c.threads c'.threads)
  | greeting {i : Nat} {reads : Progress} (hi : c.threads[i]? = some (.greeting reads))
      (hpc : c'.pc = c.pc) (hstore : c'.node.store = (reads.read c.node.store).1)
      (hthreads : c'.threads = c.threads.set i (greetWith (reads.read c.node.store).2))
  | broadcasting {i : Nat} {sent : List PeerProgress} {reads : Progress}
      (hi : c.threads[i]? = some (.broadcasting sent reads)) (hpc : c'.pc = c.pc)
      (hstore : c'.node.store = (reads.read c.node.store).1)
      (hthreads : c'.threads = c.threads.set i (prepareWith sent (reads.read c.node.store).2))

section Caches

variable {ε : Type} {s s' s'' : Store}

theorem Kept.refl (s : Store) : Kept s s :=
  ⟨fun h => h, fun h => h, fun _ _ h => .inr ⟨h, rfl⟩, fun _ _ h => .inr ⟨h, rfl⟩⟩

theorem Kept.trans (h : Kept s s') (h' : Kept s' s'') : Kept s s'' := by
  refine ⟨fun hs => h'.blockState (h.blockState hs), fun hs => h'.epochState (h.epochState hs),
    fun i b hb => ?_, fun k info hinfo => ?_⟩
  · rcases h'.blocks i b hb with hrow | ⟨hb, hsame⟩
    · exact .inl hrow
    · rw [hsame]
      exact h.blocks i b hb
  · rcases h'.packInfos k info hinfo with hrow | ⟨hinfo, hsame⟩
    · exact .inl hrow
    · rw [hsame]
      exact h.packInfos k info hinfo

/-- The caches stay, but for that of the events, and so do the rows that are looked at. -/
theorem Kept.of_view (hview : view s'.data = view s.data)
    (hcache : { s'.cache with events := s.cache.events } = s.cache) : Kept s s' := by
  have hblocks : s'.cache.blocks = s.cache.blocks := congrArg (·.blocks) hcache
  have hinfos : s'.cache.packInfos = s.cache.packInfos := congrArg (·.packInfos) hcache
  have hbs : s'.cache.blockState = s.cache.blockState := congrArg (·.blockState) hcache
  have hes : s'.cache.epochState = s.cache.epochState := congrArg (·.epochState) hcache
  refine ⟨fun h => hbs.trans (h.trans (congrArg View.blockState hview).symm),
    fun h => hes.trans (h.trans (congrArg View.epochState hview).symm), fun i b hb => ?_,
    fun k info hinfo => ?_⟩
  · rw [hblocks] at hb
    exact .inr ⟨hb, congrFun (congrArg View.blocks hview) i⟩
  · rw [hinfos] at hinfo
    exact .inr ⟨hinfo, congrFun (congrArg View.packInfos hview) k⟩

theorem Kept.setBlock (i : Nat) (b : Block) : Kept s (s.setBlock i b) := by
  refine ⟨fun h => h, fun h => h, fun j b' hb => ?_, fun _ _ h => .inr ⟨h, rfl⟩⟩
  rcases OptCache.get_add hb with ⟨rfl, rfl⟩ | ⟨hne, hb⟩
  · exact .inl (Function.update_self _ _ _)
  · exact .inr ⟨hb, Function.update_of_ne hne _ _⟩

theorem Kept.setPackInfo (epoch idx : Nat) (info : PackInfo) :
    Kept s (s.setPackInfo epoch idx info) := by
  refine ⟨fun h => h, fun h => h, fun _ _ h => .inr ⟨h, rfl⟩, fun k info' hinfo => ?_⟩
  rcases OptCache.get_add hinfo with ⟨rfl, rfl⟩ | ⟨hne, hinfo⟩
  · exact .inl (Function.update_self _ _ _)
  · exact .inr ⟨hinfo, Function.update_of_ne hne _ _⟩

theorem Kept.setBlockState (v : BlockState) : Kept s (s.setBlockState v) :=
  ⟨fun _ => rfl, fun h => h, fun _ _ h => .inr ⟨h, rfl⟩, fun _ _ h => .inr ⟨h, rfl⟩⟩

theorem Kept.setEpochState (v : EpochState) : Kept s (s.setEpochState v) :=
  ⟨fun h => h, fun _ => rfl, fun _ _ h => .inr ⟨h, rfl⟩, fun _ _ h => .inr ⟨h, rfl⟩⟩

theorem Kept.addToPack (epoch idx : Nat) (id : EventID) : Kept s (s.addToPack epoch idx id) :=
  ⟨fun h => h, fun h => h, fun _ _ h => .inr ⟨h, rfl⟩, fun _ _ h => .inr ⟨h, rfl⟩⟩

theorem Kept.setPacksNum (epoch num : Nat) : Kept s (s.setPacksNum epoch num) :=
  ⟨fun h => h, fun h => h, fun _ _ h => .inr ⟨h, rfl⟩, fun _ _ h => .inr ⟨h, rfl⟩⟩

/-! A getter that finds what it looks for changes nothing. -/

theorem getBlockState_fresh (h : s.cache.blockState = s.data.blockState) {bs : BlockState}
    (hg : (s.getBlockState : Go ε _) = .ok (bs, s')) : s' = s ∧ s.data.blockState = some bs := by
  unfold Store.getBlockState at hg
  rw [h] at hg
  cases hrow : s.data.blockState with
  | none =>
    rw [hrow] at hg
    cases hg
  | some bs' =>
    rw [hrow] at hg
    cases hg
    exact ⟨rfl, rfl⟩

theorem getEpochState_fresh (h : s.cache.epochState = s.data.epochState) {es : EpochState}
    (hg : (s.getEpochState : Go ε _) = .ok (es, s')) : s' = s ∧ s.data.epochState = some es := by
  unfold Store.getEpochState at hg
  rw [h] at hg
  cases hrow : s.data.epochState with
  | none =>
    rw [hrow] at hg
    cases hg
  | some es' =>
    rw [hrow] at hg
    cases hg
    exact ⟨rfl, rfl⟩

theorem getEpoch_fresh (h : s.cache.epochState = s.data.epochState) {epoch : Nat}
    (hg : (s.getEpoch : Go ε _) = .ok (epoch, s')) :
    s' = s ∧ ∃ es, s.data.epochState = some es ∧ es.epoch = epoch := by
  obtain ⟨⟨es, s1⟩, hes, hr⟩ := bind_eq_ok hg
  cases hr
  obtain ⟨rfl, hrow⟩ := getEpochState_fresh h hes
  exact ⟨rfl, es, hrow, rfl⟩

/-- The info of the pack that is written to. -/
theorem getPackInfoOrDefault_fresh (h : Fresh s) (epoch : Nat) :
    (s.getPackInfoOrDefault epoch (s.getPacksNumOrDefault epoch)).1 =
        (view s.data).info epoch (s.getPacksNumOrDefault epoch) ∧
      (s.getPackInfoOrDefault epoch (s.getPacksNumOrDefault epoch)).2.data = s.data ∧
      Kept s (s.getPackInfoOrDefault epoch (s.getPacksNumOrDefault epoch)).2 := by
  have hcached := h.packInfo epoch
  generalize s.getPacksNumOrDefault epoch = idx at hcached
  unfold Store.getPackInfoOrDefault Store.getPackInfo
  cases hget : s.cache.packInfos.get (epoch, idx) with
  | some info => exact ⟨(hcached info hget).symm, rfl, .refl s⟩
  | none =>
    cases hrow : s.data.packInfos (epoch, idx) with
    | none => exact ⟨by simp [View.info, view, hrow], rfl, .refl s⟩
    | some info =>
      refine ⟨by simp [View.info, view, hrow], rfl, fun h => h, fun h => h,
        fun _ _ h => .inr ⟨h, rfl⟩, fun k info' hinfo => ?_⟩
      rcases OptCache.get_add hinfo with ⟨rfl, rfl⟩ | ⟨-, hinfo⟩
      · exact .inl hrow
      · exact .inr ⟨hinfo, rfl⟩

end Caches

section Inversion

variable {w : World} {codec : PackInfoCodec}

theorem view_updateEpochDB (d : Data) (f : EpochDB → EpochDB) :
    view (d.updateEpochDB f) = view d := by
  unfold Data.updateEpochDB
  split <;> rfl

theorem view_resetEpochStore (d : Data) (newEpoch : Nat) (closed : Bool) :
    view (d.resetEpochStore newEpoch closed) = view d := by
  unfold Data.resetEpochStore
  split
  · rfl
  · split <;> rfl

theorem statement_emitter {n n' : Node} {o : Outcome} {pc pc' : Pc}
    (h : statement n o pc = some (n', pc')) : n'.emitter = n.emitter := by
  cases pc with
  | idle => cases h
  | counting e oldEpoch packIdx packInfo =>
    simp only [statement] at h
    split at h <;> cases h <;> rfl
  | linking e oldEpoch =>
    simp only [statement] at h
    split at h
    · cases h
    · split at h
      · cases h
      · split at h <;> cases h <;> rfl
  | engine | sealing | ending | recording | closing | resetting =>
    cases h
    rfl

/-- An event is refused before anything is written, or stored in its epoch. -/
theorem admitEvent_fresh {n n' : Node} {e : Event} {r : Except ServiceError Nat}
    (hf : Fresh n.store)
    (h : admitEvent w n e = .ok (n', r)) :
    (∃ err, r = .error err ∧ n' = n) ∨
      ∃ es, r = .ok es.epoch ∧ n.store.data.epochState = some es ∧
        e.epoch.toNat = es.epoch ∧
        view n'.store.data = view n.store.data ∧ Kept n.store n'.store ∧
          n'.emitter = n.emitter := by
  unfold admitEvent at h
  split at h
  · cases h
    exact .inl ⟨_, rfl, rfl⟩
  · split at h
    · cases h
      exact .inl ⟨_, rfl, rfl⟩
    · obtain ⟨⟨es, s0⟩, hes, h⟩ := bind_eq_ok h
      obtain ⟨rfl, hrow⟩ := getEpochState_fresh hf.epochState hes
      dsimp only at h
      split at h
      · cases h
      · cases h
        exact .inl ⟨_, rfl, rfl⟩
      · next hcheck =>
        obtain ⟨⟨oldEpoch, s1⟩, hold, h⟩ := bind_eq_ok h
        obtain ⟨rfl, es', hrow', rfl⟩ := getEpoch_fresh hf.epochState hold
        rw [hrow] at hrow'
        cases hrow'
        obtain ⟨s2, hset, h⟩ := bind_eq_ok h
        obtain ⟨buf, -, hset⟩ := bind_eq_ok hset
        cases hset
        cases h
        exact .inr ⟨es, rfl, hrow, w.base.epoch_relevant _ _ _ hcheck, rfl,
          .of_view rfl rfl, rfl⟩

/-- `EndBlock` stores the next block before anything else. -/
theorem endBlockPublish_writes {n n' : Node} {cBlock : CBlock} {b : BlockVars} {ending : Ending}
    (hf : Fresh n.store)
    (h : (endBlockPublish w n cBlock b : Go ServiceError _) = .ok (ending, n'))
    (e : Event) (oldEpoch : Nat) (called : Bool) :
    Writes (view n.store.data) (.engine e oldEpoch called) (view n'.store.data)
      (.sealing e oldEpoch ending) ∧ Kept n.store n'.store ∧ n'.emitter = n.emitter := by
  obtain ⟨⟨bs, s1⟩, hbs, h⟩ := bind_eq_ok h
  obtain ⟨rfl, hrow⟩ := getBlockState_fresh hf.blockState hbs
  dsimp only at h
  split at h
  · cases h
  · generalize Block.mk _ _ _ = block at h
    split at h
    · obtain ⟨⟨es, s2⟩, hes, h⟩ := bind_eq_ok h
      obtain ⟨rfl, hepoch⟩ := getEpochState_fresh
        (show (n.store.setBlock (bs.block + 1) block).cache.epochState = _ from hf.epochState) hes
      cases h
      refine ⟨.block hrow rfl fun es' hes' => ?_, .setBlock _ _, rfl⟩
      cases hes'
      exact ⟨es, hepoch, rfl⟩
    · cases h
      exact ⟨.block hrow rfl fun es' hes' => (by cases hes'), .setBlock _ _, rfl⟩

theorem linking_writes {n n' : Node} {o : Outcome} {e : Event} {oldEpoch : Nat} {pc' : Pc}
    (hf : Fresh n.store) (h : statement n o (.linking e oldEpoch) = some (n', pc')) :
    Writes (view n.store.data) (.linking e oldEpoch) (view n'.store.data) pc' ∧
      Kept n.store n'.store := by
  simp only [statement] at h
  split at h
  · cases h
  · split at h
    · cases h
    · next newEpoch store hget =>
      obtain ⟨rfl, es, hes, rfl⟩ := getEpoch_fresh hf.epochState hget
      split at h
      · next hsame =>
        cases h
        have hview := view_updateEpochDB n.store.data (linkEvent e)
        rw [linkEvent_store]
        refine ⟨?_, .of_view hview rfl⟩
        rw [Store.updateEpochDB, hview]
        exact .link hes hsame
      · next hsealed =>
        obtain ⟨hinfo, hdata, hkept⟩ := getPackInfoOrDefault_fresh hf oldEpoch
        generalize n.store.getPackInfoOrDefault oldEpoch (n.store.getPacksNumOrDefault oldEpoch) = r
          at hinfo hdata hkept h
        obtain ⟨packInfo, s1⟩ := r
        cases h
        refine ⟨?_, hkept.trans (.setPackInfo _ _ _)⟩
        have hclose : Writes (view n.store.data) (.linking e oldEpoch) _ _ :=
          .close s1.getHeads hes hsealed
        simp only [Store.setPackInfo, show packInfo = _ from hinfo, show s1.data = _ from hdata]
        exact hclose

theorem statement_writes {n n' : Node} {o : Outcome} {pc pc' : Pc} (hf : Fresh n.store)
    (h : statement n o pc = some (n', pc')) :
    Writes (view n.store.data) pc (view n'.store.data) pc' ∧ Kept n.store n'.store := by
  cases pc with
  | idle => cases h
  | engine e oldEpoch called =>
    obtain ⟨hinfo, hdata, hkept⟩ := getPackInfoOrDefault_fresh hf e.epoch.toNat
    simp only [statement] at h
    generalize n.store.getPackInfoOrDefault e.epoch.toNat
      (n.store.getPacksNumOrDefault e.epoch.toNat) = r
      at hinfo hdata hkept h
    obtain ⟨packInfo, s1⟩ := r
    cases h
    refine ⟨?_, hkept.trans (.addToPack _ _ _)⟩
    simp only [Store.addToPack, show packInfo = _ from hinfo, show s1.data = _ from hdata]
    exact .pack
  | sealing e oldEpoch ending =>
    cases h
    have hseal : Writes (view n.store.data) (.sealing e oldEpoch ending) _ _ := .sealEpoch
    cases hsealed : ending.sealed with
    | none =>
      rw [hsealed] at hseal
      exact ⟨hseal, .refl _⟩
    | some es =>
      rw [hsealed] at hseal
      exact ⟨hseal, .setEpochState es⟩
  | ending e oldEpoch bs =>
    cases h
    exact ⟨.endBlock, .setBlockState bs⟩
  | counting e oldEpoch packIdx packInfo =>
    simp only [statement] at h
    split at h
    · next hfull =>
      cases h
      exact ⟨.count _ hfull, .setPacksNum _ _⟩
    · next hroom =>
      cases h
      exact ⟨.note hroom, .setPackInfo _ _ _⟩
  | recording e oldEpoch packIdx packInfo =>
    cases h
    exact ⟨.record, .setPackInfo _ _ _⟩
  | linking e oldEpoch => exact linking_writes hf h
  | closing oldEpoch newEpoch packIdx =>
    cases h
    exact ⟨.pin, .setPacksNum _ _⟩
  | resetting newEpoch =>
    cases h
    have hview := view_resetEpochStore n.store.data newEpoch o.epochDBClosed
    refine ⟨?_, .of_view hview rfl⟩
    rw [Store.resetEpochStore, hview]
    exact .reset

theorem getEvent_kept {s s' : Store} {id : EventID} {r : Option Event}
    (h : (s.getEvent w.sha256 w.rlp id : Go ServiceError _) = .ok (r, s')) :
    s'.data = s.data ∧ Kept s s' := by
  unfold Store.getEvent at h
  split at h
  · cases h
    exact ⟨rfl, .refl _⟩
  · split at h
    · cases h
      exact ⟨rfl, .refl _⟩
    · split at h
      · cases h
      · cases h
        exact ⟨rfl, .of_view rfl rfl⟩

/-- The steps of a thread of the list. -/
theorem read_moves {c : Conf} {i : Nat} {t t' : Thread} {s' : Store} (hi : c.threads[i]? = some t)
    (h : t.read codec c.node.store = some (s', t')) :
    Moves codec c { c with
      node := { c.node with store := s' }
      threads := c.threads.set i t' } := by
  cases t with
  | greeting reads =>
    cases h
    exact .greeting hi rfl rfl rfl
  | broadcasting sent reads =>
    cases h
    exact .broadcasting hi rfl rfl rfl
  | asked epoch indexes =>
    cases h
    refine .turn rfl rfl (.refl _) ?_
    cases hnum : c.node.store.getPacksNum epoch with
    | none => exact .noPacks hi hnum
    | some packsNum => exact .packs hi hnum
  | answering epoch packsNum indexes size infos =>
    cases h
    exact .turn rfl rfl (.refl _) (.answering hi)
  | greeted | broadcast | answered | unanswered | crashed => cases h

/-- Every step writes under `engineMu` or is one of another thread. -/
theorem step_moves {c c' : Conf} {action : Action} (hf : Fresh c.node.store)
    (h : c.step w codec action = some c') : Moves codec c c' ∧
      c'.node.emitter = c.node.emitter := by
  cases action with
  | enter e =>
    simp only [Conf.step] at h
    split at h
    · next n oldEpoch hpc hadmit =>
      cases h
      obtain ⟨err, heq, -⟩ | ⟨es, heq, hes, hrelevant, hview, hkept, hem⟩ :=
        admitEvent_fresh hf hadmit
      · cases heq
      · cases heq
        refine ⟨.write ?_ hkept rfl, hem⟩
        show Writes _ c.pc (view n.store.data) (.engine e es.epoch false)
        rw [hpc, hview]
        exact .enter hes hrelevant
    · next n err hpc hadmit =>
      cases h
      obtain ⟨err', -, rfl⟩ | ⟨es, heq, -⟩ := admitEvent_fresh hf hadmit
      · exact ⟨.turn rfl rfl (.refl _) .same, rfl⟩
      · cases heq
    · cases h
  | refuse =>
    simp only [Conf.step] at h
    split at h
    · next e oldEpoch hpc =>
      cases h
      refine ⟨.write ?_ (.of_view rfl rfl) rfl, rfl⟩
      rw [hpc]
      exact .refuse
    · cases h
  | block cBlock =>
    simp only [Conf.step] at h
    split at h
    · next e oldEpoch called hpc =>
      split at h
      · next ending n hpub =>
        cases h
        obtain ⟨hwrites, hkept, hem⟩ := endBlockPublish_writes hf hpub e oldEpoch called
        refine ⟨.write ?_ hkept rfl, hem⟩
        rw [hpc]
        exact hwrites
      · cases h
    · cases h
  | next o =>
    obtain ⟨⟨n, pc⟩, hnext, rfl⟩ := Option.map_eq_some_iff.mp h
    obtain ⟨hwrites, hkept⟩ := statement_writes hf hnext
    exact ⟨.write hwrites hkept rfl, statement_emitter hnext⟩
  | getEvent id =>
    simp only [Conf.step] at h
    split at h
    · next r store hget =>
      cases h
      obtain ⟨hdata, hkept⟩ := getEvent_kept hget
      exact ⟨.turn (congrArg view hdata) rfl hkept .same, rfl⟩
    · cases h
  | greet =>
    cases h
    exact ⟨.turn rfl rfl (.refl _) .greet, rfl⟩
  | broadcast =>
    cases h
    exact ⟨.turn rfl rfl (.refl _) .prepare, rfl⟩
  | ask epoch indexes =>
    simp only [Conf.step] at h
    split at h
    · cases h
    · next hlen =>
      cases h
      exact ⟨.turn rfl rfl (.refl _) (.ask hlen), rfl⟩
  | read i =>
    obtain ⟨⟨s, t'⟩, hread, rfl⟩ := Option.map_eq_some_iff.mp h
    obtain ⟨t, hi, hread⟩ := Option.bind_eq_some_iff.mp hread
    exact ⟨read_moves hi hread, rfl⟩
  | announce i =>
    simp only [Conf.step] at h
    split at h
    · next sent prevProgress hi =>
      cases h
      exact ⟨.turn rfl rfl (.refl _) (.announce hi), rfl⟩
    · cases h

end Inversion

end MiniOpera.UnlockedReads
