import MiniOpera.SharedView

/-!
# What a thread without the lock may rely on

`Known`: what the cache of the pack infos holds, and what a getter that has read a row is
going to put into it. It is the stored info, or that of a pinned pack without its last event
and its heads: the getter may have read the row before `SetPackInfo` wrote it. `ThreadOk`:
what each thread has read stays true.

The caches of both states are filled from the start, by `ApplyGenesis`, so that their getters
never come to read the row (`Current`). This is the process that writes the genesis.

`run_sound`: all of it holds in every interleaving.
-/

namespace MiniOpera.Readers
open GoRuntime InterEvent EventCheck GossipStore Caching Consensus Service Genesis PackMessages
  Threads UnlockedReads SharedView

/-! ## What was read -/

/-- An info that was read of a pinned pack: it is the stored one, or `SetPackInfo` has
since added the last event and the heads. -/
structure Served (v : View) (pc : Pc) (epoch : Nat) (info : PackInfo) : Prop where
  pinned : info.index < v.num epoch
  row : v.info epoch info.index = info ∨ info.heads = [] ∧
    (v.info epoch info.index).numOfEvents = info.numOfEvents + 1 ∧
    window pc ≠ some (epoch, info.index)

def HasBlocks (v : View) (blockI : Nat) : Prop :=
  ∃ bs, v.blockState = some bs ∧ blockI ≤ bs.block

def HasAtropos (v : View) (blockI : Nat) (atropos : EventID) : Prop :=
  ∃ b, v.blocks blockI = some b ∧ b.atropos = atropos

def Began (v : View) (epoch : Nat) : Prop := ∃ es, v.epochState = some es ∧ epoch ≤ es.epoch

/-- The progress is that of the node at some time until now. -/
structure Truthful (v : View) (pc : Pc) (p : PeerProgress) : Prop where
  blocks : HasBlocks v p.numOfBlocks
  block : HasAtropos v p.numOfBlocks p.lastBlock
  epoch : Began v p.epoch
  pack : Served v pc p.epoch p.lastPackInfo

/-- An info that is cached, or that a getter puts into the cache. -/
structure Known (v : View) (pc : Pc) (epoch i : Nat) (info : PackInfo) : Prop where
  index : info.index = i
  row : v.num epoch ≤ i → v.info epoch i = info
  served : i < v.num epoch → Served v pc epoch info

/-- What `myProgress` has read so far. -/
def Read (v : View) (pc : Pc) : Progress → Prop
  | .getBlockState g => g = .looking
  | .getBlock blockI g => HasBlocks v blockI ∧ g.Ok fun b => v.blocks blockI = some b
  | .getEpoch blockI atropos g =>
    HasBlocks v blockI ∧ HasAtropos v blockI atropos ∧ g = .looking
  | .getPacksNum blockI atropos epoch =>
      HasBlocks v blockI ∧ HasAtropos v blockI atropos ∧ Began v epoch
  | .getPackInfo blockI atropos epoch packsNum g =>
      HasBlocks v blockI ∧ HasAtropos v blockI atropos ∧ Began v epoch ∧
      1 ≤ packsNum ∧ packsNum ≤ v.num epoch ∧ g.Ok (Known v pc epoch (packsNum - 1))

/-- `p` comes after `q`. -/
structure After (q p : PeerProgress) : Prop where
  blocks : q.numOfBlocks ≤ p.numOfBlocks
  epoch : q.epoch ≤ p.epoch
  packs : q.epoch = p.epoch → q.lastPackInfo.index ≤ p.lastPackInfo.index

/-- What `myProgress` has read so far comes after `q`. -/
def ReadAfter (q : PeerProgress) : Progress → Prop
  | .getBlockState _ => True
  | .getBlock blockI _ => q.numOfBlocks ≤ blockI
  | .getEpoch blockI _ _ => q.numOfBlocks ≤ blockI
  | .getPacksNum blockI _ epoch => q.numOfBlocks ≤ blockI ∧ q.epoch ≤ epoch
  | .getPackInfo blockI _ epoch packsNum _ => q.numOfBlocks ≤ blockI ∧ q.epoch ≤ epoch ∧
      (q.epoch = epoch → q.lastPackInfo.index < packsNum)

def ThreadOk (v : View) (pc : Pc) : Thread → Prop
  | .greeting reads => Read v pc reads
  | .greeted p => Truthful v pc p
  | .broadcasting sent reads =>
    (∀ q ∈ sent, Truthful v pc q) ∧ sent.Pairwise After ∧ Read v pc reads ∧
      ∀ q ∈ sent, ReadAfter q reads
  | .broadcast sent prevProgress => (∀ q ∈ sent ++ [prevProgress], Truthful v pc q) ∧
      (sent ++ [prevProgress]).Pairwise After
  | .asked _ indexes => checkLenLimits indexes.length = none
  | .answering epoch packsNum indexes _ infos => packsNum ≤ v.num epoch ∧
      infos.length + indexes.length ≤ hardLimitItems ∧
        ∀ info ∈ infos, Served v pc epoch info
  | .answered epoch packsNum infos => packsNum ≤ v.num epoch ∧ 1 ≤ infos.length ∧
      infos.length ≤ hardLimitItems ∧ ∀ info ∈ infos, Served v pc epoch info
  | .unanswered => True
  | .crashed => False

section Growing

variable {v v' : View} {pc pc' : Pc}

theorem HasBlocks.grows {blockI : Nat} (h : HasBlocks v blockI) (hg : Grows v v') :
    HasBlocks v' blockI := by
  obtain ⟨bs, hbs, hle⟩ := h
  obtain ⟨bs', hbs', hle', -⟩ := hg.blocks bs hbs
  exact ⟨bs', hbs', hle.trans hle'⟩

theorem HasAtropos.grows {blockI : Nat} {atropos : EventID} (h : HasAtropos v blockI atropos)
    (hblocks : HasBlocks v blockI) (hg : Grows v v') : HasAtropos v' blockI atropos := by
  obtain ⟨bs, hbs, hle⟩ := hblocks
  obtain ⟨b, hb, hatropos⟩ := h
  obtain ⟨-, -, -, hsame⟩ := hg.blocks bs hbs
  exact ⟨b, (hsame blockI hle).trans hb, hatropos⟩

theorem Began.grows {epoch : Nat} (h : Began v epoch) (hg : Grows v v') : Began v' epoch := by
  obtain ⟨es, hes, hle⟩ := h
  obtain ⟨es', hes', hle'⟩ := hg.epoch es hes
  exact ⟨es', hes', hle.trans hle'⟩

theorem served_writes (h : Sound v pc) (hw : Writes v pc v' pc') {epoch : Nat} {info : PackInfo}
    (hs : Served v pc epoch info) : Served v' pc' epoch info := by
  have hp := writes_pinned h hw hs.pinned
  refine ⟨hp.pinned, ?_⟩
  by_cases hwindow : window pc = some (epoch, info.index)
  · -- the info is that without the heads, and the next statement replaces it
    obtain ⟨e, oldEpoch, packInfo, rfl, rfl⟩ := window_eq hwindow
    have hrow := hs.row.resolve_right fun hstale => hstale.2.2 hwindow
    obtain ⟨rfl, -, -, -, hheads, hnum⟩ := h.holds
    cases hw with
    | record =>
      have hnew : (v.setPackInfo e.epoch.toNat info.index packInfo).info e.epoch.toNat info.index =
          packInfo := by
        rw [View.info, packInfos_setPackInfo]
        rfl
      rw [hrow] at hheads hnum
      exact .inr ⟨hheads, by rw [hnew, hnum], by simp [window]⟩
  · obtain ⟨hsame, hout⟩ := hp.info hwindow
    have hinfo : v'.info epoch info.index = v.info epoch info.index := by
      rw [View.info, View.info, hsame]
    rw [hinfo]
    exact hs.row.imp_right fun hstale => ⟨hstale.1, hstale.2.1, hout⟩

theorem truthful_writes (h : Sound v pc) (hw : Writes v pc v' pc') {p : PeerProgress}
    (hp : Truthful v pc p) : Truthful v' pc' p := by
  have hg := writes_grows h hw
  exact ⟨hp.blocks.grows hg, hp.block.grows hp.blocks hg, hp.epoch.grows hg,
    served_writes h hw hp.pack⟩

theorem served_read (h : Sound v pc) {epoch i : Nat} (hi : i < v.num epoch) :
    Served v pc epoch (v.info epoch i) := by
  have hindex := h.info_index epoch i
  exact ⟨by rwa [hindex], .inl (by rw [hindex])⟩

theorem known_read (h : Sound v pc) (epoch i : Nat) : Known v pc epoch i (v.info epoch i) :=
  ⟨h.info_index epoch i, fun _ => rfl, served_read h⟩

theorem known_row (h : Sound v pc) {epoch i : Nat} {info : PackInfo}
    (hrow : v.packInfos (epoch, i) = some info) : Known v pc epoch i info := by
  have hinfo : v.info epoch i = info := by rw [View.info, hrow, Option.getD_some]
  rw [← hinfo]
  exact known_read h epoch i

/-- The info that a getter has read of a pinned pack. -/
theorem fetched_writes (h : Sound v pc) (hw : Writes v pc v' pc') {epoch i : Nat} {info : PackInfo}
    (hi : i < v.num epoch) (hk : Known v pc epoch i info) : Known v' pc' epoch i info := by
  have hserved := served_writes h hw (hk.served hi)
  have hpinned := hserved.pinned
  rw [hk.index] at hpinned
  exact ⟨hk.index, fun hle => absurd hpinned (Nat.not_lt.mpr hle), fun _ => hserved⟩

/-- A cached info whose row is not written to; the one of the pack that is pinned by the step
was the row before. -/
theorem known_writes (h : Sound v pc) (hw : Writes v pc v' pc') {epoch i : Nat} {info : PackInfo}
    (hk : Known v pc epoch i info) (hsame : v'.packInfos (epoch, i) = v.packInfos (epoch, i)) :
    Known v' pc' epoch i info := by
  rcases Nat.lt_or_ge i (v.num epoch) with hlt | hge
  · exact fetched_writes h hw hlt hk
  · have hinfo : v'.info epoch i = info := by
      rw [← hk.row hge, View.info, View.info, hsame]
    rw [← hinfo]
    exact known_read (writes_sound h hw) epoch i

theorem read_writes (h : Sound v pc) (hw : Writes v pc v' pc') {reads : Progress}
    (hread : Read v pc reads) : Read v' pc' reads := by
  have hg := writes_grows h hw
  cases reads with
  | getBlockState => exact hread
  | getBlock =>
    obtain ⟨hblocks, hok⟩ := hread
    obtain ⟨bs, hbs, hle⟩ := hblocks
    obtain ⟨-, -, -, hsame⟩ := hg.blocks bs hbs
    exact ⟨HasBlocks.grows ⟨bs, hbs, hle⟩ hg, hok.mono fun b hb => (hsame _ hle).trans hb⟩
  | getEpoch =>
    obtain ⟨hblocks, hatropos, hlooking⟩ := hread
    exact ⟨hblocks.grows hg, hatropos.grows hblocks hg, hlooking⟩
  | getPacksNum =>
    obtain ⟨hblocks, hatropos, hbegan⟩ := hread
    exact ⟨hblocks.grows hg, hatropos.grows hblocks hg, hbegan.grows hg⟩
  | getPackInfo blockI atropos epoch packsNum =>
    obtain ⟨hblocks, hatropos, hbegan, hone, hle, hok⟩ := hread
    have hlt : packsNum - 1 < v.num epoch := by omega
    exact ⟨hblocks.grows hg, hatropos.grows hblocks hg, hbegan.grows hg, hone,
      hle.trans (hg.num _),
      hok.mono fun info => fetched_writes h hw hlt⟩

theorem threadOk_writes (h : Sound v pc) (hw : Writes v pc v' pc') {t : Thread}
    (hok : ThreadOk v pc t) : ThreadOk v' pc' t := by
  have hg := writes_grows h hw
  cases t with
  | greeting => exact read_writes h hw hok
  | greeted => exact truthful_writes h hw hok
  | broadcasting =>
    obtain ⟨htruthful, hpairwise, hread, hafter⟩ := hok
    exact ⟨fun q hq => truthful_writes h hw (htruthful q hq), hpairwise,
      read_writes h hw hread, hafter⟩
  | broadcast => exact ⟨fun q hq => truthful_writes h hw (hok.1 q hq), hok.2⟩
  | asked => exact hok
  | answering =>
    obtain ⟨hle, hmany, hserved⟩ := hok
    exact ⟨hle.trans (hg.num _), hmany, fun info hinfo =>
      served_writes h hw (hserved info hinfo)⟩
  | answered =>
    obtain ⟨hle, hone, hmany, hserved⟩ := hok
    exact ⟨hle.trans (hg.num _), hone, hmany, fun info hinfo =>
      served_writes h hw (hserved info hinfo)⟩
  | unanswered => trivial
  | crashed => exact hok

end Growing

/-! ## The caches -/

/-- What is cached in a process that has written the genesis. -/
structure Current (s : Store) (pc : Pc) : Prop where
  blockState : s.cache.blockState = s.data.blockState
  epochState : s.cache.epochState = s.data.epochState
  blocks : Agrees (fun i b => s.data.blocks i = some b) s.cache.blocks
  packInfos : Agrees (fun k info => Known (view s.data) pc k.1 k.2 info) s.cache.packInfos

section Caches

variable {s s' : Store} {pc pc' : Pc}

theorem Current.fresh (h : Current s pc) : Fresh s :=
  ⟨h.blockState, h.epochState, fun _ _ hinfo => (h.packInfos _ _ hinfo).row (Nat.le_refl _)⟩

/-- The infos are the rows, or were cached and remain known. -/
theorem Current.kept (h : Current s pc) (hk : Kept s s') (hs : Sound (view s'.data) pc')
    (hinfos : ∀ epoch i info, Known (view s.data) pc epoch i info →
      s'.data.packInfos (epoch, i) = s.data.packInfos (epoch, i) →
      Known (view s'.data) pc' epoch i info) : Current s' pc' := by
  refine ⟨hk.blockState h.blockState, hk.epochState h.epochState, fun i b hb => ?_,
    fun k info hinfo => ?_⟩
  · rcases hk.blocks i b hb with hrow | ⟨hb, hsame⟩
    · exact hrow
    · exact hsame.trans (h.blocks i b hb)
  · rcases hk.packInfos k info hinfo with hrow | ⟨hinfo, hsame⟩
    · exact known_row hs hrow
    · exact hinfos k.1 k.2 info (h.packInfos k info hinfo) hsame

/-- What `GetPackInfoOrDefault` returns, from the cache or not. -/
theorem Current.getPackInfoOrDefault (h : Current s pc) (hs : Sound (view s.data) pc)
    (epoch i : Nat) :
    Known (view s.data) pc epoch i (s.getPackInfoOrDefault epoch i).1 := by
  unfold Store.getPackInfoOrDefault Store.getPackInfo
  cases hget : s.cache.packInfos.get (epoch, i) with
  | some info => exact h.packInfos (epoch, i) info hget
  | none =>
    have hknown := known_read hs epoch i
    rw [View.info, show (view s.data).packInfos = s.data.packInfos from rfl] at hknown
    cases hrow : s.data.packInfos (epoch, i) with
    | none =>
      rw [hrow] at hknown
      exact hknown
    | some info =>
      rw [hrow] at hknown
      exact hknown

/-! ## Accesses -/

theorem read_data (s : Store) (reads : Progress) : (reads.read s).1.data = s.data := by
  cases reads with
  | getBlockState g | getBlock _ g | getEpoch _ _ g | getPackInfo _ _ _ _ g => cases g <;> rfl
  | getPacksNum => rfl

/-- What an access of `myProgress` leads to; it comes after what was sent before. -/
inductive Sees (v : View) (pc : Pc) (reads : Progress) : Option (Progress ⊕ PeerProgress) → Prop
  | next {reads' : Progress} (h : Read v pc reads')
      (hafter : ∀ q, Truthful v pc q → ReadAfter q reads → ReadAfter q reads') :
      Sees v pc reads (some (.inl reads'))
  | done {p : PeerProgress} (h : Truthful v pc p)
      (hafter : ∀ q, Truthful v pc q → ReadAfter q reads → After q p) :
      Sees v pc reads (some (.inr p))

theorem getBlock_sees (hc : Current s pc) (hs : Sound (view s.data) pc) {blockI : Nat}
    {g : Getter Block} (hread : Read (view s.data) pc (.getBlock blockI g)) :
    Current ((Progress.getBlock blockI g).read s).1 pc ∧
      Sees (view s.data) pc (.getBlock blockI g) ((Progress.getBlock blockI g).read s).2 := by
  obtain ⟨hblocks, hok⟩ := hread
  constructor
  · refine Getter.fill_keeps (I := fun s' => Current s' pc) hc hok fun b hb =>
      ⟨hc.blockState, hc.epochState, ?_, hc.packInfos⟩
    exact hc.blocks.add hb fun _ _ _ h => h
  · have hrow : ∀ b, s.data.blocks blockI = some b → (view s.data).blocks blockI = some b :=
      fun _ h => h
    simp only [Progress.read]
    rcases Getter.step_ok hok (hc.blocks blockI) hrow with
      ⟨g', hstep, hok'⟩ | ⟨b, hstep, hb⟩ | ⟨-, hnone⟩
    · rw [hstep]
      exact .next ⟨hblocks, hok'⟩ fun _ _ h => h
    · rw [hstep]
      exact .next ⟨hblocks, ⟨b, hb, rfl⟩, rfl⟩ fun _ _ h => h
    · obtain ⟨bs, hbs, hstored⟩ := hs.blocks
      obtain ⟨bs', hbs', hle⟩ := hblocks
      rw [hbs] at hbs'
      cases hbs'
      exact absurd hnone (hstored _ hle)

theorem getPackInfo_sees (hc : Current s pc) (hs : Sound (view s.data) pc) {blockI : Nat}
    {atropos : EventID} {epoch packsNum : Nat} {g : Getter PackInfo}
    (hread : Read (view s.data) pc (.getPackInfo blockI atropos epoch packsNum g)) :
    Current ((Progress.getPackInfo blockI atropos epoch packsNum g).read s).1 pc ∧
      Sees (view s.data) pc (.getPackInfo blockI atropos epoch packsNum g)
        ((Progress.getPackInfo blockI atropos epoch packsNum g).read s).2 := by
  obtain ⟨hblocks, hatropos, hbegan, hone, hle, hok⟩ := hread
  have hlt : packsNum - 1 < (view s.data).num epoch := by omega
  -- the result is an info that is known of the last pinned pack
  have hdone : ∀ info, Known (view s.data) pc epoch (packsNum - 1) info →
      Sees (view s.data) pc (.getPackInfo blockI atropos epoch packsNum g)
        (some (.inr ⟨epoch, blockI, atropos, info⟩)) := by
    intro info hinfo
    refine .done ⟨hblocks, hatropos, hbegan, hinfo.served hlt⟩ fun q _ hafter => ?_
    obtain ⟨hnum, hepoch, hpacks⟩ := hafter
    refine ⟨hnum, hepoch, fun heq => ?_⟩
    have hless := hpacks heq
    show q.lastPackInfo.index ≤ info.index
    rw [hinfo.index]
    omega
  constructor
  · refine Getter.fill_keeps (I := fun s' => Current s' pc) hc hok fun info hinfo =>
      ⟨hc.blockState, hc.epochState, hc.blocks, ?_⟩
    exact hc.packInfos.add hinfo fun _ _ _ h => h
  · have hrow : ∀ info, s.data.packInfos (epoch, packsNum - 1) = some info →
        Known (view s.data) pc epoch (packsNum - 1) info := fun _ h => known_row hs h
    simp only [Progress.read]
    rcases Getter.step_ok hok (hc.packInfos (epoch, packsNum - 1)) hrow with
      ⟨g', hstep, hok'⟩ | ⟨info, hstep, hinfo⟩ | ⟨hstep, hnone⟩
    · rw [hstep]
      exact .next ⟨hblocks, hatropos, hbegan, hone, hle, hok'⟩ fun _ _ h => h
    · rw [hstep]
      exact hdone info hinfo
    · rw [hstep]
      have hknown := known_read hs epoch (packsNum - 1)
      rw [View.info, show (view s.data).packInfos (epoch, packsNum - 1) = none from hnone] at hknown
      exact hdone _ hknown

/-- An access of `myProgress` succeeds, and leaves the caches as they should be. -/
theorem read_sees (hc : Current s pc) (hs : Sound (view s.data) pc) {reads : Progress}
    (hread : Read (view s.data) pc reads) :
    Current (reads.read s).1 pc ∧ Sees (view s.data) pc reads (reads.read s).2 := by
  cases reads with
  | getBlockState g =>
    obtain rfl : g = .looking := hread
    obtain ⟨bs, hbs, -⟩ := hs.blocks
    have hcached : s.cache.blockState = some bs := hc.blockState.trans hbs
    refine ⟨hc, ?_⟩
    simp only [Progress.read, Getter.step, hcached]
    refine .next ⟨⟨bs, hbs, Nat.le_refl _⟩, trivial⟩ fun q hq _ => ?_
    obtain ⟨bs', hbs', hle⟩ := hq.blocks
    rw [hbs] at hbs'
    cases hbs'
    exact hle
  | getBlock => exact getBlock_sees hc hs hread
  | getEpoch blockI atropos g =>
    obtain ⟨hblocks, hatropos, rfl⟩ := hread
    obtain ⟨es, hes⟩ := hs.epoch
    have hcached : s.cache.epochState = some es := hc.epochState.trans hes
    refine ⟨hc, ?_⟩
    simp only [Progress.read, Getter.step, hcached]
    refine .next ⟨hblocks, hatropos, es, hes, Nat.le_refl _⟩ fun q hq hafter => ⟨hafter, ?_⟩
    obtain ⟨es', hes', hle⟩ := hq.epoch
    rw [hes] at hes'
    cases hes'
    exact hle
  | getPacksNum blockI atropos epoch =>
    obtain ⟨hblocks, hatropos, hbegan⟩ := hread
    refine ⟨hc, .next ⟨hblocks, hatropos, hbegan, hs.one _, Nat.le_refl _, trivial⟩ ?_⟩
    exact fun q hq hafter => ⟨hafter.1, hafter.2, fun heq => heq ▸ hq.pack.pinned⟩
  | getPackInfo => exact getPackInfo_sees hc hs hread

end Caches

section Threads

variable {v : View} {pc : Pc}

theorem greet_ok {reads : Progress} {r : Option (Progress ⊕ PeerProgress)}
    (hs : Sees v pc reads r) : ThreadOk v pc (greetWith r) := by
  cases hs with
  | next h => exact h
  | done h => exact h

theorem prepare_ok {sent : List PeerProgress} {reads : Progress}
    {r : Option (Progress ⊕ PeerProgress)} (hok : ThreadOk v pc (.broadcasting sent reads))
    (hs : Sees v pc reads r) : ThreadOk v pc (prepareWith sent r) := by
  obtain ⟨htruthful, hpairwise, -, hafter⟩ := hok
  cases hs with
  | next h hnext =>
    exact ⟨htruthful, hpairwise, h, fun q hq => hnext q (htruthful q hq) (hafter q hq)⟩
  | done h hdone =>
    refine ⟨forall_mem_snoc htruthful h, List.pairwise_append.mpr
      ⟨hpairwise, List.pairwise_singleton _ _, ?_⟩⟩
    intro q hq p' hp'
    rw [List.mem_singleton.mp hp']
    exact hdone q (htruthful q hq) (hafter q hq)

theorem answer_ok (h : Sound v pc) (codec : PackInfoCodec) {epoch packsNum size : Nat}
    {indexes : List Nat} {infos : List PackInfo}
    (hok : ThreadOk v pc (.answering epoch packsNum indexes size infos)) :
    ThreadOk v pc (answer codec v.packInfos epoch packsNum size infos indexes) := by
  obtain ⟨hle, hmany, hserved⟩ := hok
  cases indexes with
  | nil =>
    simp only [answer]
    split
    · next hne => exact ⟨hle, Nat.pos_of_ne_zero hne, by simpa using hmany, hserved⟩
    · trivial
  | cons index rest =>
    simp only [answer]
    rw [List.length_cons] at hmany
    split
    · exact ⟨hle, by omega, hserved⟩
    · next hlt =>
      cases hrow : v.packInfos (epoch, index) with
      | none =>
        dsimp only
        split
        · exact ⟨hle, by rw [List.length_nil]; omega, hserved⟩
        · exact ⟨hle, by omega, hserved⟩
      | some info =>
        have hinfo : v.info epoch index = info := by
          rw [View.info, hrow]
          rfl
        have hnew : Served v pc epoch info := hinfo ▸ served_read h (by omega)
        have hserved' := forall_mem_snoc hserved hnew
        have hlength : (infos ++ [info]).length + rest.length ≤ hardLimitItems := by
          rw [List.length_append, List.length_singleton]
          omega
        dsimp only
        split
        · exact ⟨hle, (Nat.le_add_right _ _).trans hlength, hserved'⟩
        · exact ⟨hle, hlength, hserved'⟩

theorem turns_ok (h : Sound v pc) {codec : PackInfoCodec} {l l' : List Thread}
    (hok : ∀ t ∈ l, ThreadOk v pc t) (ht : Turns codec v l l') : ∀ t ∈ l',
      ThreadOk v pc t := by
  have hat : ∀ {i : Nat} {t : Thread}, l[i]? = some t → ThreadOk v pc t :=
    fun hi => hok _ (List.mem_of_getElem? hi)
  cases ht with
  | same => exact hok
  | greet => exact forall_mem_snoc hok rfl
  | prepare =>
    exact forall_mem_snoc hok ⟨fun q hq => (by cases hq), List.Pairwise.nil, rfl,
      fun q hq => by cases hq⟩
  | ask hlen => exact forall_mem_snoc hok hlen
  | announce hi =>
    obtain ⟨htruthful, hpairwise⟩ := hat hi
    exact forall_mem_set hok ⟨htruthful, hpairwise, rfl, fun _ _ => trivial⟩
  | noPacks => exact forall_mem_set hok trivial
  | packs hi hnum =>
    refine forall_mem_set hok ⟨?_, ?_, fun info hinfo => by cases hinfo⟩
    · rw [View.num, hnum]
      exact Nat.le_refl _
    · rw [List.length_nil, Nat.zero_add]
      exact (checkLenLimits_eq_none.mp (hat hi)).2
  | answering hi => exact forall_mem_set hok (answer_ok h codec (hat hi))

end Threads

/-! ## Runs -/

section Runs

variable {w : World} {cfg : CacheConfig} {em : Emitter} {codec : PackInfoCodec}
  {n : Node} {c c' : Conf}
  {action : Action} {l : List Action}

structure SoundConf (c : Conf) : Prop where
  current : Current c.node.store c.pc
  sound : Sound (view c.node.store.data) c.pc
  threads : ∀ t ∈ c.threads, ThreadOk (view c.node.store.data) c.pc t
  emitter : c.node.emitter ≠ none

/-- An access of `myProgress` by one of the threads. -/
theorem SoundConf.read (h : SoundConf c) {i : Nat} {reads : Progress} {t' : Thread}
    (hread : Read (view c.node.store.data) c.pc reads)
    (hok : Sees (view c.node.store.data) c.pc reads (reads.read c.node.store).2 →
      ThreadOk (view c.node.store.data) c.pc t')
    (hpc : c'.pc = c.pc) (hstore : c'.node.store = (reads.read c.node.store).1)
    (hthreads : c'.threads = c.threads.set i t') (hem : c'.node.emitter = c.node.emitter) :
    SoundConf c' := by
  obtain ⟨hcurrent, hsees⟩ := read_sees h.current h.sound hread
  have hdata : c'.node.store.data = c.node.store.data := by rw [hstore, read_data]
  refine ⟨?_, ?_, ?_, hem ▸ h.emitter⟩
  · rw [hstore, hpc]
    exact hcurrent
  · rw [hdata, hpc]
    exact h.sound
  · rw [hdata, hpc, hthreads]
    exact forall_mem_set h.threads (hok hsees)

theorem step_sound (h : SoundConf c) (hstep : c.step w codec action = some c') : SoundConf c' := by
  obtain ⟨hmoves, hem⟩ := step_moves h.current.fresh hstep
  cases hmoves with
  | write hw hkept hthreads =>
    have hsound := writes_sound h.sound hw
    refine ⟨h.current.kept hkept hsound fun _ _ _ => known_writes h.sound hw, hsound,
      ?_, hem ▸ h.emitter⟩
    rw [hthreads]
    exact fun t ht => threadOk_writes h.sound hw (h.threads t ht)
  | turn hview hpc hkept hturns =>
    have hsound : Sound (view c'.node.store.data) c'.pc := by
      rw [hview, hpc]
      exact h.sound
    refine ⟨h.current.kept hkept hsound fun _ _ _ hknown _ => ?_, hsound, ?_, hem ▸ h.emitter⟩
    · rw [hview, hpc]
      exact hknown
    · rw [hview, hpc]
      exact turns_ok h.sound h.threads hturns
  | greeting hi hpc hstore hthreads =>
    exact h.read (h.threads _ (List.mem_of_getElem? hi)) greet_ok hpc hstore hthreads hem
  | broadcasting hi hpc hstore hthreads =>
    have hok := h.threads _ (List.mem_of_getElem? hi)
    exact h.read hok.2.2.1 (prepare_ok hok) hpc hstore hthreads hem

/-- A step writes under `engineMu`, or what the readers look at stays. -/
theorem step_view (h : SoundConf c) (hstep : c.step w codec action = some c') :
    Writes (view c.node.store.data) c.pc (view c'.node.store.data) c'.pc ∨
      view c'.node.store.data = view c.node.store.data ∧ c'.pc = c.pc := by
  cases (step_moves h.current.fresh hstep).1 with
  | write hw => exact .inl hw
  | turn hview hpc => exact .inr ⟨hview, hpc⟩
  | greeting hi hpc hstore | broadcasting hi hpc hstore =>
    exact .inr ⟨by rw [hstore, read_data], hpc⟩

theorem init_sound (hstart : start w cfg em = .ok n) : SoundConf (.init n) := by
  obtain ⟨n', b, hn, hdata, hc, -, -, -, hem⟩ := start_spec w cfg em
  rw [hstart] at hn
  cases hn
  obtain ⟨hbs, hes⟩ := start_cached hstart
  refine ⟨⟨hbs, hes, hc.blocks, fun k info hinfo => ?_⟩, ?_, List.forall_mem_nil _,
    by simp [Conf.init, hem]⟩
  · have hrow := hc.packInfos k info hinfo
    rw [hdata] at hrow
    cases hrow
  · show Sound (view n.store.data) .idle
    rw [hdata]
    refine ⟨⟨⟨0, 0⟩, rfl, fun i hi => ?_⟩, ⟨_, rfl⟩, fun _ => Nat.le_refl _,
      fun _ _ _ hrow => ?_, fun _ _ hrow => ?_, trivial⟩
    · obtain rfl : i = 0 := Nat.le_zero.mp hi
      simp [view]
    · cases hrow
    · cases hrow

/-- Whatever the other threads do between two accesses. -/
theorem run_sound (hstart : start w cfg em = .ok n)
    (h : run (Conf.step w codec) (.init n) l = some c) : SoundConf c :=
  run_keeps (fun _ _ _ => step_sound) (init_sound hstart) h

end Runs

end MiniOpera.Readers
