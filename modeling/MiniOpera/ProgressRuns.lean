import MiniOpera.Publication

/-!
# What a node tells others about itself

All runs start in the process that writes the genesis.

`progress_truthful`: in every interleaving with `processEvent`, `myProgress` does not
crash, and what it returns names a stored block, an epoch that has begun and a pinned pack.
All of it stays true, but the info of the pack may lack its last event and its heads.
`progress_monotone`: what `progressBroadcastLoop` sends never goes back.
`answers_refused_iff`: the node that asked for pack infos takes an answer for misbehaviour
exactly when an info has no heads, and an info with heads is the final one.
-/

namespace MiniOpera.ProgressRuns
open GoRuntime InterEvent EventCheck GossipStore Caching Consensus Service Genesis
  PackMessages Threads
  UnlockedReads SharedView Readers AdvertisedPacks Publication
open Runs (deciding sampleConfig idleEmitter)

theorem notifyInfos_cases (epoch : Nat) (infos : List PackInfo) :
    (notifyInfos epoch infos).2 = none ∨ (notifyInfos epoch infos).2 = some .emptyMessage := by
  induction infos with
  | nil => exact .inl rfl
  | cons info infos ih =>
    by_cases hheads : info.heads.length = 0
    · simp [notifyInfos, hheads]
    · simpa [notifyInfos, hheads] using ih

/-! ## Runs -/

section Runs

variable {w : World} {cfg : CacheConfig} {em : Emitter} {codec : PackInfoCodec}
  {n : Node} {c : Conf}
  {l : List Action}

/-- What was made of `myProgress`: sent or to be sent. -/
def progresses : Thread → List PeerProgress
  | .greeted p => [p]
  | .broadcasting sent _ => sent
  | .broadcast sent prevProgress => sent ++ [prevProgress]
  | _ => []

/-- In the process that writes the genesis, and in every interleaving of its accesses to caches
and tables with the statements of `processEvent`, `myProgress` dereferences no nil block and
finds both states. What it returned stays true: the block is stored under its number with
that atropos, the epoch has begun, and the last pack is pinned in it; its info is the stored
one, except that it can lack the last event and the heads. -/
theorem progress_truthful (hstart : start w cfg em = .ok n)
    (h : run (Conf.step w codec) (.init n) l = some c) {t : Thread} (ht : t ∈ c.threads) :
    t ≠ .crashed ∧ ∀ p ∈ progresses t, Truthful (view c.node.store.data) c.pc p := by
  have hok := (run_sound hstart h).threads t ht
  cases t with
  | greeted q =>
    refine ⟨by simp, fun p hp => ?_⟩
    rw [List.mem_singleton.mp hp]
    exact hok
  | broadcasting => exact ⟨by simp, hok.1⟩
  | broadcast => exact ⟨by simp, hok.1⟩
  | crashed => exact absurd hok id
  | greeting | asked | answering | answered | unanswered =>
    exact ⟨by simp, fun p hp => by cases hp⟩

/-- The first event seals the epoch while the progress is read: the index of the old block,
then the new epoch. -/
def readWhileSealing : List Action :=
  [.greet, .enter (chainEvent 1), .block ⟨(chainEvent 1).id, [], [chainEvent 1]⟩,
    .read 0, .read 0,
    .next (deciding []), .read 0, .read 0, .read 0, .next (deciding []), .read 0, .read 0, .read 0]

theorem progress_truthful_readWhileSealing :
    ∃ n c p, start (sampleWorld 1) sampleConfig idleEmitter = .ok n ∧
      run (Conf.step (sampleWorld 1) rlpPackInfo) (.init n) readWhileSealing = some c ∧
      p.epoch = 2 ∧ p.numOfBlocks = 0 ∧ Truthful (view c.node.store.data) c.pc p := by
  have hrun : ((start (sampleWorld 1) sampleConfig idleEmitter).toOption.bind fun n =>
      run (Conf.step (sampleWorld 1) rlpPackInfo) (.init n) readWhileSealing).map
        (fun c => c.threads.map fun t => (progresses t).map fun p => (p.epoch, p.numOfBlocks)) =
      some [[(2, 0)]] := by
    decide +kernel
  obtain ⟨c, hc, hread⟩ := Option.map_eq_some_iff.mp hrun
  obtain ⟨n, hn, hrun⟩ := Option.bind_eq_some_iff.mp hc
  have hstart := toOption_eq_some hn
  obtain ⟨t, ht, hp⟩ := List.mem_map.mp (hread ▸ List.mem_singleton_self [(2, 0)])
  obtain ⟨p, hp, heq⟩ := List.mem_map.mp (hp ▸ List.mem_singleton_self (2, 0))
  exact ⟨n, c, p, hstart, hrun, congrArg Prod.fst heq, congrArg Prod.snd heq,
    (progress_truthful hstart hrun ht).2 p hp⟩

theorem not_less_of_after {q p : PeerProgress} (h : After q p) : p.less q = false := by
  obtain ⟨hblocks, hepoch, hpacks⟩ := h
  unfold PeerProgress.less
  split
  · next hne =>
    simp only [decide_eq_false_iff_not]
    omega
  · next heq =>
    have hpacks := hpacks (by simpa using Eq.symm (not_not.mp heq))
    split <;> simp only [decide_eq_false_iff_not] <;> omega

/-- In the process that writes the genesis, what `progressBroadcastLoop` sends never goes back,
also if events are connected and epochs sealed between the accesses for one progress. -/
theorem progress_monotone (hstart : start w cfg em = .ok n)
    (h : run (Conf.step w codec) (.init n) l = some c) {t : Thread} (ht : t ∈ c.threads) :
    (progresses t).Pairwise fun q p => p.less q = false ∧ q.epoch ≤ p.epoch ∧
      q.numOfBlocks ≤ p.numOfBlocks := by
  have hok := (run_sound hstart h).threads t ht
  have hafter : (progresses t).Pairwise After := by
    cases t with
    | greeted => exact List.pairwise_singleton _ _
    | broadcasting => exact hok.2.1
    | broadcast => exact hok.2
    | greeting | asked | answering | answered | unanswered | crashed => exact List.Pairwise.nil
  exact hafter.imp fun hqp => ⟨not_less_of_after hqp, hqp.epoch, hqp.blocks⟩

/-- The loop reads its second progress while the first event seals the epoch. -/
def sentTwice : List Action :=
  [.broadcast, .read 0, .read 0, .read 0, .read 0, .read 0, .read 0, .read 0, .read 0,
    .enter (chainEvent 1), .block ⟨(chainEvent 1).id, [], [chainEvent 1]⟩, .announce 0, .read 0,
    .next (deciding []), .read 0, .next (deciding []), .read 0, .read 0, .read 0, .read 0, .read 0,
    .read 0, .announce 0]

theorem progress_monotone_sentTwice :
    ∃ n c t, start (sampleWorld 1) sampleConfig idleEmitter = .ok n ∧
      run (Conf.step (sampleWorld 1) rlpPackInfo) (.init n) sentTwice = some c ∧
        t ∈ c.threads ∧
      (progresses t).map (·.epoch) = [1, 2] ∧
      (progresses t).Pairwise fun q p => p.less q = false ∧ q.epoch ≤ p.epoch ∧
        q.numOfBlocks ≤ p.numOfBlocks := by
  have hrun : ((start (sampleWorld 1) sampleConfig idleEmitter).toOption.bind fun n =>
      run (Conf.step (sampleWorld 1) rlpPackInfo) (.init n) sentTwice).map
        (fun c => c.threads.map fun t => (progresses t).map (·.epoch)) = some [[1, 2]] := by
    decide +kernel
  obtain ⟨c, hc, hread⟩ := Option.map_eq_some_iff.mp hrun
  obtain ⟨n, hn, hrun⟩ := Option.bind_eq_some_iff.mp hc
  have hstart := toOption_eq_some hn
  obtain ⟨t, ht, heq⟩ := List.mem_map.mp (hread ▸ List.mem_singleton_self [1, 2])
  exact ⟨n, c, t, hstart, hrun, ht, heq, progress_monotone hstart hrun ht⟩

/-- The message of an answer. -/
def answerMsg (codec : PackInfoCodec) (epoch packsNum : Nat) (infos : List PackInfo) :
    PackInfosDataRLP :=
  ⟨epoch, packsNum, infos.map codec.encode⟩

/-- The answer to a `GetPackInfosMsg`, in any interleaving, is within the limits and about
pinned packs. The node that asked takes it for misbehaviour exactly when an info has no
heads; an info that is not the stored one is such an info, read before `SetPackInfo`. -/
theorem answers_refused_iff (hstart : start w cfg em = .ok n)
    (h : run (Conf.step w codec) (.init n) l = some c) {epoch packsNum : Nat}
    {infos : List PackInfo}
    (ht : Thread.answered epoch packsNum infos ∈ c.threads) :
    packsNum ≤ c.node.store.getPacksNumOrDefault epoch ∧
    (∀ info ∈ infos, Served (view c.node.store.data) c.pc epoch info) ∧
    ((handlePackInfos codec true (answerMsg codec epoch packsNum infos)).2 = some .emptyMessage ↔
      ∃ info ∈ infos, info.heads = []) ∧
    ((handlePackInfos codec true (answerMsg codec epoch packsNum infos)).2 = none ↔
      ∀ info ∈ infos, info.heads ≠ []) := by
  obtain ⟨hle, hone, hmany, hserved⟩ := (run_sound hstart h).threads _ ht
  have hresult : (handlePackInfos codec true (answerMsg codec epoch packsNum infos)).2 =
      (notifyInfos epoch infos).2 := by
    simp only [handlePackInfos, answerMsg, Bool.not_true, mapM_decode,
      checkLenLimits_eq_none.mpr ⟨hone, hmany⟩]
    rfl
  have hnone := notifyInfos_error epoch infos
  refine ⟨hle, hserved, ?_, by rw [hresult]; exact hnone⟩
  rw [hresult]
  constructor
  · intro hsome
    by_contra hall
    simp only [not_exists, not_and] at hall
    rw [hnone.mpr hall] at hsome
    cases hsome
  · rintro ⟨info, hinfo, hheads⟩
    rcases notifyInfos_cases epoch infos with hok | hempty
    · exact absurd hheads (hnone.mp hok info hinfo)
    · exact hempty

/-- Another node asks for the info of the pack that was just counted. -/
noncomputable def askedEarly : List Action := fullPack ++ [.ask 1 [1], .read 0, .read 0, .read 0]

theorem answers_refused_iff_askedEarly :
    ∃ n c, start (sampleWorld 1) sampleConfig idleEmitter = .ok n ∧
      run (Conf.step (sampleWorld 1) rlpPackInfo) (.init n) askedEarly = some c ∧
      (handlePackInfos rlpPackInfo true (answerMsg rlpPackInfo 1 2 [⟨1, 75, 1, []⟩])).2 =
        some .emptyMessage := by
  have hrun : ((start (sampleWorld 1) sampleConfig idleEmitter).toOption.bind fun n =>
      run (Conf.step (sampleWorld 1) rlpPackInfo) (.init n) askedEarly).map (·.threads) =
      some [.answered 1 2 [⟨1, 75, 1, []⟩]] := by
    simp only [askedEarly, fullPack, List.cons_append, List.nil_append, run, Conf.step, admitEvent,
      setEvent_payload, ok_bind]
    decide +kernel
  obtain ⟨c, hc, hthreads⟩ := Option.map_eq_some_iff.mp hrun
  obtain ⟨n, hn, hrun⟩ := Option.bind_eq_some_iff.mp hc
  have hstart := toOption_eq_some hn
  have ht : Thread.answered 1 2 [⟨1, 75, 1, []⟩] ∈ c.threads := by
    rw [hthreads]
    exact List.mem_singleton_self _
  exact ⟨n, c, hstart, hrun,
    (answers_refused_iff hstart hrun ht).2.2.1.mpr ⟨_, List.mem_singleton_self _, rfl⟩⟩

end Runs

end MiniOpera.ProgressRuns
