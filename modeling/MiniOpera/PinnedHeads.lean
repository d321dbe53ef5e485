import MiniOpera.Heads
import MiniOpera.Packs

/-!
# Pinned heads

The heads of a pack are pinned while the event that fills it, or seals its
epoch, is not among them yet: `processEvent` moves the heads after the packs.
`pinned_heads_miss`: so in every run the heads of every pinned pack miss an
event of the packs up to it, namely the one they were pinned for.
-/

namespace MiniOpera.PinnedHeads
open GoRuntime InterEvent GossipStore ByteOrder Consensus Service Genesis Ledger
  Refinement Runs Chunking
  Dag Heads Packs

/-- Every pinned pack of the epoch was pinned for an event `p` of the packs up
to it, with heads that were all connected before `p`. -/
def PinnedBefore (c : Ledger.Packs) (log : List Event) : Prop :=
  ∀ i info, i ≤ c.closed.length → rowAt c i = some info →
    ∃ pre p post, log = pre ++ p :: post ∧ (∀ x ∈ info.heads, Known eventDag pre x) ∧
      ∃ k, 1 ≤ k ∧ k ≤ i ∧ p ∈ packAt c k

section Steps

variable {c : Ledger.Packs} {log : List Event} {e : Event} {stamp : List EventID}

theorem PinnedBefore.empty (log : List Event) : PinnedBefore Chunks.empty log := by
  intro i info hi h
  have hi0 : i = 0 := Nat.le_zero.mp hi
  rw [hi0] at h
  cases h

/-- A longer log. -/
theorem PinnedBefore.snoc (h : PinnedBefore c log) (e : Event) : PinnedBefore c (log ++ [e]) := by
  intro i info hi hrow
  obtain ⟨pre, p, post, hlog, hheads, hk⟩ := h i info hi hrow
  exact ⟨pre, p, post ++ [e], by rw [hlog, List.append_assoc, List.cons_append], hheads, hk⟩

/-- Closing the current pack for an event that is in it or in a pack before. -/
theorem PinnedBefore.closed (h : PinnedBefore c (log ++ [e])) {chunk : List Event}
    (hcurrent : c.current <+: chunk) (hstamp : ∀ x ∈ stamp, Known eventDag log x)
    (hin : e ∈ chunk ∨ ∃ k, 1 ≤ k ∧ k ≤ c.closed.length ∧ e ∈ packAt c k) :
    PinnedBefore ⟨c.closed ++ [(chunk, stamp)], []⟩ (log ++ [e]) := by
  -- no pack loses an event
  have hkeep : ∀ k x, x ∈ packAt c k →
      x ∈ packAt ⟨c.closed ++ [(chunk, stamp)], []⟩ k := by
    intro k x hx
    rw [packAt_closed]
    split
    · next hk =>
      rw [hk, packAt_current] at hx
      exact hcurrent.subset hx
    · exact hx
  intro i info hi hrow
  rw [rowAt_closed] at hrow
  split at hrow
  · next hlast =>
    cases hrow
    refine ⟨log, e, [], rfl, hstamp, ?_⟩
    rcases hin with he | ⟨k, h1, h2, he⟩
    · exact ⟨i, by omega, Nat.le_refl i, by rw [packAt_closed, if_pos hlast]; exact he⟩
    · exact ⟨k, h1, by omega, hkeep k e he⟩
  · next hlast =>
    rw [List.length_append, List.length_singleton] at hi
    obtain ⟨pre, p, post, hlog, hheads, k, h1, h2, hp⟩ := h i info (by omega) hrow
    exact ⟨pre, p, post, hlog, hheads, k, h1, h2, hkeep k p hp⟩

/-- An event goes to the current pack and fills it, or it does not. -/
theorem PinnedBefore.add (h : PinnedBefore c log) (hstamp : ∀ x ∈ stamp, Known eventDag log x) :
    PinnedBefore (c.add packFull e stamp) (log ++ [e]) := by
  unfold Chunks.add
  split
  · exact (h.snoc e).closed (List.prefix_append _ _) hstamp (.inl (by simp))
  · intro i info hi hrow
    have hne : i ≠ c.closed.length + 1 := by
      have : i ≤ c.closed.length := hi
      omega
    rw [rowAt_filled c (by simp), if_neg hne] at hrow
    obtain ⟨pre, p, post, hlog, hheads, k, h1, h2, hp⟩ := h.snoc e i info hi hrow
    refine ⟨pre, p, post, hlog, hheads, k, h1, h2, ?_⟩
    have : i ≤ c.closed.length := hi
    rw [packAt_filled, if_neg (by omega)]
    exact hp

/-- The event is in the current pack, or in the one it closed. -/
theorem mem_add (c : Ledger.Packs) (e : Event) (stamp : List EventID) :
    e ∈ (c.add packFull e stamp).current ∨
      ∃ k, 1 ≤ k ∧ k ≤ (c.add packFull e stamp).closed.length ∧
        e ∈ packAt (c.add packFull e stamp) k := by
  unfold Chunks.add
  split
  · refine .inr ⟨c.closed.length + 1, by omega, by simp, ?_⟩
    rw [packAt_closed, if_pos rfl]
    simp
  · exact .inl (by simp)

end Steps

/-- Pinned packs in every epoch of the ledger. -/
def AllPinnedBefore (l : State) : Prop := ∀ epoch, PinnedBefore (l.packs epoch) l.log

theorem allPinnedBefore_connect {l : State} (h : AllPinnedBefore l)
    (hheads : ∀ x ∈ l.heads, Known eventDag l.log x) (e : Event) (newEpoch : Nat) :
    AllPinnedBefore (connect l e newEpoch) := by
  have hstamp : ∀ x ∈ l.heads.toList, Known eventDag l.log x :=
    fun x hx => hheads x (Std.ExtTreeSet.mem_toList.mp hx)
  intro epoch
  rw [connect_log]
  by_cases hep : epoch = l.epoch
  · subst hep
    have hadd := (h l.epoch).add (e := e) hstamp
    rw [connect_packs_self]
    split
    · exact hadd
    · exact hadd.closed (List.prefix_refl _) hstamp (mem_add _ e l.heads.toList)
  · rw [connect_packs_of_ne l e newEpoch hep]
    exact (h epoch).snoc e

/-- **Pinned heads never cover their packs.** For every pinned pack there is a
connected event in the packs up to it that is neither one of the pinned heads
nor an ancestor of one. -/
theorem pinned_heads_miss (w : World) (cfg : CacheConfig) (em : Emitter) (s : Sys)
    (h : Reachable w cfg em ParentsFirst s) (epoch i num : Nat) (hi : 1 ≤ i)
    (hnum : s.node.store.getPacksNum epoch = some num) (hlt : i < num) :
    ∃ info, (s.node.store.getPackInfo epoch i).1 = some info ∧
      ∃ e ∈ s.connected, ∃ k, 1 ≤ k ∧ k ≤ i ∧
        e.id ∈ s.node.store.getPack epoch k ∧
        ∀ x ∈ info.heads, e.id ≠ x ∧ ¬ Ancestor eventDag s.connected e.id x := by
  obtain ⟨l, href, hlog, hexact, hpinned⟩ := reachable_ledger
    (I := fun l => Exact l ∧ AllPinnedBefore l) ⟨exact_initial, fun _ => .empty _⟩
    (fun _ l e newEpoch href _ hI hadm hnew hep hle =>
      ⟨hI.1.connect href.sound (fun p hp => known_of_hasEvent href (hadm p hp)) hnew hep hle,
        allPinnedBefore_connect hI.2 (fun x hx => by
          obtain ⟨⟨y, hy, hid⟩, -⟩ := (hI.1.heads x).mp hx
          exact ⟨y, (List.mem_filter.mp hy).1, hid⟩) e newEpoch⟩) h
  have hclosed : i ≤ (l.packs epoch).closed.length := by
    have := packsNum_eq href epoch
    rw [Store.getPacksNumOrDefault, hnum, Option.getD_some] at this
    omega
  obtain ⟨j, rfl⟩ : ∃ j, i = j + 1 := ⟨i - 1, by omega⟩
  have hrow : rowAt (l.packs epoch) (j + 1) = some (infoOf (j + 1)
      ((l.packs epoch).closed[j]).1 ((l.packs epoch).closed[j]).2) := by
    rw [rowAt, List.getElem?_eq_getElem hclosed]
  obtain ⟨pre, p, post, hsplit, hheads, k, h1, h2, hp⟩ := hpinned epoch _ _ hclosed hrow
  have hord := hexact.ordered
  have hmem : p ∈ l.log := by rw [hsplit]; simp
  rw [hsplit] at hord
  obtain ⟨-, hnew, -⟩ := hord.split
  refine ⟨_, (getPackInfo_eq href epoch _).trans hrow, p, hlog ▸ hmem, k, h1, h2,
    (mem_getPack_of_log href hmem).mpr hp, fun x hx => ⟨?_, ?_⟩⟩
  · rintro rfl
    exact hnew (hheads _ hx)
  · intro hanc
    rw [← hlog, hsplit] at hanc
    exact hnew (hord.ancestor_known hanc (hheads x hx))

/-! ## A run -/

/-- Two events of a chain, and the third that seals the epoch. -/
def sealingRun : Option Sys :=
  runFromGenesis (sampleWorld 1) sampleConfig idleEmitter parentsFirst
    [(chainEvent 1, deciding []), (chainEvent 2, deciding []),
      (chainEvent 3, deciding [⟨(chainEvent 1).id, [], [chainEvent 1]⟩])]

/-- What is read of the pack and of the connected events after that run. -/
theorem sealingRun_reads :
    sealingRun.map (fun s => (s.connected, s.node.store.getPacksNum 1,
        (s.node.store.getPackInfo 1 1).1.map (·.heads), s.node.store.getPack 1 1)) =
      some ([chainEvent 1, chainEvent 2, chainEvent 3], some 2, some [(chainEvent 2).id],
        [(chainEvent 1).id, (chainEvent 2).id, (chainEvent 3).id]) := by
  decide +kernel

theorem pinned_heads_miss_sealing :
    ∃ s, Reachable (sampleWorld 1) sampleConfig idleEmitter ParentsFirst s ∧
      s.node.store.getPacksNum 1 = some 2 ∧
      ∃ info, (s.node.store.getPackInfo 1 1).1 = some info ∧
        ∃ e ∈ s.connected, ∃ k, 1 ≤ k ∧ k ≤ 1 ∧ e.id ∈ s.node.store.getPack 1 k ∧
          ∀ x ∈ info.heads, e.id ≠ x ∧ ¬ Ancestor eventDag s.connected e.id x := by
  obtain ⟨s, hs, hreads⟩ := Option.map_eq_some_iff.mp sealingRun_reads
  simp only [Prod.mk.injEq] at hreads
  have hreach := runFromGenesis_reachable parentsFirst_iff hs
  exact ⟨s, hreach, hreads.2.1,
    pinned_heads_miss _ _ _ s hreach 1 1 2 (Nat.le_refl 1) hreads.2.1 (by decide)⟩

/-- The event that seals the epoch is in its last pack, whose only head is its
parent: it is no head and no ancestor of one. -/
theorem sealing_event_not_covered :
    ∃ s, Reachable (sampleWorld 1) sampleConfig idleEmitter ParentsFirst s ∧
      s.node.store.getPacksNum 1 = some 2 ∧
      (s.node.store.getPackInfo 1 1).1.map (·.heads) = some [(chainEvent 2).id] ∧
      (chainEvent 3).id ∈ s.node.store.getPack 1 1 ∧ (chainEvent 3).id ≠ (chainEvent 2).id ∧
      ¬ Ancestor eventDag s.connected (chainEvent 3).id (chainEvent 2).id := by
  obtain ⟨s, hs, hreads⟩ := Option.map_eq_some_iff.mp sealingRun_reads
  simp only [Prod.mk.injEq] at hreads
  obtain ⟨hcon, hnum, hheads, hpack⟩ := hreads
  refine ⟨s, runFromGenesis_reachable parentsFirst_iff hs, hnum, hheads, by rw [hpack]; simp,
    by decide +kernel, ?_⟩
  -- nobody names the third event as a parent
  intro hanc
  rw [hcon] at hanc
  obtain ⟨y, ⟨b, hb, -, hx⟩, -⟩ := Relation.TransGen.head'_iff.mp hanc
  have hnone : ∀ b ∈ [chainEvent 1, chainEvent 2, chainEvent 3],
      (chainEvent 3).id ∉ b.parents := by
    decide +kernel
  exact hnone b hb hx

end MiniOpera.PinnedHeads
