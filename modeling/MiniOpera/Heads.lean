import MiniOpera.Runs

/-!
# Heads

`heads_exact`: when every event is processed after its parents, the heads are
the connected events of the epoch that nobody names as a parent. So they do not
depend on the order in which the events came, and there are none right after an
epoch was sealed.
-/

namespace MiniOpera.Heads
open GoRuntime InterEvent GossipStore ByteOrder Consensus Service Genesis Ledger Refinement Runs Dag

/-- Events and their parent links. -/
def eventDag : Shape Event EventID := ⟨(·.id), (·.parents)⟩

/-- The event comes after its parents. -/
def ParentsFirst (s : Sys) (e : Event) : Prop := ∀ p ∈ e.parents, s.node.store.hasEvent p = true

/-- The ledger was filled parents first, and its heads are the frontier of the epoch. -/
structure Exact (l : State) : Prop where
  ordered : Ordered eventDag l.log
  heads : ∀ x, x ∈ l.heads ↔ Frontier eventDag (epochLog l.log l.epoch) x

theorem mem_foldl_erase (parents : List EventID) (heads : EventSet) (x : EventID) :
    x ∈ parents.foldl (fun h p => h.erase p) heads ↔ x ∈ heads ∧ x ∉ parents := by
  induction parents generalizing heads with
  | nil => simp
  | cons p parents ih =>
    rw [List.foldl_cons, ih, Std.ExtTreeSet.mem_erase, List.mem_cons, not_or]
    have hcmp : compare p x ≠ .eq ↔ x ≠ p := by
      rw [ne_eq, Std.LawfulEqOrd.compare_eq_iff_eq]
      exact ⟨fun h heq => h heq.symm, fun h heq => h heq.symm⟩
    rw [hcmp]
    constructor
    · rintro ⟨⟨h1, h2⟩, h3⟩
      exact ⟨h2, h1, h3⟩
    · rintro ⟨h2, h1, h3⟩
      exact ⟨⟨h1, h2⟩, h3⟩

theorem mem_linkHeads (heads : EventSet) (e : Event) (x : EventID) :
    x ∈ linkHeads heads e ↔ x = e.id ∨ (x ∈ heads ∧ x ∉ e.parents) := by
  rw [linkHeads, Std.ExtTreeSet.mem_insert, mem_foldl_erase, Std.LawfulEqOrd.compare_eq_iff_eq]
  exact ⟨fun h => h.imp_left Eq.symm, fun h => h.imp_left Eq.symm⟩

theorem exact_initial : Exact initial where
  ordered := .nil
  heads := by
    intro x
    constructor
    · intro h
      exact absurd h Std.ExtTreeSet.not_mem_empty
    · rintro ⟨⟨e, he, -⟩, -⟩
      cases he

theorem Exact.connect {l : State} (h : Exact l) (hs : Sound l) {e : Event} {newEpoch : Nat}
    (hparents : ∀ p ∈ e.parents, Known eventDag l.log p) (hnew : ∀ x ∈ l.log, x.id ≠ e.id)
    (hepoch : e.epoch.toNat = l.epoch) (hle : l.epoch ≤ newEpoch) :
    Exact (connect l e newEpoch) where
  ordered := by
    rw [connect_log]
    refine .snoc h.ordered ?_ hparents
    rintro ⟨x, hx, heq⟩
    exact hnew x hx heq
  heads := by
    intro x
    -- the new ID is nobody's parent: parents are known, and it is not
    have hunknown : ¬ Known eventDag l.log e.id := by
      rintro ⟨y, hy, heq⟩
      exact hnew y hy heq
    rw [connect_log, connect_epoch, epochLog_snoc, hepoch]
    by_cases hsame : newEpoch = l.epoch
    · have hcon : (Ledger.connect l e newEpoch).heads = linkHeads l.heads e := by
        rw [Ledger.connect, if_pos hsame]
      rw [hcon, mem_linkHeads, hsame, if_pos rfl, h.heads]
      refine (frontier_snoc (g := eventDag) ?_ ?_).symm
      · intro y hy hmem
        exact hunknown (h.ordered.parents_known (List.mem_filter.mp hy).1 hmem)
      · exact fun hmem => hunknown (hparents _ hmem)
    · have hcon : (Ledger.connect l e newEpoch).heads = ∅ := by
        rw [Ledger.connect, if_neg hsame]
      have hlt : l.epoch < newEpoch := Nat.lt_of_le_of_ne hle fun hx => hsame hx.symm
      have hnil : epochLog l.log newEpoch = [] := hs.epochLog_later hlt
      rw [hcon, if_neg fun hx => hsame hx.symm, hnil]
      constructor
      · intro hx
        exact absurd hx Std.ExtTreeSet.not_mem_empty
      · rintro ⟨⟨y, hy, -⟩, -⟩
        cases hy

/-- What is in the store is known to the ledger. -/
theorem known_of_hasEvent {w : World} {n : Node} {l : State} (h : Refines w n l) {id : EventID}
    (hid : n.store.hasEvent id = true) : Known eventDag l.log id := by
  rw [Store.hasEvent, Std.ExtTreeMap.contains_eq_isSome_getElem?, Option.isSome_iff_exists] at hid
  obtain ⟨buf, hbuf⟩ := hid
  obtain ⟨e, he, heq⟩ := h.holds.known id buf hbuf
  exact ⟨e, he, heq⟩

section Runs

variable {w : World} {cfg : CacheConfig} {em : Emitter} {s : Sys}

theorem reachable_exact (h : Reachable w cfg em ParentsFirst s) :
    ∃ l, Refines w s.node l ∧ l.log = s.connected ∧ Exact l :=
  reachable_ledger exact_initial
    (fun _ _ _ _ href _ hI hadm hnew hep hle =>
      hI.connect href.sound (fun p hp => known_of_hasEvent href (hadm p hp)) hnew hep hle) h

theorem mem_getHeads {n : Node} {l : State} (h : Refines w n l) (id : EventID) :
    id ∈ n.store.getHeads ↔ id ∈ l.heads := by
  rw [Store.getHeads, h.holds.heads_eq, Std.ExtTreeSet.mem_toList]

theorem getHeads_eq {n n' : Node} {w' : World} {l l' : State} (h : Refines w n l)
    (h' : Refines w' n' l') (hsame : ∀ id, id ∈ l.heads ↔ id ∈ l'.heads) :
    n.store.getHeads = n'.store.getHeads := by
  rw [Store.getHeads, Store.getHeads, h.holds.heads_eq, h'.holds.heads_eq,
    Std.ExtTreeSet.ext_mem hsame]

/-- The frontier in the words of the events. -/
theorem frontier_epochLog (log : List Event) (epoch : Nat) (id : EventID) :
    Frontier eventDag (epochLog log epoch) id ↔
      ∃ e ∈ log, e.epoch.toNat = epoch ∧ e.id = id ∧
        ∀ x ∈ log, x.epoch.toNat = epoch → id ∉ x.parents := by
  simp only [Frontier, Known, epochLog, List.mem_filter, decide_eq_true_eq, eventDag]
  constructor
  · rintro ⟨⟨e, ⟨he, hep⟩, hid⟩, hp⟩
    exact ⟨e, he, hep, hid, fun x hx hxe => hp x ⟨hx, hxe⟩⟩
  · rintro ⟨e, he, hep, hid, hp⟩
    exact ⟨⟨e, ⟨he, hep⟩, hid⟩, fun x hx => hp x hx.1 hx.2⟩

/-- **The heads are exact**: in every state, whatever the order of the events,
and right after a seal. -/
theorem heads_exact (w : World) (cfg : CacheConfig) (em : Emitter) (s : Sys)
    (h : Reachable w cfg em ParentsFirst s) :
    ∃ epoch store, (s.node.store.getEpoch : Go ServiceError _) = .ok (epoch, store) ∧
      (∀ id, id ∈ s.node.store.getHeads ↔ ∃ e ∈ s.connected,
        e.epoch.toNat = epoch ∧ e.id = id ∧
        ∀ x ∈ s.connected, x.epoch.toNat = epoch → id ∉ x.parents) ∧
      (∀ w' cfg' em' s' store', Reachable w' cfg' em' ParentsFirst s' →
        (s'.node.store.getEpoch : Go ServiceError _) = .ok (epoch, store') →
        (∀ e : Event, e.epoch.toNat = epoch → (e ∈ s.connected ↔ e ∈ s'.connected)) →
        s.node.store.getHeads = s'.node.store.getHeads) ∧
      (∀ s' epoch' store', Step w ParentsFirst s s' →
        (s'.node.store.getEpoch : Go ServiceError _) = .ok (epoch', store') → epoch' ≠ epoch →
        s'.node.store.getHeads = []) := by
  obtain ⟨l, href, hlog, hexact⟩ := reachable_exact h
  obtain ⟨store, hepoch⟩ := getEpoch_refines href
  have hmem : ∀ id, id ∈ l.heads ↔ ∃ e ∈ s.connected,
    e.epoch.toNat = l.epoch ∧ e.id = id ∧
      ∀ x ∈ s.connected, x.epoch.toNat = l.epoch → id ∉ x.parents := by
    intro id
    rw [hexact.heads, frontier_epochLog, hlog]
  refine ⟨l.epoch, store, hepoch, fun id => (mem_getHeads href id).trans (hmem id), ?_, ?_⟩
  · intro w' cfg' em' s' store' h' hepoch' hsame
    obtain ⟨l', href', hlog', hexact'⟩ := reachable_exact h'
    have hll : l'.epoch = l.epoch := epoch_of_getEpoch href' hepoch'
    refine getHeads_eq href href' fun id => ?_
    rw [hmem, hexact'.heads, frontier_epochLog, hlog', hll]
    constructor
    · rintro ⟨e, he, hep, hid, hp⟩
      exact ⟨e, (hsame e hep).mp he, hep, hid, fun x hx hxe => hp x ((hsame x hxe).mpr hx) hxe⟩
    · rintro ⟨e, he, hep, hid, hp⟩
      exact ⟨e, (hsame e hep).mpr he, hep, hid, fun x hx hxe => hp x ((hsame x hxe).mp hx) hxe⟩
  · intro s' epoch' store' hstep hepoch' hne
    rcases step_ledger href hlog hstep with ⟨href', -⟩ | ⟨e, newEpoch, -, -, -, -, href', -⟩
    · exact absurd (epoch_of_getEpoch href' hepoch').symm hne
    · have hnew : newEpoch = epoch' :=
        (connect_epoch ..).symm.trans (epoch_of_getEpoch href' hepoch')
      have hnil : (connect l e newEpoch).heads = ∅ := by
        rw [connect, if_neg (by rw [hnew]; exact hne)]
      rw [Store.getHeads, href'.holds.heads_eq, hnil]
      rfl

end Runs

def parentsFirst (s : Sys) (e : Event) : Bool := e.parents.all s.node.store.hasEvent

theorem parentsFirst_iff (s : Sys) (e : Event) (h : parentsFirst s e = true) : ParentsFirst s e :=
  List.all_eq_true.mp h

theorem heads_exact_chain :
    ∃ s, Reachable (sampleWorld 1) sampleConfig idleEmitter ParentsFirst s ∧
      s.connected = [chainEvent 1, chainEvent 2] ∧
      ∃ epoch store, (s.node.store.getEpoch : Go ServiceError _) = .ok (epoch, store) ∧
        ∀ id, id ∈ s.node.store.getHeads ↔
          ∃ e ∈ s.connected, e.epoch.toNat = epoch ∧ e.id = id ∧
            ∀ x ∈ s.connected, x.epoch.toNat = epoch → id ∉ x.parents := by
  have hrun : (runFromGenesis (sampleWorld 1) sampleConfig idleEmitter parentsFirst
      [(chainEvent 1, deciding []), (chainEvent 2, deciding [])]).map (·.connected) =
        some [chainEvent 1, chainEvent 2] := by decide +kernel
  obtain ⟨s, hs, hcon⟩ := Option.map_eq_some_iff.mp hrun
  have hreach := runFromGenesis_reachable parentsFirst_iff hs
  obtain ⟨epoch, store, hepoch, hheads, -, -⟩ :=
    heads_exact (sampleWorld 1) sampleConfig idleEmitter s hreach
  exact ⟨s, hreach, hcon, epoch, store, hepoch, hheads⟩

end MiniOpera.Heads
