import MiniOpera.Runs

/-!
# Checks and connections interleaved

The checks of an event run in threads of their own, on an epoch and on keys that
the thread with `engineMu` replaces one after the other. Here every check is a
step, `processEvent` is taken apart into the steps between which other threads
can see the store, and any two steps can have steps of other threads between them.

`processEvent_interleaves`: a call of `processEvent` is a run of these steps.
`epoch_safety`: in every interleaving an event in the table was connected once, in
its own epoch, after it passed the heavy check with the keys of that epoch.
-/

namespace MiniOpera.Interleaving
open GoRuntime InterEvent EventCheck GossipStore Caching ByteOrder Consensus Service Genesis Runs

/-- Where the thread that holds `engineMu` is in `processEvent`. -/
inductive Pc
  | idle
  /-- The event is stored and in the engine, which has called back or not. -/
  | engine (e : Event) (oldEpoch : Nat) (called : Bool)
  /-- `EndBlock` has published the keys and not written the states. -/
  | endBlock (e : Event) (oldEpoch : Nat) (ending : Ending)

structure Conf where
  node : Node
  pc : Pc
  /-- The events that passed the light check. -/
  light : List Event
  /-- The events that passed the heavy check, with the keys it was made with. -/
  heavy : List (Event × ValidatorsPubKeys)
  /-- The connected events, with the epoch of the store when they were stored. -/
  connected : List (Event × Nat)

/-- What any thread can read at any time. -/
inductive Reads (w : World) : Store → Store → Prop
  | event {s s' : Store} {id : EventID} {r : Option Event}
      (h : (s.getEvent w.sha256 w.rlp id : Go ServiceError _) = .ok (r, s')) : Reads w s s'
  | block (s : Store) (i : Nat) : Reads w s (s.getBlock i).2
  | packInfo (s : Store) (epoch idx : Nat) : Reads w s (s.getPackInfo epoch idx).2
  | epochState {s s' : Store} {es : EpochState}
      (h : (s.getEpochState : Go ServiceError _) = .ok (es, s')) : Reads w s s'

inductive Step (w : World) : Conf → Conf → Prop
  /-- `LightCheck` of the fetcher passes. -/
  | light {c : Conf} {e : Event} {es : EpochState} {store : Store}
      (hes : (c.node.store.getEpochState : Go ServiceError _) = .ok (es, store))
      (h : lightCheck w.base w.net.maxParents es.validators es.epoch e = .ok ()) :
      Step w c { c with node := { c.node with store := store }, light := e :: c.light }
  /-- `HeavyCheck` of the fetcher passes. -/
  | heavy {c : Conf} {e : Event} (hlight : e ∈ c.light)
      (h : heavyCheck w.verifySignature c.node.pubKeys e = .ok ()) :
      Step w c { c with heavy := (e, c.node.pubKeys) :: c.heavy }
  /-- `Validate` of the emitter passes. -/
  | validate {c : Conf} {e : Event} {parents : List Event} {es : EpochState} {store : Store}
      (hpc : c.pc = .idle)
      (hes : (c.node.store.getEpochState : Go ServiceError _) = .ok (es, store))
      (h : validate w.base w.verifySignature w.net.maxParents es.validators es.epoch c.node.pubKeys
        e parents = .ok ()) :
      Step w c { c with
        node := { c.node with store := store }
        heavy := (e, c.node.pubKeys) :: c.heavy }
  | read {c : Conf} {store : Store} (h : Reads w c.node.store store) :
      Step w c { c with node := { c.node with store := store } }
  /-- `processEvent` of a checked event fails one of its own checks. -/
  | reject {c : Conf} {e : Event} {keys : ValidatorsPubKeys} {n : Node} {err : ServiceError}
      (hpc : c.pc = .idle) (hchecked : (e, keys) ∈ c.heavy)
      (h : admitEvent w c.node e = .ok (n, .error err)) :
      Step w c { c with node := n }
  /-- `processEvent` stores a checked event and calls the engine. -/
  | enter {c : Conf} {e : Event} {keys : ValidatorsPubKeys} {n : Node} {oldEpoch : Nat}
      (hpc : c.pc = .idle) (hchecked : (e, keys) ∈ c.heavy)
      (h : admitEvent w c.node e = .ok (n, .ok oldEpoch)) :
      Step w c { c with node := n, pc := .engine e oldEpoch false }
  /-- The engine returns an error; it has not called back. -/
  | refuse {c : Conf} {e : Event} {oldEpoch : Nat} (hpc : c.pc = .engine e oldEpoch false) :
      Step w c { c with
        node := { c.node with store := c.node.store.delEvent e.id }
        pc := .idle }
  /-- The callbacks of a block, up to the publication of new keys. -/
  | publish {c : Conf} {e : Event} {oldEpoch : Nat} {called : Bool} {cBlock : CBlock}
      {ending : Ending} {n : Node} (hpc : c.pc = .engine e oldEpoch called)
      (h : (endBlockPublish w c.node cBlock
        (cBlock.applied.foldl (applyEvent cBlock.atropos) beginBlock) : Go ServiceError _) =
          .ok (ending, n)) :
      Step w c { c with node := n, pc := .endBlock e oldEpoch ending }
  | write {c : Conf} {e : Event} {oldEpoch : Nat} {ending : Ending}
      (hpc : c.pc = .endBlock e oldEpoch ending) :
      Step w c { c with
        node := (endBlockWrite c.node ending).2
        pc := .engine e oldEpoch true }
  /-- The engine returns, and the rest of `processEvent`. -/
  | connect {c : Conf} {e : Event} {oldEpoch : Nat} {called : Bool} {o : Outcome} {n : Node}
      {r : Option ServiceError} (hpc : c.pc = .engine e oldEpoch called)
      (h : connectEvent c.node e oldEpoch o = .ok (n, r)) :
      Step w c { c with
        node := n
        pc := .idle
        connected := c.connected ++ [(e, oldEpoch)] }
  | stop {c : Conf} (hpc : c.pc = .idle) :
      Step w c { c with node := { c.node with stopped := true } }

/-- The states of the interleavings from a genesis. -/
def Reachable (w : World) (cfg : CacheConfig) (em : Emitter) (c : Conf) : Prop :=
  ∃ n, start w cfg em = .ok n ∧ Relation.ReflTransGen (Step w) ⟨n, .idle, [], [], []⟩ c

/-! ## A call is a run -/

section Calls

variable {w : World}

theorem readEvents_run {ids : List EventID} {c : Conf} {store : Store}
    (h : readEvents w c.node.store ids = .ok store) :
    Relation.ReflTransGen (Step w) c { c with node := { c.node with store := store } } := by
  induction ids generalizing c with
  | nil =>
    cases h
    exact .refl
  | cons id ids ih =>
    obtain ⟨⟨r, s1⟩, hget, hrest⟩ := bind_eq_ok h
    exact .head (.read (.event hget))
      (ih (c := { c with node := { c.node with store := s1 } }) hrest)

theorem processBlocks_run {blocks : List CBlock} {c : Conf} {e : Event} {oldEpoch : Nat}
    {called : Bool} {n : Node} (hpc : c.pc = .engine e oldEpoch called)
    (h : processBlocks w c.node blocks = .ok n) :
    ∃ called', Relation.ReflTransGen (Step w) c { c with
      node := n
      pc := .engine e oldEpoch called' } := by
  induction blocks generalizing c called with
  | nil =>
    cases h
    exact ⟨called, by rw [← hpc]⟩
  | cons cBlock rest ih =>
    obtain ⟨⟨v, n1⟩, hblock, hrest⟩ := bind_eq_ok h
    obtain ⟨⟨ending, n0⟩, hpub, hw⟩ := bind_eq_ok hblock
    have hn1 : (endBlockWrite n0 ending).2 = n1 := congrArg Prod.snd (Except.ok.inj hw)
    obtain ⟨called', hrun⟩ :=
      ih (c := { c with node := n1, pc := .engine e oldEpoch true }) rfl hrest
    refine ⟨called', .head (.publish hpc hpub) (.head (.write rfl) ?_)⟩
    rw [hn1]
    exact hrun

/-- **A call of `processEvent` is a run of the steps.** -/
theorem processEvent_interleaves {c : Conf} {e : Event} {keys : ValidatorsPubKeys} {o : Outcome}
    {n : Node} {r : Option ServiceError} (hc : Coherent c.node.store) (hpc : c.pc = .idle)
    (hchecked : (e, keys) ∈ c.heavy) (h : processEvent w c.node e o = .ok (n, r)) :
    ∃ c', Relation.ReflTransGen (Step w) c c' ∧ c'.node = n ∧ c'.pc = .idle ∧
      c'.light = c.light ∧ c'.heavy = c.heavy ∧
      c'.connected.map Prod.fst = history (c.connected.map Prod.fst) e r := by
  rw [processEvent_eq] at h
  obtain ⟨⟨n1, r1⟩, hadmit, h⟩ := bind_eq_ok h
  cases r1 with
  | error err =>
    cases h
    obtain ⟨err', heq, hrej⟩ | ⟨_, _, heq, -⟩ := admitEvent_cases hc hadmit
    · cases heq
      exact ⟨_, .single (.reject hpc hchecked hadmit), rfl, hpc, rfl, rfl,
        (rejected_history hrej _ _).symm⟩
    · cases heq
  | ok oldEpoch =>
    obtain ⟨store, hreads, h⟩ := bind_eq_ok h
    have hadm := Step.enter hpc hchecked hadmit
    have hread := readEvents_run
      (c := { c with node := n1, pc := .engine e oldEpoch false }) hreads
    split at h
    · cases h
      exact ⟨_, (hread.head hadm).tail (.refuse rfl), rfl, rfl, rfl, rfl, rfl⟩
    · obtain ⟨n4, hblocks, hcon⟩ := bind_eq_ok h
      obtain ⟨called, hrun⟩ := processBlocks_run (c := { c with
        node := { n1 with store := store }
        pc := .engine e oldEpoch false }) rfl hblocks
      refine ⟨_, ((hread.head hadm).trans hrun).tail (.connect rfl hcon),
        rfl, rfl, rfl, rfl, ?_⟩
      rcases connectEvent_error hcon with rfl | ⟨code, rfl⟩ <;>
        exact List.map_append

end Calls

/-! ## The invariant -/

/-- The event that is stored but not connected yet. -/
def inFlight : Pc → List (Event × Nat)
  | .idle => []
  | .engine e oldEpoch _ => [(e, oldEpoch)]
  | .endBlock e oldEpoch _ => [(e, oldEpoch)]

def stored (c : Conf) : List (Event × Nat) := c.connected ++ inFlight c.pc

/-- The epoch state that `EndBlock` is going to write. -/
def sealing : Pc → Option EpochState
  | .endBlock _ _ ending => ending.sealed
  | _ => none

structure Safe (w : World) (c : Conf) : Prop where
  coherent : Coherent c.node.store
  published : Published w c.node
  checked : ∀ p ∈ c.heavy, heavyCheck w.verifySignature p.2 p.1 = .ok () ∧
    ∃ k, p.2 = newEpochPubKeys k w.net.validators
  relevant : ∀ p ∈ stored c, p.1.epoch.toNat = p.2
  passed : ∀ p ∈ stored c, ∃ keys, (p.1, keys) ∈ c.heavy
  once : ((stored c).map (·.1.id)).Nodup
  rows : ∀ id, c.node.store.hasEvent id = true ↔ id ∈ (stored c).map (·.1.id)
  sealing : ∀ es', sealing c.pc = some es' →
    ∃ es, c.node.store.data.epochState = some es ∧ es' = { es with epoch := es.epoch + 1 }

section Invariant

variable {w : World} {c c' : Conf}

/-- A step that neither stores an event nor removes one. -/
theorem Safe.frame (h : Safe w c) (hcoh : Coherent c'.node.store) (hpub : Published w c'.node)
    (hrows : c'.node.store.data.events = c.node.store.data.events)
    (hstored : stored c' = stored c) (hheavy : c'.heavy = c.heavy)
    (hseal : ∀ es', Interleaving.sealing c'.pc = some es' →
      ∃ es, c'.node.store.data.epochState = some es ∧ es' = { es with epoch := es.epoch + 1 }) :
    Safe w c' where
  coherent := hcoh
  published := hpub
  checked := hheavy ▸ h.checked
  relevant := hstored ▸ h.relevant
  passed := by
    rw [hstored, hheavy]
    exact h.passed
  once := hstored ▸ h.once
  rows := by
    intro id
    rw [hstored, Store.hasEvent, hrows]
    exact h.rows id
  sealing := hseal

/-- A read by any thread. -/
theorem Safe.read (h : Safe w c) {store : Store} (hdata : store.data = c.node.store.data)
    (hcoh : Coherent store) : Safe w { c with node := { c.node with store := store } } :=
  h.frame hcoh h.published (by rw [hdata]) rfl rfl (by rw [hdata]; exact h.sealing)

/-- One more check was passed, with the keys that are published. -/
theorem Safe.check (h : Safe w c) {e : Event}
    (hcheck : heavyCheck w.verifySignature c.node.pubKeys e = .ok ()) :
    Safe w { c with heavy := (e, c.node.pubKeys) :: c.heavy } where
  coherent := h.coherent
  published := h.published
  checked := by
    intro p hp
    rcases List.mem_cons.mp hp with rfl | hp
    · exact ⟨hcheck, h.published⟩
    · exact h.checked p hp
  relevant := h.relevant
  passed := by
    intro p hp
    obtain ⟨keys, hkeys⟩ := h.passed p hp
    exact ⟨keys, List.mem_cons_of_mem _ hkeys⟩
  once := h.once
  rows := h.rows
  sealing := h.sealing

theorem reads_spec {s s' : Store} (h : Reads w s s') (hc : Coherent s) :
    s'.data = s.data ∧ Coherent s' := by
  cases h with
  | event h =>
    obtain ⟨hd, hc', -⟩ := getEvent_spec (R := fun _ _ => True) (fun _ _ _ => trivial)
      (fun _ _ _ _ => trivial) h
    exact ⟨hd, hc' hc⟩
  | block i =>
    have hs := (getBlock_spec hc i).2
    exact ⟨hs.data, hs.coherent⟩
  | packInfo epoch idx =>
    have hs := (getPackInfo_spec hc epoch idx).2
    exact ⟨hs.data, hs.coherent⟩
  | epochState h =>
    have hs := (getEpochState_spec hc h).2
    exact ⟨hs.data, hs.coherent⟩

theorem validate_heavy {maxParents : Nat} {vv : List Validator} {epoch : Nat}
    {keys : ValidatorsPubKeys} {e : Event} {parents : List Event}
    (h : validate w.base w.verifySignature maxParents vv epoch keys e parents = .ok ()) :
    heavyCheck w.verifySignature keys e = .ok () := by
  obtain ⟨-, -, h⟩ := bind_eq_ok h
  obtain ⟨-, -, h⟩ := bind_eq_ok h
  obtain ⟨-, -, h⟩ := bind_eq_ok h
  exact h

/-- The event is stored: its epoch was checked in the same critical section. -/
theorem Safe.enter (h : Safe w c) (hpc : c.pc = .idle) {e : Event} {keys : ValidatorsPubKeys}
    (hchecked : (e, keys) ∈ c.heavy) {n : Node} {es : EpochState} {buf : List UInt8}
    (hadm : Admitted w c.node e n es buf) :
    Safe w { c with node := n, pc := .engine e es.epoch false } := by
  have hstored : stored c = c.connected := by rw [stored, hpc, inFlight, List.append_nil]
  have hnew : e.id ∉ c.connected.map (·.1.id) := by
    rw [← hstored, ← h.rows e.id, Store.hasEvent, Std.ExtTreeMap.contains_eq_isSome_getElem?,
      hadm.fresh]
    exact Bool.false_ne_true
  refine ⟨hadm.coherent, ?_, h.checked, ?_, ?_, ?_, ?_, fun _ hes => by cases hes⟩
  · obtain ⟨k, hk⟩ := h.published
    exact ⟨k, hadm.pubKeys.trans hk⟩
  · intro p hp
    rcases List.mem_append.mp hp with hp | hp
    · exact h.relevant p (hstored ▸ hp)
    · rw [inFlight, List.mem_singleton] at hp
      subst hp
      exact hadm.relevant
  · intro p hp
    rcases List.mem_append.mp hp with hp | hp
    · exact h.passed p (hstored ▸ hp)
    · rw [inFlight, List.mem_singleton] at hp
      subst hp
      exact ⟨keys, hchecked⟩
  · have honce := h.once
    rw [hstored] at honce
    rw [stored, List.map_append]
    refine List.nodup_append.mpr ⟨honce, by simp [inFlight], ?_⟩
    rintro a ha b hb rfl
    rw [inFlight, List.map_singleton, List.mem_singleton] at hb
    exact hnew (hb ▸ ha)
  · intro id
    have hrows := h.rows id
    rw [hstored, Store.hasEvent] at hrows
    rw [stored, List.map_append, List.mem_append, ← hrows, Store.hasEvent, hadm.data,
      Std.ExtTreeMap.contains_insert, Bool.or_eq_true, beq_iff_eq,
      Std.LawfulEqOrd.compare_eq_iff_eq, inFlight, List.map_singleton, List.mem_singleton]
    exact ⟨fun h => h.symm.imp_right Eq.symm, fun h => h.symm.imp_left Eq.symm⟩

/-- The engine refused the event: it is taken out of the table. -/
theorem Safe.refuse (h : Safe w c) {e : Event} {oldEpoch : Nat} {called : Bool}
    (hpc : c.pc = .engine e oldEpoch called) :
    Safe w { c with
      node := { c.node with store := c.node.store.delEvent e.id }
      pc := .idle } := by
  have hstored : stored c = c.connected ++ [(e, oldEpoch)] := by rw [stored, hpc]; rfl
  have honce := h.once
  rw [hstored, List.map_append, List.map_singleton] at honce
  have hnew : e.id ∉ c.connected.map (·.1.id) :=
    fun hmem => (List.nodup_append.mp honce).2.2 _ hmem _ (List.mem_singleton.mpr rfl) rfl
  have hidle : stored { c with
      node := { c.node with store := c.node.store.delEvent e.id }
      pc := .idle } = c.connected := List.append_nil _
  refine ⟨⟨h.coherent.blocks, h.coherent.packInfos, h.coherent.blockState,
    h.coherent.epochState⟩,
    h.published, h.checked, ?_, ?_, ?_, ?_, fun _ hes => by cases hes⟩
  · rw [hidle]
    exact fun p hp => h.relevant p (hstored ▸ List.mem_append_left _ hp)
  · rw [hidle]
    exact fun p hp => h.passed p (hstored ▸ List.mem_append_left _ hp)
  · rw [hidle]
    exact (List.nodup_append.mp honce).1
  · intro id
    have hrows := h.rows id
    rw [hstored, List.map_append, List.map_singleton, List.mem_append, List.mem_singleton,
      Store.hasEvent] at hrows
    rw [hidle, Store.hasEvent]
    show (c.node.store.data.events.erase e.id).contains id = true ↔ _
    rw [Std.ExtTreeMap.contains_erase, Bool.and_eq_true, hrows, bne_iff_ne, ne_eq,
      Std.LawfulEqOrd.compare_eq_iff_eq]
    constructor
    · rintro ⟨hne, hmem | rfl⟩
      · exact hmem
      · exact absurd rfl hne
    · intro hmem
      refine ⟨?_, .inl hmem⟩
      rintro rfl
      exact hnew hmem

theorem Safe.block (h : Safe w c) {n : Node} {pc : Pc} (heff : BlockEffect w c.node n)
    (hflight : inFlight pc = inFlight c.pc)
    (hseal : ∀ es', Interleaving.sealing pc = some es' →
      ∃ es, n.store.data.epochState = some es ∧ es' = { es with epoch := es.epoch + 1 }) :
    Safe w { c with node := n, pc := pc } := by
  obtain ⟨bl, bs, es, hdata⟩ := heff.data
  refine h.frame heff.coherent (heff.keys h.published) ?_ ?_ rfl hseal
  · show n.store.data.events = _
    rw [hdata]
  · show c.connected ++ inFlight pc = c.connected ++ inFlight c.pc
    rw [hflight]

theorem safe_start {cfg : CacheConfig} {em : Emitter} {n : Node} (h : start w cfg em = .ok n) :
    Safe w ⟨n, .idle, [], [], []⟩ := by
  obtain ⟨n', b, hn, hdata, hc, -, hk, -, -⟩ := start_spec w cfg em
  rw [h] at hn
  cases hn
  refine ⟨hc, ⟨_, hk⟩, nofun, nofun, nofun, List.nodup_nil, ?_, nofun⟩
  intro id
  rw [Store.hasEvent, hdata]
  simp [Data.empty, stored, inFlight]

/-- **One step keeps the invariant.** -/
theorem step_safe (h : Safe w c) (hstep : Step w c c') : Safe w c' := by
  cases hstep with
  | light hes hcheck =>
    have hs := (getEpochState_spec h.coherent hes).2
    have hread := h.read hs.data hs.coherent
    exact hread.frame hread.coherent hread.published rfl rfl rfl hread.sealing
  | heavy hlight hcheck => exact h.check hcheck
  | validate hpc hes hcheck =>
    have hs := (getEpochState_spec h.coherent hes).2
    exact (h.read hs.data hs.coherent).check (validate_heavy hcheck)
  | read hread =>
    obtain ⟨hdata, hcoh⟩ := reads_spec hread h.coherent
    exact h.read hdata hcoh
  | reject hpc hchecked hadmit =>
    obtain ⟨err', -, hrej⟩ | ⟨_, _, heq, -⟩ := admitEvent_cases h.coherent hadmit
    · obtain ⟨k, hk⟩ := h.published
      exact h.frame hrej.coherent ⟨k, hrej.pubKeys.trans hk⟩
        (congrArg Data.events hrej.data) rfl rfl
        (by rw [hpc]; nofun)
    · cases heq
  | enter hpc hchecked hadmit =>
    obtain ⟨_, heq, -⟩ | ⟨es, buf, heq, hadm⟩ := admitEvent_cases h.coherent hadmit
    · cases heq
    · cases heq
      exact h.enter hpc hchecked hadm
  | refuse hpc => exact h.refuse hpc
  | publish hpc hpub =>
    obtain ⟨heff, hsame, hcase⟩ := endBlockPublish_spec h.coherent hpub
    refine h.block heff (by rw [hpc]; rfl) ?_
    intro es' hes'
    rw [hsame]
    rcases hcase with ⟨hnone, -⟩ | ⟨es, hrow, hsome, -⟩
    · rw [Interleaving.sealing, hnone] at hes'
      cases hes'
    · rw [Interleaving.sealing, hsome] at hes'
      cases hes'
      exact ⟨es, hrow, rfl⟩
  | write hpc =>
    have hseal := h.sealing
    rw [hpc] at hseal
    exact h.block (endBlockWrite_spec h.coherent hseal) (by rw [hpc]; rfl) nofun
  | connect hpc hcon =>
    obtain ⟨es, hes⟩ := connectEvent_state h.coherent hcon
    obtain ⟨hdata, -, hcoh, hkeys, -⟩ := connectEvent_spec h.coherent hes hcon
    obtain ⟨k, hk⟩ := h.published
    refine h.frame hcoh ⟨k, hkeys.trans hk⟩ ?_ ?_ rfl nofun
    · rw [hdata, (settle_frame _ _ _ _ _).events, (recordInPack_frame _ _ _).1.events]
    · rw [stored, stored, hpc, inFlight, inFlight, List.append_nil]
  | stop hpc =>
    exact h.frame h.coherent h.published rfl rfl rfl h.sealing

theorem run_safe (h : Safe w c) (hrun : Relation.ReflTransGen (Step w) c c') : Safe w c' := by
  induction hrun with
  | refl => exact h
  | tail _ hstep ih => exact step_safe ih hstep

theorem reachable_safe {cfg : CacheConfig} {em : Emitter}
    (h : Reachable w cfg em c) : Safe w c := by
  obtain ⟨n, hstart, hrun⟩ := h
  exact run_safe (safe_start hstart) hrun

end Invariant

/-- **Epoch safety.** At any time an event of the table was stored once, in its
own epoch, and had passed the heavy check with the keys that are published for
that epoch; between two calls it is connected. -/
theorem epoch_safety (w : World) (cfg : CacheConfig) (em : Emitter) (c : Conf)
    (h : Reachable w cfg em c) (id : EventID) (hid : c.node.store.hasEvent id = true) :
    ∃ e, (stored c).filter (fun p => p.1.id = id) = [(e, e.epoch.toNat)] ∧
      (c.pc = .idle → c.connected.filter (fun p => p.1.id = id) = [(e, e.epoch.toNat)]) ∧
      (e, newEpochPubKeys e.epoch.toNat w.net.validators) ∈ c.heavy ∧
      heavyCheck w.verifySignature (newEpochPubKeys e.epoch.toNat w.net.validators) e = .ok () := by
  have hsafe := reachable_safe h
  rw [hsafe.rows id] at hid
  obtain ⟨⟨e, epoch⟩, hp, rfl⟩ := List.mem_map.mp hid
  have hrel : e.epoch.toNat = epoch := hsafe.relevant (e, epoch) hp
  subst hrel
  have honce := Ledger.filter_key_singleton hsafe.once hp
  obtain ⟨keys, hkeys⟩ := hsafe.passed _ hp
  obtain ⟨hcheck, k, hk⟩ := hsafe.checked _ hkeys
  -- a passed check names the epoch of its keys
  have hepoch : keys.epoch = e.epoch.toNat := heavyCheck_epoch _ hcheck
  have hke : keys = newEpochPubKeys e.epoch.toNat w.net.validators := by
    rw [← hepoch, show keys = newEpochPubKeys k w.net.validators from hk]
    rfl
  refine ⟨e, honce, fun hidle => ?_, hke ▸ hkeys, hke ▸ hcheck⟩
  rw [stored, hidle, inFlight, List.append_nil] at honce
  exact honce

/-! ## Running -/

/-- Check events and process them, one after the other. -/
def checkedCalls (w : World) : Node → List (Event × Outcome) → Option Node
  | n, [] => some n
  | n, (e, o) :: rest =>
    match (n.store.getEpochState : Go ServiceError _) with
    | .error _ => none
    | .ok (es, store) =>
      match lightCheck w.base w.net.maxParents es.validators es.epoch e,
          heavyCheck w.verifySignature n.pubKeys e, processEvent w
            { n with store := store } e o with
      | .ok (), .ok (), .ok (n, _) => checkedCalls w n rest
      | _, _, _ => none

theorem checkedCalls_run {w : World} {events : List (Event × Outcome)} {c : Conf} {n : Node}
    (hsafe : Safe w c) (hpc : c.pc = .idle) (h : checkedCalls w c.node events = some n) :
    ∃ c', Relation.ReflTransGen (Step w) c c' ∧ c'.node = n ∧ c'.pc = .idle := by
  induction events generalizing c with
  | nil =>
    cases h
    exact ⟨c, .refl, rfl, hpc⟩
  | cons eo rest ih =>
    obtain ⟨e, o⟩ := eo
    simp only [checkedCalls] at h
    split at h
    · cases h
    · next es store hes =>
      split at h
      · next n1 r hlight hheavy hp =>
        have s1 := Step.light hes hlight
        have s2 := Step.heavy (w := w) (c := { c with
          node := { c.node with store := store }
          light := e :: c.light }) (e := e) List.mem_cons_self hheavy
        have hsafe2 := step_safe (step_safe hsafe s1) s2
        obtain ⟨c', hrun, hnode, hpc', -⟩ :=
          processEvent_interleaves hsafe2.coherent hpc List.mem_cons_self hp
        subst hnode
        obtain ⟨c'', hrun', hres⟩ := ih (run_safe hsafe2 hrun) hpc' h
        exact ⟨c'', ((hrun.head s2).head s1).trans hrun', hres⟩
      · cases h

theorem epoch_safety_sealing :
    ∃ c, Reachable (sampleWorld 1) sampleConfig idleEmitter c ∧ c.pc = .idle ∧
      c.node.store.hasEvent (chainEvent 3).id = true ∧
      ∃ e, c.connected.filter (fun p => p.1.id = (chainEvent 3).id) = [(e, e.epoch.toNat)] := by
  have hrun : ((start (sampleWorld 1) sampleConfig idleEmitter).toOption.bind fun n =>
      checkedCalls (sampleWorld 1) n
        [(chainEvent 1, deciding []), (chainEvent 2, deciding []),
          (chainEvent 3, deciding [⟨(chainEvent 1).id, [], [chainEvent 1]⟩])]).map
        (fun n => (n.pubKeys.epoch, n.store.hasEvent (chainEvent 3).id)) = some (2, true) := by
    decide +kernel
  obtain ⟨n, hn, hreads⟩ := Option.map_eq_some_iff.mp hrun
  obtain ⟨n0, hstart, hcalls⟩ := Option.bind_eq_some_iff.mp hn
  have hstart' := toOption_eq_some hstart
  obtain ⟨c, hsteps, hnode, hpc⟩ := checkedCalls_run (safe_start hstart') rfl hcalls
  have hreach : Reachable (sampleWorld 1) sampleConfig idleEmitter c := ⟨n0, hstart', hsteps⟩
  have hhas : c.node.store.hasEvent (chainEvent 3).id = true := by
    rw [hnode]
    exact congrArg Prod.snd hreads
  obtain ⟨e, -, hcon, -⟩ := epoch_safety _ _ _ c hreach _ hhas
  exact ⟨c, hreach, hpc, hhas, e, hcon hpc⟩

end MiniOpera.Interleaving
