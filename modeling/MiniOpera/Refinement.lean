import MiniOpera.Ledger

/-!
# The service refines the ledger

`Holds` reads a ledger off the tables; `Refines` adds what is kept about the
caches and the published keys. `processEvent_refines` is the simulation step and
`start_refines` its beginning.
-/

namespace MiniOpera.Refinement
open GoRuntime InterEvent EventCheck GossipStore Caching ByteOrder Consensus
  Service Genesis Chunking
  Ledger

/-- What may be read under an ID: the connected event, or what its row decodes to. -/
def Readable (w : World) (log : List Event) (id : EventID) (x : Event) : Prop :=
  ∃ e ∈ log, e.id = id ∧
    (x = e ∨ ∃ buf, (e.encodeRLP w.rlp : Go ServiceError _) = .ok buf ∧
    decodeRLP w.sha256 w.rlp buf = .ok x)

/-- The tables hold the ledger. -/
structure Holds (w : World) (d : Data) (l : State) : Prop where
  epoch : d.epochState.map (·.epoch) = some l.epoch
  loaded : d.epochStore = some l.epoch
  heads : (d.epochDBs l.epoch).heads = l.heads
  tips : ∀ v, (d.epochDBs l.epoch).tips v = (tipOf l v).map (·.id)
  later : ∀ k, l.epoch < k → d.epochDBs k = .empty
  row : ∀ e ∈ l.log, ∃ buf, d.events[e.id]? = some buf ∧
    (e.encodeRLP w.rlp : Go ServiceError _) = .ok buf
  known : ∀ id buf, d.events[id]? = some buf → ∃ e ∈ l.log, e.id = id
  packs : ∀ ep, PacksMatch d ep (l.packs ep)

structure Refines (w : World) (n : Node) (l : State) : Prop where
  coherent : Coherent n.store
  sound : Sound l
  holds : Holds w n.store.data l
  readable : EventsRule w (Readable w l.log) n.store
  keys : Published w n

theorem Holds.heads_eq {w : World} {d : Data} {l : State} (h : Holds w d l) :
    d.heads = l.heads.toList := by
  simp only [Data.heads, h.loaded, h.heads]

theorem Holds.fresh {w : World} {d : Data} {l : State} (h : Holds w d l) {id : EventID}
    (hid : d.events[id]? = none) : ∀ x ∈ l.log, x.id ≠ id := by
  rintro x hx rfl
  obtain ⟨buf, hrow, -⟩ := h.row x hx
  rw [hid] at hrow
  cases hrow

/-- An ID has no row exactly when no event of the log has it. -/
theorem Refines.fresh_iff {w : World} {n : Node} {l : State} (h : Refines w n l) (id : EventID) :
    n.store.data.events[id]? = none ↔ ∀ x ∈ l.log, x.id ≠ id := by
  refine ⟨h.holds.fresh, fun hnew => ?_⟩
  cases hrow : n.store.data.events[id]? with
  | none => rfl
  | some buf =>
    obtain ⟨x, hx, hid⟩ := h.holds.known id buf hrow
    exact absurd hid (hnew x hx)

/-! ## One epoch database -/

theorem foldl_delHead_db (parents : List EventID) (db : EpochDB) :
    (parents.foldl EpochDB.delHead db).heads = parents.foldl (fun h p => h.erase p) db.heads ∧
      (parents.foldl EpochDB.delHead db).tips = db.tips := by
  induction parents generalizing db with
  | nil => exact ⟨rfl, rfl⟩
  | cons p parents ih => exact ih (db.delHead p)

theorem linkEvent_db (e : Event) (db : EpochDB) :
    (linkEvent e db).heads = linkHeads db.heads e ∧
      (linkEvent e db).tips = Function.update db.tips e.creator (some e.id) := by
  obtain ⟨h1, h2⟩ := foldl_delHead_db e.parents (db.setLastEvent e.creator e.id)
  exact ⟨by rw [linkEvent, EpochDB.addHead, h1]; rfl,
    by rw [linkEvent, EpochDB.addHead, h2]; rfl⟩

/-- The tip moves to the event that was connected. -/
theorem tipOf_snoc (l : State) (e : Event) (hepoch : e.epoch.toNat = l.epoch) (heads : EventSet)
    (packs : Nat → Packs) (v : ValidatorID) :
    tipOf ⟨l.epoch, l.log ++ [e], heads, packs⟩ v =
      if v = e.creator then some e else tipOf l v := by
  by_cases hv : v = e.creator
  · subst hv
    simp [tipOf, hepoch]
  · have hv' : ¬ e.creator = v := fun h => hv h.symm
    simp [tipOf, hv, hv']

/-- A new epoch has no tips. -/
theorem tipOf_new {l : State} (h : ∀ e ∈ l.log, e.epoch.toNat < l.epoch) (v : ValidatorID) :
    tipOf l v = none := by
  have hnil : (l.log.filter fun e => e.epoch.toNat = l.epoch ∧ e.creator = v) = [] := by
    rw [List.filter_eq_nil_iff]
    intro e he
    have := h e he
    simp only [decide_eq_true_eq]
    omega
  rw [tipOf, hnil]
  rfl

/-! ## The step -/

section Step

variable {w : World} {d : Data} {l : State} {e : Event} {buf : List UInt8}

/-- The rows of the events after one more was connected. -/
theorem rows_snoc (h : Holds w d l) (hfresh : d.events[e.id]? = none)
    (henc : (e.encodeRLP w.rlp : Go ServiceError _) = .ok buf) :
    (∀ x ∈ l.log ++ [e], ∃ b, (d.events.insert e.id buf)[x.id]? = some b ∧
      (x.encodeRLP w.rlp : Go ServiceError _) = .ok b) ∧
    ∀ id b, (d.events.insert e.id buf)[id]? = some b → ∃ x ∈ l.log ++ [e], x.id = id := by
  refine ⟨?_, ?_⟩
  · intro x hx
    rw [Std.ExtTreeMap.getElem?_insert]
    rcases List.mem_append.mp hx with hx | hx
    · rw [if_neg fun hcmp => h.fresh hfresh x hx (Std.LawfulEqOrd.eq_of_compare hcmp).symm]
      exact h.row x hx
    · rw [List.mem_singleton] at hx
      subst hx
      rw [if_pos Std.ReflOrd.compare_self]
      exact ⟨buf, rfl, henc⟩
  · intro id b hrow
    rw [Std.ExtTreeMap.getElem?_insert] at hrow
    by_cases hcmp : compare e.id id = .eq
    · exact ⟨e, by simp, Std.LawfulEqOrd.eq_of_compare hcmp⟩
    · rw [if_neg hcmp] at hrow
      obtain ⟨x, hx, hid⟩ := h.known id b hrow
      exact ⟨x, List.mem_append_left _ hx, hid⟩

/-- The tables between the pack bookkeeping and the last writes: the event is
recorded, the epoch database is still that before it. -/
structure Recorded (w : World) (d : Data) (l : State) (e : Event) (new : EpochState) : Prop where
  state : d.epochState = some new
  loaded : d.epochStore = some l.epoch
  heads : (d.epochDBs l.epoch).heads = l.heads
  tips : ∀ v, (d.epochDBs l.epoch).tips v = (tipOf l v).map (·.id)
  later : ∀ k, l.epoch < k → d.epochDBs k = .empty
  row : ∀ x ∈ l.log ++ [e], ∃ buf, d.events[x.id]? = some buf ∧
    (x.encodeRLP w.rlp : Go ServiceError _) = .ok buf
  known : ∀ id buf, d.events[id]? = some buf → ∃ x ∈ l.log ++ [e], x.id = id
  pack : PacksMatch d l.epoch ((l.packs l.epoch).add packFull e l.heads.toList)
  others : ∀ ep, ep ≠ l.epoch → PacksMatch d ep (l.packs ep)

theorem Holds.record (h : Holds w d l) (blocks : Nat → Option Block) (bs : Option BlockState)
    (new : EpochState) (hfresh : d.events[e.id]? = none)
    (henc : (e.encodeRLP w.rlp : Go ServiceError _) = .ok buf) :
    Recorded w (recordInPack { d with
      events := d.events.insert e.id buf
      blocks := blocks
      blockState := bs
      epochState := some new } e l.epoch) l e new := by
  generalize hd1 : ({ d with
    events := d.events.insert e.id buf
    blocks := blocks
    blockState := bs
    epochState := some new } : Data) = d1
  have hheads : d1.heads = l.heads.toList := by rw [← hd1]; exact h.heads_eq
  have hpacks : ∀ ep, PacksMatch d1 ep (l.packs ep) := by
    intro ep
    rw [← hd1]
    exact ⟨(h.packs ep).num, (h.packs ep).infos, (h.packs ep).sets⟩
  obtain ⟨⟨hev, -, -, hes⟩, hdbs, hst⟩ := recordInPack_frame d1 e l.epoch
  have hdbs' : (recordInPack d1 e l.epoch).epochDBs = d.epochDBs := by rw [hdbs, ← hd1]
  have hev' : (recordInPack d1 e l.epoch).events = d.events.insert e.id buf := by rw [hev, ← hd1]
  obtain ⟨hrow, hknown⟩ := rows_snoc h hfresh henc
  refine ⟨by rw [hes, ← hd1], by rw [hst, ← hd1]; exact h.loaded, by rw [hdbs', h.heads],
    fun v => by rw [hdbs', h.tips], fun k hk => by rw [hdbs']; exact h.later k hk,
    by rw [hev']; exact hrow, by rw [hev']; exact hknown, ?_,
    fun ep hne => recordInPack_other (hpacks ep) e hne⟩
  rw [← hheads]
  exact recordInPack_matches (hpacks l.epoch) e

/-- The epoch goes on: the tip and the heads move. -/
theorem Recorded.link {new : EpochState} (h : Recorded w d l e new)
    (hepoch : e.epoch.toNat = l.epoch) (heq : new.epoch = l.epoch) :
    Holds w (d.updateEpochDB (linkEvent e)) (connect l e new.epoch) := by
  have hcon : connect l e new.epoch = ⟨l.epoch, l.log ++ [e], linkHeads l.heads e,
      Function.update l.packs l.epoch ((l.packs l.epoch).add packFull e l.heads.toList)⟩ := by
    rw [connect, if_pos heq]
  obtain ⟨hlink, htips⟩ := linkEvent_db e (d.epochDBs l.epoch)
  rw [hcon, Data.updateEpochDB, h.loaded]
  refine ⟨?_, rfl, ?_, ?_, ?_, h.row, h.known, ?_⟩
  · simp only [h.state, Option.map_some, heq]
  · simp only [Function.update_self, hlink, h.heads]
  · intro v
    simp only [Function.update_self, htips, tipOf_snoc l e hepoch]
    by_cases hv : v = e.creator
    · rw [if_pos hv, hv, Function.update_self]
      rfl
    · rw [if_neg hv, Function.update_of_ne hv, h.tips]
  · intro k hk
    simp only [Function.update_of_ne (Nat.ne_of_gt hk)]
    exact h.later k hk
  · intro ep
    by_cases hep : ep = l.epoch
    · subst hep
      simp only [Function.update_self]
      exact h.pack.of_eq rfl (fun _ => rfl) fun _ => rfl
    · simp only [Function.update_of_ne hep]
      exact (h.others ep hep).of_eq rfl (fun _ => rfl) fun _ => rfl

/-- Loading another database changes only the one that was loaded. -/
theorem resetEpochStore_eq {k : Nat} (h : d.epochStore = some k) (newEpoch : Nat) (closed : Bool) :
    ∃ dbs, d.resetEpochStore newEpoch closed =
        { d with epochStore := some newEpoch, epochDBs := dbs } ∧
      ∀ j, j ≠ k → dbs j = d.epochDBs j := by
  rw [Data.resetEpochStore, h]
  cases closed
  · exact ⟨_, rfl, fun _ _ => rfl⟩
  · exact ⟨_, rfl, fun j hj => Function.update_of_ne hj _ _⟩

/-- The epoch is sealed: the last pack is pinned and an empty database loaded. -/
theorem Recorded.sealEpoch {new : EpochState} (h : Recorded w d l e new) (hs : Sound l)
    (hepoch : e.epoch.toNat = l.epoch) (hlt : l.epoch < new.epoch) (closed : Bool) :
    Holds w ((pinLastPack d l.epoch).resetEpochStore new.epoch closed)
      (connect l e new.epoch) := by
  have hheads : d.heads = l.heads.toList := by simp only [Data.heads, h.loaded, h.heads]
  have hcon : connect l e new.epoch = ⟨new.epoch, l.log ++ [e], ∅,
      Function.update l.packs l.epoch
        (((l.packs l.epoch).add packFull e l.heads.toList).close l.heads.toList)⟩ := by
    rw [connect, if_neg (Nat.ne_of_gt hlt)]
  obtain ⟨dbs, hreset, hdbs⟩ := resetEpochStore_eq
    (show (pinLastPack d l.epoch).epochStore = some l.epoch from h.loaded) new.epoch closed
  have hempty : ∀ k, l.epoch < k → dbs k = .empty := fun k hk =>
    (hdbs k (Nat.ne_of_gt hk)).trans (h.later k hk)
  have hold : ∀ x ∈ l.log ++ [e], x.epoch.toNat < new.epoch := by
    intro x hx
    rcases List.mem_append.mp hx with hx | hx
    · exact Nat.lt_of_le_of_lt (hs.epochs x hx) hlt
    · rw [List.mem_singleton] at hx
      rw [hx, hepoch]
      exact hlt
  rw [hcon, hreset]
  refine ⟨?_, rfl, ?_, ?_, ?_, h.row, h.known, ?_⟩
  · exact congrArg (Option.map (·.epoch)) h.state
  · show (dbs new.epoch).heads = ∅
    rw [hempty _ hlt]
    rfl
  · intro v
    rw [tipOf_new hold]
    show (dbs new.epoch).tips v = none
    rw [hempty _ hlt]
    rfl
  · exact fun k hk => hempty k (Nat.lt_trans hlt hk)
  · intro ep
    by_cases hep : ep = l.epoch
    · subst hep
      have hpin := pinLastPack_matches h.pack
      rw [hheads] at hpin
      simp only [Function.update_self]
      exact hpin.of_eq rfl (fun _ => rfl) fun _ => rfl
    · have hpin := pinLastPack_other (h.others ep hep) hep
      simp only [Function.update_of_ne hep]
      exact hpin.of_eq rfl (fun _ => rfl) fun _ => rfl

/-- **Connecting on the tables is connecting on the ledger.** -/
theorem Holds.connect (h : Holds w d l) (hs : Sound l) {blocks : Nat → Option Block}
    {bs : Option BlockState} {new : EpochState} {closed : Bool}
    (hfresh : d.events[e.id]? = none) (hepoch : e.epoch.toNat = l.epoch)
    (hle : l.epoch ≤ new.epoch) (henc : (e.encodeRLP w.rlp : Go ServiceError _) = .ok buf) :
    Holds w (settle (recordInPack { d with
        events := d.events.insert e.id buf
        blocks := blocks
        blockState := bs
        epochState := some new } e l.epoch) e l.epoch new.epoch closed)
      (connect l e new.epoch) := by
  have hrec := h.record blocks bs new hfresh henc
  unfold settle
  split
  · next heq => exact hrec.link hepoch heq
  · next hne => exact hrec.sealEpoch hs hepoch (Nat.lt_of_le_of_ne hle fun hx =>
      hne hx.symm) closed

/-! ## The simulation -/

/-- What may be read after an event was connected. -/
theorem readable_snoc {log : List Event} {id : EventID} {x : Event}
    (h : WithEvent w e (Readable w log) id x) : Readable w (log ++ [e]) id x := by
  rcases h with ⟨rfl, hx⟩ | ⟨-, y, hy, hid, hx⟩
  · exact ⟨e, by simp, rfl, hx⟩
  · exact ⟨y, List.mem_append_left _ hy, hid, hx⟩

theorem connected_refines {n n' : Node} {r : Option ServiceError} {old new : EpochState}
    (h : Refines w n l) (hcon : Connected w n e n' r old new buf) :
    old.epoch = l.epoch ∧ Refines w n' (connect l e new.epoch) := by
  have hold : old.epoch = l.epoch := by
    have := h.holds.epoch
    rw [hcon.oldState] at this
    exact Option.some.inj this
  have hepoch : e.epoch.toNat = l.epoch := hcon.relevant.trans hold
  have hle : l.epoch ≤ new.epoch := hold ▸ hcon.grows
  obtain ⟨blocks, bs, closed, hdata⟩ := hcon.data
  refine ⟨hold, hcon.coherent,
    h.sound.connect hepoch (h.holds.fresh hcon.fresh) hle, ?_, ?_, hcon.keys h.keys⟩
  · rw [hdata, hold]
    exact h.holds.connect h.sound hcon.fresh hepoch hle hcon.encoded
  · rw [connect_log]
    obtain ⟨hc, hrow⟩ := hcon.events _ h.readable
    exact ⟨hc.mono fun _ _ => readable_snoc,
      fun id b x hb hx => readable_snoc (hrow id b x hb hx)⟩

theorem rejected_refines {n n' : Node} {r : Option ServiceError} (h : Refines w n l)
    (hrej : Rejected w n n' r) : Refines w n' l where
  coherent := hrej.coherent
  sound := h.sound
  holds := hrej.data ▸ h.holds
  readable := hrej.events _ h.readable
  keys := by
    obtain ⟨k, hk⟩ := h.keys
    exact ⟨k, hrej.pubKeys.trans hk⟩

/-- **The simulation step.** -/
theorem processEvent_refines {n n' : Node} {o : Outcome} {r : Option ServiceError}
    (h : Refines w n l) (hp : processEvent w n e o = .ok (n', r)) :
    (Rejected w n n' r ∧ Refines w n' l) ∨
      ∃ old new buf, Connected w n e n' r old new buf ∧ old.epoch = l.epoch ∧
        Refines w n' (connect l e new.epoch) := by
  rcases processEvent_cases h.coherent hp with hrej | ⟨old, new, buf, hcon⟩
  · exact .inl ⟨hrej, rejected_refines h hrej⟩
  · exact .inr ⟨old, new, buf, hcon, connected_refines h hcon⟩

end Step

/-- A read by any thread changes no more than the cache of the events. -/
theorem getEvent_refines {w : World} {n : Node} {l : State} {id : EventID} {r : Option Event}
    {s : Store} (h : Refines w n l)
    (hg : (n.store.getEvent w.sha256 w.rlp id : Go ServiceError _) = .ok (r, s)) :
    Refines w { n with store := s } l ∧ (∀ x, r = some x → Readable w l.log id x) ∧
      (r = none → n.store.data.events[id]? = none) := by
  obtain ⟨hd, hc, hag, hsome, hnone⟩ := getEvent_spec h.readable.1 (h.readable.2 id) hg
  refine ⟨⟨hc h.coherent, h.sound, ?_, ⟨hag, ?_⟩, h.keys⟩, hsome, hnone⟩
  · show Holds w s.data l
    rw [hd]
    exact h.holds
  · show ∀ id buf x, s.data.events[id]? = some buf → _
    rw [hd]
    exact h.readable.2

theorem start_refines {w : World} {cfg : CacheConfig} {em : Emitter} {n : Node}
    (h : start w cfg em = .ok n) : Refines w n initial := by
  obtain ⟨n', b, hn, hdata, hc, hag, hk, -, -⟩ := start_spec w cfg em
  rw [h] at hn
  cases hn
  have hno : ∀ (id : EventID) buf, n.store.data.events[id]? ≠ some buf := by
    intro id buf
    rw [hdata]
    simp [Data.empty]
  refine ⟨hc, sound_initial, ?_, ⟨hag _, fun id buf _ hrow => absurd hrow (hno id buf)⟩,
    ⟨_, hk⟩⟩
  refine ⟨by rw [hdata]; rfl, by rw [hdata]; rfl, by rw [hdata]; rfl, fun v => by rw [hdata]; rfl,
    fun k _ => by rw [hdata]; rfl, nofun, fun id buf hrow =>
      absurd hrow (hno id buf), fun ep => ?_⟩
  rw [hdata]
  exact packsMatch_empty ep rfl (fun _ => rfl) fun _ => rfl

end MiniOpera.Refinement
