import MiniOpera.Refinement

/-!
# Runs of the service

A run starts at the genesis and goes on with calls of `processEvent`, reads by
other threads and, at some point, the stop of the service. Beside the service
it keeps the events that were connected. `Adm` is what is known of an event when
it is handed to `processEvent`.

`reachable_ledger` is the rule for all that is proved about runs: a property of
ledgers that connecting keeps holds of the ledger of every reachable state.
-/

namespace MiniOpera.Runs
open GoRuntime InterEvent EventCheck GossipStore Caching Consensus Service Genesis Ledger Refinement

structure Sys where
  node : Node
  /-- The connected events, in order. -/
  connected : List Event

/-- A failed flush is reported after the event was connected. -/
def isConnected : Option ServiceError → Bool
  | none => true
  | some err => err.isFlush

def history (connected : List Event) (e : Event) (r : Option ServiceError) : List Event :=
  if isConnected r then connected ++ [e] else connected

inductive Step (w : World) (Adm : Sys → Event → Prop) : Sys → Sys → Prop
  | process {s : Sys} {e : Event} {o : Outcome} {n : Node} {r : Option ServiceError}
      (hadm : Adm s e) (h : processEvent w s.node e o = .ok (n, r)) :
      Step w Adm s ⟨n, history s.connected e r⟩
  | readEvent {s : Sys} {id : EventID} {r : Option Event} {store : Store}
      (h : (s.node.store.getEvent w.sha256 w.rlp id : Go ServiceError _) = .ok (r, store)) :
      Step w Adm s ⟨{ s.node with store := store }, s.connected⟩
  | readBlock {s : Sys} (i : Nat) :
      Step w Adm s ⟨{ s.node with store := (s.node.store.getBlock i).2 }, s.connected⟩
  | readPackInfo {s : Sys} (epoch idx : Nat) :
      Step w Adm s ⟨{ s.node with store := (s.node.store.getPackInfo epoch idx).2 },
        s.connected⟩
  | stop {s : Sys} : Step w Adm s ⟨{ s.node with stopped := true }, s.connected⟩

/-- The states of the runs from a genesis. -/
def Reachable (w : World) (cfg : CacheConfig) (em : Emitter) (Adm : Sys → Event → Prop)
    (s : Sys) : Prop :=
  ∃ n, start w cfg em = .ok n ∧ Relation.ReflTransGen (Step w Adm) ⟨n, []⟩ s

/-- A read that leaves the data alone leaves the ledger alone. -/
theorem untouched_refines {w : World} {n : Node} {l : State} {s : Store} (h : Refines w n l)
    (hs : Untouched n.store s) : Refines w { n with store := s } l := by
  refine ⟨hs.coherent, h.sound, ?_, ⟨?_, ?_⟩, h.keys⟩
  · show Holds w s.data l
    rw [hs.data]
    exact h.holds
  · show Agrees _ s.cache.events
    rw [hs.events]
    exact h.readable.1
  · show ∀ id buf x, s.data.events[id]? = some buf → _
    rw [hs.data]
    exact h.readable.2

theorem rejected_history {w : World} {n n' : Node} {r : Option ServiceError}
    (h : Rejected w n n' r) (connected : List Event) (e : Event) :
    history connected e r = connected := by
  obtain ⟨err, rfl, herr⟩ := h.error
  simp [history, isConnected, herr]

theorem connected_history {w : World} {n n' : Node} {e : Event} {r : Option ServiceError}
    {old new : EpochState} {buf : List UInt8} (h : Connected w n e n' r old new buf)
    (connected : List Event) : history connected e r = connected ++ [e] := by
  rcases h.error with rfl | ⟨code, rfl⟩ <;> rfl

/-- A call of `processEvent`, seen by the ledger: the event is rejected or connected. -/
theorem process_ledger {w : World} {n n' : Node} {e : Event} {o : Outcome} {r : Option ServiceError}
    {l : State} (h : Refines w n l) (hp : processEvent w n e o = .ok (n', r)) :
    (Refines w n' l ∧ ∀ connected, history connected e r = connected) ∨
      ∃ newEpoch, n.store.data.events[e.id]? = none ∧ e.epoch.toNat = l.epoch ∧
        l.epoch ≤ newEpoch ∧ Refines w n' (connect l e newEpoch) ∧
        ∀ connected, history connected e r = connected ++ [e] := by
  rcases processEvent_refines h hp with ⟨hrej, href⟩ | ⟨old, new, buf, hcon, hold, href⟩
  · exact .inl ⟨href, fun connected => rejected_history hrej connected e⟩
  · exact .inr ⟨new.epoch, hcon.fresh, hcon.relevant.trans hold, hold ▸ hcon.grows, href,
      connected_history hcon⟩

/-- What a step does to a ledger: nothing, or it connects an admitted event. -/
def LedgerStep (w : World) (Adm : Sys → Event → Prop) (l : State) (s s' : Sys) : Prop :=
  (Refines w s'.node l ∧ s'.connected = s.connected) ∨
    ∃ e newEpoch, Adm s e ∧ s.node.store.data.events[e.id]? = none ∧
      e.epoch.toNat = l.epoch ∧ l.epoch ≤ newEpoch ∧
      Refines w s'.node (connect l e newEpoch) ∧
      s'.connected = (connect l e newEpoch).log

theorem step_ledger {w : World} {Adm : Sys → Event → Prop} {s s' : Sys} {l : State}
    (h : Refines w s.node l) (hlog : l.log = s.connected) (hstep : Step w Adm s s') :
    LedgerStep w Adm l s s' := by
  cases hstep with
  | @process e o n r hadm hp =>
    rcases process_ledger h hp with ⟨href, hsame⟩ | ⟨newEpoch, hfresh, hep, hle, href, hcon⟩
    · exact .inl ⟨href, hsame _⟩
    · exact .inr ⟨e, newEpoch, hadm, hfresh, hep, hle, href, by rw [connect_log, hlog, hcon]⟩
  | readEvent hg => exact .inl ⟨(getEvent_refines h hg).1, rfl⟩
  | readBlock i => exact .inl ⟨untouched_refines h (getBlock_spec h.coherent i).2, rfl⟩
  | readPackInfo epoch idx =>
    exact .inl ⟨untouched_refines h (getPackInfo_spec h.coherent epoch idx).2, rfl⟩
  | stop => exact .inl ⟨⟨h.coherent, h.sound, h.holds, h.readable, h.keys⟩, rfl⟩

/-- A property of ledgers that connecting an admitted event keeps. -/
def ConnectKeeps (w : World) (Adm : Sys → Event → Prop) (I : State → Prop) : Prop :=
  ∀ s l e newEpoch, Refines w s.node l → l.log = s.connected → I l → Adm s e →
    (∀ x ∈ l.log, x.id ≠ e.id) → e.epoch.toNat = l.epoch → l.epoch ≤ newEpoch →
    I (connect l e newEpoch)

theorem LedgerStep.keeps {w : World} {Adm : Sys → Event → Prop}
    {I : State → Prop} {s s' : Sys}
    {l : State} (hstep : LedgerStep w Adm l s s') (hkeeps : ConnectKeeps w Adm I)
    (href : Refines w s.node l) (hlog : l.log = s.connected) (hI : I l) :
    ∃ l', Refines w s'.node l' ∧ l'.log = s'.connected ∧ I l' := by
  rcases hstep with ⟨href', hsame⟩ | ⟨e, ep, hadm, hfresh, hep, hle, href', hcon⟩
  · exact ⟨l, href', hlog.trans hsame.symm, hI⟩
  · exact ⟨_, href', hcon.symm, hkeeps s l e ep href hlog hI hadm
      (href.holds.fresh hfresh) hep hle⟩

/-- From any state that has a ledger. -/
theorem run_ledger {w : World} {Adm : Sys → Event → Prop} {I : State → Prop}
    (hkeeps : ConnectKeeps w Adm I) {s s' : Sys} {l : State} (href : Refines w s.node l)
    (hlog : l.log = s.connected) (hI : I l) (hrun : Relation.ReflTransGen (Step w Adm) s s') :
    ∃ l', Refines w s'.node l' ∧ l'.log = s'.connected ∧ I l' := by
  induction hrun with
  | refl => exact ⟨l, href, hlog, hI⟩
  | tail _ hstep ih =>
    obtain ⟨l', href', hlog', hI'⟩ := ih
    exact (step_ledger href' hlog' hstep).keeps hkeeps href' hlog' hI'

/-- **The rule for runs.** -/
theorem reachable_ledger {w : World} {cfg : CacheConfig} {em : Emitter}
    {Adm : Sys → Event → Prop} {I : State → Prop} (h0 : I initial)
    (hkeeps : ConnectKeeps w Adm I)
    {s : Sys} (h : Reachable w cfg em Adm s) :
    ∃ l, Refines w s.node l ∧ l.log = s.connected ∧ I l := by
  obtain ⟨n, hstart, hrun⟩ := h
  exact run_ledger hkeeps (start_refines hstart) rfl h0 hrun

/-- The epoch is read without fail and is that of the ledger. -/
theorem getEpoch_refines {w : World} {n : Node} {l : State} (h : Refines w n l) :
    ∃ s, (n.store.getEpoch : Go ServiceError _) = .ok (l.epoch, s) := by
  obtain ⟨es, hes, hepoch⟩ := Option.map_eq_some_iff.mp h.holds.epoch
  obtain ⟨s, hget⟩ := getEpochState_returns (ε := ServiceError) h.coherent hes
  exact ⟨s, by simp only [Store.getEpoch, hget, ok_bind, pure_eq_ok, hepoch]⟩

/-- The epoch that is read is the ledger's. -/
theorem epoch_of_getEpoch {w : World} {n : Node} {l : State} {epoch : Nat} {s : Store}
    (h : Refines w n l) (hget : (n.store.getEpoch : Go ServiceError _) = .ok (epoch, s)) :
    l.epoch = epoch := by
  obtain ⟨s', hget'⟩ := getEpoch_refines h
  rw [hget'] at hget
  exact congrArg Prod.fst (Except.ok.inj hget)

/-! ## Running -/

/-- Process events one after the other, as long as each is admitted. -/
def runEvents (w : World) (adm : Sys → Event → Bool) : Sys →
    List (Event × Outcome) → Option Sys
  | s, [] => some s
  | s, (e, o) :: rest =>
    if adm s e then
      match processEvent w s.node e o with
      | .ok (n, r) => runEvents w adm ⟨n, history s.connected e r⟩ rest
      | .error _ => none
    else none

def runFromGenesis (w : World) (cfg : CacheConfig) (em : Emitter) (adm : Sys → Event → Bool)
    (events : List (Event × Outcome)) : Option Sys :=
  match start w cfg em with
  | .ok n => runEvents w adm ⟨n, []⟩ events
  | .error _ => none

theorem runEvents_reaches {w : World} {adm : Sys → Event → Bool} {Adm : Sys → Event → Prop}
    (hadm : ∀ s e, adm s e = true → Adm s e) {s s' : Sys} {events : List (Event × Outcome)}
    (h : runEvents w adm s events = some s') : Relation.ReflTransGen (Step w Adm) s s' := by
  induction events generalizing s with
  | nil =>
    cases h
    exact .refl
  | cons eo rest ih =>
    simp only [runEvents] at h
    split at h
    · next ha =>
      split at h
      · next n r hp => exact .head (.process (hadm _ _ ha) hp) (ih h)
      · cases h
    · cases h

theorem runFromGenesis_reachable {w : World} {cfg : CacheConfig} {em : Emitter}
    {adm : Sys → Event → Bool} {Adm : Sys → Event → Prop}
    (hadm : ∀ s e, adm s e = true → Adm s e) {s : Sys} {events : List (Event × Outcome)}
    (h : runFromGenesis w cfg em adm events = some s) : Reachable w cfg em Adm s := by
  unfold runFromGenesis at h
  split at h
  · next n hn => exact ⟨n, hn, runEvents_reaches hadm h⟩
  · cases h

/-- No cache, no validator. -/
def sampleConfig : CacheConfig := ⟨none, none, none⟩

def idleEmitter : Emitter := ⟨0, 0, 0, Bytes.zero 32, 0⟩

/-- The engine decides these blocks, and nothing else happens. -/
def deciding (blocks : List CBlock) : Outcome := ⟨[], .ok blocks, false, true, false, none⟩

end MiniOpera.Runs
