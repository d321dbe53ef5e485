import MiniOpera.Peers

/-!
# Events a peer is known to have

Six calls mark events as known. `MarkEvent` makes room first. The others add first
and cut the set afterwards, and may so remove what they have just added:
`marking_keeps_last_iff` says that they keep their last event, whatever the set
removes, exactly when everything fits.
-/

namespace MiniOpera.KnownEvents
open GoRuntime LittleEndian InterEvent EvictingSet Peers

/-- The calls that mark events. -/
inductive Marking
  | markEvent (hash : EventID)
  | sendNewEventHashes (hashes : List EventID)
  | asyncSendNewEventHashes (ids : List EventID)
  | sendEvents (events : List Event)
  | sendEventsRLP (events : List (List UInt8)) (ids : List EventID)
  | asyncSendEvents (events : List Event)

namespace Marking

/-- The events it marks. -/
def ids : Marking → List EventID
  | markEvent hash => [hash]
  | sendNewEventHashes hashes => hashes
  | asyncSendNewEventHashes ids => ids
  | sendEvents events => events.map fun e => e.id
  | sendEventsRLP _ ids => ids
  | asyncSendEvents events => events.map fun e => e.id

def run (pick : String → Picks EventID) (p : Peer) : Marking → Peer
  | markEvent hash => p.markEvent pick hash
  | sendNewEventHashes hashes => p.sendNewEventHashes pick hashes
  | asyncSendNewEventHashes ids => p.asyncSendNewEventHashes pick ids
  | sendEvents events => p.sendEvents pick events
  | sendEventsRLP events ids => p.sendEventsRLP pick events ids
  | asyncSendEvents events => p.asyncSendEvents pick events

/-- An asynchronous call finds room in its queue. -/
def Queued (p : Peer) : Marking → Prop
  | asyncSendNewEventHashes _ => p.queuedAnns.length < maxQueuedAnns
  | asyncSendEvents _ => p.queuedProps.length < maxQueuedProps
  | _ => True

def IsMarkEvent : Marking → Prop
  | markEvent _ => True
  | _ => False

end Marking

/-- What a call does to the set of known events. -/
theorem run_marks (pick : String → Picks EventID) (p : Peer) (c : Marking)
    (hqueued : c.Queued p) :
    c.IsMarkEvent ∧ (∃ hash, c.ids = [hash] ∧ (c.run pick p).knownEvents =
        (p.knownEvents.shrink (pick p.id) maxKnownEvents).add hash) ∨
      ¬ c.IsMarkEvent ∧ ((c.run pick p).knownEvents = p.markBatch pick c.ids ∨
        (c.run pick p).knownEvents = p.markEach pick c.ids) := by
  cases c with
  | markEvent hash => exact .inl ⟨trivial, hash, rfl, rfl⟩
  | sendNewEventHashes hashes => exact .inr ⟨id, .inl rfl⟩
  | asyncSendNewEventHashes ids =>
    refine .inr ⟨id, .inl ?_⟩
    simp only [Marking.run, Peer.asyncSendNewEventHashes, if_pos (show _ < _ from hqueued)]
    rfl
  | sendEvents events => exact .inr ⟨id, .inr rfl⟩
  | sendEventsRLP events ids => exact .inr ⟨id, .inr rfl⟩
  | asyncSendEvents events =>
    refine .inr ⟨id, .inl ?_⟩
    simp only [Marking.run, Peer.asyncSendEvents, if_pos (show _ < _ from hqueued)]
    rfl

/-! ## What it means that an event is marked -/

/-- The event is known, the set is not too large, and a broadcast of the event
passes over the peer. -/
structure Marked (p : Peer) (id : EventID) : Prop where
  bound : p.knownEvents.items.card ≤ maxKnownEvents
  known : id ∈ p.knownEvents.items
  notInterested : p.interestedIn id = false
  notSent : ∀ (cfg : ProtocolConfig) (pick : String → Picks EventID)
    (event : Event) (passed : Int)
    (before after : List Peer), event.id = id →
    (broadcastEvent cfg pick event passed (before ++ p :: after)).1[before.length]? = some p

theorem broadcastLoop_passes {pick : String → Picks EventID} {event : Event} {p : Peer}
    (h : p.interestedIn event.id = false) (full : Nat) (before after : List Peer) :
    (broadcastLoop pick event full (before ++ p :: after))[before.length]? = some p := by
  induction before generalizing full with
  | nil => simp [broadcastLoop, h]
  | cons q before ih =>
    cases full with
    | zero =>
      simp only [List.cons_append, broadcastLoop]
      split <;> exact ih 0
    | succ full =>
      simp only [List.cons_append, broadcastLoop]
      split
      · exact ih full
      · exact ih (full + 1)

theorem marked_of_known {p : Peer} {id : EventID}
    (hbound : p.knownEvents.items.card ≤ maxKnownEvents)
    (hknown : id ∈ p.knownEvents.items) : Marked p id := by
  have hnot : p.interestedIn id = false := by simp [Peer.interestedIn, hknown]
  refine ⟨hbound, hknown, hnot, ?_⟩
  intro cfg pick event passed before after hid
  unfold broadcastEvent
  dsimp only
  split
  · simp
  · exact broadcastLoop_passes (by rw [hid]; exact hnot) _ before after

/-! ## When the last event is kept -/

theorem maxKnownEvents_pos : 0 < maxKnownEvents := by decide

/-- Room for all events: nothing is removed. -/
theorem markBatch_of_lt {pick : String → Picks EventID} {p : Peer} {ids : List EventID}
    (h : (p.knownEvents.items ∪ ids.toFinset).card < maxKnownEvents) :
    (p.markBatch pick ids).items = p.knownEvents.items ∪ ids.toFinset := by
  rw [Peer.markBatch, shrink_of_lt (by rw [items_addAll]; exact h), items_addAll]

/-- No room for all of them: the last one may be removed. -/
theorem run_loses {pick : Picks EventID} {p : Peer} {c : Marking}
    {xs : List EventID} {last : EventID}
    (hpick : Prefers last pick) (hqueued : c.Queued p) (hmark : ¬ c.IsMarkEvent)
    (hids : c.ids = xs ++ [last])
    (hfull : maxKnownEvents ≤ (p.knownEvents.items ∪ c.ids.toFinset).card) :
    last ∉ (c.run (fun _ => pick) p).knownEvents.items := by
  rcases run_marks (fun _ => pick) p c hqueued with ⟨his, -⟩ | ⟨-, hknown | hknown⟩
  · exact absurd his hmark
  · rw [hknown]
    exact shrink_loses hpick maxKnownEvents_pos (by rw [items_addAll]; exact hfull)
  · rw [hids] at hfull
    rw [hknown, hids]
    exact addEach_loses hpick maxKnownEvents_pos hfull

/-- Room for all of them: the call adds them and removes nothing. -/
theorem run_keeps (pick : String → Picks EventID) {p : Peer} {c : Marking} (hqueued : c.Queued p)
    (hmark : ¬ c.IsMarkEvent)
    (hroom : (p.knownEvents.items ∪ c.ids.toFinset).card < maxKnownEvents) :
    (c.run pick p).knownEvents.items = p.knownEvents.items ∪ c.ids.toFinset := by
  rcases run_marks pick p c hqueued with ⟨his, -⟩ | ⟨-, hknown | hknown⟩
  · exact absurd his hmark
  · rw [hknown]
    exact markBatch_of_lt hroom
  · rw [hknown]
    exact addEach_of_lt hroom

/-- **The last event of a call.** It is known afterwards, and the set within its
bound, for every choice of what the set removes exactly when the call is
`MarkEvent` or all known and all new events together are fewer than the bound. -/
theorem marking_keeps_last_iff (p : Peer) (c : Marking) (hqueued : c.Queued p) (last : EventID)
    (hlast : c.ids.getLast? = some last) :
    (∀ pick : String → Picks EventID, Marked (c.run pick p) last) ↔
      c.IsMarkEvent ∨ (p.knownEvents.items ∪ c.ids.toFinset).card < maxKnownEvents := by
  obtain ⟨xs, hids⟩ := List.getLast?_eq_some_iff.mp hlast
  constructor
  · intro hall
    by_contra hnot
    obtain ⟨hmark, hfull⟩ := not_or.mp hnot
    obtain ⟨pick, hpick⟩ := exists_prefers last
    exact run_loses hpick hqueued hmark hids (Nat.le_of_not_lt hfull) (hall fun _ => pick).known
  · intro hcond pick
    by_cases hmark : c.IsMarkEvent
    · -- the set was cut before the event was added
      obtain ⟨hash, honly, hknown⟩ : ∃ hash, c.ids = [hash] ∧ (c.run pick p).knownEvents =
          (p.knownEvents.shrink (pick p.id) maxKnownEvents).add hash :=
        (run_marks pick p c hqueued).elim (fun h => h.2) fun h => absurd hmark h.1
      have hcut : (p.knownEvents.shrink (pick p.id) maxKnownEvents).items.card < maxKnownEvents :=
        shrink_card_lt maxKnownEvents_pos p.knownEvents
      obtain rfl : hash = last := by
        rw [honly] at hlast
        simpa using hlast
      refine marked_of_known ?_ ?_
      · rw [hknown, items_add]
        exact (Finset.card_insert_le _ _).trans hcut
      · rw [hknown, items_add]
        exact Finset.mem_insert_self _ _
    · have hroom := hcond.resolve_left hmark
      have hall := run_keeps pick hqueued hmark hroom
      refine marked_of_known ?_ ?_
      · rw [hall]
        exact hroom.le
      · rw [hall, hids]
        simp

/-! ## A full set -/

/-- IDs of epoch 1. -/
def numberedID (n : Nat) : EventID := ⟨[0, 0, 0, 1] ++ leBytes 28 n, by simp⟩

theorem numberedID_injOn {a b : Nat} (ha : a < 256 ^ 28) (hb : b < 256 ^ 28)
    (h : numberedID a = numberedID b) : a = b := by
  have hdata := List.append_cancel_left (congrArg Bytes.data h)
  rw [← leNat_leBytes 28 a ha, ← leNat_leBytes 28 b hb, hdata]

/-- A peer of epoch 1 that knows these events. -/
def peerKnowing (items : Finset EventID) : Peer := ⟨"peer", ⟨items, 0⟩, [], [], 1, []⟩

theorem peerKnowing_queued (items : Finset EventID) (ids : List EventID) :
    (Marking.asyncSendNewEventHashes ids).Queued (peerKnowing items) :=
  show 0 < maxQueuedAnns by decide

/-- An announced event that the full set removes at once interests the peer again. -/
theorem announced_again {known : Finset EventID}
    (hfull : maxKnownEvents ≤ (known ∪ [numberedID 0].toFinset).card) :
    ∃ pick, ((peerKnowing known).asyncSendNewEventHashes pick [numberedID 0]).interestedIn
      (numberedID 0) = true := by
  obtain ⟨pick, hpick⟩ := exists_prefers (numberedID 0)
  have hids : (Marking.asyncSendNewEventHashes [numberedID 0]).ids = [] ++ [numberedID 0] := rfl
  have hlost := run_loses hpick (peerKnowing_queued known _) id hids hfull
  have hepoch : ((peerKnowing known).asyncSendNewEventHashes (fun _ => pick) [numberedID 0]).epoch =
      1 := by
    unfold Peer.asyncSendNewEventHashes
    split <;> rfl
  refine ⟨fun _ => pick, ?_⟩
  have hid : idEpoch (numberedID 0) = 1 := by decide
  simp only [Peer.interestedIn, hepoch, hid, decide_eq_true_eq]
  exact ⟨by decide, by decide, .inl trivial, hlost⟩

theorem card_union_new {known : Finset EventID} {id : EventID} (hid : id ∉ known) :
    (known ∪ [id].toFinset).card = known.card + 1 := by
  rw [List.toFinset_cons, List.toFinset_nil, Finset.union_insert, Finset.union_empty,
    Finset.card_insert_of_notMem hid]

/-- Events of epoch 1 with other numbers. -/
def otherEvents (count : Nat) : Finset EventID := (Finset.Ico 1 (count + 1)).image numberedID

theorem card_otherEvents {count : Nat} (h : count < 256 ^ 28) :
    (otherEvents count).card = count := by
  rw [otherEvents, Finset.card_image_of_injOn, Nat.card_Ico, Nat.add_sub_cancel]
  intro a ha b hb heq
  have ha' := (Finset.mem_Ico.mp ha).2
  have hb' := (Finset.mem_Ico.mp hb).2
  exact numberedID_injOn (by omega) (by omega) heq

theorem notMem_otherEvents {count : Nat} (h : count < 256 ^ 28) :
    numberedID 0 ∉ otherEvents count := by
  intro hmem
  obtain ⟨n, hn, heq⟩ := Finset.mem_image.mp hmem
  have hn' := Finset.mem_Ico.mp hn
  have hzero := numberedID_injOn (by omega) (by omega) heq
  omega

/-- With 16382 known events there is room for one more. -/
theorem marking_keeps_last_iff_nearlyFull :
    (peerKnowing (otherEvents 16382)).knownEvents.items.card + 2 = maxKnownEvents ∧
      (Marking.asyncSendNewEventHashes [numberedID 0]).Queued (peerKnowing (otherEvents 16382)) ∧
      ∀ pick, Marked ((Marking.asyncSendNewEventHashes [numberedID 0]).run pick
        (peerKnowing (otherEvents 16382))) (numberedID 0) := by
  have hcard : (otherEvents 16382).card = 16382 := card_otherEvents (by decide)
  refine ⟨congrArg (· + 2) hcard, peerKnowing_queued _ _,
    (marking_keeps_last_iff (peerKnowing (otherEvents 16382))
      (.asyncSendNewEventHashes [numberedID 0])
      (peerKnowing_queued _ _) (numberedID 0) rfl).mpr (.inr ?_)⟩
  show (otherEvents 16382 ∪ [numberedID 0].toFinset).card < maxKnownEvents
  rw [card_union_new (notMem_otherEvents (by decide)), hcard, maxKnownEvents]
  decide

/-- With 16383 known events an announced one may be removed as soon as it is added. -/
theorem announced_event_forgotten :
    (peerKnowing (otherEvents 16383)).knownEvents.items.card ≤ maxKnownEvents ∧
      (Marking.asyncSendNewEventHashes [numberedID 0]).Queued (peerKnowing (otherEvents 16383)) ∧
      (∃ pick, ((peerKnowing (otherEvents 16383)).asyncSendNewEventHashes pick
        [numberedID 0]).interestedIn
        (numberedID 0) = true) ∧
      ¬ ∀ pick, Marked ((Marking.asyncSendNewEventHashes [numberedID 0]).run pick
        (peerKnowing (otherEvents 16383))) (numberedID 0) := by
  have hfull : maxKnownEvents ≤ (otherEvents 16383 ∪ [numberedID 0].toFinset).card := by
    rw [card_union_new (notMem_otherEvents (by decide)), card_otherEvents (by decide),
      maxKnownEvents]
  obtain ⟨pick, hagain⟩ := announced_again hfull
  refine ⟨?_, peerKnowing_queued _ _, ⟨pick, hagain⟩, ?_⟩
  · rw [show (peerKnowing (otherEvents 16383)).knownEvents.items = otherEvents 16383 from rfl,
      card_otherEvents (by decide), maxKnownEvents]
    omega
  · intro hall
    have hnot := (hall pick).notInterested
    rw [Marking.run, hagain] at hnot
    cases hnot

end MiniOpera.KnownEvents
