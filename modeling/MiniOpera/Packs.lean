import Mathlib.Data.List.Induction
import MiniOpera.Runs

/-!
# Packs

`packs_partition`: in every reachable state the packs of an epoch partition its
connected events, their infos count and measure them without overflow, the
current pack has room, and a reply to a `GetPackMsg` lists the whole pack.
-/

namespace MiniOpera.Packs
open GoRuntime InterEvent GossipStore ByteOrder Consensus Service Genesis Ledger
  Refinement Runs Chunking

/-! ## Bounds -/

/-- Small enough for the size of a pack not to overflow. -/
def Small (e : Event) : Prop := e.size < 2 ^ 32 - 2 ^ 21

instance (e : Event) : Decidable (Small e) := inferInstanceAs (Decidable (_ < _))

theorem packFull_false {chunk : List Event} (h : packFull chunk = false)
    (hlen : chunk.length < 2 ^ 32) (hsize : totalSize chunk < 2 ^ 32) :
    chunk.length < 250 ∧ totalSize chunk < 2 ^ 21 := by
  have hnot : ¬ isFull (infoOf 0 chunk []) := of_decide_eq_false h
  simp only [isFull, infoOf, not_or, ge_iff_le, UInt32.not_le, UInt32.lt_iff_toNat_lt,
    UInt32.toNat_ofNat'] at hnot
  rw [Nat.mod_eq_of_lt hlen, Nat.mod_eq_of_lt hsize] at hnot
  exact hnot

theorem totalSize_snoc (chunk : List Event) (e : Event) : totalSize (chunk ++ [e]) =
    totalSize chunk + e.size := by
  simp [totalSize]

/-- A pack no part of which was ever full. -/
theorem open_bounds (chunk : List Event) (hsmall : ∀ e ∈ chunk, Small e)
    (hpre : ∀ q, q <+: chunk → packFull q = false) :
    chunk.length < 250 ∧ totalSize chunk < 2 ^ 21 := by
  induction chunk using List.reverseRecOn with
  | nil => decide
  | append_singleton init e ih =>
    obtain ⟨hlen, hsize⟩ := ih (fun x hx => hsmall x (List.mem_append_left _ hx))
      fun q hq => hpre q (hq.trans (List.prefix_append _ _))
    have he : e.size < 2 ^ 32 - 2 ^ 21 := hsmall e (by simp)
    refine packFull_false (hpre _ (List.prefix_refl _)) ?_ ?_
    · rw [List.length_append, List.length_singleton]
      omega
    · rw [totalSize_snoc]
      omega

/-- Any pack: its last event may have filled it. -/
theorem pack_bounds {chunk : List Event} (hsmall : ∀ e ∈ chunk, Small e)
    (hpre : ∀ q, q <+: chunk → q ≠ chunk → packFull q = false) :
    chunk.length ≤ 250 ∧ totalSize chunk < 2 ^ 32 := by
  rcases List.eq_nil_or_concat chunk with rfl | ⟨init, e, rfl⟩
  · decide
  · rw [List.concat_eq_append] at hsmall hpre ⊢
    obtain ⟨hlen, hsize⟩ := open_bounds init
      (fun x hx => hsmall x (List.mem_append_left _ hx)) fun q hq => by
        refine hpre q (hq.trans (List.prefix_append _ _)) fun heq => ?_
        have := hq.length_le
        rw [heq, List.length_append, List.length_singleton] at this
        omega
    have he : e.size < 2 ^ 32 - 2 ^ 21 := hsmall e (by simp)
    rw [List.length_append, List.length_singleton, totalSize_snoc]
    omega

/-! ## One pack -/

theorem packAt_mem_all {c : Ledger.Packs} {i : Nat} {e : Event} (h : e ∈ packAt c i) :
    ∃ j, i = j + 1 ∧ ∃ hj : j < c.all.length, packAt c i = c.all[j] := by
  cases i with
  | zero => cases h
  | succ j =>
    rw [packAt] at h ⊢
    cases hget : c.all[j]? with
    | none =>
      rw [hget] at h
      cases h
    | some chunk =>
      obtain ⟨hj, hc⟩ := List.getElem?_eq_some_iff.mp hget
      exact ⟨j, rfl, hj, by rw [Option.getD_some, hc]⟩

theorem packAt_sublist (c : Ledger.Packs) (i : Nat) : (packAt c i).Sublist c.elements := by
  cases i with
  | zero => exact List.nil_sublist _
  | succ j =>
    rw [packAt]
    cases hget : c.all[j]? with
    | none => exact List.nil_sublist _
    | some chunk => exact List.sublist_flatten_of_mem (List.mem_of_getElem? hget)

theorem packAt_unique {c : Ledger.Packs} (hn : c.elements.Nodup) {i j : Nat} {e : Event}
    (hi : e ∈ packAt c i) (hj : e ∈ packAt c j) : i = j := by
  obtain ⟨i', rfl, hi', heqi⟩ := packAt_mem_all hi
  obtain ⟨j', rfl, hj', heqj⟩ := packAt_mem_all hj
  rw [heqi] at hi
  rw [heqj] at hj
  have hpair := (List.nodup_flatten.mp hn).2
  rcases Nat.lt_trichotomy i' j' with hlt | heq | hgt
  · exact absurd hj (List.disjoint_left.mp
      (List.pairwise_iff_getElem.mp hpair i' j' hi' hj' hlt) hi)
  · rw [heq]
  · exact absurd hi (List.disjoint_left.mp
      (List.pairwise_iff_getElem.mp hpair j' i' hj' hi' hgt) hj)

theorem packAt_exists {c : Ledger.Packs} {e : Event} (h : e ∈ c.elements) :
    ∃ i, 1 ≤ i ∧ i ≤ c.closed.length + 1 ∧ e ∈ packAt c i := by
  obtain ⟨chunk, hchunk, he⟩ := List.mem_flatten.mp h
  obtain ⟨j, hj, rfl⟩ := List.mem_iff_getElem.mp hchunk
  rw [Chunks.all_length] at hj
  refine ⟨j + 1, by omega, by omega, ?_⟩
  rw [packAt, List.getElem?_eq_getElem (by rw [Chunks.all_length]; exact hj)]
  exact he

/-- The packs of an epoch hold events of the log that are of this epoch. -/
theorem packAt_log {l : State} (hs : Sound l) {epoch i : Nat} {e : Event}
    (he : e ∈ packAt (l.packs epoch) i) : e ∈ l.log ∧ e.epoch.toNat = epoch := by
  have hmem := (packAt_sublist _ i).subset he
  rw [hs.elements] at hmem
  obtain ⟨hin, hep⟩ := List.mem_filter.mp hmem
  exact ⟨hin, of_decide_eq_true hep⟩

theorem packAt_bounds {l : State} (hs : Sound l) (hsmall : ∀ e ∈ l.log, Small e)
    (epoch i : Nat) :
    (packAt (l.packs epoch) i).length ≤ 250 ∧
      totalSize (packAt (l.packs epoch) i) < 2 ^ 32 := by
  cases i with
  | zero => simp [packAt, totalSize]
  | succ j =>
    refine pack_bounds (fun e he => hsmall e (packAt_log hs he).1) ?_
    intro q hq hne
    rw [packAt] at hq hne
    cases hget : (l.packs epoch).all[j]? with
    | none =>
      rw [hget] at hq hne
      exact absurd (List.prefix_nil.mp hq) hne
    | some chunk =>
      rw [hget] at hq hne
      exact (hs.greedy epoch).all packFull (List.mem_of_getElem? hget) hq hne

/-- The current pack was never full. -/
theorem current_bounds {l : State} (hs : Sound l) (hsmall : ∀ e ∈ l.log, Small e)
    (epoch : Nat) :
    (l.packs epoch).current.length < 250 ∧ totalSize (l.packs epoch).current < 2 ^ 21 := by
  refine open_bounds _ (fun e he => ?_) (hs.greedy epoch).current
  rw [← packAt_current] at he
  exact hsmall e (packAt_log hs he).1

/-- The row of a pack says which pack it is, how many events it has and how big they are. -/
theorem rowAt_spec {c : Ledger.Packs} {i : Nat} {info : PackInfo} (h : rowAt c i = some info) :
    1 ≤ i ∧ i ≤ c.closed.length + 1 ∧ info = infoOf i (packAt c i) info.heads := by
  cases i with
  | zero => cases h
  | succ j =>
    rw [rowAt] at h
    split at h
    · next p hp =>
      cases h
      obtain ⟨hj, rfl⟩ := List.getElem?_eq_some_iff.mp hp
      exact ⟨by omega, by omega, by rw [packAt_of_closed hj]; rfl⟩
    · split at h
      · next hcur =>
        cases h
        obtain ⟨rfl, -⟩ := hcur
        exact ⟨by omega, by omega, by rw [packAt_current]; rfl⟩
      · cases h

/-! ## Packs and what is read -/

section Read

variable {w : World} {n : Node} {l : State}

theorem mem_getPack (h : Refines w n l) (epoch i : Nat) (id : EventID) :
    id ∈ n.store.getPack epoch i ↔ ∃ e ∈ packAt (l.packs epoch) i, e.id = id := by
  rw [Store.getPack, Std.ExtTreeSet.mem_toList, (h.holds.packs epoch).sets]

theorem elements_nodup (h : Sound l) (epoch : Nat) :
    ((l.packs epoch).elements.map (·.id)).Nodup := by
  rw [h.elements]
  exact h.nodup.sublist (List.filter_sublist.map _)

theorem getPack_nodup (s : Store) (epoch i : Nat) : (s.getPack epoch i).Nodup := by
  refine (Std.ExtTreeSet.ordered_toList (t := s.data.packs (epoch, i))).imp ?_
  intro a b hab heq
  rw [heq, Std.ReflOrd.compare_self] at hab
  cases hab

/-- `GetPack` lists the IDs of the pack, each once. -/
theorem getPack_perm (h : Refines w n l) (epoch i : Nat) :
    (n.store.getPack epoch i).Perm ((packAt (l.packs epoch) i).map (·.id)) := by
  have hnodup : ((packAt (l.packs epoch) i).map (·.id)).Nodup :=
    (elements_nodup h.sound epoch).sublist ((packAt_sublist _ i).map _)
  refine (List.perm_ext_iff_of_nodup (getPack_nodup _ epoch i) hnodup).mpr fun id => ?_
  rw [mem_getPack h, List.mem_map]

/-- An event of the log is in a pack by its ID. -/
theorem mem_getPack_of_log (h : Refines w n l) {epoch i : Nat} {e : Event} (he : e ∈ l.log) :
    e.id ∈ n.store.getPack epoch i ↔ e ∈ packAt (l.packs epoch) i := by
  rw [mem_getPack h]
  constructor
  · rintro ⟨x, hx, hid⟩
    rw [← List.inj_on_of_nodup_map h.sound.nodup (packAt_log h.sound hx).1 he hid]
    exact hx
  · exact fun hx => ⟨e, hx, rfl⟩

/-- The sizes of the connected events of a pack add up to the size of the pack. -/
theorem totalSize_getPack (h : Refines w n l) (epoch i : Nat) :
    totalSize (l.log.filter fun e => e.id ∈ n.store.getPack epoch i) =
      totalSize (packAt (l.packs epoch) i) := by
  have hlog : l.log.Nodup := List.Nodup.of_map _ h.sound.nodup
  have hpack : (packAt (l.packs epoch) i).Nodup :=
    List.Nodup.of_map _ ((elements_nodup h.sound epoch).sublist ((packAt_sublist _ i).map _))
  have hperm : (l.log.filter fun e => e.id ∈ n.store.getPack epoch i).Perm
      (packAt (l.packs epoch) i) := by
    refine (List.perm_ext_iff_of_nodup (hlog.filter _) hpack).mpr fun e => ?_
    rw [List.mem_filter, decide_eq_true_eq]
    constructor
    · rintro ⟨he, hid⟩
      exact (mem_getPack_of_log h he).mp hid
    · intro he
      have hin := (packAt_log h.sound he).1
      exact ⟨hin, (mem_getPack_of_log h hin).mpr he⟩
  exact (hperm.map _).sum_nat

theorem getPack_length (h : Refines w n l) (epoch i : Nat) :
    (n.store.getPack epoch i).length = (packAt (l.packs epoch) i).length := by
  rw [(getPack_perm h epoch i).length_eq, List.length_map]

theorem packsNum_eq (h : Refines w n l) (epoch : Nat) :
    n.store.getPacksNumOrDefault epoch = (l.packs epoch).closed.length + 1 :=
  (h.holds.packs epoch).num

theorem getPackInfo_eq (h : Refines w n l) (epoch i : Nat) :
    (n.store.getPackInfo epoch i).1 = rowAt (l.packs epoch) i :=
  (getPackInfo_spec h.coherent epoch i).1.trans ((h.holds.packs epoch).infos i)

/-- The pack an event of the log is in, and no other. -/
theorem getPack_unique (h : Refines w n l) {e : Event} (he : e ∈ l.log) :
    ∃ i, (1 ≤ i ∧ i ≤ n.store.getPacksNumOrDefault e.epoch.toNat ∧
      e.id ∈ n.store.getPack e.epoch.toNat i) ∧
      ∀ j, e.id ∈ n.store.getPack e.epoch.toNat j → j = i := by
  have hmem : e ∈ (l.packs e.epoch.toNat).elements := by
    rw [h.sound.elements]
    exact List.mem_filter.mpr ⟨he, decide_eq_true rfl⟩
  obtain ⟨i, h1, h2, hi⟩ := packAt_exists hmem
  refine ⟨i, ⟨h1, packsNum_eq h _ ▸ h2, (mem_getPack_of_log h he).mpr hi⟩, fun j hj => ?_⟩
  exact packAt_unique (List.Nodup.of_map _ (elements_nodup h.sound _))
    ((mem_getPack_of_log h he).mp hj) hi

/-- Where what a pack lists comes from. -/
theorem getPack_origin (h : Refines w n l) {epoch i : Nat} {id : EventID}
    (hid : id ∈ n.store.getPack epoch i) : ∃ e ∈ l.log, e.id = id ∧
      e.epoch.toNat = epoch ∧
      1 ≤ i ∧ i ≤ n.store.getPacksNumOrDefault epoch := by
  obtain ⟨e, he, heq⟩ := (mem_getPack h epoch i id).mp hid
  obtain ⟨hin, hep⟩ := packAt_log h.sound he
  obtain ⟨j, rfl, hj, -⟩ := packAt_mem_all he
  rw [Chunks.all_length] at hj
  exact ⟨e, hin, heq, hep, by omega, by rw [packsNum_eq h]; omega⟩

/-- The two numbers of an info, without overflow. -/
theorem infoOf_counts {chunk : List Event} (hlen : chunk.length < 2 ^ 32)
    (hsize : totalSize chunk < 2 ^ 32) (i : Nat) (heads : List EventID) :
    (infoOf i chunk heads).numOfEvents.toNat = chunk.length ∧
      (infoOf i chunk heads).size.toNat = totalSize chunk := by
  constructor
  · rw [infoOf, UInt32.toNat_ofNat']
    exact Nat.mod_eq_of_lt hlen
  · rw [infoOf, UInt32.toNat_ofNat']
    exact Nat.mod_eq_of_lt hsize

/-- An info counts and measures its pack. -/
theorem getPackInfo_counts (h : Refines w n l) (hsmall : ∀ e ∈ l.log, Small e) {epoch i : Nat}
    {info : PackInfo} (hinfo : (n.store.getPackInfo epoch i).1 = some info) :
    1 ≤ i ∧ i ≤ n.store.getPacksNumOrDefault epoch ∧ info.index = i ∧
      info.numOfEvents.toNat = (n.store.getPack epoch i).length ∧
        info.numOfEvents.toNat ≤ 250 ∧
      info.size.toNat = totalSize (l.log.filter fun e => e.id ∈ n.store.getPack epoch i) := by
  rw [getPackInfo_eq h] at hinfo
  obtain ⟨h1, h2, heq⟩ := rowAt_spec hinfo
  obtain ⟨hlen, hsize⟩ := packAt_bounds h.sound hsmall epoch i
  obtain ⟨hnum, hbytes⟩ := infoOf_counts (by omega) hsize i info.heads
  rw [← heq] at hnum hbytes
  rw [getPack_length h, totalSize_getPack h, packsNum_eq h, hnum, hbytes]
  exact ⟨h1, h2, by rw [heq]; rfl, rfl, hlen, rfl⟩

/-- The current pack has room. -/
theorem currentPack_room (h : Refines w n l) (hsmall : ∀ e ∈ l.log, Small e) (epoch : Nat) :
    (n.store.getPackInfoOrDefault epoch
        (n.store.getPacksNumOrDefault epoch)).1.numOfEvents.toNat < 250 ∧
      (n.store.getPackInfoOrDefault epoch
        (n.store.getPacksNumOrDefault epoch)).1.size.toNat < 2 * 1024 * 1024 := by
  obtain ⟨hinfo, -⟩ := getPackInfoOrDefault_spec h.coherent epoch
    (n.store.getPacksNumOrDefault epoch)
  obtain ⟨hlen, hsize⟩ := current_bounds h.sound hsmall epoch
  rw [packsNum_eq h, currentInfo_eq (h.holds.packs epoch)] at hinfo
  have hlen32 : (l.packs epoch).current.length < 2 ^ 32 := by omega
  have hsize32 : totalSize (l.packs epoch).current < 2 ^ 32 := by omega
  obtain ⟨hnum, hbytes⟩ := infoOf_counts hlen32 hsize32 ((l.packs epoch).closed.length + 1) []
  rw [packsNum_eq h, hinfo, hnum, hbytes]
  exact ⟨hlen, hsize⟩

end Read

/-! ## The reply to a `GetPackMsg` -/

/-- The loop cuts nothing off a list of at most `softLimitItems` IDs. -/
theorem packLoop_all {i : Nat} {ids : List EventID} (h : i + ids.length ≤ softLimitItems + 1) :
    packLoop i ids = ids := by
  induction ids generalizing i with
  | nil => rfl
  | cons id rest ih =>
    rw [List.length_cons] at h
    rw [packLoop]
    split
    · have hrest : rest = [] := List.eq_nil_of_length_eq_zero (by omega)
      rw [hrest]
    · rw [ih (by omega)]

theorem getPackReply_all {s : Store} {myEpoch epoch i : Nat} (hepoch : epoch ≤ myEpoch)
    (hlen : (s.getPack epoch i).length ≤ softLimitItems) (hne : s.getPack epoch i ≠ []) :
    getPackReply s myEpoch epoch i = some (s.getPack epoch i) := by
  rw [getPackReply, if_neg (by omega), packLoop_all (by omega)]
  exact if_pos fun h0 => hne (List.eq_nil_of_length_eq_zero h0)

/-! ## Runs -/

/-- The packs of an epoch account for its connected events. -/
structure Accounted (s : Sys) (epoch : Nat) : Prop where
  /-- Every connected event is in exactly one pack. -/
  unique : ∀ e ∈ s.connected, e.epoch.toNat = epoch →
    ∃ i, (1 ≤ i ∧ i ≤ s.node.store.getPacksNumOrDefault epoch ∧
      e.id ∈ s.node.store.getPack epoch i) ∧ ∀ j, e.id ∈
        s.node.store.getPack epoch j → j = i
  /-- Infos count and measure their packs. -/
  info : ∀ i info, (s.node.store.getPackInfo epoch i).1 = some info →
    1 ≤ i ∧ i ≤ s.node.store.getPacksNumOrDefault epoch ∧ info.index = i ∧
    info.numOfEvents.toNat = (s.node.store.getPack epoch i).length ∧
    info.numOfEvents.toNat ≤ 250 ∧
    info.size.toNat =
      ((s.connected.filter fun e => e.id ∈ s.node.store.getPack epoch i).map (·.size)).sum
  /-- The current pack has room. -/
  room : (s.node.store.getPackInfoOrDefault epoch
      (s.node.store.getPacksNumOrDefault epoch)).1.numOfEvents.toNat < 250 ∧
    (s.node.store.getPackInfoOrDefault epoch
      (s.node.store.getPacksNumOrDefault epoch)).1.size.toNat < 2 * 1024 * 1024
  /-- Packs hold connected events of their epoch only. -/
  origin : ∀ i id, id ∈ s.node.store.getPack epoch i → ∃ e ∈ s.connected, e.id = id ∧
    e.epoch.toNat = epoch ∧ 1 ≤ i ∧ i ≤ s.node.store.getPacksNumOrDefault epoch
  /-- A requested pack is sent whole. -/
  reply : ∀ i, s.node.store.getPack epoch i ≠ [] → ∃ myEpoch store,
    (s.node.store.getEpoch : Go ServiceError _) = .ok (myEpoch, store) ∧
    getPackReply s.node.store myEpoch epoch i = some (s.node.store.getPack epoch i)

/-- **Packs partition and account for the connected events.** -/
theorem packs_partition (w : World) (cfg : CacheConfig) (em : Emitter) (s : Sys)
    (h : Reachable w cfg em (fun _ e => Small e) s) (epoch : Nat) : Accounted s epoch := by
  obtain ⟨l, href, hlog, hsmall⟩ := reachable_ledger
    (I := fun l => ∀ e ∈ l.log, Small e) nofun
    (fun _ l e ep _ _ hI hadm _ _ _ => by
      intro x hx
      rw [connect_log] at hx
      rcases List.mem_append.mp hx with hx | hx
      · exact hI x hx
      · rw [List.mem_singleton] at hx
        rw [hx]
        exact hadm) h
  have hback : ∀ i id, id ∈ s.node.store.getPack epoch i →
    ∃ e ∈ s.connected, e.id = id ∧
      e.epoch.toNat = epoch ∧ 1 ≤ i ∧ i ≤ s.node.store.getPacksNumOrDefault epoch := by
    intro i id hid
    rw [← hlog]
    exact getPack_origin href hid
  refine ⟨?_, ?_, currentPack_room href hsmall epoch, hback, ?_⟩
  · rintro e he rfl
    exact getPack_unique href (hlog ▸ he)
  · intro i info hinfo
    rw [← hlog]
    exact getPackInfo_counts href hsmall hinfo
  · intro i hne
    obtain ⟨store, hepoch⟩ := getEpoch_refines href
    obtain ⟨id, hid⟩ := List.exists_mem_of_ne_nil _ hne
    obtain ⟨e, he, -, hep, -, -⟩ := hback i id hid
    have hle := href.sound.epochs e (hlog ▸ he)
    refine ⟨l.epoch, store, hepoch, getPackReply_all (by omega) ?_ hne⟩
    rw [getPack_length href]
    exact (packAt_bounds href.sound hsmall epoch i).1

theorem packs_partition_chain :
    ∃ s, Reachable (sampleWorld 1) sampleConfig idleEmitter (fun _ e => Small e) s ∧
      s.connected = [chainEvent 1, chainEvent 2] ∧ Accounted s 1 := by
  have hrun : (runFromGenesis (sampleWorld 1) sampleConfig idleEmitter
      (fun _ e => decide (Small e))
      [(chainEvent 1, deciding []), (chainEvent 2, deciding [])]).map (·.connected) =
        some [chainEvent 1, chainEvent 2] := by decide +kernel
  obtain ⟨s, hs, hcon⟩ := Option.map_eq_some_iff.mp hrun
  have hreach : Reachable (sampleWorld 1) sampleConfig idleEmitter (fun _ e => Small e) s :=
    runFromGenesis_reachable (fun _ _ h => of_decide_eq_true h) hs
  exact ⟨s, hreach, hcon, packs_partition _ _ _ s hreach 1⟩

end MiniOpera.Packs
