import MiniOpera.Lib.Chunks
import MiniOpera.Lib.Dag
import MiniOpera.Genesis

/-!
# What the store is for

A ledger (`State`) is the log of the connected events, the heads of the current epoch
and, for every epoch, its events cut into packs. It knows nothing of tables,
default values and caches. `PacksMatch`: the tables hold the packs of an epoch, and the
two ways in which `packsOnNewEvent` and `packsOnNewEpoch` write them keep this.
`Sound`: what holds of a ledger that was built by connecting events one by one. It is
determined by its log and its epoch but for the heads that the pinned packs were
stamped with.
-/

namespace MiniOpera.Ledger
open GoRuntime InterEvent EventCheck GossipStore Caching ByteOrder Consensus
  Service Genesis Chunking

/-! ## Packs -/

def totalSize (chunk : List Event) : Nat := (chunk.map (·.size)).sum

/-- The info of a pack with these events. -/
def infoOf (idx : Nat) (chunk : List Event) (heads : List EventID) : PackInfo :=
  ⟨idx, UInt32.ofNat (totalSize chunk), UInt32.ofNat chunk.length, heads⟩

def packFull (chunk : List Event) : Bool := isFull (infoOf 0 chunk [])

/-- The packs of one epoch, pinned ones stamped with their heads. -/
abbrev Packs := Chunks Event (List EventID)

/-- The events of the pack with an index; the indexes start from one. -/
def packAt (c : Packs) : Nat → List Event
  | 0 => []
  | j + 1 => (c.all[j]?).getD []

/-- The row that stands for a pack: none for a pack that was never written. -/
def rowAt (c : Packs) : Nat → Option PackInfo
  | 0 => none
  | j + 1 =>
    match c.closed[j]? with
    | some p => some (infoOf (j + 1) p.1 p.2)
    | none =>
      if j = c.closed.length ∧ c.current ≠ [] then some (infoOf (j + 1) c.current []) else none

/-- The three tables hold the packs of an epoch. -/
structure PacksMatch (d : Data) (epoch : Nat) (c : Packs) : Prop where
  num : (d.packsNum epoch).getD 1 = c.closed.length + 1
  infos : ∀ i, d.packInfos (epoch, i) = rowAt c i
  sets : ∀ i id, id ∈ d.packs (epoch, i) ↔ ∃ e ∈ packAt c i, e.id = id

theorem packsMatch_empty (epoch : Nat) {d : Data} (hn : d.packsNum epoch = none)
    (hi : ∀ i, d.packInfos (epoch, i) = none) (hs : ∀ i, d.packs (epoch, i) = ∅) :
    PacksMatch d epoch Chunks.empty where
  num := by rw [hn]; rfl
  infos := by
    intro i
    rw [hi]
    cases i <;> simp [rowAt, Chunks.empty]
  sets := by
    intro i id
    rw [hs]
    cases i with
    | zero => simp [packAt]
    | succ j => cases j <;> simp [packAt, Chunks.all, Chunks.empty]

/-- The info of the current pack, written or not. -/
theorem currentInfo_eq {d : Data} {epoch : Nat} {c : Packs} (h : PacksMatch d epoch c) :
    (d.packInfos (epoch, c.closed.length + 1)).getD ⟨c.closed.length + 1, 0, 0, []⟩ =
      infoOf (c.closed.length + 1) c.current [] := by
  rw [h.infos]
  by_cases hc : c.current = [] <;> simp [rowAt, hc, infoOf, totalSize]

/-- The entry that `packsOnNewEvent` computes. -/
theorem packEntry_eq {d : Data} {epoch : Nat} {c : Packs} (h : PacksMatch d epoch c) (e : Event) :
    packEntry d e epoch = infoOf (c.closed.length + 1) (c.current ++ [e]) [] := by
  simp only [packEntry, h.num, currentInfo_eq h]
  simp [infoOf, totalSize, UInt32.ofNat_add]

theorem isFull_infoOf (idx : Nat) (chunk : List Event) (heads : List EventID) :
    isFull (infoOf idx chunk heads) ↔ packFull chunk = true := by
  simp [packFull, isFull, infoOf]

theorem packAt_of_closed {c : Packs} {j : Nat} (hj : j < c.closed.length) :
    packAt c (j + 1) = (c.closed[j]).1 := by
  simp [packAt, Chunks.all, List.getElem?_append, hj]

theorem packAt_current (c : Packs) : packAt c (c.closed.length + 1) = c.current := by
  simp [packAt, Chunks.all]

theorem packAt_beyond {c : Packs} {j : Nat} (hj : c.closed.length < j) : packAt c (j + 1) = [] := by
  have : (c.closed.map Prod.fst ++ [c.current]).length ≤ j := by simp; omega
  simp [packAt, Chunks.all, List.getElem?_eq_none this]

/-- Closing the current pack as `chunk`: every other index keeps its pack. -/
theorem packAt_closed (c : Packs) (chunk : List Event) (stamp : List EventID) (i : Nat) :
    packAt ⟨c.closed ++ [(chunk, stamp)], []⟩ i =
      if i = c.closed.length + 1 then chunk else packAt c i := by
  cases i with
  | zero => simp [packAt]
  | succ j =>
    rcases Nat.lt_trichotomy j c.closed.length with hlt | heq | hgt
    · rw [if_neg (by omega), packAt_of_closed hlt, packAt_of_closed (by simp; omega)]
      simp [hlt]
    · subst heq
      rw [if_pos rfl, packAt_of_closed (by simp)]
      simp
    · rw [if_neg (by omega), packAt_beyond hgt]
      rcases Nat.lt_or_ge (c.closed.length + 1) j with h | h
      · exact packAt_beyond (by simpa using h)
      · have hj : j = c.closed.length + 1 := by omega
        subst hj
        simp [packAt, Chunks.all]

theorem rowAt_closed (c : Packs) (chunk : List Event) (stamp : List EventID) (i : Nat) :
    rowAt ⟨c.closed ++ [(chunk, stamp)], []⟩ i =
      if i = c.closed.length + 1 then some (infoOf (c.closed.length + 1) chunk stamp)
      else rowAt c i := by
  cases i with
  | zero => simp [rowAt]
  | succ j =>
    rcases Nat.lt_trichotomy j c.closed.length with hlt | heq | hgt
    · rw [if_neg (by omega)]
      simp [rowAt, List.getElem?_append, hlt]
    · subst heq
      simp [rowAt]
    · have h1 : (c.closed ++ [(chunk, stamp)])[j]? = none :=
        List.getElem?_eq_none (by simp; omega)
      have h2 : c.closed[j]? = none := List.getElem?_eq_none (by omega)
      rw [if_neg (by omega)]
      simp only [rowAt, h1, h2]
      rw [if_neg (by simp), if_neg (by omega)]

/-- Filling the current pack. -/
theorem packAt_filled (c : Packs) (chunk : List Event) (i : Nat) :
    packAt ⟨c.closed, chunk⟩ i = if i = c.closed.length + 1 then chunk else packAt c i := by
  cases i with
  | zero => simp [packAt]
  | succ j =>
    rcases Nat.lt_trichotomy j c.closed.length with hlt | heq | hgt
    · rw [if_neg (by omega), packAt_of_closed hlt, packAt_of_closed
        (c := ⟨c.closed, chunk⟩) hlt]
    · subst heq
      rw [if_pos rfl]
      exact packAt_current ⟨c.closed, chunk⟩
    · rw [if_neg (by omega), packAt_beyond hgt, packAt_beyond (c := ⟨c.closed, chunk⟩) hgt]

theorem rowAt_filled (c : Packs) {chunk : List Event} (hchunk : chunk ≠ []) (i : Nat) :
    rowAt ⟨c.closed, chunk⟩ i =
      if i = c.closed.length + 1 then some (infoOf (c.closed.length + 1) chunk [])
      else rowAt c i := by
  cases i with
  | zero => simp [rowAt]
  | succ j =>
    rcases Nat.lt_trichotomy j c.closed.length with hlt | heq | hgt
    · rw [if_neg (by omega)]
      simp [rowAt, hlt]
    · subst heq
      simp [rowAt, hchunk]
    · rw [if_neg (by omega)]
      have h2 : c.closed[j]? = none := List.getElem?_eq_none (by omega)
      simp only [rowAt, h2]
      rw [if_neg (by omega), if_neg (by omega)]

/-- `packsOnNewEvent` adds the event to the packs of its epoch. -/
theorem recordInPack_matches {d : Data} {epoch : Nat} {c : Packs} (h : PacksMatch d epoch c)
    (e : Event) : PacksMatch (recordInPack d e epoch) epoch (c.add packFull e d.heads) := by
  have hsets : ∀ i id, id ∈ Function.update d.packs (epoch, c.closed.length + 1)
      ((d.packs (epoch, c.closed.length + 1)).insert e.id) (epoch, i) ↔
        ∃ x ∈ (if i = c.closed.length + 1 then c.current ++ [e] else packAt c i),
          x.id = id := by
    intro i id
    by_cases hi : i = c.closed.length + 1
    · subst hi
      rw [Function.update_self, Std.ExtTreeSet.mem_insert, h.sets, packAt_current, if_pos rfl]
      simp only [Std.LawfulEqOrd.compare_eq_iff_eq, List.mem_append, List.mem_singleton]
      constructor
      · rintro (hid | ⟨x, hx, hid⟩)
        · exact ⟨e, .inr rfl, hid⟩
        · exact ⟨x, .inl hx, hid⟩
      · rintro ⟨x, hx | rfl, hid⟩
        · exact .inr ⟨x, hx, hid⟩
        · exact .inl hid
    · rw [Function.update_of_ne (by simpa using hi), h.sets, if_neg hi]
  simp only [recordInPack, packEntry_eq h, isFull_infoOf, h.num, Chunks.add]
  split
  · refine ⟨by simp, fun i => ?_, fun i id => ?_⟩
    · rw [rowAt_closed]
      by_cases hi : i = c.closed.length + 1
      · subst hi
        simp [infoOf]
      · simp [hi, h.infos]
    · rw [packAt_closed]
      exact hsets i id
  · refine ⟨by simpa using h.num, fun i => ?_, fun i id => ?_⟩
    · rw [rowAt_filled c (by simp)]
      by_cases hi : i = c.closed.length + 1
      · subst hi
        simp
      · simp [hi, h.infos]
    · rw [packAt_filled]
      exact hsets i id

/-- `packsOnNewEpoch` closes the current pack, whatever is in it. -/
theorem pinLastPack_matches {d : Data} {epoch : Nat} {c : Packs} (h : PacksMatch d epoch c) :
    PacksMatch (pinLastPack d epoch) epoch (c.close d.heads) := by
  simp only [pinLastPack, h.num, currentInfo_eq h, Chunks.close]
  refine ⟨by simp, fun i => ?_, fun i id => ?_⟩
  · rw [rowAt_closed]
    by_cases hi : i = c.closed.length + 1
    · subst hi
      simp [infoOf]
    · simp [hi, h.infos]
  · rw [packAt_closed, h.sets]
    by_cases hi : i = c.closed.length + 1
    · rw [if_pos hi, hi, packAt_current]
    · rw [if_neg hi]

/-- What is written for one epoch does not touch the packs of another. -/
theorem PacksMatch.of_eq {d d' : Data} {epoch : Nat} {c : Packs} (h : PacksMatch d epoch c)
    (hn : d'.packsNum epoch = d.packsNum epoch)
    (hi : ∀ i, d'.packInfos (epoch, i) = d.packInfos (epoch, i))
    (hs : ∀ i, d'.packs (epoch, i) = d.packs (epoch, i)) : PacksMatch d' epoch c :=
  ⟨by rw [hn]; exact h.num, fun i => by rw [hi]; exact h.infos i,
    fun i id => by rw [hs]; exact h.sets i id⟩

theorem recordInPack_other {d : Data} {epoch other : Nat} {c : Packs} (h : PacksMatch d other c)
    (e : Event) (hne : other ≠ epoch) : PacksMatch (recordInPack d e epoch) other c := by
  have hkey : ∀ i j : Nat, (other, i) ≠ (epoch, j) := fun i j heq => hne (congrArg Prod.fst heq)
  simp only [recordInPack]
  split
  · exact h.of_eq (Function.update_of_ne hne _ _) (fun i => Function.update_of_ne (hkey i _) _ _)
      fun i => Function.update_of_ne (hkey i _) _ _
  · exact h.of_eq rfl (fun i => Function.update_of_ne (hkey i _) _ _)
      fun i => Function.update_of_ne (hkey i _) _ _

theorem pinLastPack_other {d : Data} {epoch other : Nat} {c : Packs} (h : PacksMatch d other c)
    (hne : other ≠ epoch) : PacksMatch (pinLastPack d epoch) other c := by
  have hkey : ∀ i j : Nat, (other, i) ≠ (epoch, j) := fun i j heq => hne (congrArg Prod.fst heq)
  exact h.of_eq (Function.update_of_ne hne _ _) (fun i => Function.update_of_ne (hkey i _) _ _)
    fun _ => rfl

/-! ## The ledger -/

structure State where
  epoch : Nat
  log : List Event
  heads : EventSet
  packs : Nat → Packs

def initial : State := ⟨firstEpoch, [], ∅, fun _ => .empty⟩

def linkHeads (heads : EventSet) (e : Event) : EventSet :=
  (e.parents.foldl (fun h p => h.erase p) heads).insert e.id

/-- The heads after these events, all of one epoch. -/
def headsOf (events : List Event) : EventSet := events.foldl linkHeads ∅

/-- Connect an event; the epoch afterwards is `newEpoch`. The heads that are
pinned are those before the event. -/
def connect (l : State) (e : Event) (newEpoch : Nat) : State :=
  let packs := (l.packs l.epoch).add packFull e l.heads.toList
  if newEpoch = l.epoch then
    { l with
      log := l.log ++ [e]
      heads := linkHeads l.heads e
      packs := Function.update l.packs l.epoch packs }
  else
    { epoch := newEpoch
      log := l.log ++ [e]
      heads := ∅
      packs := Function.update l.packs l.epoch (packs.close l.heads.toList) }

theorem connect_log (l : State) (e : Event) (newEpoch : Nat) :
    (connect l e newEpoch).log = l.log ++ [e] := by
  unfold connect
  dsimp only
  split <;> rfl

theorem connect_epoch (l : State) (e : Event) (newEpoch : Nat) :
    (connect l e newEpoch).epoch = newEpoch := by
  unfold connect
  dsimp only
  split
  · next h => exact h.symm
  · rfl

/-- Only the packs of the epoch change; sealing closes the one that is left. -/
theorem connect_packs_self (l : State) (e : Event) (newEpoch : Nat) :
    (connect l e newEpoch).packs l.epoch =
      if newEpoch = l.epoch then (l.packs l.epoch).add packFull e l.heads.toList
      else ((l.packs l.epoch).add packFull e l.heads.toList).close l.heads.toList := by
  unfold connect
  dsimp only
  split <;> exact Function.update_self ..

theorem connect_packs_of_ne (l : State) (e : Event) (newEpoch : Nat) {epoch : Nat}
    (h : epoch ≠ l.epoch) : (connect l e newEpoch).packs epoch = l.packs epoch := by
  unfold connect
  dsimp only
  split <;> exact Function.update_of_ne h ..

/-- The last event of a validator in the current epoch. -/
def tipOf (l : State) (v : ValidatorID) : Option Event :=
  (l.log.filter fun e => e.epoch.toNat = l.epoch ∧ e.creator = v).getLast?

/-- The log of an epoch. -/
def epochLog (log : List Event) (epoch : Nat) : List Event :=
  log.filter fun e => e.epoch.toNat = epoch

theorem epochLog_snoc (log : List Event) (e : Event) (epoch : Nat) :
    epochLog (log ++ [e]) epoch =
      epochLog log epoch ++ if e.epoch.toNat = epoch then [e] else [] := by
  by_cases h : e.epoch.toNat = epoch <;> simp [epochLog, h]

/-- An entry of a list without a second one of its key. -/
theorem filter_key_singleton {α κ : Type} [DecidableEq κ] {key : α → κ} {l : List α}
    (hnodup : (l.map key).Nodup) {a : α} (ha : a ∈ l) :
    l.filter (fun x => key x = key a) = [a] := by
  induction l with
  | nil => cases ha
  | cons b l ih =>
    rw [List.map_cons, List.nodup_cons] at hnodup
    rcases List.mem_cons.mp ha with rfl | ha
    · rw [List.filter_cons_of_pos (by simp), List.filter_eq_nil_iff.mpr]
      intro x hx hkey
      exact hnodup.1 (of_decide_eq_true hkey ▸ List.mem_map_of_mem hx)
    · rw [List.filter_cons_of_neg, ih hnodup.2 ha]
      intro hkey
      exact hnodup.1 (of_decide_eq_true hkey ▸ List.mem_map_of_mem ha)

/-- What holds of every ledger that was built by connecting relevant, new events. -/
structure Sound (l : State) : Prop where
  epochs : ∀ e ∈ l.log, e.epoch.toNat ≤ l.epoch
  nodup : (l.log.map (·.id)).Nodup
  heads : l.heads = headsOf (epochLog l.log l.epoch)
  elements : ∀ ep, (l.packs ep).elements = epochLog l.log ep
  greedy : ∀ ep, Chunks.Greedy packFull (l.packs ep)

/-- No event is of a later epoch. -/
theorem Sound.epochLog_later {l : State} (h : Sound l) {epoch : Nat} (hlt : l.epoch < epoch) :
    epochLog l.log epoch = [] := by
  rw [epochLog, List.filter_eq_nil_iff]
  intro x hx
  have hle := h.epochs x hx
  simp only [decide_eq_true_eq]
  omega

theorem packFull_nil : packFull [] = false := by decide

theorem sound_initial : Sound initial where
  epochs := nofun
  nodup := List.nodup_nil
  heads := rfl
  elements := fun _ => rfl
  greedy := fun _ => .empty _ packFull_nil

theorem Sound.connect {l : State} (h : Sound l) {e : Event} {newEpoch : Nat}
    (hepoch : e.epoch.toNat = l.epoch) (hnew : ∀ x ∈ l.log, x.id ≠ e.id)
    (hle : l.epoch ≤ newEpoch) : Sound (connect l e newEpoch) where
  epochs := by
    intro x hx
    rw [connect_epoch]
    rw [connect_log] at hx
    rcases List.mem_append.mp hx with hx | hx
    · exact Nat.le_trans (h.epochs x hx) hle
    · rw [List.mem_singleton] at hx
      rw [hx, hepoch]
      exact hle
  nodup := by
    rw [connect_log, List.map_append, List.nodup_append]
    refine ⟨h.nodup, by simp, ?_⟩
    intro a ha b hb
    obtain ⟨x, hx, rfl⟩ := List.mem_map.mp ha
    rw [List.map_singleton, List.mem_singleton] at hb
    rw [hb]
    exact hnew x hx
  heads := by
    rw [connect_log, connect_epoch, epochLog_snoc, hepoch]
    by_cases hsame : newEpoch = l.epoch
    · rw [hsame, if_pos rfl, headsOf, List.foldl_append, ← headsOf, ← h.heads, Ledger.connect,
        if_pos rfl]
      rfl
    · have hnil : epochLog l.log newEpoch = [] := h.epochLog_later (by omega)
      rw [if_neg (fun heq => hsame heq.symm), hnil, Ledger.connect, if_neg hsame]
      rfl
  elements := by
    intro ep
    rw [connect_log, epochLog_snoc, hepoch]
    by_cases hep : ep = l.epoch
    · subst hep
      rw [if_pos rfl, ← h.elements, connect_packs_self]
      split <;> simp
    · rw [if_neg (fun heq => hep heq.symm), List.append_nil, ← h.elements,
        connect_packs_of_ne l e newEpoch hep]
  greedy := by
    intro ep
    have hadd := (h.greedy l.epoch).add packFull packFull_nil e l.heads.toList
    by_cases hep : ep = l.epoch
    · subst hep
      rw [connect_packs_self]
      split
      · exact hadd
      · exact hadd.close packFull packFull_nil _
    · rw [connect_packs_of_ne l e newEpoch hep]
      exact h.greedy ep

end MiniOpera.Ledger
