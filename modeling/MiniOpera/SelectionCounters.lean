import Mathlib.Data.Set.Card
import MiniOpera.PoolIndex

/-!
# The counters of selected entries

`dial` takes a slot and `disconnect` and `checkDialTimeout` give it back. A
connection that was not dialed takes no slot but gives one back, and an entry
that is removed while it is dialed never does.

`selection_counters_exact`: as long as neither happens, the counters are the
numbers of entries of the pool that are dialed or connected. The run at the end
has a counter below zero.
-/

namespace MiniOpera.SelectionCounters
open GoRuntime EntryQueue Pool PoolRoster Roster PoolRefinement PoolRuns PoolIndex

variable {ι K F : Type}

/-! ## Holders of slots -/

/-- The entries that are dialed or connected, in or out of the map. -/
def holders (v : Roster ι) (known : Bool) : Finset Ref :=
  (Finset.range v.next).filter fun r =>
    (v.member r).state ≠ .notConnected ∧ (v.member r).knownSelected = known

section Holders

variable {trusted : ι → Bool} {v v' : Roster ι} {r : Ref} {k : Bool}

theorem mem_holders : r ∈ holders v k ↔
    r < v.next ∧ (v.member r).state ≠ .notConnected ∧ (v.member r).knownSelected = k := by
  rw [holders, Finset.mem_filter, Finset.mem_range]

/-- No entry changes between idle and busy. -/
theorem holders_congr (hnext : v'.next = v.next)
    (hstate : ∀ x, (v'.member x).state = .notConnected ↔ (v.member x).state = .notConnected)
    (hflag : ∀ x, (v'.member x).knownSelected = (v.member x).knownSelected) :
    holders v' k = holders v k := by
  ext x
  rw [mem_holders, mem_holders, hnext, hflag, ne_eq, hstate]

theorem holders_dial (hlt : r < v.next) (known : Bool) (hidle : v.Idle r) :
    holders (v.dial r known) k = if k = known then insert r (holders v k) else holders v k := by
  have hmember : ∀ x, x ≠ r → (v.dial r known).member x = v.member x :=
    fun x hx => put_of_ne hx
  have hself : (v.dial r known).member r =
    { v.member r with state := .dialed, knownSelected := known } :=
    put_self _
  have hnot : r ∉ holders v k := fun hr => (mem_holders.mp hr).2.1 hidle
  ext x
  by_cases hx : x = r
  · subst hx
    rw [mem_holders, hself]
    split
    · next heq => simp [heq, show x < (v.dial x known).next from hlt]
    · next hne => simp [hnot, Ne.symm hne]
  · have hsame : x ∈ holders (v.dial r known) k ↔ x ∈ holders v k := by
      rw [mem_holders, mem_holders, hmember x hx]
      exact Iff.rfl
    rw [hsame]
    split <;> simp [hx]

theorem holders_release : holders (v.release r) k = (holders v k).erase r := by
  have hmember : ∀ x, x ≠ r → (v.release r).member x = v.member x := fun x hx => put_of_ne hx
  have hself : (v.release r).member r = { v.member r with state := .notConnected } := put_self _
  ext x
  rw [Finset.mem_erase, mem_holders]
  by_cases hx : x = r
  · subst hx
    rw [hself]
    simp
  · rw [hmember x hx, mem_holders]
    exact (and_iff_right hx).symm

theorem holders_enter [DecidableEq ι] {m : Member ι} (hidle : m.state = .notConnected) :
    holders (v.enter m) k = holders v k := by
  ext x
  rw [mem_holders, mem_holders]
  by_cases hx : x = v.next
  · subst hx
    rw [enter_self]
    simp [hidle]
  · rw [Roster.enter, put_of_ne hx]
    have hnext : x < v.next + 1 ↔ x < v.next :=
      ⟨fun h => Nat.lt_of_le_of_ne (Nat.le_of_lt_succ h) hx, Nat.lt_succ_of_lt⟩
    exact and_congr_left' hnext

theorem holders_touch [DecidableEq ι] (known : Bool) : holders (v.touch known r) k = holders v k :=
  holders_congr (touch_next known) (fun x => by rw [touch_state]) (touch_knownSelected known)

end Holders

/-! ## Steps -/

/-- The entry that a new one would drive out of the table holds no slot. -/
def HeadIdle (v : Roster ι) (known : Bool) : Prop :=
  (v.table known).length = maxEntries known → ∀ e, (v.table known).head? = some e → v.Idle e

/-- The map and the tables agree, no removed entry holds a slot, and the counters
are the numbers of holders. -/
structure Exact (v : Roster ι) : Prop where
  indexed : Indexed v
  settled : ∀ x, (v.member x).removed = true → v.Idle x
  balanced : ∀ k, v.selected k = (holders v k).card

/-- Only peers that were dialed connect, and only idle entries are driven out. -/
def Calm (trusted : ι → Bool) (v : Roster ι) : Event ι → Prop
  | .discover id => trusted id = false → v.entries id = none → HeadIdle v false
  | .connect id _ => trusted id = true ∨ ∃ r, v.entries id = some r ∧ ¬v.Idle r
  | .register r => (v.member r).known = false → HeadIdle v true
  | _ => True

section Steps

variable {trusted : ι → Bool} {v v' : Roster ι} {o : Option Ref} {r : Ref}

/-- A member that changes is idle if it is marked as removed. -/
theorem put_settled (h : ∀ x, (v.member x).removed = true → v.Idle x) {m : Member ι}
    (hm : m.removed = true → m.state = .notConnected) (x : Ref)
    (hx : ((v.put r m).member x).removed = true) : (v.put r m).Idle x := by
  by_cases hxr : x = r
  · subst hxr
    rw [put_self] at hx
    rw [Roster.Idle, put_self]
    exact hm hx
  · rw [put_of_ne hxr] at hx
    rw [Roster.Idle, put_of_ne hxr]
    exact h x hx

/-- An idle entry of a table takes a slot. -/
theorem Exact.dial (h : Exact v) (hs : Sound trusted v) (hr : v.Listed r) (hidle : v.Idle r)
    (known : Bool) : Exact (v.dial r known) where
  indexed := h.indexed.dial r known
  settled :=
    put_settled (m := { v.member r with state := .dialed, knownSelected := known }) h.settled
      fun hrem => absurd hr ((h.indexed.gone r hrem).1 _)
  balanced k := by
    have hnot : r ∉ holders v k := fun hr => (mem_holders.mp hr).2.1 hidle
    rw [holders_dial (hs.listed _ r hr).1 known hidle]
    show Function.update v.selected known (v.selected known + 1) k = _
    split
    · next heq =>
      rw [heq, Function.update_self, ← heq, Finset.card_insert_of_notMem hnot, h.balanced k]
      norm_cast
    · next hne =>
      rw [Function.update_of_ne hne]
      exact h.balanced k

theorem Exact.dials (h : Exact v) (hs : Sound trusted v) (hd : Dials v v') : Exact v' := by
  induction hd with
  | refl => exact h
  | dial hd hlisted hidle known ih => exact ih.dial (hs.dials hd) hlisted hidle known

/-- A holder gives its slot back. -/
theorem Exact.release (h : Exact v) (hs : Sound trusted v) (hbusy : ¬v.Idle r) :
    Exact (v.release r) where
  indexed := h.indexed.release r
  settled := put_settled (m := { v.member r with state := .notConnected }) h.settled fun _ => rfl
  balanced k := by
    rw [holders_release]
    show Function.update v.selected (v.member r).knownSelected
      (v.selected (v.member r).knownSelected + -1) k = _
    by_cases hk : k = (v.member r).knownSelected
    · subst hk
      have hmem : r ∈ holders v (v.member r).knownSelected :=
        mem_holders.mpr ⟨(hs.busy r hbusy).1, hbusy, rfl⟩
      have hcard := Finset.card_erase_add_one hmem
      rw [Function.update_self, h.balanced]
      omega
    · have hnot : r ∉ holders v k := fun hmem => hk (mem_holders.mp hmem).2.2.symm
      rw [Function.update_of_ne hk, Finset.erase_eq_of_notMem hnot]
      exact h.balanced k

/-- A busy member gets another busy state. -/
theorem put_busy {m : Member ι} (hbusy : ¬v.Idle r) (hm : m.state ≠ .notConnected)
    (hflag : m.knownSelected = (v.member r).knownSelected) (k : Bool) :
    holders (v.put r m) k = holders v k := by
  refine holders_congr rfl (fun x => ?_) (fun x => ?_)
  · by_cases hx : x = r
    · rw [hx, put_self]
      exact iff_of_false hm hbusy
    · rw [put_of_ne hx]
  · by_cases hx : x = r
    · rw [hx, put_self, hflag]
    · rw [put_of_ne hx]

/-- The peer of a dialed entry connects. -/
theorem Exact.accept (h : Exact v) (hbusy : ¬v.Idle r) : Exact (v.accept r) where
  indexed := h.indexed.accept r
  settled := put_settled (m := { v.member r with state := .connected }) h.settled
    fun hrem => absurd (h.settled r hrem) hbusy
  balanced k := by
    have hsame := put_busy (m := { v.member r with state := .connected }) hbusy
      (by intro heq; cases heq) rfl k
    rw [Roster.accept, hsame]
    exact h.balanced k

variable [DecidableEq ι]

/-- Who is driven out is idle. -/
theorem touch_settled (h : ∀ x, (v.member x).removed = true → v.Idle x) {known : Bool}
    (hout : ∀ e, v.evicted known r = some e → v.Idle e) (x : Ref)
    (hx : ((v.touch known r).member x).removed = true) : (v.touch known r).Idle x := by
  rw [Roster.Idle, touch_state]
  rw [touch_member] at hx
  split at hx
  · next hev => exact hout x hev
  · exact h x hx

/-- A new entry is made. -/
theorem Exact.add (h : Exact v) (hs : Sound trusted v) {id : ι} (hnone : v.entries id = none)
    (hhead : HeadIdle v false) : Exact (v.add id) where
  indexed := h.indexed.add hs hnone
  settled := by
    have henter : ∀ x, ((v.enter ⟨id, .notConnected, false, false, false⟩).member x).removed =
      true →
        (v.enter ⟨id, .notConnected, false, false, false⟩).Idle x :=
          put_settled h.settled fun _ => rfl
    refine touch_settled henter fun e he => ?_
    obtain ⟨-, hfull, he⟩ := Recency.touch_evicts he
    have hlt := (hs.listed false e (List.mem_of_mem_head? he)).1
    rw [Roster.Idle, Roster.enter, put_of_ne (Nat.ne_of_lt hlt)]
    exact hhead hfull e he
  balanced k := by
    rw [Roster.add, touch_selected, holders_touch, holders_enter rfl]
    exact h.balanced k

theorem Exact.find (h : Exact v) (hs : Sound trusted v) {id : ι} (hid : trusted id = false)
    (hf : Find v id r v') (hhead : v.entries id = none → HeadIdle v false) : Exact v' := by
  cases hf with
  | known => exact h
  | new hr hk =>
    have hlisted := (hs.entry_cases hid hr).2.2
    rw [Roster.Listed, hk] at hlisted
    refine ⟨h.indexed.find hs (.new hr hk), touch_settled h.settled fun e he => ?_, fun k => ?_⟩
    · exact absurd hlisted (Recency.touch_evicts he).1
    · rw [touch_selected, holders_touch]
      exact h.balanced k
  | unknown hnone => exact h.add hs hnone (hhead hnone)

/-- A connected entry becomes known. -/
theorem Exact.register (h : Exact v) (hs : Sound trusted v) (hr : v.Handed r)
    (hhead : (v.member r).known = false → HeadIdle v true) : Exact (v.register r) := by
  have hbusy := not_idle_of_handed hr
  have halive : (v.member r).removed = false :=
    Bool.eq_false_iff.mpr fun hrem => hbusy (h.settled r hrem)
  obtain ⟨hlt, hid⟩ := hs.busy r hbusy
  have hlisted := hs.listed_of_alive hlt hid halive
  refine ⟨step_indexed h.indexed hs (.register hr) fun x hx => ?_, ?_, fun k => ?_⟩
  · cases hx
    exact halive
  · have hpromote : ∀ x, ((v.promote r).member x).removed = true → (v.promote r).Idle x :=
      put_settled h.settled fun hrem => absurd (h.settled r hrem) hbusy
    refine touch_settled hpromote fun e he => ?_
    obtain ⟨hnot, hfull, he⟩ := Recency.touch_evicts he
    have hmem := List.mem_of_mem_head? he
    have hne : e ≠ r := fun heq => hnot (heq ▸ hmem)
    -- the table of the known entries has not changed
    have htable : (v.promote r).table true = v.table true := by
      show (ite _ _ _ : Bool → List Ref) true = _
      split
      · rfl
      · exact Function.update_of_ne (by decide) ..
    rw [htable] at hnot hfull he
    have hk : (v.member r).known = false := by
      refine Bool.eq_false_iff.mpr fun hk => hnot ?_
      rw [Roster.Listed, hk] at hlisted
      exact hlisted
    rw [Roster.Idle, Roster.promote, put_of_ne hne]
    exact hhead hk hfull e he
  · have hsame := put_busy (m := { v.member r with state := .registered, known := true }) hbusy
      (by intro heq; cases heq) rfl k
    rw [Roster.register, touch_selected, holders_touch]
    show v.selected k = (holders (v.put r _) k).card
    rw [hsame]
    exact h.balanced k

/-- One message. -/
theorem step_exact (h : Exact v) (hs : Sound trusted v) {a : Event ι} (hstep : Step trusted v a v')
    (hcalm : Calm trusted v a) : Exact v' := by
  cases hstep with
  | quiet | lateTimeout | noRetry | ignored | trusted | refused => exact h
  | timeout hstate =>
    refine h.release hs fun hidle => ?_
    rw [Roster.Idle, hstate] at hidle
    cases hidle
  | retry hd => exact h.dials hs hd
  | discover hid hf hd => exact (h.find hs hid hf (hcalm hid)).dials (hs.find hid hf).1 hd
  | accepted hid hr =>
    rcases hcalm with ht | ⟨x, hx, hbusy⟩
    · rw [hid] at ht
      cases ht
    · cases hr.symm.trans hx
      exact h.accept hbusy
  | acceptedNew hid hr =>
    rcases hcalm with ht | ⟨x, hx, -⟩
    · rw [hid] at ht
      cases ht
    · cases hr.symm.trans hx
  | register hr => exact h.register hs hr hcalm
  | disconnect hr => exact h.release hs (not_idle_of_handed hr)

omit [DecidableEq ι] in
/-- At the start. -/
theorem Exact.of_resting (h : Resting v) (hi : Indexed v) : Exact v := by
  refine ⟨hi, fun x _ => h.1 x, fun k => ?_⟩
  have hempty : holders v k = ∅ :=
    Finset.eq_empty_of_forall_notMem fun x hx => (mem_holders.mp hx).2.1 (h.1 x)
  rw [hempty, h.2 k]
  rfl

end Steps

/-! ## The counters of the pool -/

/-- The entries of the pool that are dialed or connected, selected as known or
as new ones. -/
def slots (p : ServerPool ι K F) (known : Bool) : Set Ref :=
  { r | ∃ id, p.entries id = some r ∧ (p.heap r).state ≠ .notConnected ∧
    (p.heap r).knownSelected = known }

/-- If the queue is full, its oldest entry holds no slot. -/
def OldestIdle (p : ServerPool ι K F) (known : Bool) : Prop :=
  (p.queue known).queue.size = (p.queue known).maxCnt →
    ∀ i < (p.queue known).newPtr, ∀ r ∈ (p.queue known).queue[i]?,
      (∀ j < i, (p.queue known).queue[j]? = none) → (p.heap r).state = .notConnected

/-- Only peers that the pool has dialed connect, and a new entry of a full queue
drives out an entry that is not dialed or connected. -/
def Undisturbed : Condition ι K F
  | p, .discNode node =>
    p.trustedNodes node.id = false → p.entries node.id = none → OldestIdle p false
  | p, .connect node =>
    p.trustedNodes node.id = true ∨ ∃ r ∈ p.entries node.id,
      (p.heap r).state ≠ .notConnected
  | p, .register r => (p.heap r).known = false → OldestIdle p true
  | _, _ => True

instance (p : ServerPool ι K F) (known : Bool) : Decidable (OldestIdle p known) :=
  inferInstanceAs (Decidable (_ → ∀ i < _, ∀ r ∈ (p.queue known).queue[i]?,
    (∀ j < i, _) → _))

instance (p : ServerPool ι K F) : DecidablePred (Undisturbed p) := fun msg =>
  match msg with
  | .discNode node =>
    inferInstanceAs (Decidable (p.trustedNodes node.id = false → p.entries node.id = none →
      OldestIdle p false))
  | .connect node => inferInstanceAs (Decidable (p.trustedNodes node.id = true ∨
      ∃ r ∈ p.entries node.id, (p.heap r).state ≠ .notConnected))
  | .register r => inferInstanceAs (Decidable ((p.heap r).known = false → OldestIdle p true))
  | .timeout _ => .isTrue trivial
  | .enableRetry _ => .isTrue trivial
  | .adjustStats _ _ _ => .isTrue trivial
  | .discLookup _ => .isTrue trivial
  | .disconnect _ _ => .isTrue trivial

section Pool

variable {trusted : ι → Bool} {p : ServerPool ι K F} {v : Roster ι}

theorem headIdle_of_oldestIdle (h : Refines trusted p v) {known : Bool}
    (hidle : OldestIdle p known) :
    HeadIdle v known := by
  intro hfull e he
  have hq := h.queue known
  obtain ⟨rest, hl⟩ : ∃ rest, v.table known = e :: rest := by
    cases hl : v.table known with
    | nil =>
      rw [hl] at he
      cases he
    | cons e' rest =>
      rw [hl] at he
      cases he
      exact ⟨rest, rfl⟩
  have hmem : e ∈ v.table known := by rw [hl]; exact List.mem_cons_self
  rw [Roster.Idle, ← h.member_state]
  refine hidle ?_ (p.queueIdx e) (hq.range e hmem).2 e (hq.slot_iff.mpr hmem) fun j hj => ?_
  · rw [hq.size, hfull, h.maxCnt]
  · -- every other entry was used after the first
    refine Option.eq_none_iff_forall_ne_some.mpr fun x hx => ?_
    obtain ⟨hx, hxj⟩ := (hq.slots j x).mp hx
    have horder := hq.order
    rw [hl] at hx horder
    rcases List.mem_cons.mp hx with rfl | hx
    · omega
    · have hlt := (List.pairwise_cons.mp horder).1 x hx
      omega

theorem calm_of_undisturbed (h : Refines trusted p v) {msg : ServerPool.Msg ι K F}
    (hcond : Undisturbed p msg) (a : Option Ref) : Calm trusted v (eventOf a msg) := by
  cases msg with
  | timeout | enableRetry | adjustStats | discLookup | disconnect => exact trivial
  | discNode node =>
    intro htrust hnone
    rw [← h.trusts] at htrust
    rw [← h.entries] at hnone
    exact headIdle_of_oldestIdle h (hcond htrust hnone)
  | connect node =>
    rcases hcond with ht | ⟨r, hr, hbusy⟩
    · rw [h.trusts] at ht
      exact .inl ht
    · rw [h.entries] at hr
      rw [h.member_state] at hbusy
      exact .inr ⟨r, hr, hbusy⟩
  | register r =>
    intro hk
    rw [← h.member_known] at hk
    exact headIdle_of_oldestIdle h (hcond hk)

/-- Every holder is in the map. -/
theorem holder_entry (h : Refines trusted p v) (he : Exact v) {r : Ref}
    (hbusy : (p.heap r).state ≠ .notConnected) : p.entries (p.heap r).node.id = some r := by
  rw [h.member_state] at hbusy
  obtain ⟨hlt, hid⟩ := h.sound.busy r hbusy
  have halive : (v.member r).removed = false :=
    Bool.eq_false_iff.mpr fun hrem => hbusy (he.settled r hrem)
  rw [h.entries, h.member_id]
  exact he.indexed.inMap _ r (Sound.listed_of_alive h.sound hlt hid halive)

theorem slots_eq (h : Refines trusted p v) (he : Exact v) (known : Bool) :
    slots p known = ↑(holders v known) := by
  ext r
  rw [Finset.mem_coe, mem_holders, ← h.member_state, ← h.member_knownSelected, ← h.next]
  constructor
  · rintro ⟨id, hr, hbusy, hflag⟩
    rw [h.entries] at hr
    rw [h.next]
    exact ⟨(h.sound.entry id r hr).1, hbusy, hflag⟩
  · rintro ⟨-, hbusy, hflag⟩
    exact ⟨_, holder_entry h he hbusy, hbusy, hflag⟩

end Pool

section Runs

variable [DecidableEq ι] [Zero F] [One F] [Add F] [Mul F] [Inhabited (Node ι K)]

/-- **The counters are exact** as long as only dialed peers connect and only idle
entries are driven out; no other entry holds a slot. -/
theorem selection_counters_exact (trusted : ι → Bool) (idOf : K → ι)
    (nodes : List (StoredNode K F))
    (hnodes : (nodes.map fun s => idOf s.pubkey).Nodup) {p : ServerPool ι K F}
    (h : Reachable trusted idOf nodes Undisturbed p) :
    p.knownSelected = (slots p true).ncard ∧ p.newSelected = (slots p false).ncard ∧
      0 ≤ p.knownSelected ∧ 0 ≤ p.newSelected ∧
      ∀ r, (p.heap r).state ≠ .notConnected → p.entries (p.heap r).node.id = some r := by
  obtain ⟨v, hp, he⟩ : ∃ v, Refines trusted p v ∧ Exact v := by
    refine reachable_refines (fun v hd => ?_) (fun p v msg a v' hp he _ hcond hstep => ?_) h
    · obtain ⟨hsound, hrest⟩ := stored_sound trusted idOf nodes
      exact (Exact.of_resting hrest (stored_indexed trusted hnodes)).dials hsound hd
    · exact step_exact he hp.sound hstep (calm_of_undisturbed hp hcond a)
  have hcount : ∀ k, p.selected k = (slots p k).ncard := by
    intro k
    rw [slots_eq hp he, Set.ncard_coe_finset, hp.selected, he.balanced]
  have hknown : p.knownSelected = (slots p true).ncard := hcount true
  have hnew : p.newSelected = (slots p false).ncard := hcount false
  refine ⟨hknown, hnew, ?_, ?_, fun r hr => holder_entry hp he hr⟩
  · rw [hknown]
    exact Int.natCast_nonneg _
  · rw [hnew]
    exact Int.natCast_nonneg _

end Runs

/-- Nodes are stored and discovered; one that was dialed connects, registers and
disconnects, and one is not reached. -/
def dialedMsgs : List (Env Nat Nat Int × ServerPool.Msg Nat Nat Int) :=
  [(plainEnv 1, .discNode (plainNode 2)), (plainEnv 2, .connect (plainNode 2)),
    (plainEnv 3, .register 1), (plainEnv 4, .discNode (plainNode 3)), (plainEnv 5, .timeout 2),
    (plainEnv 6, .disconnect 1 false), (plainEnv 7, .enableRetry 1)]

theorem selection_counters_exact_dialed : ∃ p : ServerPool Nat Nat Int,
    p.knownSelected = (slots p true).ncard ∧ p.newSelected = (slots p false).ncard ∧
      0 < p.knownSelected := by
  obtain ⟨p, hp⟩ := Option.isSome_iff_exists.mp
    (show (runStarted (fun _ => false) id [plainStored 1]
    (plainEnv 0) Undisturbed dialedMsgs).isSome by decide +kernel)
  have hreads : (runStarted (fun _ => false) id [plainStored 1] (plainEnv 0) Undisturbed
      dialedMsgs).map (fun p => decide (0 < p.knownSelected)) = some true := by decide +kernel
  rw [hp, Option.map_some, Option.some.injEq, decide_eq_true_iff] at hreads
  obtain ⟨hknown, hnew, -⟩ := selection_counters_exact (fun _ => false) id
    [plainStored 1] (by decide)
    (runStarted_reachable hp)
  exact ⟨p, hknown, hnew, hreads⟩

/-- A peer connects that was not dialed, and disconnects. -/
theorem negative_counter : ∃ p : ServerPool Nat Nat Int,
    Reachable (fun _ => false) id [] (fun _ _ => True) p ∧ p.newSelected = -1 ∧
      p.newSelected ≠ (slots p false).ncard := by
  obtain ⟨p, hp⟩ := Option.isSome_iff_exists.mp
    (show (runStarted (fun _ => false) id [] (plainEnv 0)
    (fun _ _ => True) [(plainEnv 1, .connect (plainNode 1)),
      (plainEnv 2, .disconnect 0 false)]).isSome
    by decide +kernel)
  have hreads : (runStarted (fun _ => false) id [] (plainEnv 0) (fun _ _ => True)
      [(plainEnv 1, .connect (plainNode 1)), (plainEnv 2, .disconnect 0 false)]).map
        (fun p => p.newSelected) = some (-1) := by decide +kernel
  rw [hp, Option.map_some, Option.some.injEq] at hreads
  refine ⟨p, runStarted_reachable hp, hreads, ?_⟩
  rw [hreads]
  omega

end MiniOpera.SelectionCounters
