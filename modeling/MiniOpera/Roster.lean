import MiniOpera.ServerPool

/-!
# The roster

What the pool is for, without queues, selections and addresses: the entries
with their states, the map from IDs to entries, two tables in the order of last
use and two counters of selected entries. `Step` is what a message to the pool
may do to it.

`Sound` holds in every run: the entries of a table have the `known` flag of the
table, and an entry that is in the map or has not been removed is in its table.
-/

namespace MiniOpera.PoolRoster
open EntryQueue Pool

structure Member (ι : Type) where
  id : ι
  state : ConnState
  known : Bool
  knownSelected : Bool
  removed : Bool

/-- The tables and the counters are those of the known entries at `true` and
those of the new entries at `false`. -/
structure Roster (ι : Type) where
  member : Ref → Member ι
  next : Nat
  entries : ι → Option Ref
  table : Bool → List Ref
  selected : Bool → Int

def maxEntries (known : Bool) : Nat := if known then maxKnownEntries else maxNewEntries

variable {ι : Type}

namespace Roster

/-- Its place is in the table of its `known` flag. -/
def Listed (v : Roster ι) (r : Ref) : Prop := r ∈ v.table (v.member r).known

def Idle (v : Roster ι) (r : Ref) : Prop := (v.member r).state = .notConnected

/-- Handed to a peer that has not disconnected. -/
def Handed (v : Roster ι) (r : Ref) : Prop :=
  (v.member r).state = .connected ∨ (v.member r).state = .registered

def put (v : Roster ι) (r : Ref) (m : Member ι) : Roster ι :=
  { v with member := Function.update v.member r m }

def addSelected (v : Roster ι) (known : Bool) (d : Int) : Roster ι :=
  { v with selected := Function.update v.selected known (v.selected known + d) }

def dial (v : Roster ι) (r : Ref) (known : Bool) : Roster ι :=
  (v.put r { v.member r with state := .dialed, knownSelected := known }).addSelected known 1

def release (v : Roster ι) (r : Ref) : Roster ι :=
  (v.put r { v.member r with state := .notConnected }).addSelected (v.member r).knownSelected (-1)

def accept (v : Roster ι) (r : Ref) : Roster ι := v.put r { v.member r with state := .connected }

variable [DecidableEq ι]

def evict (v : Roster ι) : Option Ref → Roster ι
  | none => v
  | some r =>
    { v.put r { v.member r with removed := true } with
      entries := Function.update v.entries (v.member r).id none }

/-- The entry that `touch` drives out of a full table. -/
def evicted (v : Roster ι) (known : Bool) (r : Ref) : Option Ref :=
  (Recency.touch (maxEntries known) r (v.table known)).1

/-- The entry becomes the most recent one of a table. -/
def touch (v : Roster ι) (known : Bool) (r : Ref) : Roster ι :=
  let t := Recency.touch (maxEntries known) r (v.table known)
  { v with table := Function.update v.table known t.2 }.evict t.1

/-- A new member, in the map but in no table. -/
def enter (v : Roster ι) (m : Member ι) : Roster ι :=
  { v.put v.next m with
    next := v.next + 1
    entries := Function.update v.entries m.id (some v.next) }

def add (v : Roster ι) (id : ι) : Roster ι :=
  (v.enter ⟨id, .notConnected, false, false, false⟩).touch false v.next

/-- Out of the table of the new entries. -/
def promote (v : Roster ι) (r : Ref) : Roster ι :=
  { v.put r { v.member r with state := .registered, known := true } with
    table := if (v.member r).known then v.table
      else Function.update v.table false ((v.table false).erase r) }

def register (v : Roster ι) (r : Ref) : Roster ι := (v.promote r).touch true r

/-- A roster without entries. -/
def empty (id : ι) : Roster ι where
  member _ := ⟨id, .notConnected, false, false, false⟩
  next := 0
  entries _ := none
  table _ := []
  selected _ := 0

/-- A known node of the database. -/
def load (v : Roster ι) (trusted : ι → Bool) (id : ι) : Roster ι :=
  if trusted id then v.enter ⟨id, .notConnected, true, false, false⟩
  else (v.enter ⟨id, .notConnected, true, false, false⟩).touch true v.next

end Roster

open Roster

/-! ## Steps -/

/-- `findOrNewNode`. -/
inductive Find [DecidableEq ι] (v : Roster ι) (id : ι) : Ref → Roster ι → Prop
  | known {r : Ref} (h : v.entries id = some r) (hk : (v.member r).known = true) : Find v id r v
  | new {r : Ref} (h : v.entries id = some r) (hk : (v.member r).known = false) :
      Find v id r (v.touch false r)
  | unknown (h : v.entries id = none) : Find v id v.next (v.add id)

/-- `checkDial`: idle entries of the tables are dialed, one after the other. -/
inductive Dials : Roster ι → Roster ι → Prop
  | refl (v : Roster ι) : Dials v v
  | dial {v v' : Roster ι} (h : Dials v v') {r : Ref} (hlisted : v'.Listed r) (hidle : v'.Idle r)
      (known : Bool) : Dials v (v'.dial r known)

inductive Event (ι : Type)
  | quiet
  | timeout (r : Ref)
  | retry (r : Ref)
  | discover (id : ι)
  | connect (id : ι) (answer : Option Ref)
  | register (r : Ref)
  | disconnect (r : Ref)

inductive Step [DecidableEq ι] (trusted : ι → Bool) (v : Roster ι) :
    Event ι → Roster ι → Prop
  | quiet : Step trusted v .quiet v
  | lateTimeout {r : Ref} (h : (v.member r).removed = true ∨ (v.member r).state ≠ .dialed) :
      Step trusted v (.timeout r) v
  | timeout {r : Ref} (h : (v.member r).state = .dialed) (hr : (v.member r).removed = false) :
      Step trusted v (.timeout r) (v.release r)
  | noRetry {r : Ref} (h : (v.member r).removed = true) : Step trusted v (.retry r) v
  | retry {r : Ref} {v' : Roster ι} (h : Dials v v') : Step trusted v (.retry r) v'
  | ignored {id : ι} (h : trusted id = true) : Step trusted v (.discover id) v
  | discover {id : ι} (h : trusted id = false) {r : Ref} {v1 v' : Roster ι} (hf : Find v id r v1)
      (hd : Dials v1 v') : Step trusted v (.discover id) v'
  | trusted {id : ι} (h : trusted id = true) : Step trusted v (.connect id none) v
  | refused {id : ι} {r : Ref} (hr : v.entries id = some r) (hh : v.Handed r) :
      Step trusted v (.connect id none) v
  | accepted {id : ι} (h : trusted id = false) {r : Ref} (hr : v.entries id = some r)
      (hh : ¬v.Handed r) : Step trusted v (.connect id (some r)) (v.accept r)
  | acceptedNew {id : ι} (h : trusted id = false) (hr : v.entries id = none) :
      Step trusted v (.connect id (some v.next)) ((v.add id).accept v.next)
  | register {r : Ref} (h : v.Handed r) : Step trusted v (.register r) (v.register r)
  | disconnect {r : Ref} (h : v.Handed r) : Step trusted v (.disconnect r) (v.release r)

/-! ## What does not change -/

section Frame

variable {v : Roster ι} {r x : Ref}

theorem put_self (m : Member ι) : (v.put r m).member r = m := Function.update_self ..

theorem put_of_ne {m : Member ι} (h : x ≠ r) : (v.put r m).member x = v.member x :=
  Function.update_of_ne h ..

theorem promote_self : (v.promote r).member r =
    { v.member r with state := .registered, known := true } :=
  put_self _

variable [DecidableEq ι]

/-- An entry that leaves is marked, nothing else. -/
theorem evict_member (o : Option Ref) (x : Ref) :
    (v.evict o).member x =
      if o = some x then { v.member x with removed := true } else v.member x := by
  cases o with
  | none => rfl
  | some e =>
    by_cases hx : x = e
    · subst hx
      rw [if_pos rfl]
      exact Function.update_self ..
    · rw [if_neg fun h => hx (Option.some.inj h).symm]
      exact Function.update_of_ne hx ..

theorem evict_entries {o : Option Ref} {id : ι} :
    (v.evict o).entries id = some x ↔ v.entries id = some x ∧ ∀ e, o = some e →
      (v.member e).id ≠ id := by
  cases o with
  | none => exact ⟨fun h => ⟨h, nofun⟩, And.left⟩
  | some e =>
    show Function.update v.entries (v.member e).id none id = some x ↔ _
    by_cases hid : id = (v.member e).id
    · rw [hid, Function.update_self]
      exact ⟨nofun, fun h => absurd rfl (h.2 e rfl)⟩
    · rw [Function.update_of_ne hid]
      refine ⟨fun h => ⟨h, ?_⟩, And.left⟩
      rintro e' he'
      cases he'
      exact Ne.symm hid

theorem touch_member (known : Bool) (x : Ref) :
    (v.touch known r).member x =
      if v.evicted known r = some x then { v.member x with removed := true } else v.member x :=
  evict_member _ x

theorem evict_table (o : Option Ref) : (v.evict o).table = v.table := by cases o <;> rfl

theorem evict_next (o : Option Ref) : (v.evict o).next = v.next := by cases o <;> rfl

theorem evict_selected (o : Option Ref) : (v.evict o).selected = v.selected := by cases o <;> rfl

theorem touch_table (known : Bool) : (v.touch known r).table =
    Function.update v.table known (Recency.touch (maxEntries known) r (v.table known)).2 :=
  evict_table _

omit [DecidableEq ι] in
theorem evicted_mem {known : Bool} (h : v.evicted known r = some x) :
    r ∉ v.table known ∧ x ∈ v.table known := by
  obtain ⟨hnot, -, hhead⟩ := Recency.touch_evicts h
  exact ⟨hnot, List.mem_of_mem_head? hhead⟩

theorem mem_touch {known k : Bool} (hv : (v.table known).Nodup) :
    x ∈ (v.touch known r).table k ↔
    k = known ∧ x = r ∨ x ∈ v.table k ∧ (k = known → v.evicted known r ≠ some x) := by
  rw [touch_table]
  by_cases hk : k = known
  · subst hk
    rw [Function.update_self, Recency.mem_touch hv]
    simp [Roster.evicted]
  · rw [Function.update_of_ne hk]
    simp [hk]

theorem touch_entries (known : Bool) :
    (v.touch known r).entries = (v.evict (v.evicted known r)).entries := by
  unfold Roster.touch Roster.evicted
  generalize Recency.touch (maxEntries known) r (v.table known) = t
  rcases t with ⟨_ | e, l⟩ <;> rfl

theorem touch_next (known : Bool) : (v.touch known r).next = v.next := evict_next _

theorem touch_selected (known : Bool) : (v.touch known r).selected = v.selected := evict_selected _

theorem touch_id (known : Bool) (x : Ref) : ((v.touch known r).member x).id = (v.member x).id := by
  rw [touch_member]
  split <;> rfl

theorem touch_known (known : Bool) (x : Ref) :
    ((v.touch known r).member x).known = (v.member x).known := by
  rw [touch_member]
  split <;> rfl

theorem touch_state (known : Bool) (x : Ref) :
    ((v.touch known r).member x).state = (v.member x).state := by
  rw [touch_member]
  split <;> rfl

theorem touch_knownSelected (known : Bool) (x : Ref) :
    ((v.touch known r).member x).knownSelected = (v.member x).knownSelected := by
  rw [touch_member]
  split <;> rfl

/-- The entry is in the table. -/
theorem touch_listed {known : Bool} (hv : (v.table known).Nodup) (hr : (v.member r).known = known) :
    (v.touch known r).Listed r := by
  rw [Roster.Listed, touch_known, hr, mem_touch hv]
  exact .inl ⟨rfl, rfl⟩

theorem enter_self (m : Member ι) : (v.enter m).member v.next = m := put_self m

end Frame

/-! ## Soundness -/

/-- The invariant of every run; the entry `o` may be out of its table for now. -/
structure SoundBut (trusted : ι → Bool) (v : Roster ι) (o : Option Ref) : Prop where
  nodup : ∀ k, (v.table k).Nodup
  length : ∀ k, (v.table k).length ≤ maxEntries k
  listed : ∀ k, ∀ x ∈ v.table k,
    x < v.next ∧ (v.member x).known = k ∧ trusted (v.member x).id = false
  busy : ∀ x, ¬v.Idle x → x < v.next ∧ trusted (v.member x).id = false
  entry : ∀ id x, v.entries id = some x →
    x < v.next ∧ (v.member x).id = id ∧ (o = some x ∨ trusted id = true ∨ v.Listed x)
  alive : ∀ x, x < v.next → (v.member x).removed = false →
    o = some x ∨ trusted (v.member x).id = true ∨ v.Listed x

def Sound (trusted : ι → Bool) (v : Roster ι) : Prop := SoundBut trusted v none

section Sound

variable {trusted : ι → Bool} {v : Roster ι} {o : Option Ref} {r : Ref}

theorem Sound.entry_cases (h : Sound trusted v) {id : ι} (hid : trusted id = false)
    (hr : v.entries id = some r) : r < v.next ∧ (v.member r).id = id ∧ v.Listed r := by
  obtain ⟨hlt, heq, hx | hx | hx⟩ := h.entry id r hr
  · cases hx
  · rw [hid] at hx
    cases hx
  · exact ⟨hlt, heq, hx⟩

theorem Sound.listed_of_alive (h : Sound trusted v) (hlt : r < v.next)
    (hid : trusted (v.member r).id = false) (hr : (v.member r).removed = false) : v.Listed r := by
  rcases h.alive r hlt hr with hx | hx | hx
  · cases hx
  · rw [hid] at hx
    cases hx
  · exact hx

theorem not_idle_of_handed (h : v.Handed r) : ¬v.Idle r := by
  intro hidle
  rw [Roster.Handed, hidle] at h
  rcases h with h | h <;> cases h

theorem SoundBut.addSelected (h : SoundBut trusted v o) (k : Bool) (d : Int) :
    SoundBut trusted (v.addSelected k d) o :=
  ⟨h.nodup, h.length, h.listed, h.busy, h.entry, h.alive⟩

/-- A member gets another state. -/
theorem SoundBut.put (h : SoundBut trusted v o) {m : Member ι} (hid : m.id = (v.member r).id)
    (hknown : m.known = (v.member r).known) (hremoved : m.removed = (v.member r).removed)
    (hbusy : m.state ≠ .notConnected → r < v.next ∧ trusted (v.member r).id = false) :
    SoundBut trusted (v.put r m) o := by
  have hids : ∀ x, ((v.put r m).member x).id = (v.member x).id := by
    intro x
    by_cases hx : x = r
    · rw [hx, put_self, hid]
    · rw [put_of_ne hx]
  have hknowns : ∀ x, ((v.put r m).member x).known = (v.member x).known := by
    intro x
    by_cases hx : x = r
    · rw [hx, put_self, hknown]
    · rw [put_of_ne hx]
  have hlisted : ∀ x, (v.put r m).Listed x ↔ v.Listed x := by
    intro x
    rw [Roster.Listed, hknowns]
    exact Iff.rfl
  refine ⟨h.nodup, h.length, ?_, ?_, ?_, ?_⟩
  · intro k x hx
    rw [hids, hknowns]
    exact h.listed k x hx
  · intro x hx
    rw [hids]
    by_cases hxr : x = r
    · subst hxr
      rw [Roster.Idle, put_self] at hx
      exact hbusy hx
    · rw [Roster.Idle, put_of_ne hxr] at hx
      exact h.busy x hx
  · intro id x hx
    rw [hids, hlisted]
    exact h.entry id x hx
  · intro x hx hrem
    rw [hids, hlisted]
    refine h.alive x hx ?_
    by_cases hxr : x = r
    · rw [hxr, put_self, hremoved] at hrem
      rw [hxr, hrem]
    · rw [put_of_ne hxr] at hrem
      exact hrem

/-- A trusted member has no place in a table. -/
theorem SoundBut.of_trusted (h : SoundBut trusted v (some r))
    (hr : trusted (v.member r).id = true) :
    Sound trusted v := by
  refine ⟨h.nodup, h.length, h.listed, h.busy, ?_, ?_⟩
  · intro id x hx
    obtain ⟨hlt, hid, hplace⟩ := h.entry id x hx
    refine ⟨hlt, hid, .inr ?_⟩
    rcases hplace with heq | hplace
    · cases heq
      rw [← hid]
      exact .inl hr
    · exact hplace
  · intro x hx hrem
    rcases h.alive x hx hrem with heq | hplace
    · cases heq
      exact .inr (.inl hr)
    · exact .inr hplace

/-- Promoting an entry takes nothing into a table. -/
theorem promote_sublist (k : Bool) : List.Sublist ((v.promote r).table k) (v.table k) := by
  show List.Sublist ((ite _ _ _ : Bool → List Ref) k) (v.table k)
  split
  · exact List.Sublist.refl _
  · by_cases hk : k = false
    · rw [hk, Function.update_self]
      exact List.erase_sublist
    · rw [Function.update_of_ne hk]

theorem mem_promote (h : Sound trusted v) {k : Bool} {x : Ref} :
    x ∈ (v.promote r).table k ↔ x ∈ v.table k ∧ (x = r → (v.member r).known = true) := by
  show x ∈ (if (v.member r).known then v.table
    else Function.update v.table false ((v.table false).erase r)) k ↔ _
  cases hk : (v.member r).known with
  | true => simp
  | false =>
    rw [if_neg (by simp)]
    by_cases hkf : k = false
    · rw [hkf, Function.update_self, (h.nodup false).mem_erase_iff]
      simp [and_comm]
    · rw [Function.update_of_ne hkf]
      refine ⟨fun hx => ⟨hx, ?_⟩, fun hx => hx.1⟩
      rintro rfl
      rw [(h.listed k x hx).2.1] at hk
      exact absurd hk hkf

theorem Sound.promote (h : Sound trusted v) (hr : ¬v.Idle r) :
    SoundBut trusted (v.promote r) (some r) := by
  have hold : ∀ x, x ≠ r → (v.promote r).member x = v.member x := fun x hx => put_of_ne hx
  have hlisted : ∀ x, x ≠ r → ((v.promote r).Listed x ↔ v.Listed x) := by
    intro x hx
    rw [Roster.Listed, hold x hx, mem_promote h]
    exact and_iff_left fun heq => absurd heq hx
  constructor
  · exact fun k => (promote_sublist k).nodup (h.nodup k)
  · exact fun k => Nat.le_trans (promote_sublist k).length_le (h.length k)
  · intro k x hx
    obtain ⟨hx, hxr⟩ := (mem_promote h).mp hx
    obtain ⟨hlt, hk, hid⟩ := h.listed k x hx
    by_cases heq : x = r
    · subst heq
      rw [promote_self]
      exact ⟨hlt, (hxr rfl).symm.trans hk, hid⟩
    · rw [hold x heq]
      exact ⟨hlt, hk, hid⟩
  · intro x hx
    by_cases heq : x = r
    · rw [heq, promote_self]
      exact h.busy r hr
    · rw [Roster.Idle, hold x heq] at hx
      rw [hold x heq]
      exact h.busy x hx
  · intro id x hx
    obtain ⟨hlt, hid, hplace⟩ := h.entry id x hx
    by_cases heq : x = r
    · subst heq
      rw [promote_self]
      exact ⟨hlt, hid, .inl rfl⟩
    · rw [hold x heq, hlisted x heq]
      exact ⟨hlt, hid, .inr (hplace.resolve_left fun hn => nomatch hn)⟩
  · intro x hx hrem
    by_cases heq : x = r
    · exact .inl (congrArg some heq.symm)
    · rw [hold x heq] at hrem ⊢
      rw [hlisted x heq]
      exact .inr ((h.alive x hx hrem).resolve_left fun hn => nomatch hn)

theorem Sound.dial (h : Sound trusted v) (hr : v.Listed r) (known : Bool) :
    Sound trusted (v.dial r known) := by
  obtain ⟨hlt, -, hid⟩ := h.listed _ r hr
  exact (SoundBut.put (m := { v.member r with state := .dialed, knownSelected := known })
    h rfl rfl rfl
    fun _ => ⟨hlt, hid⟩).addSelected known 1

theorem Sound.dials (h : Sound trusted v) {v' : Roster ι} (hd : Dials v v') :
    Sound trusted v' := by
  induction hd with
  | refl => exact h
  | dial _ hlisted _ known ih => exact ih.dial hlisted known

theorem Sound.release (h : Sound trusted v) : Sound trusted (v.release r) :=
  (SoundBut.put (m := { v.member r with state := .notConnected }) h rfl rfl rfl
    fun hne => absurd rfl hne).addSelected _ _

theorem Sound.accept (h : Sound trusted v) (hr : v.Listed r) : Sound trusted (v.accept r) := by
  obtain ⟨hlt, -, hid⟩ := h.listed _ r hr
  exact SoundBut.put (m := { v.member r with state := .connected }) h rfl rfl rfl fun _ =>
    ⟨hlt, hid⟩

variable [DecidableEq ι]

/-- The entry that was out of its table becomes the most recent one of it. -/
theorem SoundBut.touch (h : SoundBut trusted v o) (ho : ∀ x, o = some x → x = r)
    (hlt : r < v.next) (hid : trusted (v.member r).id = false) {known : Bool}
    (hknown : (v.member r).known = known) : Sound trusted (v.touch known r) := by
  have hself := touch_listed (h.nodup known) hknown
  -- who was listed and does not leave is listed
  have hkeep : ∀ x, v.evicted known r ≠ some x →
      (o = some x ∨ trusted (v.member x).id = true ∨ v.Listed x) →
      (none = some x ∨ trusted (v.member x).id = true ∨ (v.touch known r).Listed x) := by
    intro x hstay hx
    rcases hx with hx | hx | hx
    · rw [ho x hx]
      exact .inr (.inr hself)
    · exact .inr (.inl hx)
    · refine .inr (.inr ?_)
      rw [Roster.Listed, touch_known, mem_touch (h.nodup known)]
      exact .inr ⟨hx, fun _ => hstay⟩
  constructor
  · rw [touch_table]
    refine (Function.forall_update_iff v.table fun _ table => table.Nodup).mpr ?_
    exact ⟨Recency.touch_nodup (h.nodup known), fun k _ => h.nodup k⟩
  · rw [touch_table]
    refine (Function.forall_update_iff v.table fun k table => table.length ≤ maxEntries k).mpr ?_
    refine ⟨Recency.touch_length ?_ (h.length known), fun k _ => h.length k⟩
    cases known <;> decide
  · intro k x hx
    rw [touch_id, touch_known, touch_next]
    rcases (mem_touch (h.nodup known)).mp hx with ⟨rfl, rfl⟩ | ⟨hx, -⟩
    · exact ⟨hlt, hknown, hid⟩
    · exact h.listed k x hx
  · intro x hx
    rw [Roster.Idle, touch_state] at hx
    rw [touch_id, touch_next]
    exact h.busy x hx
  · intro id x hx
    rw [touch_entries, evict_entries] at hx
    obtain ⟨hx, hout⟩ := hx
    obtain ⟨hxlt, hxid, hplace⟩ := h.entry id x hx
    rw [touch_id, touch_next]
    refine ⟨hxlt, hxid, ?_⟩
    rw [← hxid] at hplace ⊢
    exact hkeep x (fun he => hout x he hxid) hplace
  · intro x hx hrem
    rw [touch_next] at hx
    rw [touch_member] at hrem
    rw [touch_id]
    split at hrem
    · cases hrem
    · next hstay => exact hkeep x hstay (h.alive x hx hrem)

/-- A new member without a place. -/
theorem Sound.enter (h : Sound trusted v) {m : Member ι} (hm : m.state = .notConnected) :
    SoundBut trusted (v.enter m) (some v.next) := by
  have hold : ∀ x, x < v.next → (v.enter m).member x = v.member x :=
    fun x hx => put_of_ne (Nat.ne_of_lt hx)
  refine ⟨h.nodup, h.length, ?_, ?_, ?_, ?_⟩
  · intro k x hx
    obtain ⟨hlt, hrest⟩ := h.listed k x hx
    rw [hold x hlt]
    exact ⟨Nat.lt_succ_of_lt hlt, hrest⟩
  · intro x hx
    have hne : x ≠ v.next := by
      rintro rfl
      exact hx ((congrArg Member.state (put_self m)).trans hm)
    rw [Roster.Idle, Roster.enter, put_of_ne hne] at hx
    obtain ⟨hlt, hid⟩ := h.busy x hx
    rw [hold x hlt]
    exact ⟨Nat.lt_succ_of_lt hlt, hid⟩
  · intro id x hx
    have hx' : Function.update v.entries m.id (some v.next) id = some x := hx
    by_cases hid : id = m.id
    · rw [hid, Function.update_self] at hx'
      cases hx'
      exact ⟨Nat.lt_succ_self _, (congrArg Member.id (put_self m)).trans hid.symm, .inl rfl⟩
    · rw [Function.update_of_ne hid] at hx'
      obtain ⟨hlt, hxid, hplace⟩ := h.entry id x hx'
      rw [Roster.Listed, hold x hlt]
      exact ⟨Nat.lt_succ_of_lt hlt, hxid, .inr (hplace.resolve_left fun hn => nomatch hn)⟩
  · intro x hx hrem
    rcases Nat.lt_succ_iff_lt_or_eq.mp hx with hlt | rfl
    · rw [hold x hlt] at hrem
      rw [Roster.Listed, hold x hlt]
      exact .inr ((h.alive x hlt hrem).resolve_left fun hn => nomatch hn)
    · exact .inl rfl

theorem Sound.add (h : Sound trusted v) {id : ι} (hid : trusted id = false) :
    Sound trusted (v.add id) := by
  refine (h.enter rfl).touch (fun x hx => (Option.some.inj hx).symm) (Nat.lt_succ_self _) ?_ ?_
  · rw [enter_self]
    exact hid
  · rw [enter_self]

theorem Sound.load (h : Sound trusted v) (id : ι) : Sound trusted (v.load trusted id) := by
  have henter := h.enter (m := ⟨id, .notConnected, true, false, false⟩) rfl
  unfold Roster.load
  cases hid : trusted id with
  | true => exact henter.of_trusted (by rw [enter_self]; exact hid)
  | false =>
    exact henter.touch (fun x hx => (Option.some.inj hx).symm) (Nat.lt_succ_self _)
      (by rw [enter_self]; exact hid) (congrArg Member.known (enter_self _))

theorem Sound.register (h : Sound trusted v) (hr : ¬v.Idle r) : Sound trusted (v.register r) := by
  obtain ⟨hlt, hid⟩ := h.busy r hr
  refine (h.promote hr).touch (fun x hx => (Option.some.inj hx).symm) hlt ?_ ?_
  · rw [promote_self]
    exact hid
  · rw [promote_self]

theorem Sound.find (h : Sound trusted v) {id : ι} (hid : trusted id = false) {v' : Roster ι}
    (hf : Find v id r v') : Sound trusted v' ∧ v'.Listed r := by
  cases hf with
  | known hr hk => exact ⟨h, (h.entry_cases hid hr).2.2⟩
  | new hr hk =>
    obtain ⟨hlt, heq, -⟩ := h.entry_cases hid hr
    have hs := SoundBut.touch h (fun x hx => nomatch hx) hlt (by rw [heq]; exact hid) hk
    exact ⟨hs, touch_listed (h.nodup false) hk⟩
  | unknown hr =>
    have hk : ((v.enter ⟨id, .notConnected, false, false, false⟩).member v.next).known =
        false := by
      rw [enter_self]
    exact ⟨h.add hid, touch_listed (h.nodup false) hk⟩

omit [DecidableEq ι] in
theorem sound_empty (id : ι) : Sound trusted (Roster.empty id) where
  nodup _ := .nil
  length _ := Nat.zero_le _
  listed _ _ hx := nomatch hx
  busy _ hx := absurd rfl hx
  entry _ _ hx := nomatch hx
  alive _ hx := absurd hx (Nat.not_lt_zero _)

/-- One message. -/
theorem step_sound (h : Sound trusted v) {a : Event ι} {v' : Roster ι}
    (hs : Step trusted v a v') :
    Sound trusted v' := by
  cases hs with
  | quiet | lateTimeout | noRetry | ignored | trusted | refused => exact h
  | timeout => exact h.release
  | retry hd => exact h.dials hd
  | discover hid hf hd => exact (h.find hid hf).1.dials hd
  | accepted hid hr => exact h.accept (h.entry_cases hid hr).2.2
  | acceptedNew hid hr =>
    obtain ⟨hs, hl⟩ := h.find hid (.unknown hr)
    exact hs.accept hl
  | register hr => exact h.register (not_idle_of_handed hr)
  | disconnect => exact h.release

end Sound

end MiniOpera.PoolRoster
