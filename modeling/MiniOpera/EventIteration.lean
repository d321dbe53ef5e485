import MiniOpera.CacheTransparency

/-!
# Iteration over the stored events

The keys of the `Events` table are event IDs: the epoch and the Lamport time, both
big-endian, then 24 bytes of the hash. The database iterates keys in the order of
their bytes, which is therefore the order of epochs and Lamport times. A parent is
in the epoch of its child, because the epoch of the parents is not stored but
taken from the event, and has a smaller Lamport time, so it is visited first.

`Holds s stored`: the rows decode to the events of `stored`, under keys with this
layout. `Holds.setEvent`, `Holds.delEvent`: the store keeps it.
-/

namespace MiniOpera.EventIteration
open GoRuntime LittleEndian InterEvent EventDecode EventCodec EventCheck GossipStore Consensus
  ByteOrder BuiltEvents CacheTransparency

/-! ## The iterators of the database -/

abbrev Rows := List (EventID × List UInt8)

/-- The rows from a key on, in the order of the keys. -/
def newIteratorWithStart (t : Std.ExtTreeMap EventID (List UInt8)) (start : List UInt8) : Rows :=
  t.toList.filter fun row => compare start row.1.data ≠ .gt

/-- The rows whose keys begin with `pre`, in the order of the keys. -/
def newIteratorWithPrefix (t : Std.ExtTreeMap EventID (List UInt8)) (pre : List UInt8) : Rows :=
  t.toList.filter fun row => pre.isPrefixOf row.1.data

/-! ## `store_event.go` -/

/-- A callback is called on one element after the other until it returns false. -/
def forEach {ρ σ : Type} (on : σ → ρ → Bool × σ) : List ρ → σ → σ
  | [], st => st
  | x :: rest, st =>
    match on st x with
    | (true, st) => forEach on rest st
    | (false, st) => st

section Store

variable (sha256 : List UInt8 → Hash) (rlp : Rlp) {σ : Type}

/-- The unexported `forEachEvent`. -/
def forEachEventOf (onEvent : σ → Event → Bool × σ) : Rows → σ → Go DecodeError σ
  | [], st => .ok st
  | row :: rest, st =>
    match decodeRLP sha256 rlp row.2 with
    | .error _ => .error (.panic (.message "Failed to decode event"))
    | .ok event =>
      match onEvent st event with
      | (true, st) => forEachEventOf onEvent rest st
      | (false, st) => .ok st

def forEachEpochEvent (s : Store) (epoch : UInt32) (onEvent : σ → Event → Bool × σ)
    (st : σ) :
    Go DecodeError σ :=
  forEachEventOf sha256 rlp onEvent (newIteratorWithPrefix s.data.events (idxBytes epoch)) st

def forEachEvent (s : Store) (start : UInt32) (onEvent : σ → Event → Bool × σ) (st : σ) :
    Go DecodeError σ :=
  forEachEventOf sha256 rlp onEvent (newIteratorWithStart s.data.events (idxBytes start)) st

end Store

def findEventHashes (s : Store) (epoch lamport : UInt32) (hashPrefix : List UInt8) : List EventID :=
  (newIteratorWithPrefix s.data.events (idxBytes epoch ++ idxBytes lamport ++ hashPrefix)).map
    Prod.fst

/-! ## What is stored -/

/-- The rows of the table are these events, under keys that begin with their epoch
and Lamport time. -/
structure Holds (sha256 : List UInt8 → Hash) (rlp : Rlp) (s : Store)
    (stored : EventID → Option Event) : Prop where
  rows : ∀ id, eventRow sha256 rlp s.data id = .ok (stored id)
  layout : ∀ id e, stored id = some e → id.data.take 8 = idxBytes e.epoch ++ idxBytes e.lamport

/-- Every event is later than its stored parents of the same epoch. -/
def ParentsEarlier (stored : EventID → Option Event) : Prop :=
  ∀ id e, stored id = some e → ∀ p ∈ e.parents, ∀ e', stored p = some e' →
    e'.epoch = e.epoch → e'.lamport < e.lamport

/-- In the order of epochs and, inside an epoch, of Lamport times. -/
def NotAfter (a b : Event) : Prop := a.epoch < b.epoch ∨
    (a.epoch = b.epoch ∧ a.lamport ≤ b.lamport)

/-- The visited rows are the stored events with `P`, each once, in nondecreasing order and
stored parents before their children. -/
structure Topological (stored : EventID → Option Event) (P : Event → Prop)
    (visited : List (EventID × Event)) : Prop where
  complete : ∀ id e, (id, e) ∈ visited ↔ stored id = some e ∧ P e
  once : (visited.map Prod.fst).Nodup
  ordered : visited.Pairwise fun a b => NotAfter a.2 b.2
  parentsFirst : ∀ before id e after, visited = before ++ (id, e) :: after →
    ∀ p ∈ e.parents, stored p ≠ none → p ∈ before.map Prod.fst

section Rows

variable {sha256 : List UInt8 → Hash} {rlp : Rlp} {s : Store} {stored : EventID → Option Event}

/-- The row of a stored event. -/
theorem Holds.row_of_stored (h : Holds sha256 rlp s stored) {id : EventID} {e : Event}
    (he : stored id = some e) :
    ∃ buf, s.data.events[id]? = some buf ∧ decodeRLP sha256 rlp buf = .ok e := by
  have hrow := h.rows id
  rw [he, eventRow] at hrow
  cases hbuf : s.data.events[id]? with
  | none =>
    rw [hbuf] at hrow
    cases hrow
  | some buf =>
    rw [hbuf] at hrow
    refine ⟨buf, rfl, ?_⟩
    cases hdec : decodeRLP sha256 rlp buf with
    | error f =>
      simp only [hdec] at hrow
      cases hrow
    | ok x =>
      simp only [hdec] at hrow
      cases hrow
      rfl

/-- The event of a row. -/
theorem Holds.stored_of_row (h : Holds sha256 rlp s stored) {id : EventID} {buf : List UInt8}
    (hbuf : s.data.events[id]? = some buf) :
    ∃ e, stored id = some e ∧ decodeRLP sha256 rlp buf = .ok e := by
  have hrow := h.rows id
  simp only [eventRow, hbuf] at hrow
  cases hdec : decodeRLP sha256 rlp buf with
  | error f =>
    simp only [hdec] at hrow
    cases hrow
  | ok e =>
    simp only [hdec] at hrow
    exact ⟨e, (Except.ok.inj hrow).symm, rfl⟩

theorem Holds.notAfter (h : Holds sha256 rlp s stored) {i j : EventID} {a b : Event}
    (ha : stored i = some a) (hb : stored j = some b) (hlt : compare i j = .lt) : NotAfter a b := by
  rw [compare_ids (h.layout i a ha) (h.layout j b hb)] at hlt
  unfold NotAfter
  rw [UInt32.lt_iff_toNat_lt, ← UInt32.toNat_inj, UInt32.le_iff_toNat_le]
  rcases Nat.lt_trichotomy a.epoch.toNat b.epoch.toNat with hepoch | hepoch | hepoch
  · exact .inl hepoch
  · refine .inr ⟨hepoch, ?_⟩
    rcases Nat.lt_or_ge b.lamport.toNat a.lamport.toNat with hgt | hle
    · rw [Nat.compare_eq_eq.mpr hepoch, Nat.compare_eq_gt.mpr hgt] at hlt
      cases hlt
    · exact hle
  · rw [Nat.compare_eq_gt.mpr hepoch] at hlt
    cases hlt

/-- The key of a stored parent begins with the epoch of the child. -/
theorem Holds.parent_epoch (h : Holds sha256 rlp s stored) {id p : EventID} {e e' : Event}
    (he : stored id = some e) (hp : p ∈ e.parents) (he' : stored p = some e') :
    e'.epoch = e.epoch := by
  obtain ⟨buf, -, hdec⟩ := h.row_of_stored he
  have hchild : p.data.take 4 = idxBytes e.epoch := decodeRLP_parents sha256 hdec p hp
  have hown : p.data.take 4 = idxBytes e'.epoch := by
    have htake := congrArg (List.take 4) (h.layout p e' he')
    rw [List.take_take, List.take_left' (idxBytes_length _)] at htake
    exact htake
  exact idxBytes_injective (hown.symm.trans hchild)

/-- An iterator that selects rows by their keys. -/
def select (s : Store) (key : EventID → Bool) : Rows :=
  s.data.events.toList.filter fun row => key row.1

theorem mem_select {key : EventID → Bool} {id : EventID} {buf : List UInt8} :
    (id, buf) ∈ select s key ↔ s.data.events[id]? = some buf ∧ key id := by
  rw [select, List.mem_filter, Std.ExtTreeMap.mem_toList_iff_getElem?_eq_some]

theorem select_ordered (key : EventID → Bool) :
    (select s key).Pairwise fun a b => compare a.1 b.1 = .lt :=
  Std.ExtTreeMap.ordered_keys_toList.filter _

/-- The rows with what they decode to. -/
def visit (stored : EventID → Option Event) (rows : Rows) : List (EventID × Event) :=
  rows.filterMap fun row => (stored row.1).map fun e => (row.1, e)

theorem mem_visit {rows : Rows} {id : EventID} {e : Event} :
    (id, e) ∈ visit stored rows ↔ (∃ buf, (id, buf) ∈ rows) ∧ stored id = some e := by
  simp only [visit, List.mem_filterMap, Option.map_eq_some_iff, Prod.mk.injEq]
  constructor
  · rintro ⟨⟨i, buf⟩, hrow, x, hx, rfl, rfl⟩
    exact ⟨⟨buf, hrow⟩, hx⟩
  · rintro ⟨⟨buf, hrow⟩, he⟩
    exact ⟨(id, buf), hrow, e, he, rfl, rfl⟩

/-- The events are handed to the callback in the order of the rows. -/
theorem Holds.forEachEventOf_eq (h : Holds sha256 rlp s stored) {σ : Type}
    (onEvent : σ → Event → Bool × σ) (rows : Rows)
    (hrows : ∀ row ∈ rows, s.data.events[row.1]? = some row.2) (st : σ) :
    forEachEventOf sha256 rlp onEvent rows st =
      .ok (forEach onEvent ((visit stored rows).map Prod.snd) st) := by
  induction rows generalizing st with
  | nil => rfl
  | cons row rest ih =>
    obtain ⟨e, he, hdec⟩ := h.stored_of_row (hrows row List.mem_cons_self)
    have hvisit : visit stored (row :: rest) = (row.1, e) :: visit stored rest := by
      rw [visit, List.filterMap_cons_some (b := (row.1, e)) (by rw [he]; rfl)]
      rfl
    rw [hvisit, forEachEventOf, hdec, List.map_cons, forEach]
    dsimp only
    cases onEvent st e with
    | mk more st' =>
      cases more with
      | false => rfl
      | true => exact ih (fun r hr => hrows r (List.mem_cons_of_mem _ hr)) st'

theorem Holds.iterates (h : Holds sha256 rlp s stored) (key : EventID → Bool) {σ : Type}
    (onEvent : σ → Event → Bool × σ) (st : σ) :
    forEachEventOf sha256 rlp onEvent (select s key) st =
      .ok (forEach onEvent ((visit stored (select s key)).map Prod.snd) st) := by
  apply h.forEachEventOf_eq
  intro row hrow
  exact (mem_select.mp hrow).1

/-- The selected rows are those of the stored events with such an epoch. -/
theorem Holds.visits_iff (h : Holds sha256 rlp s stored) {key : EventID → Bool}
    {P : UInt32 → Prop}
    (hkey : ∀ id e, stored id = some e → (key id = true ↔ P e.epoch))
    (id : EventID) (e : Event) :
    (id, e) ∈ visit stored (select s key) ↔ stored id = some e ∧ P e.epoch := by
  rw [mem_visit]
  constructor
  · rintro ⟨⟨buf, hrow⟩, he⟩
    exact ⟨he, (hkey id e he).mp (mem_select.mp hrow).2⟩
  · rintro ⟨he, hP⟩
    obtain ⟨buf, hbuf, -⟩ := h.row_of_stored he
    exact ⟨⟨buf, mem_select.mpr ⟨hbuf, (hkey id e he).mpr hP⟩⟩, he⟩

/-- The events are visited in the order of their rows. -/
theorem visit_keys (key : EventID → Bool) :
    (visit stored (select s key)).Pairwise fun a b => compare a.1 b.1 = .lt := by
  rw [visit, List.pairwise_filterMap]
  refine (select_ordered key).imp ?_
  intro a b hlt x hx y hy
  obtain ⟨_, -, rfl⟩ := Option.map_eq_some_iff.mp hx
  obtain ⟨_, -, rfl⟩ := Option.map_eq_some_iff.mp hy
  exact hlt

/-- **Topological iteration.** Rows selected by the epoch of their keys. -/
theorem Holds.topological (h : Holds sha256 rlp s stored) (hp : ParentsEarlier stored)
    {key : EventID → Bool} {P : UInt32 → Prop}
    (hkey : ∀ id e, stored id = some e → (key id = true ↔ P e.epoch)) :
    Topological stored (fun e => P e.epoch) (visit stored (select s key)) := by
  have hcomplete := h.visits_iff hkey
  have hkeys : (visit stored (select s key)).Pairwise fun a b => compare a.1 b.1 = .lt :=
    visit_keys key
  have hordered : (visit stored (select s key)).Pairwise fun a b => NotAfter a.2 b.2 := by
    refine hkeys.imp_of_mem ?_
    intro a b ha hb hlt
    exact h.notAfter ((hcomplete a.1 a.2).mp ha).1 ((hcomplete b.1 b.2).mp hb).1 hlt
  refine ⟨hcomplete, ?_, hordered, ?_⟩
  · rw [List.Nodup, List.pairwise_map]
    refine hkeys.imp ?_
    intro a b hlt heq
    rw [heq, Std.ReflOrd.compare_self] at hlt
    cases hlt
  · intro before id e after hsplit p hmem hstored
    obtain ⟨e', he'⟩ := Option.ne_none_iff_exists'.mp hstored
    have he : stored id = some e ∧ P e.epoch := (hcomplete id e).mp (by rw [hsplit]; simp)
    have hepoch := h.parent_epoch he.1 hmem he'
    have hlt := hp id e he.1 p hmem e' he' hepoch
    have hvisited : (p, e') ∈ before ++ (id, e) :: after := by
      rw [← hsplit]
      exact (hcomplete p e').mpr ⟨he', hepoch ▸ he.2⟩
    rw [hsplit] at hordered
    -- the parent is neither the child itself nor behind it
    rcases List.mem_append.mp hvisited with hin | hin
    · exact List.mem_map.mpr ⟨_, hin, rfl⟩
    · rcases List.mem_cons.mp hin with heq | hin
      · cases heq
        exact absurd hlt (UInt32.lt_irrefl _)
      · have hbehind := (List.pairwise_cons.mp (List.pairwise_append.mp hordered).2.1).1 _ hin
        rcases hbehind with hne | ⟨-, hle⟩
        · rw [hepoch] at hne
          exact absurd hne (UInt32.lt_irrefl _)
        · exact absurd hle (UInt32.not_le.mpr hlt)

/-! ## Keys of an epoch -/

theorem Holds.key_eq (h : Holds sha256 rlp s stored) {id : EventID} {e : Event}
    (he : stored id = some e) :
    id.data = idxBytes e.epoch ++ (idxBytes e.lamport ++ id.data.drop 8) := by
  rw [← List.append_assoc, ← h.layout id e he, List.take_append_drop]

theorem Holds.key_of_start (h : Holds sha256 rlp s stored) (start : UInt32)
    (id : EventID) (e : Event)
    (he : stored id = some e) :
    decide (compare (idxBytes start) id.data ≠ .gt) = true ↔ start ≤ e.epoch := by
  rw [decide_eq_true_iff, h.key_eq he, compare_head_ne_gt (by simp),
    compare_bigEndian _ _ (by simp), leNat_idxBytes, leNat_idxBytes, ne_eq, Nat.compare_eq_gt,
    UInt32.le_iff_toNat_le]
  omega

theorem Holds.key_of_epoch (h : Holds sha256 rlp s stored) (epoch : UInt32)
    (id : EventID) (e : Event)
    (he : stored id = some e) : (idxBytes epoch).isPrefixOf id.data = true ↔ e.epoch = epoch := by
  rw [List.isPrefixOf_iff_prefix, h.key_eq he]
  constructor
  · intro hpre
    rw [List.prefix_iff_eq_take, idxBytes_length, List.take_left' (idxBytes_length _)] at hpre
    exact (idxBytes_injective hpre).symm
  · rintro rfl
    exact List.prefix_append _ _

/-- All three parts of the key are compared. -/
theorem Holds.key_of_hash (h : Holds sha256 rlp s stored) (epoch lamport : UInt32)
    (hashPrefix : List UInt8) (id : EventID) (e : Event) (he : stored id = some e) :
    (idxBytes epoch ++ idxBytes lamport ++ hashPrefix).isPrefixOf id.data = true ↔
      e.epoch = epoch ∧ e.lamport = lamport ∧ hashPrefix <+: id.data.drop 8 := by
  rw [List.isPrefixOf_iff_prefix, List.append_assoc]
  conv_lhs => rw [h.key_eq he]
  constructor
  · rintro ⟨rest, heq⟩
    rw [List.append_assoc, List.append_assoc] at heq
    obtain ⟨hepoch, heq⟩ := List.append_inj heq (by simp)
    obtain ⟨hlamport, heq⟩ := List.append_inj heq (by simp)
    exact ⟨(idxBytes_injective hepoch).symm, (idxBytes_injective hlamport).symm, rest, heq⟩
  · rintro ⟨rfl, rfl, hpre⟩
    rw [List.prefix_append_right_inj, List.prefix_append_right_inj]
    exact hpre

end Rows

/-! ## The store keeps the layout -/

section Writes

variable {sha256 : List UInt8 → Hash} {rlp : Rlp} {s : Store} {stored : EventID → Option Event}

theorem holds_empty (h : s.data.events = ∅) : Holds sha256 rlp s fun _ => none where
  rows id := by
    rw [eventRow, h, Std.ExtTreeMap.getElem?_empty]
  layout id e he := by cases he

theorem Holds.setEvent (h : Holds sha256 rlp s stored) {e : Event} (he : Writable sha256 e) :
    ∃ s', (s.setEvent rlp e : Go DecodeError _) = .ok s' ∧
      Holds sha256 rlp s' (Function.update stored e.id (some e)) := by
  obtain ⟨buf, henc, hdec⟩ := he.decodes rlp
  simp only [Store.setEvent, henc, ok_bind, pure_eq_ok]
  refine ⟨_, rfl, ?_, ?_⟩
  · intro id
    simp only [eventRow, Std.ExtTreeMap.getElem?_insert]
    by_cases hid : id = e.id
    · subst hid
      simp only [Std.ReflOrd.compare_self, if_true, hdec, Function.update_self]
    · have hcmp : compare e.id id ≠ .eq := fun heq =>
        hid (Std.LawfulEqOrd.eq_of_compare heq).symm
      rw [if_neg hcmp, Function.update_of_ne hid]
      exact h.rows id
  · intro id x hx
    by_cases hid : id = e.id
    · subst hid
      rw [Function.update_self] at hx
      cases hx
      exact decodeRLP_layout sha256 hdec
    · rw [Function.update_of_ne hid] at hx
      exact h.layout id x hx

theorem Holds.delEvent (h : Holds sha256 rlp s stored) (id : EventID) :
    Holds sha256 rlp (s.delEvent id) (Function.update stored id none) := by
  refine ⟨?_, ?_⟩
  · intro x
    simp only [eventRow, Store.delEvent, Std.ExtTreeMap.getElem?_erase]
    by_cases hx : x = id
    · subst hx
      simp only [Std.ReflOrd.compare_self, if_true, Function.update_self]
    · have hcmp : compare id x ≠ .eq := fun heq => hx (Std.LawfulEqOrd.eq_of_compare heq).symm
      rw [if_neg hcmp, Function.update_of_ne hx]
      exact h.rows x
  · intro x e hx
    by_cases hid : x = id
    · subst hid
      rw [Function.update_self] at hx
      cases hx
    · rw [Function.update_of_ne hid] at hx
      exact h.layout x e hx

end Writes

/-- **Iteration is topological and complete.** The callback is called on the events
from an epoch on, or of an epoch, parents first, until it returns false; the IDs
found are those of the epoch and the Lamport time with this beginning of the hash. -/
theorem events_iterated (sha256 : List UInt8 → Hash) (rlp : Rlp) (s : Store)
    (stored : EventID → Option Event) (h : Holds sha256 rlp s stored)
    (hp : ParentsEarlier stored) :
    (∀ start : UInt32, ∃ visited, Topological stored (fun e => start ≤ e.epoch) visited ∧
      ∀ {σ : Type} (onEvent : σ → Event → Bool × σ) (st : σ),
        forEachEvent sha256 rlp s start onEvent st =
          .ok (forEach onEvent (visited.map Prod.snd) st)) ∧
    (∀ epoch : UInt32, ∃ visited, Topological stored (fun e => e.epoch = epoch) visited ∧
      ∀ {σ : Type} (onEvent : σ → Event → Bool × σ) (st : σ),
        forEachEpochEvent sha256 rlp s epoch onEvent st =
          .ok (forEach onEvent (visited.map Prod.snd) st)) ∧
    ∀ (epoch lamport : UInt32) (hashPrefix : List UInt8),
      (findEventHashes s epoch lamport hashPrefix).Nodup ∧
      ∀ id, id ∈ findEventHashes s epoch lamport hashPrefix ↔
        ∃ e, stored id = some e ∧ e.epoch = epoch ∧ e.lamport = lamport ∧
          hashPrefix <+: id.data.drop 8 := by
  refine ⟨?_, ?_, ?_⟩
  · intro start
    refine ⟨_, h.topological hp (h.key_of_start start), ?_⟩
    intro σ onEvent st
    rw [← h.iterates, forEachEvent]
    rfl
  · intro epoch
    refine ⟨_, h.topological (P := fun x => x = epoch) hp (h.key_of_epoch epoch), ?_⟩
    intro σ onEvent st
    rw [← h.iterates, forEachEpochEvent]
    rfl
  · intro epoch lamport hashPrefix
    have hrows : findEventHashes s epoch lamport hashPrefix = (select s fun id =>
      (idxBytes epoch ++ idxBytes lamport ++ hashPrefix).isPrefixOf id.data).map Prod.fst := rfl
    rw [hrows]
    refine ⟨?_, ?_⟩
    · rw [List.Nodup, List.pairwise_map]
      refine (select_ordered _).imp ?_
      intro a b hlt heq
      rw [heq, Std.ReflOrd.compare_self] at hlt
      cases hlt
    · intro id
      rw [List.mem_map]
      constructor
      · rintro ⟨⟨i, buf⟩, hrow, rfl⟩
        obtain ⟨hbuf, hkey⟩ := mem_select.mp hrow
        obtain ⟨e, he, -⟩ := h.stored_of_row hbuf
        exact ⟨e, he, (h.key_of_hash epoch lamport hashPrefix i e he).mp hkey⟩
      · rintro ⟨e, he, hkey⟩
        obtain ⟨buf, hbuf, -⟩ := h.row_of_stored he
        exact ⟨(id, buf), mem_select.mpr
          ⟨hbuf, (h.key_of_hash epoch lamport hashPrefix id e he).mpr hkey⟩, rfl⟩

/-- A parent is stored after its child. -/
def familyStore : Go DecodeError Store := do
  let s ← (openStore .empty eventsCached).setEvent rlpString (chainEvent 2)
  s.setEvent rlpString (chainEvent 1)

def family : EventID → Option Event :=
  Function.update (Function.update (fun _ => none) (chainEvent 2).id (some (chainEvent 2)))
    (chainEvent 1).id (some (chainEvent 1))

theorem chainEvent_writable (k : UInt32) (h : ParentsOfEpoch 1 (chainEvent k).parents)
    (hcount : (chainEvent k).parents.length < 2 ^ 32) :
    Writable (fun _ => Bytes.zero 32) (chainEvent k) :=
  ⟨builtFrom_selfDescribed (by show (0 : UInt8).toNat < 16; decide), h, rfl, hcount⟩

theorem family_cases {id : EventID} {e : Event} (h : family id = some e) :
    e = chainEvent 1 ∨ e = chainEvent 2 := by
  unfold family at h
  simp only [Function.update_apply] at h
  split at h
  · exact .inl (Option.some.inj h).symm
  · split at h
    · exact .inr (Option.some.inj h).symm
    · cases h

theorem family_parentsEarlier : ParentsEarlier family := by
  intro id e he p hp e' he' _
  rcases family_cases he with rfl | rfl
  · rw [show (chainEvent 1).parents = [] from by decide] at hp
    cases hp
  · obtain rfl : p = (chainEvent 1).id := by
      rw [show (chainEvent 2).parents = [(chainEvent 1).id] from by decide] at hp
      exact List.mem_singleton.mp hp
    have hfirst : family (chainEvent 1).id = some (chainEvent 1) := Function.update_self ..
    rw [hfirst] at he'
    cases he'
    decide

theorem events_iterated_family :
    ∃ s, familyStore = .ok s ∧
      (∃ visited, Topological family (fun e => 1 ≤ e.epoch) visited ∧
        ∀ {σ : Type} (onEvent : σ → Event → Bool × σ) (st : σ),
          forEachEvent (fun _ => Bytes.zero 32) rlpString s 1 onEvent st =
            .ok (forEach onEvent (visited.map Prod.snd) st)) ∧
      (∃ visited, Topological family (fun e => e.epoch = 1) visited ∧
        ∀ {σ : Type} (onEvent : σ → Event → Bool × σ) (st : σ),
          forEachEpochEvent (fun _ => Bytes.zero 32) rlpString s 1 onEvent st =
            .ok (forEach onEvent (visited.map Prod.snd) st)) ∧
      (chainEvent 2).id ∈ findEventHashes s 1 2 [0, 0] := by
  have hempty : Holds (fun _ => Bytes.zero 32) rlpString (openStore .empty eventsCached)
      (fun _ => none) := holds_empty rfl
  obtain ⟨s₁, h₁, hchild⟩ :=
    hempty.setEvent (chainEvent_writable 2 (by unfold ParentsOfEpoch; decide) (by decide))
  obtain ⟨s₂, h₂, hboth⟩ :=
    hchild.setEvent (chainEvent_writable 1 (by unfold ParentsOfEpoch; decide) (by decide))
  obtain ⟨hstart, hepoch, hfind⟩ := events_iterated _ _ s₂ family hboth family_parentsEarlier
  refine ⟨s₂, ?_, hstart 1, hepoch 1, ?_⟩
  · rw [familyStore, h₁, ok_bind, h₂]
  · refine ((hfind 1 2 [0, 0]).2 _).mpr ⟨chainEvent 2, ?_, by decide, by decide, by decide⟩
    decide

end MiniOpera.EventIteration
