import MiniOpera.PoolRuns

/-!
# The index of the pool

`Indexed`: the entries of the tables are those of the map, and a removed entry
is in neither. Every step of the roster keeps it but one: the registration of an
entry that was removed, because its queue was full, while its peer was connected.

`pool_index_consistent`: as long as no removed entry is registered, queues, map
and flags of the pool agree. The run at the end registers a removed entry.
-/

namespace MiniOpera.PoolIndex
open GoRuntime EntryQueue Pool PoolRoster Roster PoolRefinement PoolRuns

variable {ι K F : Type}

structure Indexed (v : Roster ι) : Prop where
  inMap : ∀ k, ∀ x ∈ v.table k, v.entries (v.member x).id = some x
  gone : ∀ x, (v.member x).removed = true → (∀ k, x ∉ v.table k) ∧
    ∀ id, v.entries id ≠ some x

section Steps

variable {trusted : ι → Bool} {v v' : Roster ι} {o : Option Ref} {r : Ref}

theorem Indexed.addSelected (h : Indexed v) (k : Bool) (d : Int) : Indexed (v.addSelected k d) :=
  ⟨h.inMap, h.gone⟩

/-- A member gets another state. -/
theorem Indexed.put (h : Indexed v) {m : Member ι} (hid : m.id = (v.member r).id)
    (hremoved : m.removed = (v.member r).removed) : Indexed (v.put r m) where
  inMap k x hx := by
    by_cases hxr : x = r
    · subst hxr
      rw [put_self, hid]
      exact h.inMap k x hx
    · rw [put_of_ne hxr]
      exact h.inMap k x hx
  gone x hx := by
    by_cases hxr : x = r
    · subst hxr
      rw [put_self, hremoved] at hx
      exact h.gone x hx
    · rw [put_of_ne hxr] at hx
      exact h.gone x hx

theorem Indexed.dial (h : Indexed v) (r : Ref) (known : Bool) : Indexed (v.dial r known) :=
  (h.put (m := { v.member r with state := .dialed, knownSelected := known }) rfl rfl).addSelected
    known 1

theorem Indexed.dials (h : Indexed v) (hd : Dials v v') : Indexed v' := by
  induction hd with
  | refl => exact h
  | dial _ _ _ known ih => exact ih.dial _ known

theorem Indexed.release (h : Indexed v) (r : Ref) : Indexed (v.release r) :=
  (h.put (m := { v.member r with state := .notConnected }) rfl rfl).addSelected _ _

theorem Indexed.accept (h : Indexed v) (r : Ref) : Indexed (v.accept r) :=
  h.put (m := { v.member r with state := .connected }) rfl rfl

theorem Indexed.promote (h : Indexed v) (hs : Sound trusted v) : Indexed (v.promote r) where
  inMap k x hx := by
    have hx' := h.inMap k x ((mem_promote hs).mp hx).1
    by_cases hxr : x = r
    · subst hxr
      rw [promote_self]
      exact hx'
    · rw [Roster.promote, put_of_ne hxr]
      exact hx'
  gone x hx := by
    have hx' : (v.member x).removed = true := by
      by_cases hxr : x = r
      · subst hxr
        rw [promote_self] at hx
        exact hx
      · rw [Roster.promote, put_of_ne hxr] at hx
        exact hx
    exact ⟨fun k hk => (h.gone x hx').1 k ((mem_promote hs).mp hk).1, (h.gone x hx').2⟩

variable [DecidableEq ι]

/-- An entry of the map becomes the most recent one of its table. The entry
that leaves the table leaves the map, and no other does. -/
theorem Indexed.touch (h : Indexed v) (hs : SoundBut trusted v o) {known : Bool}
    (hknown : (v.member r).known = known) (hr : v.entries (v.member r).id = some r)
    (halive : (v.member r).removed = false) : Indexed (v.touch known r) := by
  -- the entry that leaves is in one table only, the one it leaves
  have hstays : ∀ k, ∀ x ∈ v.table k, (k = known → v.evicted known r ≠ some x) →
      v.evicted known r ≠ some x := by
    intro k x hx hout hev
    have hk := (hs.listed known x (evicted_mem hev).2).2.1
    exact hout ((hs.listed k x hx).2.1.symm.trans hk) hev
  have hself : v.evicted known r ≠ some r := fun hev => (evicted_mem hev).1 (evicted_mem hev).2
  constructor
  · intro k x hx
    obtain ⟨hmap, hstay⟩ : v.entries (v.member x).id = some x ∧
        v.evicted known r ≠ some x := by
      rcases (mem_touch (hs.nodup known)).mp hx with ⟨rfl, rfl⟩ | ⟨hx, hout⟩
      · exact ⟨hr, hself⟩
      · exact ⟨h.inMap k x hx, hstays k x hx hout⟩
    rw [touch_id, touch_entries, evict_entries]
    refine ⟨hmap, fun e he heq => hstay ?_⟩
    have hin := h.inMap known e (evicted_mem he).2
    rw [heq, hmap] at hin
    rw [he, hin]
  · intro x hx
    rw [touch_member] at hx
    split at hx
    · next hev =>
      refine ⟨fun k hk => ?_, fun id hid => ?_⟩
      · rcases (mem_touch (hs.nodup known)).mp hk with ⟨-, rfl⟩ | ⟨hk, hout⟩
        · exact hself hev
        · exact hstays k x hk hout hev
      · rw [touch_entries, evict_entries] at hid
        exact hid.2 x hev (hs.entry id x hid.1).2.1
    · obtain ⟨htables, hmap⟩ := h.gone x hx
      refine ⟨fun k hk => ?_, fun id hid => ?_⟩
      · rcases (mem_touch (hs.nodup known)).mp hk with ⟨-, rfl⟩ | ⟨hk, -⟩
        · rw [halive] at hx
          cases hx
        · exact htables k hk
      · rw [touch_entries, evict_entries] at hid
        exact hmap id hid.1

/-- A new member of a new ID. -/
theorem Indexed.enter (h : Indexed v) (hs : Sound trusted v) {m : Member ι}
    (hnone : v.entries m.id = none) (halive : m.removed = false) : Indexed (v.enter m) where
  inMap k x hx := by
    have hlt := (hs.listed k x hx).1
    have hx' := h.inMap k x hx
    have hne : (v.member x).id ≠ m.id := by
      intro heq
      rw [heq, hnone] at hx'
      cases hx'
    rw [Roster.enter, put_of_ne (Nat.ne_of_lt hlt)]
    show Function.update v.entries m.id (some v.next) (v.member x).id = some x
    rw [Function.update_of_ne hne]
    exact hx'
  gone x hx := by
    have hne : x ≠ v.next := by
      rintro rfl
      rw [enter_self, halive] at hx
      cases hx
    rw [Roster.enter, put_of_ne hne] at hx
    refine ⟨(h.gone x hx).1, fun id hid => ?_⟩
    have hid' : Function.update v.entries m.id (some v.next) id = some x := hid
    by_cases heq : id = m.id
    · rw [heq, Function.update_self] at hid'
      exact hne (Option.some.inj hid').symm
    · rw [Function.update_of_ne heq] at hid'
      exact (h.gone x hx).2 id hid'

theorem enter_entries (m : Member ι) :
    (v.enter m).entries ((v.enter m).member v.next).id = some v.next := by
  rw [enter_self]
  exact Function.update_self ..

theorem Indexed.add (h : Indexed v) (hs : Sound trusted v) {id : ι} (hnone : v.entries id = none) :
    Indexed (v.add id) :=
  (h.enter (m := ⟨id, .notConnected, false, false, false⟩) hs hnone rfl).touch
    (Sound.enter hs rfl) (congrArg Member.known (enter_self _)) (enter_entries _)
    (congrArg Member.removed (enter_self _))

theorem Indexed.find (h : Indexed v) (hs : Sound trusted v) {id : ι} (hf : Find v id r v') :
    Indexed v' := by
  cases hf with
  | known => exact h
  | new hr hk =>
    have hid := (hs.entry id r hr).2.1
    refine h.touch hs hk (by rw [hid]; exact hr) (Bool.eq_false_iff.mpr fun hrem => ?_)
    exact (h.gone r hrem).2 id hr
  | unknown hnone => exact h.add hs hnone

/-- One message; no removed entry is registered. -/
theorem step_indexed (h : Indexed v) (hs : Sound trusted v) {a : Event ι}
    (hstep : Step trusted v a v')
    (hcond : ∀ r, a = .register r → (v.member r).removed = false) : Indexed v' := by
  cases hstep with
  | quiet | lateTimeout | noRetry | ignored | trusted | refused => exact h
  | timeout => exact h.release _
  | retry hd => exact h.dials hd
  | discover _ hf hd => exact (h.find hs hf).dials hd
  | accepted => exact h.accept _
  | acceptedNew _ hr => exact (h.add hs hr).accept _
  | @register r hr =>
    have hbusy := not_idle_of_handed hr
    obtain ⟨hlt, hid⟩ := hs.busy r hbusy
    have halive := hcond r rfl
    have hmap := h.inMap _ r (Sound.listed_of_alive hs hlt hid halive)
    exact (h.promote hs).touch (Sound.promote hs hbusy) (congrArg Member.known promote_self)
      (by rw [promote_self]; exact hmap) (by rw [promote_self]; exact halive)
  | disconnect => exact h.release _

/-! ## Start -/

theorem Indexed.load (h : Indexed v) (hs : Sound trusted v) {id : ι}
    (hnone : v.entries id = none) :
    Indexed (v.load trusted id) := by
  have henter := h.enter (m := ⟨id, .notConnected, true, false, false⟩) hs hnone rfl
  unfold Roster.load
  split
  · exact henter
  · exact henter.touch (Sound.enter hs rfl) (congrArg Member.known (enter_self _))
      (enter_entries _)
      (congrArg Member.removed (enter_self _))

theorem load_entries {id id' : ι} (hne : id' ≠ id) (hnone : v.entries id' = none) :
    (v.load trusted id).entries id' = none := by
  have henter : (v.enter ⟨id, .notConnected, true, false, false⟩).entries id' = none := by
    show Function.update v.entries id (some v.next) id' = none
    rw [Function.update_of_ne hne]
    exact hnone
  unfold Roster.load
  split
  · exact henter
  · refine Option.eq_none_iff_forall_ne_some.mpr fun x hx => ?_
    rw [touch_entries, evict_entries, henter] at hx
    cases hx.1

/-- Nodes with different IDs are loaded, by induction on them. -/
theorem loaded_indexed (h : Indexed v) (hs : Sound trusted v) {ids : List ι} (hids : ids.Nodup)
    (hnone : ∀ id ∈ ids, v.entries id = none) : Indexed (loaded trusted v ids) := by
  induction ids generalizing v with
  | nil => exact h
  | cons id rest ih =>
    obtain ⟨hnew, hrest⟩ := List.nodup_cons.mp hids
    refine ih (h.load hs (hnone id List.mem_cons_self)) (hs.load id) hrest fun id' hid' => ?_
    refine load_entries ?_ (hnone id' (List.mem_cons_of_mem id hid'))
    rintro rfl
    exact hnew hid'

end Steps

/-! ## Queues, map and flags -/

/-- The entry is in the queue. -/
def InQueue (q : PoolEntryQueue) (r : Ref) : Prop := ∃ i : Nat, q.queue[i]? = some r

structure Consistent (p : ServerPool ι K F) : Prop where
  newQueue : ∀ r, InQueue p.newQueue r → p.entries (p.heap r).node.id = some r
  knownQueue : ∀ r, InQueue p.knownQueue r → p.entries (p.heap r).node.id = some r
  entries : ∀ id r, p.entries id = some r → (p.heap r).node.id = id ∧
    (InQueue p.knownQueue r ↔ (p.heap r).known = true) ∧
      (InQueue p.newQueue r ↔ (p.heap r).known = false)
  removed : ∀ r, (p.heap r).removed = true →
    ¬InQueue p.newQueue r ∧ ¬InQueue p.knownQueue r ∧ ∀ id, p.entries id ≠ some r
  unique : ∀ r r', InQueue p.newQueue r ∨ InQueue p.knownQueue r →
    InQueue p.newQueue r' ∨ InQueue p.knownQueue r' →
      (p.heap r).node.id = (p.heap r').node.id → r = r'

section Consistent

variable {trusted : ι → Bool} {p : ServerPool ι K F} {v : Roster ι}

theorem inQueue_iff (h : Refines trusted p v) (k : Bool) (r : Ref) :
    InQueue (p.queue k) r ↔ r ∈ v.table k := by
  constructor
  · rintro ⟨i, hi⟩
    exact (((h.queue k).slots i r).mp hi).1
  · intro hr
    exact ⟨_, (h.queue k).slot_iff.mpr hr⟩

theorem consistent_of_indexed (h : Refines (fun _ => false) p v)
    (hi : Indexed v) : Consistent p := by
  have hnew := inQueue_iff h false
  have hknown := inQueue_iff h true
  have hmap : ∀ k r, r ∈ v.table k → p.entries (p.heap r).node.id = some r := by
    intro k r hr
    rw [h.entries, h.member_id]
    exact hi.inMap k r hr
  have hqueues : ∀ r, InQueue p.newQueue r ∨ InQueue p.knownQueue r →
      p.entries (p.heap r).node.id = some r := by
    intro r hr
    rcases hr with hr | hr
    · exact hmap false r ((hnew r).mp hr)
    · exact hmap true r ((hknown r).mp hr)
  refine ⟨fun r hr => hqueues r (.inl hr), fun r hr => hqueues r (.inr hr), ?_, ?_, ?_⟩
  · intro id r hr
    rw [h.entries] at hr
    obtain ⟨-, hid, hlisted⟩ := Sound.entry_cases h.sound rfl hr
    have hk : ∀ k, r ∈ v.table k ↔ (p.heap r).known = k := by
      intro k
      rw [h.member_known]
      exact ⟨fun hk => (h.sound.listed k r hk).2.1, fun hk => hk ▸ hlisted⟩
    exact ⟨(h.member_id r).trans hid, (hknown r).trans (hk true), (hnew r).trans (hk false)⟩
  · intro r hr
    rw [h.member_removed] at hr
    obtain ⟨htables, hmap⟩ := hi.gone r hr
    refine ⟨fun hq => htables false ((hnew r).mp hq), fun hq =>
      htables true ((hknown r).mp hq), fun id => ?_⟩
    rw [h.entries]
    exact hmap id
  · intro r r' hr hr' hid
    have hr1 := hqueues r hr
    rw [hid, hqueues r' hr'] at hr1
    exact (Option.some.inj hr1).symm

end Consistent

section Runs

variable [DecidableEq ι] [Zero F] [One F] [Add F] [Mul F] [Inhabited (Node ι K)]

omit [Zero F] [One F] [Add F] [Mul F] in
/-- At the start. -/
theorem stored_indexed (trusted : ι → Bool) {idOf : K → ι} {nodes : List (StoredNode K F)}
    (hnodes : (nodes.map fun s => idOf s.pubkey).Nodup) : Indexed (stored trusted idOf nodes) := by
  have hempty : Indexed (Roster.empty (default : Node ι K).id) := ⟨nofun, nofun⟩
  have hsound : Sound trusted (Roster.empty (default : Node ι K).id) := sound_empty _
  exact loaded_indexed hempty hsound hnodes fun _ _ => rfl

/-- No entry is registered that the pool has removed. -/
def RegistersMembers : Condition ι K F
  | p, .register r => (p.heap r).removed = false
  | _, _ => True

/-- **Queues, map and flags of the pool agree** as long as no removed entry is
registered. -/
theorem pool_index_consistent (idOf : K → ι) (nodes : List (StoredNode K F))
    (hnodes : (nodes.map fun s => idOf s.pubkey).Nodup) {p : ServerPool ι K F}
    (h : Reachable (fun _ => false) idOf nodes RegistersMembers p) : Consistent p := by
  obtain ⟨v, hp, hi⟩ : ∃ v, Refines (fun _ => false) p v ∧ Indexed v := by
    refine reachable_refines (fun v hd => ?_) (fun p v msg a v' hp hi _ hcond hstep => ?_) h
    · exact (stored_indexed (fun _ => false) hnodes).dials hd
    · refine step_indexed hi hp.sound hstep fun r hr => ?_
      rw [← hp.member_removed]
      cases msg <;> cases hr
      exact hcond
  exact consistent_of_indexed hp hi

end Runs

instance (p : ServerPool ι K F) : DecidablePred (RegistersMembers p) := fun msg =>
  match msg with
  | .register r => inferInstanceAs (Decidable ((p.heap r).removed = false))
  | .timeout _ => .isTrue trivial
  | .enableRetry _ => .isTrue trivial
  | .adjustStats _ _ _ => .isTrue trivial
  | .discNode _ => .isTrue trivial
  | .discLookup _ => .isTrue trivial
  | .connect _ => .isTrue trivial
  | .disconnect _ _ => .isTrue trivial

/-- A stored node, a discovered one that connects, registers and disconnects, and
one that connects unasked. -/
def servedMsgs : List (Env Nat Nat Int × ServerPool.Msg Nat Nat Int) :=
  [(plainEnv 1, .discNode (plainNode 2)), (plainEnv 2, .connect (plainNode 2)),
    (plainEnv 3, .register 1), (plainEnv 4, .connect (plainNode 3)),
    (plainEnv 5, .disconnect 1 false), (plainEnv 6, .timeout 0), (plainEnv 7, .enableRetry 1)]

theorem pool_index_consistent_served : ∃ p : ServerPool Nat Nat Int,
    Consistent p ∧ p.entries 2 = some 1 ∧ (p.heap 1).known = true ∧ p.entries 3 = some 2 := by
  obtain ⟨p, hp⟩ := Option.isSome_iff_exists.mp
    (show (runStarted (fun _ => false) id [plainStored 1]
    (plainEnv 0) RegistersMembers servedMsgs).isSome by decide +kernel)
  have hreads : (runStarted (fun _ => false) id [plainStored 1] (plainEnv 0) RegistersMembers
      servedMsgs).map (fun p => (p.entries 2, (p.heap 1).known, p.entries 3)) =
      some (some 1, true, some 2) := by decide +kernel
  rw [hp] at hreads
  simp only [Option.map_some, Option.some.injEq, Prod.mk.injEq] at hreads
  exact ⟨p, pool_index_consistent id [plainStored 1] (by decide)
    (runStarted_reachable hp), hreads⟩

/-! ## A removed entry is registered -/

/-- Entry 0 is connected, and `k` more entries are in the queue behind it. -/
structure Behind (k : Nat) (v : Roster Nat) : Prop where
  next : v.next = k + 1
  table : v.table false = List.range (k + 1)
  fresh : ∀ id, k < id → v.entries id = none
  state : (v.member 0).state = .connected

/-- A peer connects and disconnects. -/
def visited (v : Roster Nat) (id : Nat) : Roster Nat := ((v.add id).accept v.next).release v.next

theorem visited_other {v : Roster Nat} {id x : Nat} (hx : x ≠ v.next) :
    (visited v id).member x = (v.add id).member x := by
  show ((((v.add id).accept v.next).put v.next _).addSelected _ _).member x = _
  show (((v.add id).accept v.next).put v.next _).member x = _
  rw [put_of_ne hx, Roster.accept, put_of_ne hx]

theorem visited_state {v : Roster Nat} {k id : Nat} (h : Behind k v) :
    ((visited v id).member 0).state = .connected := by
  have hne : 0 ≠ v.next := by rw [h.next]; omega
  rw [visited_other hne, Roster.add, touch_state, Roster.enter, put_of_ne hne]
  exact h.state

theorem Behind.next_peer {v : Roster Nat} {k : Nat} (h : Behind k v) (hk : k + 1 < 1000) :
    Behind (k + 1) (visited v (k + 1)) := by
  have hnot : v.next ∉ v.table false := by
    rw [h.table, h.next]
    simp
  have hroom : (v.table false).length ≠ maxEntries false := by
    have hcap : maxEntries false = 1000 := rfl
    rw [h.table, List.length_range, hcap]
    exact Nat.ne_of_lt hk
  have htouch : Recency.touch (maxEntries false) v.next (v.table false) =
      (none, v.table false ++ [v.next]) := Recency.touch_room hnot hroom
  refine ⟨?_, ?_, fun id hid => ?_, visited_state h⟩
  · show ((v.enter _).touch false v.next).next = k + 1 + 1
    rw [touch_next]
    exact congrArg (· + 1) h.next
  · show ((v.enter _).touch false v.next).table false = _
    rw [touch_table, Function.update_self]
    show (Recency.touch (maxEntries false) v.next (v.table false)).2 = _
    rw [htouch, h.table, h.next, ← List.range_succ]
  · refine Option.eq_none_iff_forall_ne_some.mpr fun x hx => ?_
    have hx' : ((v.enter ⟨k + 1, .notConnected, false, false, false⟩).touch false
      v.next).entries id =
      some x := hx
    rw [touch_entries, evict_entries] at hx'
    have henter : Function.update v.entries (k + 1) (some v.next) id = some x := hx'.1
    rw [Function.update_of_ne (by omega), h.fresh id (by omega)] at henter
    cases henter

/-- The thousandth entry behind it drives entry 0 out. -/
theorem Behind.removed {v : Roster Nat} (h : Behind 999 v) :
    ((visited v 1000).member 0).removed = true := by
  have hne : 0 ≠ v.next := by rw [h.next]; decide
  have hnot : v.next ∉ v.table false := by
    rw [h.table, h.next]
    simp
  have hfull : (v.table false).length = maxEntries false := by
    rw [h.table, List.length_range]
    rfl
  have htouch : (Recency.touch (maxEntries false) v.next (v.table false)).1 = some 0 := by
    rw [Recency.touch_full hnot hfull, h.table, List.head?_range]
    rfl
  rw [visited_other hne, Roster.add, touch_member]
  exact congrArg Member.removed (if_pos htouch)

/-- The pools without trusted and stored nodes. -/
abbrev Reached : ServerPool Nat Nat Int → Prop := Reachable (fun _ => false) id [] fun _ _ => True

/-- A new peer connects. -/
theorem connect_new {p : ServerPool Nat Nat Int} {v : Roster Nat} (h : Reached p)
    (hp : Refines (fun _ => false) p v) {id : Nat} (hid : v.entries id = none) :
    ∃ p', Reached p' ∧ Refines (fun _ => false) p' ((v.add id).accept v.next) := by
  obtain ⟨a, p', v', hcall, hstep, hp'⟩ := connect_refines (plainEnv 0) (plainNode id) hp
  have hreached : Reached p' := .handle h (plainEnv 0)
    (.connect (plainNode id)) a trivial trivial hcall
  cases hstep with
  | trusted ht => cases ht
  | refused hr =>
    rw [show v.entries id = _ from hr] at hid
    cases hid
  | accepted _ hr =>
    rw [show v.entries id = _ from hr] at hid
    cases hid
  | acceptedNew => exact ⟨p', hreached, hp'⟩

theorem accepted_handed {v : Roster Nat} {r : Ref} : (v.accept r).Handed r := by
  rw [Roster.Handed, Roster.accept, put_self]
  exact .inl rfl

theorem visit {p : ServerPool Nat Nat Int} {v : Roster Nat} (h : Reached p)
    (hp : Refines (fun _ => false) p v) {id : Nat} (hid : v.entries id = none) :
    ∃ p', Reached p' ∧ Refines (fun _ => false) p' (visited v id) := by
  obtain ⟨p1, hreached, hp1⟩ := connect_new h hp hid
  have hr := accepted_handed (v := v.add id) (r := v.next)
  exact ⟨_, .handle hreached (plainEnv 0) (.disconnect v.next false) none
    ((hp1.handed_iff _).mpr hr) trivial rfl, disconnect_refines _ hp1 hr false⟩

theorem dials_empty {v v' : Roster ι} (h : ∀ k, v.table k = []) (hd : Dials v v') : v' = v := by
  induction hd with
  | refl => rfl
  | dial _ hlisted _ _ ih =>
    rw [ih, Roster.Listed, h] at hlisted
    cases hlisted

/-- By the number of peers. -/
theorem reach_behind {k : Nat} (hk : k < 1000) :
    ∃ p v, Reached p ∧ Refines (fun _ => false) p v ∧ Behind k v := by
  induction k with
  | zero =>
    obtain ⟨p0, h0⟩ := Option.isSome_iff_exists.mp
      (show ((ServerPool.newServerPool fun _ => false).start
      id (plainEnv 0) (plainEnv 0) ([] : List (StoredNode Nat Int))).toOption.isSome by
        decide +kernel)
    have hstart := toOption_eq_some h0
    obtain ⟨v, hd, hp0⟩ := start_refines (newServerPool_refines _) hstart
    obtain rfl := dials_empty (fun _ => rfl) hd
    have hnone : (Roster.empty (default : Node Nat Nat).id).entries 0 = none := rfl
    obtain ⟨p, hreached, hp⟩ := connect_new (.start hstart) hp0 hnone
    refine ⟨p, _, hreached, hp, rfl, rfl, fun id hid => ?_, ?_⟩
    · exact Function.update_of_ne (Nat.ne_of_gt hid) ..
    · rfl
  | succ k ih =>
    obtain ⟨p, v, hreached, hp, hv⟩ := ih (by omega)
    obtain ⟨p', hreached', hp'⟩ := visit hreached hp (hv.fresh (k + 1) (Nat.lt_succ_self k))
    exact ⟨p', _, hreached', hp', hv.next_peer hk⟩

/-- A peer connects, a thousand others connect and disconnect, and the peer registers. -/
theorem removed_entry_queued : ∃ p : ServerPool Nat Nat Int,
    Reachable (fun _ => false) id [] (fun _ _ => True) p ∧ (p.heap 0).removed = true ∧
      InQueue p.knownQueue 0 ∧ ¬Consistent p := by
  obtain ⟨p, v, hreached, hp, hv⟩ := reach_behind (k := 999) (by decide)
  obtain ⟨p1, hreached1, hp1⟩ := visit hreached hp (hv.fresh 1000 (by decide))
  have hhanded : (visited v 1000).Handed 0 := .inl (visited_state hv)
  obtain ⟨p2, hcall, hp2⟩ := register_refines (plainEnv 0) hp1 hhanded
  have hremoved : (p2.heap 0).removed = true := by
    rw [hp2.member_removed, Roster.register, touch_member, promote_self]
    split
    · rfl
    · exact hv.removed
  have hqueued : InQueue p2.knownQueue 0 := by
    refine (inQueue_iff hp2 true 0).mpr ?_
    have hnodup := (Sound.promote hp1.sound (not_idle_of_handed hhanded)).nodup true
    exact (mem_touch hnodup).mpr (.inl ⟨rfl, rfl⟩)
  refine ⟨p2, ?_, hremoved, hqueued, fun hc => (hc.removed 0 hremoved).2.1 hqueued⟩
  refine .handle hreached1 (plainEnv 0) (.register 0) none
    ((hp1.handed_iff 0).mpr hhanded) trivial ?_
  rw [ServerPool.handle, hcall]
  rfl

end MiniOpera.PoolIndex
