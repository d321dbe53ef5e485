import MiniOpera.EntryQueue

/-!
# Runs of the queue

`setLatest`, `remove` and `fetchOldest` in any order, on entries whose `queueIdx`
anything else may write while they are not in the queue. The times of the last
`setLatest` of the entries are kept beside the queue. In every state reached the
queue holds a list of entries in the order of these times (`reached_ordered`), and
`lru_queue` reads off it what each of the three calls does next.
-/

namespace MiniOpera.QueueOrder
open GoRuntime Recency EntryQueue

/-- The queue, the `queueIdx` of all entries, and when each was last used. -/
structure Usage where
  q : PoolEntryQueue
  queueIdx : Ref → Nat
  clock : Nat
  lastUse : Ref → Nat

namespace Usage

def setLatest (s : Usage) (r : Ref) : Go Empty (Option Ref × Usage) := do
  let (evicted, q) ← s.q.setLatest s.queueIdx r
  return (evicted, ⟨q, Function.update s.queueIdx r s.q.newPtr, s.clock + 1,
    Function.update s.lastUse r s.clock⟩)

def remove (s : Usage) (r : Ref) : Usage := { s with q := s.q.remove s.queueIdx r }

def fetchOldest (s : Usage) : Go Empty (Option Ref × Usage) := do
  let (e, q) ← s.q.fetchOldest
  return (e, { s with q := q })

/-- The entry is in the queue. -/
def Has (s : Usage) (r : Ref) : Prop := ∃ k : Nat, s.q.queue[k]? = some r

/-- The entry in the queue whose last `setLatest` is oldest. -/
def Oldest (s : Usage) (r : Ref) : Prop := s.Has r ∧ ∀ x, s.Has x → x ≠ r →
    s.lastUse r < s.lastUse x

end Usage

/-- Reached by calls of the queue's methods; entries outside the queue may have any index. -/
inductive Reached (maxCnt : Nat) : Usage → Prop
  | new (queueIdx lastUse : Ref → Nat) : Reached maxCnt
    ⟨newPoolEntryQueue maxCnt, queueIdx, 0, lastUse⟩
  | setLatest {s s' : Usage} {r : Ref} {e : Option Ref} (before : Reached maxCnt s)
      (call : s.setLatest r = .ok (e, s')) : Reached maxCnt s'
  | remove {s : Usage} (r : Ref) (before : Reached maxCnt s) : Reached maxCnt (s.remove r)
  | fetchOldest {s s' : Usage} {e : Option Ref} (before : Reached maxCnt s)
      (call : s.fetchOldest = .ok (e, s')) : Reached maxCnt s'
  | write {s : Usage} {r : Ref} (idx : Nat) (before : Reached maxCnt s) (outside : ¬ s.Has r) :
      Reached maxCnt { s with queueIdx := Function.update s.queueIdx r idx }

/-- The queue holds `l`, at most `maxCnt` entries in the order of their last use. -/
structure Ordered (maxCnt : Nat) (s : Usage) (l : List Ref) : Prop where
  queued : Queued s.q s.queueIdx l
  cap : s.q.maxCnt = maxCnt
  length_le : l.length ≤ maxCnt
  times : l.Pairwise fun a b => s.lastUse a < s.lastUse b
  past : ∀ r ∈ l, s.lastUse r < s.clock

section Ordered

variable {maxCnt : Nat} {s s' : Usage} {l : List Ref} {r : Ref} {e : Option Ref}

theorem Ordered.has_iff (h : Ordered maxCnt s l) : s.Has r ↔ r ∈ l := by
  constructor
  · rintro ⟨k, hk⟩
    exact ((h.queued.slots k r).mp hk).1
  · exact fun hr => ⟨_, h.queued.slot_iff.mpr hr⟩

theorem Ordered.nil_iff (h : Ordered maxCnt s l) : l = [] ↔ ∀ r, ¬ s.Has r := by
  rw [List.eq_nil_iff_forall_not_mem]
  exact forall_congr' fun r => not_congr h.has_iff.symm

/-- What is left when the first entry is gone. -/
theorem Ordered.mem_rest_iff {x : Ref} (h : Ordered maxCnt s (r :: l)) : x ∈ l ↔
    s.Has x ∧ x ≠ r := by
  have hnot := (List.nodup_cons.mp h.queued.nodup).1
  rw [h.has_iff, List.mem_cons]
  constructor
  · intro hx
    refine ⟨.inr hx, ?_⟩
    rintro rfl
    exact hnot hx
  · rintro ⟨hx | hx, hne⟩
    · exact absurd hx hne
    · exact hx

theorem Ordered.oldest (h : Ordered maxCnt s (r :: l)) : s.Oldest r := by
  refine ⟨h.has_iff.mpr List.mem_cons_self, ?_⟩
  intro x hx hne
  rcases List.mem_cons.mp (h.has_iff.mp hx) with rfl | hx
  · exact absurd rfl hne
  · exact (List.pairwise_cons.mp h.times).1 x hx

theorem Ordered.setLatest (h : Ordered maxCnt s l) (hmax : 0 < maxCnt) (r : Ref) :
    ∃ s', s.setLatest r = .ok ((touch maxCnt r l).1, s') ∧
      Ordered maxCnt s' (touch maxCnt r l).2 := by
  obtain ⟨q', hcall, hqueued, hcap⟩ := setLatest_spec h.queued (by rw [h.cap]; exact hmax) r
  rw [h.cap] at hcall hqueued
  refine ⟨_, by rw [Usage.setLatest, hcall]; rfl, hqueued, hcap.trans h.cap,
    touch_length hmax h.length_le, ?_, ?_⟩
  · refine (touch_ordered h.times h.past).imp ?_
    intro a b hlt
    show Function.update s.lastUse r s.clock a < Function.update s.lastUse r s.clock b
    rw [Function.update_apply, Function.update_apply]
    exact hlt
  · intro x hx
    show Function.update s.lastUse r s.clock x < s.clock + 1
    rw [Function.update_apply]
    split
    · exact Nat.lt_succ_self _
    · next hne =>
      rcases (mem_touch h.queued.nodup).mp hx with rfl | ⟨hmem, -⟩
      · exact absurd rfl hne
      · exact Nat.lt_succ_of_lt (h.past x hmem)

theorem Ordered.sublist (h : Ordered maxCnt s l) {q' : PoolEntryQueue} {l' : List Ref}
    (hqueued : Queued q' s.queueIdx l') (hcap : q'.maxCnt = s.q.maxCnt) (hsub : l'.Sublist l) :
    Ordered maxCnt { s with q := q' } l' :=
  ⟨hqueued, hcap.trans h.cap, Nat.le_trans hsub.length_le h.length_le, h.times.sublist hsub,
    fun r hr => h.past r (hsub.subset hr)⟩

theorem Ordered.fetchOldest (h : Ordered maxCnt s l) :
    ∃ s', s.fetchOldest = .ok (l.head?, s') ∧ Ordered maxCnt s' l.tail := by
  cases l with
  | nil =>
    have hcall : s.q.fetchOldest = .ok (none, s.q) := if_pos h.queued.size
    exact ⟨s, by rw [Usage.fetchOldest, hcall]; rfl, h⟩
  | cons r l =>
    obtain ⟨q', hcall, hqueued, -, hcap⟩ := fetchOldest_spec h.queued
    exact ⟨_, by rw [Usage.fetchOldest, hcall]; rfl,
      h.sublist hqueued hcap (List.sublist_cons_self r l)⟩

end Ordered

/-- By induction on the calls. -/
theorem reached_ordered {maxCnt : Nat} {s : Usage} (hmax : 0 < maxCnt) (h : Reached maxCnt s) :
    ∃ l, Ordered maxCnt s l := by
  induction h with
  | new queueIdx lastUse =>
    exact ⟨[], queued_new maxCnt queueIdx, rfl, Nat.zero_le _, .nil, fun r hr => by cases hr⟩
  | @setLatest s s' r e before call ih =>
    obtain ⟨l, hl⟩ := ih
    obtain ⟨t, hcall, ht⟩ := hl.setLatest hmax r
    rw [hcall] at call
    cases call
    exact ⟨_, ht⟩
  | @remove s r before ih =>
    obtain ⟨l, hl⟩ := ih
    refine ⟨l.erase r, hl.sublist (remove_spec hl.queued r) ?_ List.erase_sublist⟩
    unfold PoolEntryQueue.remove
    split <;> rfl
  | @fetchOldest s s' e before call ih =>
    obtain ⟨l, hl⟩ := ih
    obtain ⟨t, hcall, ht⟩ := hl.fetchOldest
    rw [hcall] at call
    cases call
    exact ⟨_, ht⟩
  | @write s r idx before outside ih =>
    obtain ⟨l, hl⟩ := ih
    refine ⟨l, hl.queued.congr ?_, hl.cap, hl.length_le, hl.times, hl.past⟩
    intro x hx
    refine Function.update_of_ne ?_ _ _
    rintro rfl
    exact outside (hl.has_iff.mpr hx)

/-- The queue is a least-recently-used queue. After any calls, every key of the map
is between the two pointers and is the `queueIdx` of its entry, no entry occurs
twice and there are at most `maxCnt` of them. `fetchOldest` ends; unless the queue is
empty it returns the entry whose last `setLatest` is oldest and removes it and no other.
`setLatest` ends; it calls `removeFromPool` exactly if the entry is new and the queue is full,
and then for the oldest entry. -/
theorem lru_queue (maxCnt : Nat) (hmax : 1 ≤ maxCnt) (s : Usage) (h : Reached maxCnt s) :
    (∀ (k : Nat) (r : Ref), s.q.queue[k]? = some r → s.q.oldPtr ≤ k ∧
      k < s.q.newPtr ∧ s.queueIdx r = k) ∧
      (∀ (k k' : Nat) (r : Ref), s.q.queue[k]? = some r →
        s.q.queue[k']? = some r → k = k') ∧
      s.q.queue.size ≤ maxCnt ∧
      (∃ e s', s.fetchOldest = .ok (e, s') ∧ (e = none ↔ ∀ r, ¬ s.Has r) ∧
        ∀ r, e = some r → s.Oldest r ∧ ∀ x, s'.Has x ↔ s.Has x ∧ x ≠ r) ∧
      ∀ r, ∃ e s', s.setLatest r = .ok (e, s') ∧ s'.queueIdx r = s.q.newPtr ∧
        (∀ x, s'.Has x ↔ x = r ∨ (s.Has x ∧ e ≠ some x)) ∧
        (e ≠ none ↔ ¬ s.Has r ∧ s.q.queue.size = maxCnt) ∧
          ∀ o, e = some o → s.Oldest o := by
  obtain ⟨l, hl⟩ := reached_ordered hmax h
  have hslots : ∀ (k : Nat) (r : Ref), s.q.queue[k]? = some r → r ∈ l ∧ s.queueIdx r = k :=
    fun k r hk => (hl.queued.slots k r).mp hk
  refine ⟨?_, ?_, ?_, ?_, ?_⟩
  · intro k r hk
    obtain ⟨hr, hidx⟩ := hslots k r hk
    have hrange := hl.queued.range r hr
    rw [hidx] at hrange
    exact ⟨hrange.1, hrange.2, hidx⟩
  · intro k k' r hk hk'
    exact (hslots k r hk).2.symm.trans (hslots k' r hk').2
  · rw [hl.queued.size]
    exact hl.length_le
  · obtain ⟨s', hcall, hs'⟩ := hl.fetchOldest
    refine ⟨_, s', hcall, ?_, ?_⟩
    · rw [List.head?_eq_none_iff]
      exact hl.nil_iff
    · intro r hr
      obtain ⟨rest, rfl⟩ := List.head?_eq_some_iff.mp hr
      refine ⟨hl.oldest, fun x => ?_⟩
      rw [hs'.has_iff, List.tail_cons]
      exact hl.mem_rest_iff
  · intro r
    obtain ⟨s', hcall, hs'⟩ := hl.setLatest hmax r
    refine ⟨_, s', hcall, ?_, ?_, ?_, ?_⟩
    · obtain ⟨⟨e, q⟩, -, hret⟩ := bind_eq_ok hcall
      cases hret
      exact Function.update_self ..
    · intro x
      rw [hs'.has_iff, hl.has_iff]
      exact mem_touch hl.queued.nodup
    · rw [hl.has_iff, hl.queued.size]
      exact touch_evicts_iff hmax
    · intro o ho
      obtain ⟨-, -, hhead⟩ := touch_evicts ho
      obtain ⟨rest, rfl⟩ := List.head?_eq_some_iff.mp hhead
      exact hl.oldest

/-- Room for two entries: 5 and 6 are used, then 5 again, so that 6 goes first. -/
theorem lru_queue_two : ∃ s : Usage, Reached 2 s ∧ s.Has 5 ∧ s.Oldest 6 ∧
    ∃ e s', s.fetchOldest = .ok (e, s') ∧ e ≠ none := by
  have hnew : Ordered 2 ⟨newPoolEntryQueue 2, fun _ => 0, 0, fun _ => 0⟩ [] :=
    ⟨queued_new 2 _, rfl, Nat.zero_le _, .nil, fun r hr => by cases hr⟩
  obtain ⟨s1, hcall1, h1⟩ := hnew.setLatest (by decide) 5
  obtain ⟨s2, hcall2, h2⟩ := h1.setLatest (by decide) 6
  obtain ⟨s3, hcall3, h3⟩ := h2.setLatest (by decide) 5
  have hreached : Reached 2 s3 :=
    (((Reached.new _ _).setLatest hcall1).setLatest hcall2).setLatest hcall3
  obtain ⟨-, -, -, ⟨e, s', hcall, hnone, -⟩, -⟩ := lru_queue 2 (by decide) s3 hreached
  have h5 : s3.Has 5 := h3.has_iff.mpr (by decide)
  exact ⟨s3, hreached, h5, h3.oldest, e, s', hcall, fun heq => hnone.mp heq 5 h5⟩

end MiniOpera.QueueOrder
