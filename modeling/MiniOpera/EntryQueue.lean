import Mathlib.Data.List.Sort
import MiniOpera.Lib.GoRuntime
import MiniOpera.Lib.Recency

/-!
# `poolEntryQueue`

The queue of `serverpool.go` keeps the entries under the number of their last
use, with holes where entries have been used again or removed. Entries are
references; `queueIdx` is the field of the entries that the queue reads, and the
field that `setLatest` writes is returned with the queue.

`Queued q queueIdx l`: the queue holds the entries of `l`, the least recently
used first, each under its `queueIdx`. `setLatest` is then `Recency.touch`
(`setLatest_spec`), and the scan of `fetchOldest`, which has no bound in the
source, ends at the first entry (`fetchOldest_spec`).
-/

namespace MiniOpera.EntryQueue
open GoRuntime Recency

/-- A pointer to an entry. -/
abbrev Ref := Nat

/-- Keeps track of its least recently accessed entries and removes them when the
number of entries reaches the limit. -/
structure PoolEntryQueue where
  queue : Std.ExtTreeMap Nat Ref
  newPtr : Nat
  oldPtr : Nat
  maxCnt : Nat

def newPoolEntryQueue (maxCnt : Nat) : PoolEntryQueue := ⟨∅, 0, 0, maxCnt⟩

/-- A loop that never ends. -/
def endless : Panic := .message "endless loop"

namespace PoolEntryQueue

/-- The loop of `fetchOldest` from `oldPtr`: the first entry and its index. -/
def scan (queue : Std.ExtTreeMap Nat Ref) : Nat → Nat → Option (Ref × Nat)
  | 0, _ => none
  | fuel + 1, oldPtr =>
    match queue[oldPtr]? with
    | some e => some (e, oldPtr)
    | none => scan queue fuel (oldPtr + 1)

/-- Returns and removes the least recently accessed entry. There is nothing to
find from `newPtr` on. -/
def fetchOldest (q : PoolEntryQueue) : Go Empty (Option Ref × PoolEntryQueue) :=
  if q.queue.size = 0 then .ok (none, q)
  else
    match scan q.queue (q.newPtr - q.oldPtr) q.oldPtr with
    | some (e, oldPtr) =>
      .ok (some e, { q with queue := q.queue.erase oldPtr, oldPtr := oldPtr + 1 })
    | none => .error (.panic endless)

/-- Removes an entry from the queue. -/
def remove (q : PoolEntryQueue) (queueIdx : Ref → Nat) (entry : Ref) : PoolEntryQueue :=
  if q.queue[queueIdx entry]? = some entry then
    { q with queue := q.queue.erase (queueIdx entry) }
  else q

/-- The entry under a new index, which becomes its `queueIdx`. -/
def append (q : PoolEntryQueue) (entry : Ref) : PoolEntryQueue :=
  { q with queue := q.queue.insert q.newPtr entry, newPtr := q.newPtr + 1 }

/-- Adds or updates a recently accessed entry. Returns the entry for which
`removeFromPool` is called, which reads nothing of the queue. -/
def setLatest (q : PoolEntryQueue) (queueIdx : Ref → Nat) (entry : Ref) :
    Go Empty (Option Ref × PoolEntryQueue) :=
  if q.queue[queueIdx entry]? = some entry then
    .ok (none, { q with queue := q.queue.erase (queueIdx entry) }.append entry)
  else if q.queue.size = q.maxCnt then do
    let (e, q) ← q.fetchOldest
    match e with
    | some e => return (some e, (q.remove queueIdx e).append entry)
    | none => .error (.panic .nilDereference)
  else .ok (none, q.append entry)

end PoolEntryQueue

/-- The entries of the queue are `l`, in the order of their last use. -/
structure Queued (q : PoolEntryQueue) (queueIdx : Ref → Nat) (l : List Ref) : Prop where
  order : l.Pairwise fun r r' => queueIdx r < queueIdx r'
  range : ∀ r ∈ l, q.oldPtr ≤ queueIdx r ∧ queueIdx r < q.newPtr
  slots : ∀ k r, q.queue[k]? = some r ↔ r ∈ l ∧ queueIdx r = k
  size : q.queue.size = l.length
  pointers : q.oldPtr ≤ q.newPtr

section Queued

variable {q : PoolEntryQueue} {queueIdx queueIdx' : Ref → Nat} {l : List Ref} {r : Ref}

theorem queued_new (maxCnt : Nat) (queueIdx : Ref → Nat) :
    Queued (newPoolEntryQueue maxCnt) queueIdx [] where
  order := .nil
  range r hr := by cases hr
  slots k r := by simp [newPoolEntryQueue]
  size := rfl
  pointers := Nat.le_refl 0

/-- Other entries may change their `queueIdx`. -/
theorem Queued.congr (h : Queued q queueIdx l) (heq : ∀ r ∈ l, queueIdx' r = queueIdx r) :
    Queued q queueIdx' l where
  order := h.order.imp_of_mem fun ha hb hlt => by rw [heq _ ha, heq _ hb]; exact hlt
  range r hr := by rw [heq r hr]; exact h.range r hr
  slots k r := by
    rw [h.slots]
    exact and_congr_right fun hr => by rw [heq r hr]
  size := h.size
  pointers := h.pointers

theorem Queued.nodup (h : Queued q queueIdx l) : l.Nodup :=
  h.order.imp fun hlt heq => by rw [heq] at hlt; exact Nat.lt_irrefl _ hlt

theorem Queued.slot_iff (h : Queued q queueIdx l) : q.queue[queueIdx r]? = some r ↔ r ∈ l := by
  rw [h.slots]
  exact and_iff_left rfl

/-- What is erased with its slot is erased from the list. -/
theorem Queued.erase (h : Queued q queueIdx l) (hr : r ∈ l) {oldPtr : Nat}
    (hold : ∀ x ∈ l, x ≠ r → oldPtr ≤ queueIdx x) (hptr : oldPtr ≤ q.newPtr) :
    Queued { q with queue := q.queue.erase (queueIdx r), oldPtr := oldPtr } queueIdx
      (l.erase r) where
  order := h.order.sublist List.erase_sublist
  range x hx := by
    obtain ⟨hne, hx⟩ := h.nodup.mem_erase_iff.mp hx
    exact ⟨hold x hx hne, (h.range x hx).2⟩
  slots k x := by
    simp only [Std.ExtTreeMap.getElem?_erase, Nat.compare_eq_eq, h.nodup.mem_erase_iff]
    by_cases hk : queueIdx r = k
    · -- only `r` has this index
      rw [if_pos hk]
      refine ⟨fun h => (nomatch h), fun ⟨⟨hne, hx⟩, hxk⟩ => ?_⟩
      have h1 := (h.slots k x).mpr ⟨hx, hxk⟩
      rw [(h.slots k r).mpr ⟨hr, hk⟩] at h1
      exact absurd (Option.some.inj h1).symm hne
    · rw [if_neg hk, h.slots]
      refine ⟨fun ⟨hx, hxk⟩ => ⟨⟨?_, hx⟩, hxk⟩,
        fun ⟨⟨_, hx⟩, hxk⟩ => ⟨hx, hxk⟩⟩
      rintro rfl
      exact hk hxk
  size := by
    have hmem : q.queue.contains (queueIdx r) = true := by
      rw [Std.ExtTreeMap.contains_iff_mem, Std.ExtTreeMap.mem_iff_isSome_getElem?,
        h.slot_iff.mpr hr]
      rfl
    rw [Std.ExtTreeMap.size_erase, if_pos hmem, h.size, List.length_erase_of_mem hr]
  pointers := hptr

/-- The next index is not in use. -/
theorem Queued.newPtr_free (h : Queued q queueIdx l) : q.queue[q.newPtr]? = none := by
  cases hslot : q.queue[q.newPtr]? with
  | none => rfl
  | some x =>
    obtain ⟨hx, hk⟩ := (h.slots _ x).mp hslot
    exact absurd (h.range x hx).2 (by rw [hk]; exact Nat.lt_irrefl _)

theorem Queued.append (h : Queued q queueIdx l) (hr : r ∉ l) :
    Queued (q.append r) (Function.update queueIdx r q.newPtr) (l ++ [r]) := by
  have hother : ∀ x ∈ l, Function.update queueIdx r q.newPtr x = queueIdx x := by
    intro x hx
    rw [Function.update_of_ne]
    rintro rfl
    exact hr hx
  have hself : Function.update queueIdx r q.newPtr r = q.newPtr := Function.update_self ..
  have h' := h.congr hother
  constructor
  · rw [List.pairwise_append]
    refine ⟨h'.order, List.pairwise_singleton _ r, fun x hx y hy => ?_⟩
    rw [List.mem_singleton.mp hy, hself]
    exact (h'.range x hx).2
  · intro x hx
    rcases List.mem_append.mp hx with hx | hx
    · exact ⟨(h'.range x hx).1, Nat.lt_succ_of_lt (h'.range x hx).2⟩
    · rw [List.mem_singleton.mp hx, hself]
      exact ⟨h.pointers, Nat.lt_succ_self _⟩
  · intro k x
    simp only [PoolEntryQueue.append, Std.ExtTreeMap.getElem?_insert, Nat.compare_eq_eq,
      List.mem_append, List.mem_singleton]
    by_cases hk : q.newPtr = k
    · rw [if_pos hk, Option.some.injEq]
      constructor
      · rintro rfl
        exact ⟨.inr rfl, hself.trans hk⟩
      · rintro ⟨hx | hx, hxk⟩
        · exact absurd (h'.range x hx).2 (by rw [hxk, hk]; exact Nat.lt_irrefl _)
        · exact hx.symm
    · rw [if_neg hk, h'.slots]
      refine ⟨fun ⟨hx, hxk⟩ => ⟨.inl hx, hxk⟩, ?_⟩
      rintro ⟨hx | rfl, hxk⟩
      · exact ⟨hx, hxk⟩
      · exact absurd (hself.symm.trans hxk) hk
  · have hmem : q.queue.contains q.newPtr = false := by
      rw [Std.ExtTreeMap.contains_eq_isSome_getElem?, h.newPtr_free]
      rfl
    rw [PoolEntryQueue.append, Std.ExtTreeMap.size_insert, hmem, h.size, List.length_append]
    rfl
  · exact Nat.le_succ_of_le h.pointers

/-- From any index up to that of the first entry, the scan finds the first entry. -/
theorem Queued.scan (h : Queued q queueIdx (r :: l)) {fuel oldPtr : Nat}
    (hptr : oldPtr ≤ queueIdx r)
    (hfuel : queueIdx r < oldPtr + fuel) :
    PoolEntryQueue.scan q.queue fuel oldPtr = some (r, queueIdx r) := by
  induction fuel generalizing oldPtr with
  | zero => omega
  | succ fuel ih =>
    rw [PoolEntryQueue.scan]
    by_cases heq : oldPtr = queueIdx r
    · rw [heq, h.slot_iff.mpr List.mem_cons_self]
    · have hnone : q.queue[oldPtr]? = none := by
        cases hslot : q.queue[oldPtr]? with
        | none => rfl
        | some x =>
          -- every other entry was used after the first
          obtain ⟨hx, hk⟩ := (h.slots _ x).mp hslot
          rcases List.mem_cons.mp hx with rfl | hx
          · exact absurd hk.symm heq
          · have hlt := (List.pairwise_cons.mp h.order).1 x hx
            omega
      rw [hnone]
      exact ih (by omega) (by omega)

theorem fetchOldest_spec (h : Queued q queueIdx (r :: l)) :
    ∃ q', q.fetchOldest = .ok (some r, q') ∧ Queued q' queueIdx l ∧ q'.newPtr = q.newPtr ∧
      q'.maxCnt = q.maxCnt := by
  have hrange := h.range r List.mem_cons_self
  have hsize : q.queue.size ≠ 0 := by rw [h.size]; exact Nat.succ_ne_zero _
  have hscan : PoolEntryQueue.scan q.queue (q.newPtr - q.oldPtr) q.oldPtr = some (r, queueIdx r) :=
    h.scan hrange.1 (by omega)
  have hrest : ∀ x ∈ r :: l, x ≠ r → queueIdx r + 1 ≤ queueIdx x := by
    intro x hx hne
    rcases List.mem_cons.mp hx with rfl | hx
    · exact absurd rfl hne
    · exact (List.pairwise_cons.mp h.order).1 x hx
  have herase := h.erase List.mem_cons_self hrest hrange.2
  rw [List.erase_cons_head] at herase
  exact ⟨_, by rw [PoolEntryQueue.fetchOldest, if_neg hsize, hscan], herase, rfl, rfl⟩

theorem remove_spec (h : Queued q queueIdx l) (r : Ref) :
    Queued (q.remove queueIdx r) queueIdx (l.erase r) := by
  unfold PoolEntryQueue.remove
  split
  · next hslot =>
    have hr := h.slot_iff.mp hslot
    exact h.erase hr (fun x hx _ => (h.range x hx).1) h.pointers
  · next hslot =>
    rw [h.slot_iff] at hslot
    rw [List.erase_of_not_mem hslot]
    exact h

theorem setLatest_spec (h : Queued q queueIdx l) (hcap : 0 < q.maxCnt) (r : Ref) :
    ∃ q', q.setLatest queueIdx r = .ok ((touch q.maxCnt r l).1, q') ∧
      Queued q' (Function.update queueIdx r q.newPtr) (touch q.maxCnt r l).2 ∧
      q'.maxCnt = q.maxCnt := by
  unfold PoolEntryQueue.setLatest
  by_cases hr : r ∈ l
  · rw [if_pos (h.slot_iff.mpr hr), touch_old hr]
    have herase := h.erase hr (fun x hx _ => (h.range x hx).1) h.pointers
    exact ⟨_, rfl, herase.append fun hmem => (h.nodup.mem_erase_iff.mp hmem).1 rfl, rfl⟩
  · rw [if_neg fun hslot => hr (h.slot_iff.mp hslot), h.size]
    by_cases hfull : l.length = q.maxCnt
    · rw [if_pos hfull, touch_full hr hfull]
      cases l with
      | nil => exact absurd hfull (Nat.ne_of_lt hcap)
      | cons e rest =>
        obtain ⟨q', hfetch, hq', hnew, hmax⟩ := fetchOldest_spec h
        -- the entry is out of the queue already
        have hout : q'.remove queueIdx e = q' := by
          refine if_neg fun hslot => ?_
          exact (List.nodup_cons.mp h.nodup).1 (hq'.slot_iff.mp hslot)
        refine ⟨_, by rw [hfetch]; rfl, ?_, ?_⟩
        · rw [hout, ← hnew]
          exact hq'.append fun hmem => hr (List.mem_cons_of_mem e hmem)
        · rw [hout]
          exact hmax
    · rw [if_neg hfull, touch_room hr hfull]
      exact ⟨_, rfl, h.append hr, rfl⟩

end Queued

end MiniOpera.EntryQueue
