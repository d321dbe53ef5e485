import Mathlib.Data.List.Perm.Basic

/-! Threads in a list, each of which may hold one thing. When one of them moves,
what all of them hold changes by what that one takes or drops. -/

namespace MiniOpera.Holdings

variable {σ α : Type} {f : σ → Option α} {l : List σ} {i : Nat} {a b : σ} {x : α}

/-- What the threads hold. -/
def holdings (f : σ → Option α) (l : List σ) : List α := l.filterMap f

theorem mem_holdings (h : l[i]? = some a) (ha : f a = some x) : x ∈ holdings f l :=
  List.mem_filterMap.mpr ⟨a, List.mem_of_getElem? h, ha⟩

theorem holdings_snoc (hb : f b = none) : holdings f (l ++ [b]) = holdings f l := by
  simp [holdings, hb]

theorem holdings_cons (a : σ) (l : List σ) :
    holdings f (a :: l) = (f a).toList ++ holdings f l := by
  cases ha : f a <;> simp [holdings, ha]

/-- The thread at `i` and the others. -/
theorem holdings_split (h : l[i]? = some a) :
    (holdings f l).Perm ((f a).toList ++ holdings f (l.eraseIdx i)) := by
  obtain ⟨hlt, rfl⟩ := List.getElem?_eq_some_iff.mp h
  rw [← holdings_cons]
  exact (List.getElem_cons_eraseIdx_perm hlt).symm.filterMap f

theorem holdings_set (h : l[i]? = some a) (b : σ) :
    (holdings f (l.set i b)).Perm ((f b).toList ++ holdings f (l.eraseIdx i)) := by
  obtain ⟨hlt, -⟩ := List.getElem?_eq_some_iff.mp h
  rw [← holdings_cons]
  exact (List.set_perm_cons_eraseIdx hlt b).filterMap f

theorem holdings_keep (h : l[i]? = some a) (hab : f b = f a) :
    (holdings f (l.set i b)).Perm (holdings f l) := by
  have hset := holdings_set (f := f) h b
  rw [hab] at hset
  exact hset.trans (holdings_split h).symm

theorem holdings_take (h : l[i]? = some a) (ha : f a = none) (hb : f b = some x) :
    (holdings f (l.set i b)).Perm (x :: holdings f l) := by
  have hset := holdings_set (f := f) h b
  have hsplit := holdings_split (f := f) h
  rw [hb] at hset
  rw [ha] at hsplit
  exact hset.trans (hsplit.symm.cons x)

theorem holdings_drop (h : l[i]? = some a) (ha : f a = some x) (hb : f b = none) :
    (holdings f l).Perm (x :: holdings f (l.set i b)) := by
  have hset := holdings_set (f := f) h b
  have hsplit := holdings_split (f := f) h
  rw [hb] at hset
  rw [ha] at hsplit
  exact hsplit.trans (hset.symm.cons x)

end MiniOpera.Holdings
