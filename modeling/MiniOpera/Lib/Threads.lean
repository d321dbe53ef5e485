import Mathlib.Data.List.Basic

/-! Systems that run step after step, and the threads of such a system in a list.
An invariant of the steps is one of the runs; a measure that some step lowers
leads to a run that ends. When one thread of a list moves, the others and what is
counted over all of them change by what that one does. -/

namespace MiniOpera.Threads

variable {σ α : Type}

/-! ## Runs -/

/-- Step after step; there is no run through a step that is not enabled. -/
def run (step : σ → α → Option σ) : σ → List α → Option σ
  | s, [] => some s
  | s, a :: rest => (step s a).bind fun s' => run step s' rest

variable {step : σ → α → Option σ} {s s' : σ}

theorem run_cons {a : α} {rest : List α} (h : run step s (a :: rest) = some s') :
    ∃ t, step s a = some t ∧ run step t rest = some s' :=
  Option.bind_eq_some_iff.mp h

theorem run_trans {t : σ} {as bs : List α} (ha : run step s as = some t)
    (hb : run step t bs = some s') :
    run step s (as ++ bs) = some s' := by
  induction as generalizing s with
  | nil =>
    cases ha
    exact hb
  | cons a as ih =>
    obtain ⟨u, hstep, hrest⟩ := run_cons ha
    exact Option.bind_eq_some_iff.mpr ⟨u, hstep, ih hrest⟩

/-- What every step keeps, every run keeps. -/
theorem run_keeps {I : σ → Prop} (hstep : ∀ s a s', I s → step s a = some s' → I s')
    {l : List α}
    (hs : I s) (h : run step s l = some s') : I s' := by
  induction l generalizing s with
  | nil =>
    cases h
    exact hs
  | cons a rest ih =>
    obtain ⟨t, ht, hrest⟩ := run_cons h
    exact ih (hstep s a t hs ht) hrest

/-- What every step keeps as long as `P` holds, a run keeps whose states satisfy `P`. -/
theorem run_keeps_while {I P : σ → Prop}
    (hstep : ∀ s a s', I s → P s' → step s a = some s' → I s') {l : List α}
    (hP : ∀ as, as <+: l → ∀ t, run step s as = some t → P t)
    (hs : I s) (h : run step s l = some s') : I s' := by
  induction l generalizing s with
  | nil =>
    cases h
    exact hs
  | cons a rest ih =>
    obtain ⟨t, ht, hrest⟩ := run_cons h
    have hone : run step s [a] = some t := by rw [run, ht]; rfl
    refine ih (fun as has u hu => ?_) (hstep s a t hs ?_ ht) hrest
    · refine hP (a :: as) ((List.prefix_cons_inj a).mpr has) u ?_
      rw [run, ht]
      exact hu
    · exact hP [a] ((List.prefix_cons_inj a).mpr List.nil_prefix) t hone

/-- Where a step that lowers the measure is always enabled, a run leads to the end. -/
theorem run_ends {I done : σ → Prop} (μ : σ → Nat)
    (hprogress : ∀ s, I s → ¬ done s → ∃ a s', step s a = some s' ∧
      I s' ∧ μ s' < μ s)
    (hs : I s) : ∃ l s', run step s l = some s' ∧ I s' ∧ done s' := by
  induction hn : μ s using Nat.strongRecOn generalizing s with
  | ind n ih =>
    by_cases hdone : done s
    · exact ⟨[], s, rfl, hs, hdone⟩
    · obtain ⟨a, t, hstep, ht, hlt⟩ := hprogress s hs hdone
      obtain ⟨l, u, hrun, hu, hend⟩ := ih (μ t) (hn ▸ hlt) ht rfl
      exact ⟨a :: l, u, Option.bind_eq_some_iff.mpr ⟨t, hstep, hrun⟩, hu, hend⟩

/-! ## A list of threads -/

section List

variable {l : List σ} {i j : Nat} {a b : σ} {f : σ → σ}

theorem modify_self (h : l[i]? = some a) : (l.modify i f)[i]? = some (f a) := by
  simp [h]

theorem modify_of_ne (h : j ≠ i) : (l.modify i f)[j]? = l[j]? := by
  simp [Ne.symm h]

/-- A thread of the list after one of them moved: that one, or another. -/
theorem modify_cases (h : (l.modify i f)[j]? = some b) :
    (j = i ∧ ∃ a, l[i]? = some a ∧ b = f a) ∨ (j ≠ i ∧ l[j]? = some b) := by
  by_cases hj : j = i
  · subst hj
    cases ha : l[j]? with
    | none => simp [ha] at h
    | some a =>
      rw [modify_self ha] at h
      exact .inl ⟨rfl, a, rfl, (Option.some.inj h).symm⟩
  · rw [modify_of_ne hj] at h
    exact .inr ⟨hj, h⟩

theorem snoc_cases (h : (l ++ [b])[j]? = some a) :
    (j = l.length ∧ a = b) ∨ (j < l.length ∧ l[j]? = some a) := by
  rcases Nat.lt_trichotomy j l.length with hlt | rfl | hgt
  · rw [List.getElem?_append_left hlt] at h
    exact .inr ⟨hlt, h⟩
  · rw [List.getElem?_concat_length] at h
    exact .inl ⟨rfl, (Option.some.inj h).symm⟩
  · rw [List.getElem?_eq_none (by simp; omega)] at h
    cases h

/-- What holds of every thread and of the one that moved holds of every thread afterwards. -/
theorem forall_mem_set {P : σ → Prop} (h : ∀ x ∈ l, P x) (ha : P a) :
    ∀ x ∈ l.set i a, P x := by
  intro x hx
  rcases List.mem_or_eq_of_mem_set hx with hx | rfl
  · exact h x hx
  · exact ha

theorem forall_mem_snoc {P : σ → Prop} (h : ∀ x ∈ l, P x) (ha : P a) :
    ∀ x ∈ l ++ [a], P x := by
  intro x hx
  rcases List.mem_append.mp hx with hx | hx
  · exact h x hx
  · rwa [List.mem_singleton.mp hx]

/-- What the threads weigh together. -/
def weigh (w : σ → Nat) : List σ → Nat
  | [] => 0
  | a :: l => w a + weigh w l

/-- Of the sum over the threads, only what the moved one contributes changes. -/
theorem weigh_modify (w : σ → Nat) (h : l[i]? = some a) :
    weigh w (l.modify i f) + w a = weigh w l + w (f a) := by
  induction l generalizing i with
  | nil => cases h
  | cons x l ih =>
    cases i with
    | zero =>
      cases h
      simp only [List.modify_zero_cons, weigh]
      omega
    | succ i =>
      have := ih (i := i) (by simpa using h)
      simp only [List.modify_succ_cons, weigh]
      omega

theorem weigh_set {w : σ → Nat} (h : l[i]? = some a) (b : σ) :
    weigh w (l.set i b) + w a = weigh w l + w b := by
  rw [List.set_eq_modify]
  exact weigh_modify w h

theorem weigh_append (w : σ → Nat) (l l' : List σ) : weigh w (l ++ l') =
    weigh w l + weigh w l' := by
  induction l with
  | nil => exact (Nat.zero_add _).symm
  | cons a l ih =>
    rw [List.cons_append, weigh, weigh, ih]
    omega

theorem weigh_congr {τ : Type} {w : σ → Nat} {v : τ → Nat} {l : List σ} {l' : List τ}
    (h : l.map w = l'.map v) : weigh w l = weigh v l' := by
  have hmap : ∀ {ρ : Type} (u : ρ → Nat) (l : List ρ), weigh u l = weigh id (l.map u) := by
    intro ρ u l
    induction l with
    | nil => rfl
    | cons x l ih => exact congrArg (u x + ·) ih
  rw [hmap w, hmap v, h]

theorem countP_eq_weigh (p : σ → Bool) (l : List σ) : l.countP p =
    weigh (fun a => (p a).toNat) l := by
  induction l with
  | nil => rfl
  | cons x l ih =>
    rw [List.countP_cons, ih, weigh]
    cases p x <;> simp [Nat.add_comm]

theorem countP_modify (p : σ → Bool) (h : l[i]? = some a) :
    (l.modify i f).countP p + (p a).toNat = l.countP p + (p (f a)).toNat := by
  rw [countP_eq_weigh, countP_eq_weigh]
  exact weigh_modify _ h

theorem countP_congr_map {τ : Type} {p : σ → Bool} {q : τ → Bool}
    {l : List σ} {l' : List τ}
    (h : l.map p = l'.map q) : l.countP p = l'.countP q := by
  have hcount := congrArg (List.countP id) h
  rw [List.countP_map, List.countP_map] at hcount
  exact hcount

/-- What a move leaves as it is in the moved thread, it leaves in all of them. -/
theorem map_modify_same {β : Type} {g : σ → β} (h : ∀ a, l[i]? = some a → g (f a) = g a) :
    (l.modify i f).map g = l.map g := by
  refine List.ext_getElem? fun j => ?_
  rw [List.getElem?_map, List.getElem?_map]
  by_cases hj : j = i
  · subst hj
    cases ha : l[j]? with
    | none => rw [List.modify_eq_self (List.getElem?_eq_none_iff.mp ha), ha]
    | some a => rw [modify_self ha, Option.map_some, Option.map_some, h a ha]
  · rw [modify_of_ne hj]

end List

end MiniOpera.Threads
