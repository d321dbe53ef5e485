import Mathlib.Data.Set.Function

/-! Records written one after the other. `Cuts S f`: whatever follows, it can be
told where the record of an element of `S` ends. Records of one length are cut,
and so is a record behind its length; what is cut can be concatenated. A stream of
such records determines the list it was written from. -/

namespace MiniOpera.RecordStream

variable {α β : Type*} {S : Set α} {f g : α → List β}

def Cuts (S : Set α) (f : α → List β) : Prop :=
  ∀ a ∈ S, ∀ b ∈ S, ∀ r r', f a ++ r = f b ++ r' → f a = f b ∧ r = r'

theorem Cuts.of_length (h : ∀ a ∈ S, ∀ b ∈ S, (f a).length = (f b).length) : Cuts S f := by
  intro a ha b hb r r' heq
  exact List.append_inj heq (h a ha b hb)

theorem Cuts.append (hf : Cuts S f) (hg : Cuts S g) : Cuts S fun a => f a ++ g a := by
  intro a ha b hb r r' heq
  simp only [List.append_assoc] at heq
  obtain ⟨hfirst, heq⟩ := hf a ha b hb _ _ heq
  obtain ⟨hsecond, hrest⟩ := hg a ha b hb r r' heq
  exact ⟨by dsimp only; rw [hfirst, hsecond], hrest⟩

/-- A record behind a mark that tells its length. -/
theorem Cuts.sized {mark : Nat → β}
    (h : Set.InjOn mark {n | ∃ a ∈ S, (f a).length = n}) :
    Cuts S fun a => mark (f a).length :: f a := by
  intro a ha b hb r r' heq
  obtain ⟨hmark, heq⟩ := List.cons.inj heq
  have hlen : (f a).length = (f b).length := h ⟨a, ha, rfl⟩ ⟨b, hb, rfl⟩ hmark
  obtain ⟨hbody, hrest⟩ := List.append_inj heq hlen
  exact ⟨by dsimp only; rw [hbody], hrest⟩

theorem Cuts.flatMap_injOn (hcuts : Cuts S f) (hinj : Set.InjOn f S)
    (hne : ∀ a ∈ S, f a ≠ []) :
    Set.InjOn (fun l : List α => l.flatMap f) {l | ∀ a ∈ l, a ∈ S} := by
  intro l
  induction l with
  | nil =>
    intro _ l' hl' heq
    cases l' with
    | nil => rfl
    | cons b l' =>
      have hnil : f b ++ l'.flatMap f = [] := heq.symm
      exact absurd (List.append_eq_nil_iff.mp hnil).1 (hne b (hl' b List.mem_cons_self))
  | cons a l ih =>
    intro hl l' hl' heq
    have ha := hl a List.mem_cons_self
    cases l' with
    | nil =>
      have hnil : f a ++ l.flatMap f = [] := heq
      exact absurd (List.append_eq_nil_iff.mp hnil).1 (hne a ha)
    | cons b l' =>
      have hb := hl' b List.mem_cons_self
      obtain ⟨hfirst, hrest⟩ := hcuts a ha b hb _ _ heq
      have htail := ih (fun x hx => hl x (List.mem_cons_of_mem _ hx))
        (fun x hx => hl' x (List.mem_cons_of_mem _ hx)) hrest
      rw [hinj ha hb hfirst, htail]

end MiniOpera.RecordStream
