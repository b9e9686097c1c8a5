import MarginGuard.Foundation.Interleaving

/-!
# Operations on separate parts of a state

A `Partition` divides the state of a machine into parts, says which parts a call
touches, and promises that a call depends on the parts it touches and leaves the
others as they are. Calls that touch no part are allowed; what they do is not
seen through the partition.

Two lists of calls that touch no part in common can then be performed in either
order: both orders are legal together and agree on every part (`Partition.swap`).
-/
namespace MarginGuard.Foundation

/-- The parts of a machine's state and what its calls have to do with them. -/
structure Partition {σ Op : Type} {Ans : Op → Type} (M : Machine σ Op Ans) (ι : Type) where
  /-- Two states have the same part. -/
  Agree : ι → σ → σ → Prop
  equiv : ∀ i, Equivalence (Agree i)
  Touches : Call Op Ans → ι → Prop
  /-- A call leaves the parts it does not touch. -/
  frame : ∀ s c i, ¬ Touches c i → Agree i (M.effect s c.op c.ans) s
  /-- An answer depends on the parts the call touches. -/
  answers : ∀ s t c, (∀ i, Touches c i → Agree i s t) → M.answers s c.op c.ans →
    M.answers t c.op c.ans
  /-- So does what the call makes of them. -/
  effects : ∀ s t c, (∀ i, Touches c i → Agree i s t) →
    ∀ i, Touches c i → Agree i (M.effect s c.op c.ans) (M.effect t c.op c.ans)

namespace Partition
variable {σ Op ι : Type} {Ans : Op → Type} {M : Machine σ Op Ans} (P : Partition M ι)
  {s t : σ} {calls : List (Call Op Ans)} {i : ι}

/-- A part that no call of a list touches is as it was. -/
theorem frame_all (untouched : ∀ c ∈ calls, ¬ P.Touches c i) : P.Agree i (M.after s calls) s := by
  induction calls generalizing s with
  | nil => exact (P.equiv i).refl s
  | cons c calls ih =>
    rw [List.forall_mem_cons] at untouched
    exact (P.equiv i).trans (ih untouched.2) (P.frame s c i untouched.1)

/-- Where two states agree on all that a list of calls touches, the list is as
legal in the one as in the other, and they still agree afterwards. -/
theorem transfer {T : ι → Prop} (within : ∀ c ∈ calls, ∀ i, P.Touches c i → T i)
    (agree : ∀ i, T i → P.Agree i s t) (legal : M.Legal s calls) :
    M.Legal t calls ∧ ∀ i, T i → P.Agree i (M.after s calls) (M.after t calls) := by
  induction calls generalizing s t with
  | nil => exact ⟨trivial, agree⟩
  | cons c calls ih =>
    rw [List.forall_mem_cons] at within
    have touched : ∀ i, P.Touches c i → P.Agree i s t := fun i own => agree i (within.1 i own)
    have next : ∀ i, T i → P.Agree i (M.effect s c.op c.ans) (M.effect t c.op c.ans) := by
      intro i member
      by_cases own : P.Touches c i
      · exact P.effects s t c touched i own
      · have left := P.frame s c i own
        have right := (P.equiv i).symm (P.frame t c i own)
        exact (P.equiv i).trans left ((P.equiv i).trans (agree i member) right)
    obtain ⟨rest, still⟩ := ih within.2 next legal.2
    exact ⟨⟨P.answers s t c touched legal.1, rest⟩, still⟩

/-- Calls on separate parts can be performed in either order. -/
theorem swap {first second : List (Call Op Ans)}
    (apart : ∀ c ∈ first, ∀ d ∈ second, ∀ i, P.Touches c i → ¬ P.Touches d i)
    (legal : M.Legal s (first ++ second)) :
    M.Legal s (second ++ first) ∧
      ∀ i, P.Agree i (M.after s (first ++ second)) (M.after s (second ++ first)) := by
  rw [Machine.legal_append] at legal ⊢
  rw [Machine.after_append, Machine.after_append]
  let mine := fun i => ∃ c ∈ first, P.Touches c i
  let others := fun i => ∃ d ∈ second, P.Touches d i
  have firstFrame : ∀ (s : σ) i, ¬ mine i → P.Agree i (M.after s first) s :=
    fun s i apart => P.frame_all fun c member own => apart ⟨c, member, own⟩
  have secondFrame : ∀ (s : σ) i, ¬ others i → P.Agree i (M.after s second) s :=
    fun s i apart => P.frame_all fun d member own => apart ⟨d, member, own⟩
  have disjoint : ∀ i, mine i → ¬ others i := by
    rintro i ⟨c, member, own⟩ ⟨d, member', own'⟩
    exact apart c member d member' i own own'
  -- the second list does not notice the first, nor the first the second
  obtain ⟨early, secondAgree⟩ := P.transfer (T := others) (fun d member i own => ⟨d, member, own⟩)
    (fun i own => firstFrame s i fun common => disjoint i common own) legal.2
  obtain ⟨late, firstAgree⟩ := P.transfer (T := mine) (fun c member i own => ⟨c, member, own⟩)
    (fun i own => (P.equiv i).symm (secondFrame s i (disjoint i own))) legal.1
  refine ⟨⟨early, late⟩, fun i => ?_⟩
  by_cases own : others i
  · have untouched : ¬ mine i := fun common => disjoint i common own
    exact (P.equiv i).trans (secondAgree i own) ((P.equiv i).symm (firstFrame _ i untouched))
  · have kept := secondFrame (M.after s first) i own
    by_cases common : mine i
    · exact (P.equiv i).trans kept (firstAgree i common)
    · have before := firstFrame s i common
      have after := (P.equiv i).symm ((P.equiv i).trans (firstFrame (M.after s second) i common)
        (secondFrame s i own))
      exact (P.equiv i).trans kept ((P.equiv i).trans before after)

end Partition
end MarginGuard.Foundation
