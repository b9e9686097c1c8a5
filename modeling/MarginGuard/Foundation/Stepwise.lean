import Mathlib.Data.List.Induction

/-!
# Conditions on every step of a list

`Stepwise P l` says that every element of `l` satisfies `P` relative to the
elements before it. It is the form of what is known at each step of a run (why
a call is made, which condition the state meets), and `Stepwise.induction` is
the rule that turns such knowledge into a fact about the whole run.
-/
namespace MarginGuard.Foundation
variable {α : Type}

/-- Every element satisfies `P`, given the elements before it. -/
def Stepwise (P : List α → α → Prop) (l : List α) : Prop :=
  ∀ front a back, l = front ++ a :: back → P front a

namespace Stepwise
variable {P Q : List α → α → Prop} {l : List α}

theorem mono (each : Stepwise P l) (implied : ∀ front a, P front a → Q front a) : Stepwise Q l :=
  fun front a back split => implied front a (each front a back split)

theorem mem (each : Stepwise P l) {a : α} (member : a ∈ l) : ∃ front, P front a := by
  obtain ⟨front, back, split⟩ := List.append_of_mem member
  exact ⟨front, each front a back split⟩

theorem front {back : List α} (each : Stepwise P (l ++ back)) : Stepwise P l := by
  intro front a rest split
  exact each front a (rest ++ back) (by simp [split])

end Stepwise

@[simp] theorem stepwise_nil (P : List α → α → Prop) : Stepwise P [] := by
  intro front a back split
  simp at split

@[simp] theorem stepwise_cons (P : List α → α → Prop) (a : α) (l : List α) :
    Stepwise P (a :: l) ↔ P [] a ∧ Stepwise (fun front b => P (a :: front) b) l := by
  constructor
  · intro each
    exact ⟨each [] a l rfl, fun front b back split => each (a :: front) b back (by rw [split]; rfl)⟩
  · rintro ⟨first, later⟩ front b back split
    cases front with
    | nil =>
      obtain ⟨rfl, -⟩ := List.cons.inj split
      exact first
    | cons head front =>
      obtain ⟨rfl, tail⟩ := List.cons.inj split
      exact later front b back tail

theorem stepwise_append (P : List α → α → Prop) (l l' : List α) :
    Stepwise P (l ++ l') ↔ Stepwise P l ∧ Stepwise (fun front a => P (l ++ front) a) l' := by
  induction l generalizing P with
  | nil => simp
  | cons a l ih => simp only [List.cons_append, stepwise_cons, ih, and_assoc]

/-- A list whose elements satisfy `P` after anything. -/
theorem stepwise_of_forall {P : List α → α → Prop} {l : List α}
    (each : ∀ a ∈ l, ∀ front, P front a) : Stepwise P l := by
  intro front a back split
  exact each a (by simp [split]) front

theorem Stepwise.of_map {β : Type} {P : List β → β → Prop} {f : α → β} {l : List α}
    (each : Stepwise P (l.map f)) : Stepwise (fun front a => P (front.map f) (f a)) l := by
  intro front a back split
  exact each (front.map f) (f a) (back.map f) (by simp [split])

/-- Over the pieces of a list of lists: each piece may rely on what stands
before the whole. -/
theorem stepwise_flatMap {β : Type} {P : List α → α → Prop} {f : β → List α} {l : List β}
    (each : ∀ b ∈ l, ∀ before, Stepwise (fun front a => P (before ++ front) a) (f b)) :
    Stepwise P (l.flatMap f) := by
  induction l generalizing P with
  | nil => simp
  | cons b l ih =>
    rw [List.flatMap_cons, stepwise_append]
    refine ⟨by simpa using each b (by simp) [], ih ?_⟩
    intro b' member before
    simpa using each b' (by simp [member]) (f b ++ before)

/-- The rule for runs: what holds at the start and is kept by each element at
its place holds at the end. -/
theorem Stepwise.induction {I : List α → Prop} {l : List α} (start : I [])
    (step : Stepwise (fun front a => I front → I (front ++ [a])) l) : I l := by
  induction l using List.reverseRecOn with
  | nil => exact start
  | append_singleton l a ih => exact step l a [] rfl (ih step.front)

instance decidableStepwise : (P : List α → α → Prop) → [∀ front a, Decidable (P front a)] →
    (l : List α) → Decidable (Stepwise P l)
  | P, _, [] => .isTrue (stepwise_nil P)
  | P, _, a :: l =>
    have := decidableStepwise (fun front b => P (a :: front) b) l
    decidable_of_iff _ (stepwise_cons P a l).symm

end MarginGuard.Foundation
