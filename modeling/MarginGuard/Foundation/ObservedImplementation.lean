import MarginGuard.Foundation.Implementation
import MarginGuard.Foundation.Observation

/-!
# Implementing a machine that is observed

Where one machine is implemented on another, and looks at the lower one show what
looks at the upper one would, the observed machine is implemented as well: each
operation by its program and each look by itself (`Implements.observed`).
-/
namespace MarginGuard.Foundation
variable {σ τ Op Low Look α : Type} {Ans : Op → Type} {LowAns : Low → Type} {Sight : Look → Type}

/-- A call as the observed machine has it. -/
def Call.embed (c : Call Op Ans) : Call (Op ⊕ Look) (Observed Ans Sight) := ⟨.inl c.op, c.ans⟩

namespace Program

/-- Operations are carried out by their programs, looks by themselves. -/
def withLooks (impl : (op : Op) → Program Low LowAns (Ans op)) :
    (op : Op ⊕ Look) → Program (Low ⊕ Look) (Observed LowAns Sight) (Observed Ans Sight op)
  | .inl op => (impl op).embed
  | .inr look => .perform (Sum.inr look)

theorem returns_embed {p : Program Op Ans α} {own : List (Call (Op ⊕ Look) (Observed Ans Sight))}
    {r : α} : p.embed.Returns own r ↔ ∃ made, p.Returns made r ∧ own = made.map Call.embed := by
  induction p generalizing own with
  | done a =>
    constructor
    · rintro ⟨rfl, rfl⟩
      exact ⟨[], ⟨rfl, rfl⟩, rfl⟩
    · rintro ⟨made, ⟨rfl, rfl⟩, rfl⟩
      exact ⟨rfl, rfl⟩
  | step op next ih =>
    constructor
    · rintro ⟨ans, rest, rfl, later⟩
      obtain ⟨made, ran, rfl⟩ := (ih ans).mp later
      exact ⟨⟨op, ans⟩ :: made, ⟨ans, made, rfl, ran⟩, rfl⟩
    · rintro ⟨made, ⟨ans, rest, rfl, ran⟩, rfl⟩
      exact ⟨ans, rest.map Call.embed, rfl, (ih ans).mpr ⟨rest, ran, rfl⟩⟩

end Program

section Levels
variable {M : Machine σ Op Ans} {N : Machine τ Low LowAns} {R : τ → σ → Prop}
  {looks : σ → (look : Look) → Sight look → Prop} {lowLooks : τ → (look : Look) → Sight look → Prop}

theorem Machine.carriesOut_step {op : Op} {low : Low}
    {rest : LowAns low → Program Low LowAns (Ans op)}
    (last : ∀ a ans, rest a = .done ans → ∀ t s, R t s → N.answers t low a →
      M.answers s op ans ∧ R (N.effect t low a) (M.effect s op ans))
    (early : ∀ a low' rest', rest a = .step low' rest' →
      (∀ t s, R t s → N.answers t low a → R (N.effect t low a) s) ∧
        N.CarriesOut M R op (rest a)) : N.CarriesOut M R op (.step low rest) := by
  intro a
  split
  · next ans ended => exact last a ans ended
  · next low' rest' more => exact early a low' rest' more

theorem Machine.CarriesOut.embed {op : Op} {body : Program Low LowAns (Ans op)}
    (carried : N.CarriesOut M R op body) :
    (N.observed lowLooks).CarriesOut (M.observed looks) R (.inl op) body.embed := by
  induction body with
  | done ans => exact carried
  | step low rest ih =>
    apply Machine.carriesOut_step
    · intro a ans ended t s related allowed
      exact carried.last (Program.embed_eq_done.mp ended) related allowed
    · intro a low' rest' more
      cases left : rest a with
      | done ans =>
        rw [left] at more
        cases more
      | step low'' rest'' =>
        obtain ⟨kept, later⟩ := carried.early left
        rw [← left]
        exact ⟨kept, ih a later⟩

/-- What is implemented is implemented under observation, if looks show the same. -/
theorem Machine.Implements.observed {impl : (op : Op) → Program Low LowAns (Ans op)}
    (implements : N.Implements impl M R)
    (same : ∀ t s, R t s → ∀ look sight, lowLooks t look sight → looks s look sight) :
    (N.observed lowLooks).Implements (Program.withLooks impl) (M.observed looks) R := by
  rintro (op | look)
  · exact (implements op).embed
  · exact Machine.carriesOut_single _ _ fun t s related sight shown =>
      ⟨same t s related look sight shown, related⟩

end Levels
end MarginGuard.Foundation
