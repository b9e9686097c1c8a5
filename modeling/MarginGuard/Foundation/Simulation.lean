import MarginGuard.Foundation.Interleaving

/-!
# Simulation between machines

Two machines over the same operations. `Simulates` is the one-step condition: an
answer the first one gives is one the second one gives in a related state, and
the states stay related. It then holds of whole lists of calls
(`Simulates.legal`) and of interleavings (`Simulates.run`). `Follows` is the
condition for some of the operations, and up to answers that count as alike.
-/
namespace MarginGuard.Foundation
namespace Machine
variable {σ τ Op : Type} {Ans : Op → Type}

/-- Every answered operation of `M` is one of `N`, between states related by `R`. -/
def Simulates (M : Machine σ Op Ans) (N : Machine τ Op Ans) (R : σ → τ → Prop) : Prop :=
  ∀ s t, R s t → ∀ op ans, M.answers s op ans →
    N.answers t op ans ∧ R (M.effect s op ans) (N.effect t op ans)

/-- A simulation carries over to lists of calls. -/
theorem Simulates.legal {M : Machine σ Op Ans} {N : Machine τ Op Ans} {R : σ → τ → Prop}
    (simulates : M.Simulates N R) {s : σ} {t : τ} (related : R s t) {calls : List (Call Op Ans)}
    (legal : M.Legal s calls) : N.Legal t calls ∧ R (M.after s calls) (N.after t calls) := by
  induction calls generalizing s t with
  | nil => exact ⟨trivial, related⟩
  | cons c calls ih =>
    obtain ⟨answered, later⟩ := legal
    obtain ⟨answered', related'⟩ := simulates s t related c.op c.ans answered
    obtain ⟨legal', final⟩ := ih related' later
    exact ⟨⟨answered', legal'⟩, final⟩

/-- A simulation carries over to interleavings. -/
theorem Simulates.run {ι α : Type} [DecidableEq ι] {M : Machine σ Op Ans} {N : Machine τ Op Ans}
    {R : σ → τ → Prop} (simulates : M.Simulates N R) {s s' : σ} {t : τ} (related : R s t)
    {pool pool' : ι → Program Op Ans α} {trace : List (Act ι Op Ans)}
    (run : Run M s pool trace s' pool') : ∃ t', Run N t pool trace t' pool' ∧ R s' t' := by
  induction run generalizing t with
  | refl => exact ⟨t, .refl _ _, related⟩
  | step i head allowed rest ih =>
    obtain ⟨allowed', related'⟩ := simulates _ t related _ _ allowed
    obtain ⟨t', rest', final⟩ := ih related'
    exact ⟨t', .step i head allowed' rest', final⟩

/-- The same operation, answered alike. -/
inductive AlikeCalls (alike : (op : Op) → Ans op → Ans op → Prop) : Call Op Ans → Call Op Ans → Prop
  | answered {op : Op} {ans ans' : Ans op} (same : alike op ans ans') :
    AlikeCalls alike ⟨op, ans⟩ ⟨op, ans'⟩

/-- To an operation in `good` that `M` answers, `N` has an answer like it in a related
state, and the states stay related. -/
def Follows (M : Machine σ Op Ans) (N : Machine τ Op Ans) (good : Op → Prop)
    (alike : (op : Op) → Ans op → Ans op → Prop) (R : σ → τ → Prop) : Prop :=
  ∀ s t, R s t → ∀ op, good op → ∀ ans, M.answers s op ans →
    ∃ ans', alike op ans ans' ∧ N.answers t op ans' ∧ R (M.effect s op ans) (N.effect t op ans')

section Follows
variable {M : Machine σ Op Ans} {N : Machine τ Op Ans} {good : Op → Prop}
  {alike : (op : Op) → Ans op → Ans op → Prop} {R : σ → τ → Prop}

/-- A list of such calls on `M` is, answer by answer, like one on `N`. -/
theorem Follows.legal (follows : M.Follows N good alike R) {s : σ} {t : τ} (related : R s t)
    {calls : List (Call Op Ans)} (each : ∀ c ∈ calls, good c.op) (legal : M.Legal s calls) :
    ∃ calls', List.Forall₂ (AlikeCalls alike) calls calls' ∧ N.Legal t calls' := by
  induction calls generalizing s t with
  | nil => exact ⟨[], .nil, trivial⟩
  | cons c calls ih =>
    obtain ⟨own, rest⟩ := List.forall_mem_cons.mp each
    obtain ⟨answered, later⟩ := legal
    obtain ⟨ans', same, answered', related'⟩ := follows s t related c.op own c.ans answered
    obtain ⟨calls', all, legal'⟩ := ih related' rest later
    exact ⟨⟨c.op, ans'⟩ :: calls', .cons (.answered same) all, answered', legal'⟩

/-- Like calls are of the same operations. -/
theorem op_of_alikeCalls (P : Op → Prop) {calls calls' : List (Call Op Ans)}
    (all : List.Forall₂ (AlikeCalls alike) calls calls') (each : ∀ c ∈ calls, P c.op) :
    ∀ c ∈ calls', P c.op := by
  induction all with
  | nil => exact each
  | cons first _ ih =>
    obtain ⟨own, rest⟩ := List.forall_mem_cons.mp each
    cases first with
    | answered same => exact List.forall_mem_cons.mpr ⟨own, ih rest⟩

/-- Where only equal answers are alike, the calls are the same. -/
theorem eq_of_alikeCalls {calls calls' : List (Call Op Ans)}
    (all : List.Forall₂ (AlikeCalls fun _ => Eq) calls calls') : calls = calls' := by
  induction all with
  | nil => rfl
  | cons first _ ih =>
    cases first with
    | answered same => rw [same, ih]

end Follows
end Machine
end MarginGuard.Foundation
