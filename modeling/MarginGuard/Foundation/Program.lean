import Mathlib.Data.List.Induction

/-!
# Programs over atomic operations

A `Program` performs operations one at a time and continues with the answer it
gets; what an operation does is not part of the program. The same program can
therefore be run alone, interleaved with others, or against operations that
fail. Operations and their answer types are parameters.

`Returns p calls r` says that `p`, answered as in `calls`, performs exactly
these calls and returns `r`. It is the specification language for single
programs: it quantifies over all answers, so it holds under any interference.
`Leads` is its prefix form, and `Leads.exists_returns` extends every prefix to
a complete run.
-/
namespace MarginGuard.Foundation

/-- A tree of operations with one branch for each answer. -/
inductive Program (Op : Type) (Ans : Op → Type) (α : Type) where
  | done (result : α)
  | step (op : Op) (next : Ans op → Program Op Ans α)

/-- A performed operation with the answer it got. -/
structure Call (Op : Type) (Ans : Op → Type) where
  op : Op
  ans : Ans op

namespace Program
variable {Op : Type} {Ans : Op → Type} {α β ε : Type}

def bind : Program Op Ans α → (α → Program Op Ans β) → Program Op Ans β
  | .done a, f => f a
  | .step op next, f => .step op fun ans => (next ans).bind f

instance : Monad (Program Op Ans) where
  pure := .done
  bind := .bind

/-- Perform one operation and return its answer. -/
def perform (op : Op) : Program Op Ans (Ans op) := .step op .done

/-- The complete runs of a program: the calls it performs and what it returns. -/
def Returns : Program Op Ans α → List (Call Op Ans) → α → Prop
  | .done a, calls, r => calls = [] ∧ r = a
  | .step op next, calls, r => ∃ ans rest, calls = ⟨op, ans⟩ :: rest ∧ (next ans).Returns rest r

/-- What a finished program returned. -/
def result : Program Op Ans α → Option α
  | .done a => some a
  | .step _ _ => none

@[simp] theorem result_done (a : α) : (done a : Program Op Ans α).result = some a := rfl

theorem result_eq_some {p : Program Op Ans α} {a : α} : p.result = some a ↔ p = .done a := by
  cases p <;> simp [result]

/-- The partial runs of a program: the calls so far and the program that is left. -/
inductive Leads : Program Op Ans α → List (Call Op Ans) → Program Op Ans α → Prop
  | refl (p : Program Op Ans α) : Leads p [] p
  | step {op : Op} {next : Ans op → Program Op Ans α} {ans : Ans op}
      {calls : List (Call Op Ans)} {q : Program Op Ans α}
      (rest : Leads (next ans) calls q) : Leads (.step op next) (⟨op, ans⟩ :: calls) q

/-- Sequencing splits a run in two. -/
theorem returns_bind (p : Program Op Ans α) (f : α → Program Op Ans β)
    (calls : List (Call Op Ans)) (r : β) :
    (p.bind f).Returns calls r ↔
      ∃ front back a, calls = front ++ back ∧ p.Returns front a ∧ (f a).Returns back r := by
  induction p generalizing calls with
  | done a =>
    constructor
    · intro run
      exact ⟨[], calls, a, rfl, ⟨rfl, rfl⟩, run⟩
    · rintro ⟨front, back, a', rfl, ⟨rfl, rfl⟩, run⟩
      exact run
  | step op next ih =>
    constructor
    · rintro ⟨ans, rest, rfl, run⟩
      obtain ⟨front, back, a, rfl, first, second⟩ := (ih ans rest).mp run
      exact ⟨⟨op, ans⟩ :: front, back, a, rfl, ⟨ans, front, rfl, first⟩, second⟩
    · rintro ⟨front, back, a, rfl, ⟨ans, rest, rfl, first⟩, second⟩
      exact ⟨ans, rest ++ back, rfl, (ih ans _).mpr ⟨rest, back, a, rfl, first, second⟩⟩

/-- A partial run followed by a complete run of what is left is a complete run. -/
theorem Leads.returns_append {p q : Program Op Ans α} {calls : List (Call Op Ans)}
    (path : p.Leads calls q) {back : List (Call Op Ans)} {r : α} (run : q.Returns back r) :
    p.Returns (calls ++ back) r := by
  induction path with
  | refl => exact run
  | step rest ih => exact ⟨_, _, rfl, ih run⟩

theorem leads_done_iff {p : Program Op Ans α} {calls : List (Call Op Ans)} {r : α} :
    p.Leads calls (.done r) ↔ p.Returns calls r := by
  constructor
  · intro path
    have ended : (done r : Program Op Ans α).Returns [] r := ⟨rfl, rfl⟩
    simpa using path.returns_append ended
  · intro run
    induction p generalizing calls with
    | done a =>
      obtain ⟨rfl, rfl⟩ := run
      exact .refl _
    | step op next ih =>
      obtain ⟨ans, rest, rfl, run⟩ := run
      exact .step (ih ans run)

/-- Whatever answers it gets, a program comes to an end; an answer may depend on
the calls made before it. -/
theorem exists_returns_after (answer : List (Call Op Ans) → (op : Op) → Ans op)
    (p : Program Op Ans α) :
    ∃ calls r, p.Returns calls r ∧
      ∀ front c back, calls = front ++ c :: back → c.ans = answer front c.op := by
  induction p generalizing answer with
  | done a => exact ⟨[], a, ⟨rfl, rfl⟩, by simp⟩
  | step op next ih =>
    obtain ⟨calls, r, run, answered⟩ :=
      ih (answer [] op) fun front => answer (⟨op, answer [] op⟩ :: front)
    refine ⟨⟨op, answer [] op⟩ :: calls, r, ⟨_, _, rfl, run⟩, ?_⟩
    intro front c back split
    cases front with
    | nil =>
      obtain ⟨rfl, -⟩ := List.cons.inj split
      rfl
    | cons c' front =>
      obtain ⟨rfl, rest⟩ := List.cons.inj split
      exact answered front c back rest

theorem exists_returns (answer : (op : Op) → Ans op) (p : Program Op Ans α) :
    ∃ calls r, p.Returns calls r ∧ ∀ c ∈ calls, c.ans = answer c.op := by
  obtain ⟨calls, r, run, answered⟩ := p.exists_returns_after fun _ => answer
  refine ⟨calls, r, run, fun c member => ?_⟩
  obtain ⟨front, back, split⟩ := List.append_of_mem member
  exact answered front c back split

/-- Every partial run extends to a complete one, with later answers of our choice. -/
theorem Leads.exists_returns {p q : Program Op Ans α} {calls : List (Call Op Ans)}
    (path : p.Leads calls q) (answer : (op : Op) → Ans op) :
    ∃ back r, p.Returns (calls ++ back) r ∧ ∀ c ∈ back, c.ans = answer c.op := by
  obtain ⟨back, r, run, answered⟩ := Program.exists_returns answer q
  exact ⟨back, r, path.returns_append run, answered⟩

/-- Where the calls that `pick` tells apart are answered from a sequence, each with
the next of its entries, a run meets the sequence from its start. -/
theorem picked_in_order {β : Type} {pick : Call Op Ans → Option β} {outcomes : Nat → β}
    {answer : List (Call Op Ans) → (op : Op) → Ans op}
    (next : ∀ front op b, pick ⟨op, answer front op⟩ = some b →
      b = outcomes (front.filterMap pick).length)
    {calls : List (Call Op Ans)}
    (answered : ∀ front c back, calls = front ++ c :: back → c.ans = answer front c.op) :
    calls.filterMap pick = (List.range (calls.filterMap pick).length).map outcomes := by
  induction calls using List.reverseRecOn with
  | nil => rfl
  | append_singleton calls c ih =>
    have before := ih fun front c' back split =>
      answered front c' (back ++ [c]) (by rw [split, List.append_assoc, List.cons_append])
    have now : c = ⟨c.op, answer calls c.op⟩ := by
      rw [← answered calls c [] rfl]
    rw [List.filterMap_append]
    cases picked : pick c with
    | none =>
      rw [List.filterMap_cons_none picked, List.filterMap_nil, List.append_nil]
      exact before
    | some b =>
      rw [now] at picked
      rw [now, List.filterMap_cons_some picked, List.filterMap_nil, List.length_append,
        List.length_singleton, List.range_succ, List.map_append, ← before,
        next calls c.op b picked]
      rfl

/-! ## Programs that may stop with an error -/

/-- Sequencing of programs with errors: either the first part stops the whole
run, or the second part continues from its value. -/
theorem returns_except_bind (p : ExceptT ε (Program Op Ans) α)
    (f : α → ExceptT ε (Program Op Ans) β) (calls : List (Call Op Ans)) (r : Except ε β) :
    Program.Returns (p >>= f : ExceptT ε (Program Op Ans) β) calls r ↔
      (∃ e, Program.Returns p calls (.error e) ∧ r = .error e) ∨
      (∃ front back a, calls = front ++ back ∧ Program.Returns p front (.ok a) ∧
        Program.Returns (f a) back r) := by
  change (Program.bind p _).Returns calls r ↔ _
  rw [returns_bind]
  constructor
  · rintro ⟨front, back, x, rfl, first, second⟩
    cases x with
    | error e =>
      obtain ⟨rfl, rfl⟩ := second
      exact Or.inl ⟨e, by simpa using first, rfl⟩
    | ok a => exact Or.inr ⟨front, back, a, rfl, first, second⟩
  · rintro (⟨e, first, rfl⟩ | ⟨front, back, a, rfl, first, second⟩)
    · exact ⟨calls, [], .error e, by simp, first, rfl, rfl⟩
    · exact ⟨front, back, .ok a, rfl, first, second⟩

end Program
end MarginGuard.Foundation
