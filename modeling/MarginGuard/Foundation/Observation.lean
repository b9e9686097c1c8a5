import Mathlib.Logic.Function.Basic
import MarginGuard.Foundation.Contract

/-!
# Observing a machine while it works

`M.observed looks` is the machine `M` with further operations that look at its
state and leave it alone. A program of `M` is one of the observed machine
(`Program.embed`). In a pool of the observed machine some threads work, each as a
program of `M` whose result is then presented, and the others only perform
operations that change nothing. Without the observers the run is one of `M`, from
and to the same states (`Run.unobserved`).
-/
namespace MarginGuard.Foundation
variable {σ ι Op Look : Type} {Ans : Op → Type} {Sight : Look → Type} {α β γ ε : Type}

/-- The answers of the operations and of the looks. -/
abbrev Observed (Ans : Op → Type) (Sight : Look → Type) : Op ⊕ Look → Type
  | .inl op => Ans op
  | .inr look => Sight look

/-- A machine with looks at its state. -/
def Machine.observed (M : Machine σ Op Ans) (looks : σ → (look : Look) → Sight look → Prop) :
    Machine σ (Op ⊕ Look) (Observed Ans Sight) where
  answers s
    | .inl op, ans => M.answers s op ans
    | .inr look, sight => looks s look sight
  effect s
    | .inl op, ans => M.effect s op ans
    | .inr _, _ => s

instance {M : Machine σ Op Ans} {looks : σ → (look : Look) → Sight look → Prop}
    [∀ s op ans, Decidable (M.answers s op ans)] [∀ s look sight, Decidable (looks s look sight)]
    (s : σ) : (op : Op ⊕ Look) → (ans : Observed Ans Sight op) →
      Decidable ((M.observed looks).answers s op ans)
  | .inl op, ans => inferInstanceAs (Decidable (M.answers s op ans))
  | .inr look, sight => inferInstanceAs (Decidable (looks s look sight))

namespace Program

/-- The same program, where looks are possible. -/
def embed : Program Op Ans α → Program (Op ⊕ Look) (Observed Ans Sight) α
  | .done a => .done a
  | .step op next => .step (.inl op) fun ans => (next ans).embed

/-- A program whose result is presented otherwise. -/
def present (p : Program Op Ans α) (f : α → β) : Program Op Ans β := p.bind fun a => .done (f a)

theorem present_eq_done {p : Program Op Ans α} {f : α → β} {b : β} :
    p.present f = .done b ↔ ∃ a, p = .done a ∧ f a = b := by
  cases p with
  | done a =>
    refine ⟨fun same => ⟨a, rfl, done.inj same⟩, fun ⟨a', own, same⟩ => ?_⟩
    rw [← same, ← done.inj own]
    rfl
  | step op next =>
    constructor
    · intro same
      cases same
    · rintro ⟨a, own, -⟩
      cases own

theorem embed_eq_done {p : Program Op Ans α} {a : α} :
    (p.embed : Program (Op ⊕ Look) (Observed Ans Sight) α) = .done a ↔ p = .done a := by
  cases p with
  | done a' => exact ⟨fun same => congrArg done (done.inj same), fun same => by rw [same, embed]⟩
  | step op next =>
    constructor
    · intro same
      cases same
    · intro own
      cases own

end Program

/-! ## Moments of a run -/

section Moments
variable [DecidableEq ι] {M : Machine σ Op Ans} {s s' : σ} {pool pool' : ι → Program Op Ans α}

/-- A run stops at any of its moments. -/
theorem Run.split {front back : List (Act ι Op Ans)} (run : Run M s pool (front ++ back) s' pool') :
    ∃ mid pool'', Run M s pool front mid pool'' ∧ Run M mid pool'' back s' pool' := by
  induction front generalizing s pool with
  | nil => exact ⟨s, pool, .refl _ _, run⟩
  | cons a front ih =>
    cases run with
    | step i head allowed rest =>
      obtain ⟨mid, pool'', first, second⟩ := ih rest
      exact ⟨mid, pool'', .step i head allowed first, second⟩

/-- A first moment at the start of a trace, and later ones after its first act. -/
def fromStart (a : Act ι Op Ans) (moment : Nat → List (Act ι Op Ans)) : Nat → List (Act ι Op Ans)
  | 0 => []
  | k + 1 => a :: moment k

/-- A thread's calls are answered at moments of the trace, one after the other. -/
theorem exists_moments {trace : List (Act ι Op Ans)} (legal : M.Legal s (calls trace)) (i : ι) :
    ∃ moment : Nat → List (Act ι Op Ans), (∀ k, moment k <+: moment (k + 1)) ∧
      (∀ k, moment k <+: trace) ∧ ∀ k c, (callsOf i trace)[k]? = some c →
        M.answers (M.after s (calls (moment k))) c.op c.ans := by
  induction trace generalizing s with
  | nil => exact ⟨fun _ => [], fun _ => List.nil_prefix, fun _ => List.nil_prefix, by simp⟩
  | cons a trace ih =>
    obtain ⟨allowed, rest⟩ := legal
    obtain ⟨moment, ordered, early, answered⟩ := ih rest
    have next (k : Nat) : a :: moment k <+: a :: moment (k + 1) :=
      List.cons_prefix_cons.mpr ⟨rfl, ordered k⟩
    have inside (k : Nat) : a :: moment k <+: a :: trace :=
      List.cons_prefix_cons.mpr ⟨rfl, early k⟩
    rw [callsOf_cons]
    by_cases own : a.thread = i
    · rw [if_pos own]
      refine ⟨fromStart a moment, fun k => ?_, fun k => ?_, fun k c found => ?_⟩
      · cases k with
        | zero => exact List.nil_prefix
        | succ k => exact next k
      · cases k with
        | zero => exact List.nil_prefix
        | succ k => exact inside k
      · cases k with
        | zero =>
          obtain rfl := Option.some.inj found
          exact allowed
        | succ k => exact answered k c found
    · rw [if_neg own]
      exact ⟨fun k => a :: moment k, next, inside, answered⟩

/-- From its `k`-th call on, each answered in the state of its moment, the program
returns a result. -/
def Program.AnsweredAt (M : Machine σ Op Ans) (now : Nat → σ) : Program Op Ans α → Nat → α → Prop
  | .done a, _, r => r = a
  | .step op next, k, r => ∃ ans, M.answers (now k) op ans ∧ (next ans).AnsweredAt M now (k + 1) r

theorem Program.Returns.answeredAt {now : Nat → σ} {p : Program Op Ans α}
    {calls : List (Call Op Ans)} {r : α} (run : p.Returns calls r) {k : Nat}
    (answered : ∀ j c, calls[j]? = some c → M.answers (now (k + j)) c.op c.ans) :
    p.AnsweredAt M now k r := by
  induction p generalizing calls k with
  | done a => exact run.2
  | step op next ih =>
    obtain ⟨ans, rest, rfl, later⟩ := run
    refine ⟨ans, answered 0 _ rfl, ih ans later fun j c found => ?_⟩
    rw [Nat.add_assoc, Nat.add_comm 1]
    exact answered (j + 1) c found

/-- What a finished thread returns is what its program makes of the moments its
calls were answered at. -/
theorem Run.answeredAt {trace : List (Act ι Op Ans)} (run : Run M s pool trace s' pool') {i : ι}
    {r : α} (finished : pool' i = .done r) :
    ∃ moment : Nat → List (Act ι Op Ans), (∀ k, moment k <+: moment (k + 1)) ∧
      (∀ k, moment k <+: trace) ∧
      (pool i).AnsweredAt M (fun k => M.after s (calls (moment k))) 0 r := by
  obtain ⟨moment, ordered, early, answered⟩ := exists_moments run.legal i
  refine ⟨moment, ordered, early, (run.returns finished).answeredAt fun k c found => ?_⟩
  rw [Nat.zero_add]
  exact answered k c found

end Moments

/-! ## Without the observers -/

section Unobserved
variable {M : Machine σ Op Ans} {looks : σ → (look : Look) → Sight look → Prop}
  {worker : ι → Prop} [DecidablePred worker]

/-- The operations that change nothing, looks included. -/
def Still (M : Machine σ Op Ans) : Op ⊕ Look → Prop
  | .inl op => ∀ s ans, M.effect s op ans = s
  | .inr _ => True

/-- Only performs operations that change nothing. -/
abbrev Observes (M : Machine σ Op Ans) (p : Program (Op ⊕ Look) (Observed Ans Sight) α) : Prop :=
  p.Obeys (Still M) (fun _ _ => True) fun _ => True

/-- An act as the machine sees it, if a worker performs it. -/
def Act.unobserved (worker : ι → Prop) [DecidablePred worker] :
    Act ι (Op ⊕ Look) (Observed Ans Sight) → Option (Act {i // worker i} Op Ans)
  | ⟨i, ⟨.inl op, ans⟩⟩ => if works : worker i then some ⟨⟨i, works⟩, ⟨op, ans⟩⟩ else none
  | ⟨_, ⟨.inr _, _⟩⟩ => none

variable [DecidableEq ι]

/-- The run without the observers. -/
theorem Run.unobserved {s s' : σ} {pool pool' : ι → Program (Op ⊕ Look) (Observed Ans Sight) α}
    {trace : List (Act ι (Op ⊕ Look) (Observed Ans Sight))}
    (run : Run (M.observed looks) s pool trace s' pool')
    {own : {i // worker i} → Program Op Ans β} {respond : {i // worker i} → β → α}
    (works : ∀ i : {i // worker i}, pool i = ((own i).embed).present (respond i))
    (observes : ∀ i, ¬ worker i → Observes M (pool i)) :
    ∃ own', Run M s own (trace.filterMap (Act.unobserved worker)) s' own' ∧
      ∀ i : {i // worker i}, pool' i = ((own' i).embed).present (respond i) := by
  induction run generalizing own with
  | refl => exact ⟨own, .refl _ _, works⟩
  | @step s s' pool pool' trace i op next ans head allowed rest ih =>
    by_cases work : worker i
    · -- a worker performs the next operation of its own program
      have mine := works ⟨i, work⟩
      cases left : own ⟨i, work⟩ with
      | done b =>
        rw [left, head] at mine
        cases mine
      | step op' next' =>
        rw [left, head] at mine
        obtain ⟨rfl, same⟩ := Program.step.inj mine
        obtain rfl := eq_of_heq same
        have works' (j : {i // worker i}) :
            Function.update pool i ((next' ans).embed.present (respond ⟨i, work⟩)) j =
              ((Function.update own ⟨i, work⟩ (next' ans) j).embed).present (respond j) := by
          by_cases same : j = ⟨i, work⟩
          · subst same
            rw [Function.update_self, Function.update_self]
          · have other : (j : ι) ≠ i := fun equal => same (Subtype.ext equal)
            rw [Function.update_of_ne same, Function.update_of_ne other]
            exact works j
        have observes' (j : ι) (idle : ¬ worker j) :
            Observes M (Function.update pool i ((next' ans).embed.present (respond ⟨i, work⟩)) j) := by
          have other : j ≠ i := fun equal => idle (equal ▸ work)
          rw [Function.update_of_ne other]
          exact observes j idle
        obtain ⟨own', continued, present⟩ := ih works' observes'
        have seen : Act.unobserved worker (⟨i, ⟨.inl op', ans⟩⟩ : Act ι (Op ⊕ Look)
            (Observed Ans Sight)) = some ⟨⟨i, work⟩, ⟨op', ans⟩⟩ := dif_pos work
        refine ⟨own', ?_, present⟩
        rw [List.filterMap_cons_some seen]
        exact @Run.step σ _ Op Ans β _ M s s' own own' _ ⟨i, work⟩ op' next' ans left allowed continued
    · -- an observer leaves the state alone
      have looked := observes i work
      rw [head] at looked
      have same : (M.observed looks).effect s op ans = s := by
        cases op with
        | inl op => exact looked.1 s ans
        | inr look => rfl
      have unseen : Act.unobserved worker ⟨i, ⟨op, ans⟩⟩ = none := by
        cases op with
        | inl op => exact dif_neg work
        | inr look => rfl
      rw [List.filterMap_cons_none unseen]
      rw [same] at rest ih
      refine ih (fun j => ?_) fun j idle => ?_
      · have other : (j : ι) ≠ i := fun equal => work (equal ▸ j.2)
        rw [Function.update_of_ne other]
        exact works j
      · by_cases mine : j = i
        · subst mine
          rw [Function.update_self]
          exact looked.2 ans trivial
        · rw [Function.update_of_ne mine]
          exact observes j idle

/-- Up to any moment the machine's state is what the workers made of it. -/
theorem Run.after_unobserved {s s' : σ}
    {pool pool' : ι → Program (Op ⊕ Look) (Observed Ans Sight) α}
    {trace front : List (Act ι (Op ⊕ Look) (Observed Ans Sight))}
    (run : Run (M.observed looks) s pool trace s' pool') (early : front <+: trace)
    {own : {i // worker i} → Program Op Ans β} {respond : {i // worker i} → β → α}
    (works : ∀ i : {i // worker i}, pool i = ((own i).embed).present (respond i))
    (observes : ∀ i, ¬ worker i → Observes M (pool i)) :
    (M.observed looks).after s (calls front) =
      M.after s (calls (front.filterMap (Act.unobserved worker))) := by
  obtain ⟨back, rfl⟩ := early
  obtain ⟨mid, pool'', before, -⟩ := run.split
  obtain ⟨own', alone, -⟩ := before.unobserved works observes
  exact before.after_eq.symm.trans alone.after_eq

end Unobserved
end MarginGuard.Foundation
