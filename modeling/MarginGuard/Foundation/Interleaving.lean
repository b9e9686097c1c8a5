import Mathlib.Algebra.BigOperators.Group.Finset.Piecewise
import Mathlib.Data.Fintype.Basic
import MarginGuard.Foundation.Program
import MarginGuard.Foundation.Stepwise

/-!
# Interleavings of programs over a shared state

A `Machine` says what operations mean on a shared state: which answers a state
allows and what an answered operation does to it. `Run` is the interleaving
semantics of a pool of programs: in each step one thread performs its next
operation atomically, and any thread may be chosen.

A run is reasoned about through three projections, each proved once here:

* the shared state is the effect of the calls in their global order
  (`Run.after_eq`), and every answer was legal where it was given (`Run.legal`);
* each thread went through a partial run of its own program (`Run.leads`);
* a sum over the whole trace is the sum of the threads' sums
  (`sum_calls_by_thread`).

So a property of a run splits into local facts about single programs and facts
about lists of legal calls, proved by `Stepwise.induction`.
-/
namespace MarginGuard.Foundation

/-- The meaning of operations on a shared state. -/
structure Machine (σ Op : Type) (Ans : Op → Type) where
  /-- The answers a state allows. -/
  answers : σ → (op : Op) → Ans op → Prop
  /-- What an answered operation does to the state. -/
  effect : σ → (op : Op) → Ans op → σ

namespace Machine
variable {σ Op : Type} {Ans : Op → Type} (M : Machine σ Op Ans)

/-- The state after a list of calls. -/
def after (s : σ) (calls : List (Call Op Ans)) : σ :=
  calls.foldl (fun s c => M.effect s c.op c.ans) s

/-- Every answer in the list is allowed by the state it was given in. -/
def Legal : σ → List (Call Op Ans) → Prop
  | _, [] => True
  | s, c :: calls => M.answers s c.op c.ans ∧ Legal (M.effect s c.op c.ans) calls

variable {M}

@[simp] theorem after_nil (s : σ) : M.after s [] = s := rfl

@[simp] theorem after_cons (s : σ) (c : Call Op Ans) (calls : List (Call Op Ans)) :
    M.after s (c :: calls) = M.after (M.effect s c.op c.ans) calls := rfl

theorem after_append (s : σ) (front back : List (Call Op Ans)) :
    M.after s (front ++ back) = M.after (M.after s front) back := List.foldl_append

@[simp] theorem legal_nil (s : σ) : M.Legal s [] := trivial

@[simp] theorem legal_cons (s : σ) (c : Call Op Ans) (calls : List (Call Op Ans)) :
    M.Legal s (c :: calls) ↔ M.answers s c.op c.ans ∧ M.Legal (M.effect s c.op c.ans) calls :=
  Iff.rfl

theorem legal_append (s : σ) (front back : List (Call Op Ans)) :
    M.Legal s (front ++ back) ↔ M.Legal s front ∧ M.Legal (M.after s front) back := by
  induction front generalizing s with
  | nil => simp
  | cons c front ih => simp [ih, and_assoc]

instance decidableLegal [∀ s op ans, Decidable (M.answers s op ans)] :
    (s : σ) → (calls : List (Call Op Ans)) → Decidable (M.Legal s calls)
  | s, [] => .isTrue (legal_nil s)
  | s, c :: calls =>
    have := decidableLegal (M.effect s c.op c.ans) calls
    decidable_of_iff _ (legal_cons s c calls).symm

/-- Every answer was allowed by the state it was given in. -/
theorem Legal.stepwise {s : σ} {calls : List (Call Op Ans)} (legal : M.Legal s calls) :
    Stepwise (fun front c => M.answers (M.after s front) c.op c.ans) calls := by
  rintro front c back rfl
  exact ((legal_append _ _ _).mp legal).2.1

/-- A quantity no effect changes is the same after any list of calls. -/
theorem after_preserves {τ : Type} (observe : σ → τ)
    (same : ∀ s op ans, observe (M.effect s op ans) = observe s) (s : σ)
    (calls : List (Call Op Ans)) : observe (M.after s calls) = observe s := by
  induction calls generalizing s with
  | nil => rfl
  | cons c calls ih => rw [after_cons, ih, same]

/-- A program run alone: nothing else touches the state between its calls. -/
def Completes (M : Machine σ Op Ans) {α : Type} (s : σ) (p : Program Op Ans α) (r : α) (s' : σ) :
    Prop :=
  ∃ calls, p.Returns calls r ∧ M.Legal s calls ∧ s' = M.after s calls

/-- Where every operation has an answer, every program can be run alone. -/
theorem exists_completes {α : Type} (total : ∀ s op, ∃ ans, M.answers s op ans)
    (p : Program Op Ans α) (s : σ) : ∃ r s', M.Completes s p r s' := by
  induction p generalizing s with
  | done a => exact ⟨a, s, [], ⟨rfl, rfl⟩, trivial, rfl⟩
  | step op next ih =>
    obtain ⟨ans, allowed⟩ := total s op
    obtain ⟨r, s', calls, run, legal, final⟩ := ih ans (M.effect s op ans)
    exact ⟨r, s', ⟨op, ans⟩ :: calls, ⟨ans, calls, rfl, run⟩, ⟨allowed, legal⟩, final⟩

/-- Run a program alone with computed answers, stopping at a disallowed one. -/
def solo (M : Machine σ Op Ans) {α : Type} [∀ s op ans, Decidable (M.answers s op ans)]
    (answer : σ → (op : Op) → Ans op) : Program Op Ans α → σ → Option (α × σ)
  | .done a, s => some (a, s)
  | .step op next, s =>
    if M.answers s op (answer s op) then
      M.solo answer (next (answer s op)) (M.effect s op (answer s op))
    else none

/-- A computed run answered every call as computed. -/
theorem solo_answered {α : Type} [∀ s op ans, Decidable (M.answers s op ans)]
    (answer : σ → (op : Op) → Ans op) {p : Program Op Ans α} {s s' : σ} {r : α}
    (ran : M.solo answer p s = some (r, s')) :
    ∃ calls, p.Returns calls r ∧ M.Legal s calls ∧ s' = M.after s calls ∧
      ∀ c ∈ calls, ∃ now, c.ans = answer now c.op := by
  induction p generalizing s with
  | done a =>
    simp only [solo, Option.some.injEq, Prod.mk.injEq] at ran
    obtain ⟨rfl, rfl⟩ := ran
    exact ⟨[], ⟨rfl, rfl⟩, trivial, rfl, by simp⟩
  | step op next ih =>
    simp only [solo] at ran
    split at ran
    · next allowed =>
      obtain ⟨calls, run, legal, final, answered⟩ := ih _ ran
      refine ⟨_, ⟨_, calls, rfl, run⟩, ⟨allowed, legal⟩, final, ?_⟩
      intro c member
      rcases List.mem_cons.mp member with rfl | later
      · exact ⟨s, rfl⟩
      · exact answered c later
    · cases ran

theorem solo_completes {α : Type} [∀ s op ans, Decidable (M.answers s op ans)]
    (answer : σ → (op : Op) → Ans op) {p : Program Op Ans α} {s s' : σ} {r : α}
    (ran : M.solo answer p s = some (r, s')) : M.Completes s p r s' := by
  obtain ⟨calls, run, legal, final, -⟩ := solo_answered answer ran
  exact ⟨calls, run, legal, final⟩

/-- A run whose every answer is the computed one is computed. -/
theorem solo_eq_some {α : Type} [∀ s op ans, Decidable (M.answers s op ans)]
    (answer : σ → (op : Op) → Ans op) {p : Program Op Ans α} {s : σ} {r : α}
    {calls : List (Call Op Ans)} (run : p.Returns calls r) (legal : M.Legal s calls)
    (answered : Stepwise (fun front c => c.ans = answer (M.after s front) c.op) calls) :
    M.solo answer p s = some (r, M.after s calls) := by
  induction p generalizing s calls with
  | done a =>
    obtain ⟨rfl, rfl⟩ := run
    rfl
  | step op next ih =>
    obtain ⟨ans, rest, rfl, run⟩ := run
    obtain ⟨allowed, legal⟩ := legal
    rw [stepwise_cons] at answered
    obtain ⟨same, later⟩ := answered
    obtain rfl : ans = answer s op := same
    rw [solo, if_pos allowed]
    exact ih _ run legal later

end Machine

/-- A call performed by a thread of a pool. -/
structure Act (ι Op : Type) (Ans : Op → Type) where
  thread : ι
  call : Call Op Ans

section Pool
variable {σ ι Op : Type} {Ans : Op → Type} {α : Type} {M : Machine σ Op Ans}

/-- The calls of a trace in their global order. -/
def calls (trace : List (Act ι Op Ans)) : List (Call Op Ans) := trace.map Act.call

@[simp] theorem calls_nil : calls ([] : List (Act ι Op Ans)) = [] := rfl

@[simp] theorem calls_cons (a : Act ι Op Ans) (trace : List (Act ι Op Ans)) :
    calls (a :: trace) = a.call :: calls trace := rfl

theorem calls_append (front back : List (Act ι Op Ans)) :
    calls (front ++ back) = calls front ++ calls back := List.map_append

/-- The last act of a trace takes effect where the acts before it have led. -/
theorem after_concat (s : σ) (front : List (Act ι Op Ans)) (a : Act ι Op Ans) :
    M.after s (calls (front ++ [a])) =
      M.effect (M.after s (calls front)) a.call.op a.call.ans := by
  rw [calls_append, Machine.after_append]
  rfl

theorem sum_calls_concat {G : Type} [AddCommMonoid G] (f : Call Op Ans → G)
    (front : List (Act ι Op Ans)) (a : Act ι Op Ans) :
    ((calls (front ++ [a])).map f).sum = ((calls front).map f).sum + f a.call := by
  simp [calls_append]

/-- Every step of a trace from `s` is one that `C` allows in the state it meets,
after the steps before it. -/
def Throughout (M : Machine σ Op Ans) (C : σ → List (Act ι Op Ans) → Act ι Op Ans → Prop) (s : σ)
    (trace : List (Act ι Op Ans)) : Prop :=
  Stepwise (fun front a => C (M.after s (calls front)) front a) trace

instance {C : σ → List (Act ι Op Ans) → Act ι Op Ans → Prop}
    [∀ s front a, Decidable (C s front a)] (s : σ) (trace : List (Act ι Op Ans)) :
    Decidable (Throughout M C s trace) := inferInstanceAs (Decidable (Stepwise _ _))

variable [DecidableEq ι]

/-- The calls of one thread, in its own order. -/
def callsOf (i : ι) (trace : List (Act ι Op Ans)) : List (Call Op Ans) :=
  (trace.filter fun a => a.thread = i).map Act.call

@[simp] theorem callsOf_nil (i : ι) : callsOf i ([] : List (Act ι Op Ans)) = [] := rfl

theorem callsOf_cons (i : ι) (a : Act ι Op Ans) (trace : List (Act ι Op Ans)) :
    callsOf i (a :: trace) = if a.thread = i then a.call :: callsOf i trace else callsOf i trace := by
  by_cases own : a.thread = i <;> simp [callsOf, own]

theorem callsOf_append (i : ι) (front back : List (Act ι Op Ans)) :
    callsOf i (front ++ back) = callsOf i front ++ callsOf i back := by
  simp [callsOf]

theorem mem_callsOf {i : ι} {trace : List (Act ι Op Ans)} {c : Call Op Ans} :
    c ∈ callsOf i trace ↔ ∃ a ∈ trace, a.thread = i ∧ a.call = c := by
  simp [callsOf, and_assoc]

/-- A call of a thread stands somewhere in the trace, after the same calls of
that thread. -/
theorem exists_act_of_callsOf {i : ι} {trace : List (Act ι Op Ans)}
    {before later : List (Call Op Ans)} {c : Call Op Ans}
    (own : callsOf i trace = before ++ c :: later) :
    ∃ front back, trace = front ++ ⟨i, c⟩ :: back ∧ callsOf i front = before := by
  induction trace generalizing before with
  | nil => simp at own
  | cons a trace ih =>
    rw [callsOf_cons] at own
    by_cases same : a.thread = i
    · rw [if_pos same] at own
      cases before with
      | nil =>
        obtain ⟨call, -⟩ := List.cons.inj own
        subst same
        subst call
        exact ⟨[], trace, rfl, rfl⟩
      | cons first before =>
        obtain ⟨call, rest⟩ := List.cons.inj own
        obtain ⟨front, back, rfl, mine⟩ := ih rest
        exact ⟨a :: front, back, rfl, by rw [callsOf_cons, if_pos same, call, mine]⟩
    · rw [if_neg same] at own
      obtain ⟨front, back, rfl, mine⟩ := ih own
      exact ⟨a :: front, back, rfl, by rw [callsOf_cons, if_neg same, mine]⟩

/-- What the threads' own call lists satisfy step by step, the trace does. -/
theorem stepwise_of_threads {P : ι → List (Call Op Ans) → Call Op Ans → Prop}
    {trace : List (Act ι Op Ans)} (each : ∀ i, Stepwise (P i) (callsOf i trace)) :
    Stepwise (fun front a => P a.thread (callsOf a.thread front) a.call) trace := by
  rintro front a back rfl
  refine each a.thread (callsOf a.thread front) a.call (callsOf a.thread back) ?_
  rw [callsOf_append, callsOf_cons, if_pos rfl]

/-- A sum over the calls of a trace is the sum of the threads' sums. -/
theorem sum_calls_by_thread [Fintype ι] {G : Type} [AddCommMonoid G] (f : Call Op Ans → G)
    (trace : List (Act ι Op Ans)) :
    ((calls trace).map f).sum = ∑ i, ((callsOf i trace).map f).sum := by
  induction trace with
  | nil => simp
  | cons a trace ih =>
    have split : ∀ i, ((callsOf i (a :: trace)).map f).sum =
        (if a.thread = i then f a.call else 0) + ((callsOf i trace).map f).sum := by
      intro i
      rw [callsOf_cons]
      split <;> simp
    rw [Finset.sum_congr rfl (fun i _ => split i), Finset.sum_add_distrib,
      Finset.sum_ite_eq, if_pos (Finset.mem_univ _), ← ih, calls_cons, List.map_cons, List.sum_cons]

/-- Interleaved execution: in every step one thread performs its next
operation, with an answer the current state allows. -/
inductive Run (M : Machine σ Op Ans) : σ → (ι → Program Op Ans α) → List (Act ι Op Ans) →
    σ → (ι → Program Op Ans α) → Prop
  | refl (s : σ) (pool : ι → Program Op Ans α) : Run M s pool [] s pool
  | step {s s' : σ} {pool pool' : ι → Program Op Ans α} {trace : List (Act ι Op Ans)}
      (i : ι) {op : Op} {next : Ans op → Program Op Ans α} {ans : Ans op}
      (head : pool i = .step op next) (allowed : M.answers s op ans)
      (rest : Run M (M.effect s op ans) (Function.update pool i (next ans)) trace s' pool') :
      Run M s pool (⟨i, ⟨op, ans⟩⟩ :: trace) s' pool'

namespace Run
variable {s s' : σ} {pool pool' : ι → Program Op Ans α} {trace : List (Act ι Op Ans)}

/-- The shared state is the effect of the calls in their global order. -/
theorem after_eq (run : Run M s pool trace s' pool') : s' = M.after s (calls trace) := by
  induction run with
  | refl => rfl
  | step i head allowed rest ih => exact ih

/-- Every answer was allowed by the state it was given in. -/
theorem legal (run : Run M s pool trace s' pool') : M.Legal s (calls trace) := by
  induction run with
  | refl => trivial
  | step i head allowed rest ih => exact ⟨allowed, ih⟩

/-- One run after another. -/
theorem append {s'' : σ} {pool'' : ι → Program Op Ans α} {later : List (Act ι Op Ans)}
    (run : Run M s pool trace s' pool') (rest : Run M s' pool' later s'' pool'') :
    Run M s pool (trace ++ later) s'' pool'' := by
  induction run with
  | refl => exact rest
  | step i head allowed tail ih => exact .step i head allowed (ih rest)

/-- Each thread goes through a partial run of its own program. -/
theorem leads (run : Run M s pool trace s' pool') (i : ι) :
    (pool i).Leads (callsOf i trace) (pool' i) := by
  induction run with
  | refl => exact .refl _
  | step j head allowed rest ih =>
    rw [callsOf_cons]
    by_cases own : j = i
    · subst own
      rw [if_pos rfl, head]
      rw [Function.update_self] at ih
      exact .step ih
    · rw [if_neg own]
      rwa [Function.update_of_ne (Ne.symm own)] at ih

/-- A finished thread has gone through a complete run of its program. -/
theorem returns (run : Run M s pool trace s' pool') {i : ι} {r : α} (finished : pool' i = .done r) :
    (pool i).Returns (callsOf i trace) r :=
  Program.leads_done_iff.mp (finished ▸ run.leads i)

/-- Every step was answered as the state it met allows. -/
theorem allowed (run : Run M s pool trace s' pool') :
    Throughout M (fun s _ a => M.answers s a.call.op a.call.ans) s trace := run.legal.stepwise.of_map

/-- Every call of a thread stands somewhere in the trace, answered as the state
there allows. -/
theorem answered (run : Run M s pool trace s' pool') {i : ι} {c : Call Op Ans}
    (performed : c ∈ callsOf i trace) : ∃ front back, trace = front ++ ⟨i, c⟩ :: back ∧
      M.answers (M.after s (calls front)) c.op c.ans := by
  obtain ⟨before, later, own⟩ := List.append_of_mem performed
  obtain ⟨front, back, split, -⟩ := exists_act_of_callsOf own
  exact ⟨front, back, split, run.allowed front _ back split⟩

/-- Where every operation has an answer, what a thread did so far extends to a
complete run of its program, each answer of which some state allows. -/
theorem exists_completion (run : Run M s pool trace s' pool')
    (total : ∀ s op, ∃ ans, M.answers s op ans) (i : ι) :
    ∃ back r, (pool i).Returns (callsOf i trace ++ back) r ∧
      ∀ c ∈ callsOf i trace ++ back, ∃ s, M.answers s c.op c.ans := by
  choose answer answers using total s
  obtain ⟨back, r, whole, answered⟩ := (run.leads i).exists_returns answer
  refine ⟨back, r, whole, fun c member => ?_⟩
  rcases List.mem_append.mp member with past | future
  · obtain ⟨front, rest, -, allowed⟩ := run.answered past
    exact ⟨_, allowed⟩
  · exact ⟨s, answered c future ▸ answers c.op⟩

end Run

/-! ## Playing a schedule -/

variable {ε : Type}

/-- Execute a schedule: each entry names a thread and supplies what the answer
to its next operation is computed from. A disallowed answer stops the play; an
entry for a finished thread is skipped. -/
def play (M : Machine σ Op Ans) [∀ s op ans, Decidable (M.answers s op ans)]
    (answer : ε → σ → (op : Op) → Ans op) :
    List (ι × ε) → σ → (ι → Program Op Ans α) →
      Option (List (Act ι Op Ans) × σ × (ι → Program Op Ans α))
  | [], s, pool => some ([], s, pool)
  | (i, hint) :: schedule, s, pool =>
    match pool i with
    | .done _ => play M answer schedule s pool
    | .step op next =>
      let ans := answer hint s op
      if M.answers s op ans then
        (play M answer schedule (M.effect s op ans) (Function.update pool i (next ans))).map
          fun rest => (⟨i, ⟨op, ans⟩⟩ :: rest.1, rest.2)
      else none

/-- What a schedule plays is a run. -/
theorem play_run [∀ s op ans, Decidable (M.answers s op ans)]
    (answer : ε → σ → (op : Op) → Ans op) (schedule : List (ι × ε)) {s : σ}
    {pool : ι → Program Op Ans α} {trace : List (Act ι Op Ans)} {s' : σ}
    {pool' : ι → Program Op Ans α}
    (played : play M answer schedule s pool = some (trace, s', pool')) :
    Run M s pool trace s' pool' := by
  induction schedule generalizing s pool trace with
  | nil =>
    simp only [play, Option.some.injEq, Prod.mk.injEq] at played
    obtain ⟨rfl, rfl, rfl⟩ := played
    exact .refl _ _
  | cons entry schedule ih =>
    obtain ⟨i, hint⟩ := entry
    cases head : pool i with
    | done r =>
      simp only [play, head] at played
      exact ih played
    | step op next =>
      simp only [play, head] at played
      split at played
      · next allowed =>
        obtain ⟨⟨tail, rest⟩, continued, same⟩ := Option.map_eq_some_iff.mp played
        simp only [Prod.mk.injEq] at same
        obtain ⟨rfl, rfl⟩ := same
        exact .step i head allowed (ih continued)
      · cases played

end Pool
end MarginGuard.Foundation
