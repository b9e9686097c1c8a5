import Mathlib.Logic.Basic

/-!
# Computations that may fail, with triples

A `Fallible` computation works on a state, may fail with an error, and has no
outcome at all where what it was given to decide with does not fit. `Ensures
before code after failed` says what every outcome satisfies; its rules follow the
code, and a counted loop needs an invariant (`Ensures.upto`).

A `Guided` state carries the decisions an environment has yet to take, one for
each call of `guided`. `Fits allowed code` says that there are allowed decisions
under which the code has an outcome.
-/
namespace MarginGuard.Foundation

/-- A computation over a state that may fail or have no outcome. -/
abbrev Fallible (σ ε : Type) := StateT σ (ExceptT ε Option)

namespace Fallible
variable {σ ε α β : Type} {before : σ → Prop} {after : α → σ → Prop} {failed : ε → Prop}

/-- All outcomes of a computation from a state. -/
def outcome (code : Fallible σ ε α) (s : σ) : Option (Except ε (α × σ)) := code s

/-- What an outcome has to satisfy. -/
def Meets (after : α → σ → Prop) (failed : ε → Prop) : Except ε (α × σ) → Prop
  | .ok (a, s) => after a s
  | .error e => failed e

/-- From states as before, success ends as after, and an error is as allowed. -/
def Ensures (before : σ → Prop) (code : Fallible σ ε α) (after : α → σ → Prop)
    (failed : ε → Prop) : Prop :=
  ∀ s, before s → ∀ r, code.outcome s = some r → Meets after failed r

/-- `for i in 0..n`, with a value handed from turn to turn. -/
def upto (body : Nat → β → Fallible σ ε β) : Nat → β → Fallible σ ε β
  | 0, b => pure b
  | n + 1, b => upto body n b >>= body n

theorem outcome_bind (code : Fallible σ ε α) (next : α → Fallible σ ε β) (s : σ) :
    (code >>= next).outcome s = (code.outcome s).bind fun
      | .ok (a, s') => (next a).outcome s'
      | .error e => some (.error e) := by
  change Option.bind (code s) (ExceptT.bindCont fun p => next p.1 p.2) = _
  refine congrArg (Option.bind (code s)) (funext fun r => ?_)
  rcases r with e | ⟨a, s'⟩ <;> rfl

namespace Ensures

theorem pure {a : α} (holds : ∀ s, before s → after a s) :
    Ensures before (pure a) after failed := by
  intro s start r ran
  obtain rfl : .ok (a, s) = r := Option.some.inj ran
  exact holds s start

theorem bind {code : Fallible σ ε α} {next : α → Fallible σ ε β} {mid : α → σ → Prop}
    {after : β → σ → Prop} (first : Ensures before code mid failed)
    (second : ∀ a, Ensures (mid a) (next a) after failed) :
    Ensures before (code >>= next) after failed := by
  intro s start r ran
  rw [outcome_bind] at ran
  obtain ⟨r', came, rest⟩ := Option.bind_eq_some_iff.mp ran
  have middle := first s start r' came
  rcases r' with e | ⟨a, s'⟩
  · obtain rfl := Option.some.inj rest
    exact middle
  · exact second a s' middle r rest

theorem weaken {code : Fallible σ ε α} {before' : σ → Prop} {after' : α → σ → Prop}
    (ensures : Ensures before code after failed) (stronger : ∀ s, before' s → before s)
    (weaker : ∀ a s, after a s → after' a s) : Ensures before' code after' failed := by
  intro s start r ran
  have met := ensures s (stronger s start) r ran
  rcases r with e | ⟨a, s'⟩
  · exact met
  · exact weaker a s' met

/-- What is known beforehand and does not concern the state. -/
theorem assuming {code : Fallible σ ε α} {known : Prop}
    (ensures : known → Ensures before code after failed) :
    Ensures (fun s => known ∧ before s) code after failed :=
  fun s start => ensures start.1 s start.2

/-- The rule for counted loops. -/
theorem upto (invariant : Nat → β → σ → Prop) {body : Nat → β → Fallible σ ε β} {n : Nat}
    (step : ∀ i < n, ∀ b, Ensures (invariant i b) (body i b) (invariant (i + 1)) failed) (b : β) :
    Ensures (invariant 0 b) (Fallible.upto body n b) (invariant n) failed := by
  induction n with
  | zero => exact pure fun _ start => start
  | succ n ih =>
    exact (ih fun i early => step i (Nat.lt_succ_of_lt early)).bind
      fun b => step n (Nat.lt_succ_self n) b

end Ensures

/-! ## Computations an environment guides -/

/-- A state, and what an environment will decide at the calls to come. -/
structure Guided (σ δ : Type) where
  state : σ
  ahead : List δ

section Guided
variable {δ : Type}

/-- The state, without what is ahead. -/
def read : Fallible (Guided σ δ) ε σ := fun s => some (.ok (s.state, s))

/-- A call that takes the next decision; `none` where it does not fit. -/
def guided (call : δ → σ → Option (Except ε (α × σ))) : Fallible (Guided σ δ) ε α := fun s =>
  match s.ahead with
  | [] => none
  | d :: ahead => (call d s.state).map fun r => r.map fun (a, s') => (a, ⟨s', ahead⟩)

/-- A state as required, and nothing ahead but what was given. -/
def Amid (given : List δ) (P : σ → Prop) (s : Guided σ δ) : Prop :=
  P s.state ∧ ∀ d ∈ s.ahead, d ∈ given

theorem Amid.mono {given : List δ} {P Q : σ → Prop} (implied : ∀ s, P s → Q s) {s : Guided σ δ}
    (amid : Amid given P s) : Amid given Q s := ⟨implied _ amid.1, amid.2⟩

theorem Ensures.read {given : List δ} {P : σ → Prop} :
    Ensures (Amid given P) (read : Fallible (Guided σ δ) ε σ)
      (fun now s => P now ∧ Amid given (fun s => s = now) s) failed := by
  intro s amid r ran
  obtain rfl : .ok (s.state, s) = r := Option.some.inj ran
  exact ⟨amid.1, rfl, amid.2⟩

theorem Ensures.guided {call : δ → σ → Option (Except ε (α × σ))} {given : List δ}
    {P : σ → Prop} {after : α → σ → Prop}
    (meets : ∀ d ∈ given, ∀ s, P s → ∀ r, call d s = some r → Meets after failed r) :
    Ensures (Amid given P) (guided call) (fun a => Amid given (after a)) failed := by
  intro s amid r ran
  obtain ⟨holds, known⟩ := amid
  obtain ⟨s, ahead⟩ := s
  cases ahead with
  | nil => cases ran
  | cons d ahead =>
    obtain ⟨r', called, rfl⟩ := Option.map_eq_some_iff.mp ran
    have met := meets d (known d List.mem_cons_self) s holds r' called
    cases r' with
    | error e => exact met
    | ok p => exact ⟨met, fun d' later => known d' (List.mem_cons_of_mem d later)⟩

/-- From every state some allowed decisions fit; the others are still ahead. -/
def Fits (allowed : δ → Prop) (code : Fallible (Guided σ δ) ε α) : Prop :=
  ∀ s, ∃ used, (∀ d ∈ used, allowed d) ∧ ∃ r : Except ε (α × σ), ∀ rest,
    code.outcome ⟨s, used ++ rest⟩ = some (r.map fun (a, s') => (a, ⟨s', rest⟩))

namespace Fits
variable {allowed : δ → Prop}

theorem pure (a : α) : Fits allowed (pure a : Fallible (Guided σ δ) ε α) :=
  fun s => ⟨[], by simp, .ok (a, s), fun _ => rfl⟩

theorem throw (e : ε) : Fits allowed (throw e : Fallible (Guided σ δ) ε α) :=
  fun _ => ⟨[], by simp, .error e, fun _ => rfl⟩

theorem read : Fits allowed (read : Fallible (Guided σ δ) ε σ) :=
  fun s => ⟨[], by simp, .ok (s, s), fun _ => rfl⟩

theorem guided {call : δ → σ → Option (Except ε (α × σ))}
    (answered : ∀ s, ∃ d r, allowed d ∧ call d s = some r) : Fits allowed (guided call) := by
  intro s
  obtain ⟨d, r, fine, called⟩ := answered s
  refine ⟨[d], by simpa using fine, r, fun rest => ?_⟩
  change (call d s).map _ = _
  rw [called]
  rfl

theorem bind {code : Fallible (Guided σ δ) ε α} {next : α → Fallible (Guided σ δ) ε β}
    (first : Fits allowed code) (second : ∀ a, Fits allowed (next a)) :
    Fits allowed (code >>= next) := by
  intro s
  obtain ⟨used, fine, r, ran⟩ := first s
  cases r with
  | error e =>
    refine ⟨used, fine, .error e, fun rest => ?_⟩
    rw [outcome_bind, ran]
    rfl
  | ok p =>
    obtain ⟨a, s'⟩ := p
    obtain ⟨more, fine', r, ended⟩ := second a s'
    refine ⟨used ++ more, fun d member => ?_, r, fun rest => ?_⟩
    · exact (List.mem_append.mp member).elim (fine d) (fine' d)
    · rw [outcome_bind, List.append_assoc, ran]
      exact ended rest

theorem upto {body : Nat → β → Fallible (Guided σ δ) ε β} (turn : ∀ i b, Fits allowed (body i b))
    (n : Nat) (b : β) : Fits allowed (Fallible.upto body n b) := by
  induction n with
  | zero => exact pure b
  | succ n ih => exact ih.bind fun b => turn n b

end Fits
end Guided
end Fallible
end MarginGuard.Foundation
