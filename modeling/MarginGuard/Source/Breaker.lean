import MarginGuard.Foundation.Interleaving

/-!
# The circuit breaker (`marginguard-resilience/src/breaker.rs`)

Every call takes the lock for its whole body and reads the clock under it, so a
call is one indivisible step and the readings are in the order of the calls.

`Tracks` says what the breaker's three fields have to do with the calls made so
far: the counter and the time of opening are functions of the recorded outcomes,
and the half-open flag, which queries set as a side effect, is never set before
the cooldown has passed.
-/
namespace MarginGuard.Source
open Foundation

/-- The breaker's externally observable state. -/
inductive BreakerState where
  | closed | opened | halfOpen
  deriving DecidableEq, Repr

/-- What the lock guards. -/
structure Inner where
  consecutiveFailures : UInt32
  openedAtNanos : Option Nat
  halfOpen : Bool
  deriving DecidableEq

/-- The fixed part of a `CircuitBreaker`. -/
structure CircuitBreaker where
  failureThreshold : UInt32
  cooldownNanos : Nat

/-- A call with the time the clock shows while it holds the lock. -/
inductive BreakerOp where
  | allow (now : Nat)
  | state (now : Nat)
  | onSuccess
  | onFailure (now : Nat)
  deriving DecidableEq

abbrev BreakerAnswer : BreakerOp → Type
  | .allow _ => Bool
  | .state _ => BreakerState
  | .onSuccess | .onFailure _ => Unit

namespace CircuitBreaker

/-- The state `with_clock` starts with. -/
def withClock : Inner := ⟨0, none, false⟩

/-- The flag is only ever set here; `on_success` and `on_failure` clear it. -/
def refresh (breaker : CircuitBreaker) (inner : Inner) (now : Nat) : Inner :=
  match inner.openedAtNanos with
  | some opened =>
    let elapsed := now - opened
    if elapsed ≥ breaker.cooldownNanos then { inner with halfOpen := true } else inner
  | none => inner

/-- `CircuitBreaker::state`: the answer and the refreshed state. -/
def state (breaker : CircuitBreaker) (inner : Inner) (now : Nat) : BreakerState × Inner :=
  let inner := breaker.refresh inner now
  if inner.openedAtNanos.isSome then
    if inner.halfOpen then (.halfOpen, inner) else (.opened, inner)
  else (.closed, inner)

/-- `CircuitBreaker::allow` -/
def allow (breaker : CircuitBreaker) (inner : Inner) (now : Nat) : Bool × Inner :=
  let (state, inner) := breaker.state inner now
  (state ≠ .opened, inner)

/-- `CircuitBreaker::on_success` -/
def onSuccess (inner : Inner) : Inner :=
  { inner with consecutiveFailures := 0, openedAtNanos := none, halfOpen := false }

/-- `CircuitBreaker::on_failure`. The counter is a `u32` and wraps around. -/
def onFailure (breaker : CircuitBreaker) (inner : Inner) (now : Nat) : Inner :=
  let inner := { inner with
    consecutiveFailures := inner.consecutiveFailures + 1
    halfOpen := false }
  if inner.consecutiveFailures ≥ breaker.failureThreshold then
    { inner with openedAtNanos := some now }
  else inner

end CircuitBreaker

/-- The breaker as its callers share it: what the clock showed last and the fields. -/
structure BreakerShared where
  clock : Nat
  inner : Inner

/-- Calls on a monotone clock. -/
def breakerMachine (breaker : CircuitBreaker) :
    Machine BreakerShared BreakerOp BreakerAnswer where
  answers s
    | .allow now, admitted => s.clock ≤ now ∧ admitted = (breaker.allow s.inner now).1
    | .state now, answer => s.clock ≤ now ∧ answer = (breaker.state s.inner now).1
    | .onSuccess, _ => True
    | .onFailure now, _ => s.clock ≤ now
  effect s
    | .allow now, _ => ⟨now, (breaker.allow s.inner now).2⟩
    | .state now, _ => ⟨now, (breaker.state s.inner now).2⟩
    | .onSuccess, _ => ⟨s.clock, CircuitBreaker.onSuccess s.inner⟩
    | .onFailure now, _ => ⟨now, breaker.onFailure s.inner now⟩

/-- A breaker created when the clock showed `now`. -/
def BreakerShared.created (now : Nat) : BreakerShared := ⟨now, CircuitBreaker.withClock⟩

/-- The calls made on a breaker, in the order of the lock. -/
abbrev BreakerCall := Call BreakerOp BreakerAnswer

/-! ## What the outcomes determine -/

/-- The times of the failures since the last success, the latest first. -/
def recordOutcome (failures : List Nat) (c : BreakerCall) : List Nat :=
  match c.op with
  | .onSuccess => []
  | .onFailure now => now :: failures
  | .allow _ | .state _ => failures

/-- The failures since the last success in a history. -/
def failuresSince (history : List BreakerCall) : List Nat := history.foldl recordOutcome []

@[simp] theorem failuresSince_nil : failuresSince [] = [] := rfl

@[simp] theorem failuresSince_concat (history : List BreakerCall) (c : BreakerCall) :
    failuresSince (history ++ [c]) = recordOutcome (failuresSince history) c := by
  simp [failuresSince]

namespace CircuitBreaker
variable {breaker : CircuitBreaker} {failures : List Nat} {s : BreakerShared}

/-- The latest failure that found the wrapping counter at the threshold. -/
def openedAt (breaker : CircuitBreaker) : List Nat → Option Nat
  | [] => none
  | now :: earlier =>
    if breaker.failureThreshold.toNat ≤ (earlier.length + 1) % 2 ^ 32 then some now
    else breaker.openedAt earlier

/-- The state these failures determine at a time. -/
def stateAt (breaker : CircuitBreaker) (failures : List Nat) (now : Nat) : BreakerState :=
  match breaker.openedAt failures with
  | none => .closed
  | some opened => if now - opened < breaker.cooldownNanos then .opened else .halfOpen

/-- The fields of the breaker after a history with these failures at its end. -/
structure Tracks (breaker : CircuitBreaker) (failures : List Nat) (s : BreakerShared) : Prop where
  counted : s.inner.consecutiveFailures.toNat = failures.length % 2 ^ 32
  opened : s.inner.openedAtNanos = breaker.openedAt failures
  past : ∀ opened, s.inner.openedAtNanos = some opened → opened ≤ s.clock
  cooled : s.inner.halfOpen = true →
    ∃ opened, s.inner.openedAtNanos = some opened ∧ breaker.cooldownNanos ≤ s.clock - opened

theorem refresh_consecutiveFailures (breaker : CircuitBreaker) (inner : Inner) (now : Nat) :
    (breaker.refresh inner now).consecutiveFailures = inner.consecutiveFailures := by
  unfold refresh
  split
  · dsimp only
    split <;> rfl
  · rfl

theorem refresh_openedAtNanos (breaker : CircuitBreaker) (inner : Inner) (now : Nat) :
    (breaker.refresh inner now).openedAtNanos = inner.openedAtNanos := by
  unfold refresh
  split
  · dsimp only
    split <;> rfl
  · rfl

/-- The flag after a refresh says that the cooldown has passed: it cannot have
been set earlier, as the clock only advances. -/
theorem Tracks.refresh_halfOpen (tracks : Tracks breaker failures s) {now : Nat}
    (later : s.clock ≤ now) :
    (breaker.refresh s.inner now).halfOpen = true ↔
      ∃ opened, s.inner.openedAtNanos = some opened ∧ breaker.cooldownNanos ≤ now - opened := by
  unfold refresh
  cases found : s.inner.openedAtNanos with
  | none =>
    constructor
    · intro flag
      obtain ⟨opened, stored, -⟩ := tracks.cooled flag
      rw [found] at stored
      cases stored
    · rintro ⟨opened, stored, -⟩
      cases stored
  | some opened =>
    dsimp only
    split
    · next cooled => exact iff_of_true rfl ⟨opened, rfl, cooled⟩
    · next early =>
      constructor
      · intro flag
        obtain ⟨opened', stored, cooled⟩ := tracks.cooled flag
        rw [found] at stored
        cases stored
        omega
      · rintro ⟨opened', stored, cooled⟩
        cases stored
        exact absurd cooled early

/-- A query answers by the recorded failures alone. -/
theorem Tracks.state_eq (tracks : Tracks breaker failures s) {now : Nat}
    (later : s.clock ≤ now) : (breaker.state s.inner now).1 = breaker.stateAt failures now := by
  have flag := tracks.refresh_halfOpen later
  unfold state stateAt
  dsimp only
  rw [refresh_openedAtNanos, ← tracks.opened]
  cases found : s.inner.openedAtNanos with
  | none => simp
  | some opened =>
    simp only [found, Option.some.injEq, exists_eq_left'] at flag
    simp only [Option.isSome_some, if_true]
    by_cases cooled : breaker.cooldownNanos ≤ now - opened
    · rw [if_pos (flag.mpr cooled), if_neg (Nat.not_lt.mpr cooled)]
    · rw [if_neg fun set => cooled (flag.mp set), if_pos (Nat.lt_of_not_le cooled)]

theorem state_refreshes (breaker : CircuitBreaker) (inner : Inner) (now : Nat) :
    (breaker.state inner now).2 = breaker.refresh inner now := by
  unfold state
  dsimp only
  split
  · split <;> rfl
  · rfl

/-- A query keeps what is tracked, whatever it does to the flag. -/
theorem Tracks.refresh (tracks : Tracks breaker failures s) {now : Nat} (later : s.clock ≤ now) :
    Tracks breaker failures ⟨now, breaker.refresh s.inner now⟩ where
  counted := by
    rw [refresh_consecutiveFailures]
    exact tracks.counted
  opened := by
    rw [refresh_openedAtNanos]
    exact tracks.opened
  past := by
    intro opened stored
    rw [refresh_openedAtNanos] at stored
    exact (tracks.past opened stored).trans later
  cooled := by
    intro flag
    obtain ⟨opened, stored, cooled⟩ := (tracks.refresh_halfOpen later).mp flag
    exact ⟨opened, by rw [refresh_openedAtNanos]; exact stored, cooled⟩

theorem Tracks.onFailure (tracks : Tracks breaker failures s) {now : Nat} (later : s.clock ≤ now) :
    Tracks breaker (now :: failures) ⟨now, breaker.onFailure s.inner now⟩ := by
  have counted : (s.inner.consecutiveFailures + 1).toNat = (failures.length + 1) % 2 ^ 32 := by
    rw [UInt32.toNat_add, tracks.counted]
    simp [Nat.add_mod]
  unfold CircuitBreaker.onFailure
  dsimp only
  split
  · next reached =>
    have threshold : breaker.failureThreshold.toNat ≤ (failures.length + 1) % 2 ^ 32 := by
      rw [← counted]
      exact UInt32.le_iff_toNat_le.mp reached
    refine ⟨counted, ?_, ?_, ?_⟩
    · simp only [openedAt, if_pos threshold]
    · intro opened stored
      cases stored
      exact le_refl now
    · intro flag
      cases flag
  · next below =>
    have threshold : ¬ breaker.failureThreshold.toNat ≤ (failures.length + 1) % 2 ^ 32 := by
      rw [← counted]
      exact fun reached => below (UInt32.le_iff_toNat_le.mpr reached)
    refine ⟨counted, ?_, ?_, ?_⟩
    · simp only [openedAt, if_neg threshold]
      exact tracks.opened
    · intro opened stored
      exact (tracks.past opened stored).trans later
    · intro flag
      cases flag

theorem Tracks.onSuccess (clock : Nat) (inner : Inner) :
    Tracks breaker [] ⟨clock, CircuitBreaker.onSuccess inner⟩ where
  counted := rfl
  opened := rfl
  past := by
    intro opened stored
    cases stored
  cooled := by
    intro flag
    cases flag

/-- Each call, a query as well as an outcome, keeps the fields tracked. -/
theorem Tracks.step (tracks : Tracks breaker failures s) (c : BreakerCall)
    (allowed : (breakerMachine breaker).answers s c.op c.ans) :
    Tracks breaker (recordOutcome failures c) ((breakerMachine breaker).effect s c.op c.ans) := by
  obtain ⟨op, ans⟩ := c
  cases op with
  | allow now =>
    have queried := tracks.refresh allowed.1
    rw [← state_refreshes] at queried
    exact queried
  | state now =>
    have queried := tracks.refresh allowed.1
    rw [← state_refreshes] at queried
    exact queried
  | onSuccess => exact Tracks.onSuccess s.clock s.inner
  | onFailure now => exact tracks.onFailure allowed

/-- After any history the fields are those its outcomes determine. -/
theorem tracks_of_legal {start : Nat} {history : List BreakerCall}
    (legal : (breakerMachine breaker).Legal (.created start) history) :
    Tracks breaker (failuresSince history)
      ((breakerMachine breaker).after (.created start) history) := by
  refine Stepwise.induction (I := fun front => Tracks breaker (failuresSince front)
    ((breakerMachine breaker).after (.created start) front)) ?_ ?_
  · exact Tracks.onSuccess start CircuitBreaker.withClock
  · intro front c back split tracks
    rw [failuresSince_concat, Machine.after_append]
    exact tracks.step c (legal.stepwise front c back split)

end CircuitBreaker
end MarginGuard.Source
