import MarginGuard.Source.Breaker

/-!
# How many trial requests does a half-open breaker admit?

`BreakerState::HalfOpen` is documented as the state in which a single trial
request is allowed, but `allow` refuses only while the breaker is open: every
call made after the cooldown is admitted until an outcome is recorded
(`second_trial_admitted`). A history keeps to one trial exactly if its callers
ask no more than once between outcomes after the cooldown
(`single_trial_iff_asked_once`).
-/
namespace MarginGuard.Guarantees
open Foundation Source

/-- A call that records an outcome. -/
def IsOutcome (c : BreakerCall) : Prop := c.op = .onSuccess ∨ ∃ now, c.op = .onFailure now

/-- Between two outcomes a history holds at most one call of a kind; the kind may
depend on what came before the call. -/
def AtMostOnce (kind : List BreakerCall → BreakerCall → Prop) (history : List BreakerCall) : Prop :=
  ∀ front first between second back, history = front ++ first :: between ++ second :: back →
    (∀ c ∈ between, ¬ IsOutcome c) → kind front first → ¬ kind (front ++ first :: between) second

/-- A call of `allow` that a half-open breaker admits. -/
def IsTrial (breaker : CircuitBreaker) (start : Nat) (front : List BreakerCall)
    (c : BreakerCall) : Prop :=
  ∃ now, c = ⟨.allow now, true⟩ ∧
    (breaker.state ((breakerMachine breaker).after (.created start) front).inner now).1 = .halfOpen

/-- A call of `allow` after the cooldown of the failures recorded so far. -/
def AskedAfterCooldown (breaker : CircuitBreaker) (front : List BreakerCall) (c : BreakerCall) :
    Prop :=
  ∃ now opened, c.op = .allow now ∧ breaker.openedAt (failuresSince front) = some opened ∧
    opened + breaker.cooldownNanos ≤ now

variable {breaker : CircuitBreaker} {start : Nat}

theorem stateAt_eq_halfOpen_iff (failures : List Nat) (now : Nat)
    (past : ∀ opened, breaker.openedAt failures = some opened → opened ≤ now) :
    breaker.stateAt failures now = .halfOpen ↔
      ∃ opened, breaker.openedAt failures = some opened ∧ opened + breaker.cooldownNanos ≤ now := by
  unfold CircuitBreaker.stateAt
  cases found : breaker.openedAt failures with
  | none => simp
  | some opened =>
    have := past opened found
    simp only [Option.some.injEq, exists_eq_left']
    split
    · next early =>
      constructor
      · intro half
        cases half
      · omega
    · next cooled => exact iff_of_true rfl (by omega)

/-- A half-open breaker admits whoever asks. -/
theorem isTrial_iff {history front back : List BreakerCall} {c : BreakerCall}
    (legal : (breakerMachine breaker).Legal (.created start) history)
    (split : history = front ++ c :: back) :
    IsTrial breaker start front c ↔ AskedAfterCooldown breaker front c := by
  have allowed := legal.stepwise front c back split
  rw [split] at legal
  have tracks := CircuitBreaker.tracks_of_legal ((Machine.legal_append _ _ _).mp legal).1
  have halfOpen : ∀ now,
      ((breakerMachine breaker).after (.created start) front).clock ≤ now →
      ((breaker.state ((breakerMachine breaker).after (.created start) front).inner now).1 =
          .halfOpen ↔
        ∃ opened, breaker.openedAt (failuresSince front) = some opened ∧
          opened + breaker.cooldownNanos ≤ now) := by
    intro now later
    rw [tracks.state_eq later]
    apply stateAt_eq_halfOpen_iff
    intro opened found
    exact (tracks.past opened (tracks.opened.trans found)).trans later
  constructor
  · rintro ⟨now, rfl, half⟩
    obtain ⟨opened, found, cooled⟩ := (halfOpen now allowed.1).mp half
    exact ⟨now, opened, rfl, found, cooled⟩
  · rintro ⟨now, opened, asked, found, cooled⟩
    obtain ⟨op, ans⟩ := c
    obtain rfl : op = .allow now := asked
    have half := (halfOpen now allowed.1).mpr ⟨opened, found, cooled⟩
    refine ⟨now, ?_, half⟩
    have admitted : ans = true := by
      refine Eq.trans allowed.2 ?_
      simp [CircuitBreaker.allow, half]
    rw [admitted]

/-- Between two outcomes at most one trial is admitted if and only if `allow` is
called at most once after the cooldown. -/
theorem single_trial_iff_asked_once {history : List BreakerCall}
    (legal : (breakerMachine breaker).Legal (.created start) history) :
    AtMostOnce (IsTrial breaker start) history ↔
      AtMostOnce (AskedAfterCooldown breaker) history := by
  have same : ∀ front first between second back,
      history = front ++ first :: between ++ second :: back →
        (IsTrial breaker start front first ↔ AskedAfterCooldown breaker front first) ∧
        (IsTrial breaker start (front ++ first :: between) second ↔
          AskedAfterCooldown breaker (front ++ first :: between) second) := by
    intro front first between second back split
    have early : history = front ++ first :: (between ++ second :: back) := by
      rw [split, List.append_assoc, List.cons_append]
    exact ⟨isTrial_iff legal early, isTrial_iff legal split⟩
  constructor
  · intro single front first between second back split quiet asked again
    obtain ⟨earlier, later⟩ := same front first between second back split
    exact single front first between second back split quiet (earlier.mpr asked) (later.mpr again)
  · intro once front first between second back split quiet trial again
    obtain ⟨earlier, later⟩ := same front first between second back split
    exact once front first between second back split quiet (earlier.mp trial) (later.mp again)

/-- A failure at the threshold, two calls of `allow` after the cooldown: the second
is a second trial. -/
theorem two_trials : (breakerMachine ⟨1, 10⟩).Legal (.created 0)
      [⟨.onFailure 0, ()⟩, ⟨.allow 10, true⟩, ⟨.allow 10, true⟩] ∧
    ¬ AtMostOnce (IsTrial ⟨1, 10⟩ 0)
      [⟨.onFailure 0, ()⟩, ⟨.allow 10, true⟩, ⟨.allow 10, true⟩] := by
  constructor
  · simp [breakerMachine, BreakerShared.created, CircuitBreaker.withClock,
      CircuitBreaker.onFailure, CircuitBreaker.allow, CircuitBreaker.state,
      CircuitBreaker.refresh]
  · intro single
    exact single [⟨.onFailure 0, ()⟩] ⟨.allow 10, true⟩ [] ⟨.allow 10, true⟩ [] rfl (by simp)
      ⟨10, rfl, by decide⟩ ⟨10, rfl, by decide⟩

/-- The same calls with the outcome of the trial recorded before the next. -/
theorem single_trial_iff_asked_once_recovering :
    (breakerMachine ⟨1, 10⟩).Legal (.created 0)
      [⟨.onFailure 0, ()⟩, ⟨.allow 10, true⟩, ⟨.onSuccess, ()⟩, ⟨.allow 10, true⟩] ∧
    (AtMostOnce (IsTrial ⟨1, 10⟩ 0)
        [⟨.onFailure 0, ()⟩, ⟨.allow 10, true⟩, ⟨.onSuccess, ()⟩, ⟨.allow 10, true⟩] ↔
      AtMostOnce (AskedAfterCooldown ⟨1, 10⟩)
        [⟨.onFailure 0, ()⟩, ⟨.allow 10, true⟩, ⟨.onSuccess, ()⟩, ⟨.allow 10, true⟩]) := by
  have legal : (breakerMachine ⟨1, 10⟩).Legal (.created 0)
      [⟨.onFailure 0, ()⟩, ⟨.allow 10, true⟩, ⟨.onSuccess, ()⟩, ⟨.allow 10, true⟩] := by
    simp [breakerMachine, BreakerShared.created, CircuitBreaker.withClock,
      CircuitBreaker.onFailure, CircuitBreaker.onSuccess, CircuitBreaker.allow,
      CircuitBreaker.state, CircuitBreaker.refresh]
  exact ⟨legal, single_trial_iff_asked_once legal⟩

/-- A breaker that is half-open admits a second trial. -/
theorem second_trial_admitted :
    ¬ ∀ (breaker : CircuitBreaker) (start : Nat) (history : List BreakerCall),
      1 ≤ breaker.failureThreshold.toNat →
      (breakerMachine breaker).Legal (.created start) history →
        AtMostOnce (IsTrial breaker start) history := by
  intro single
  exact two_trials.2 (single ⟨1, 10⟩ 0 _ (by decide) two_trials.1)

end MarginGuard.Guarantees
