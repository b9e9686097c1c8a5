import MarginGuard.Source.Breaker

/-!
# The breaker's state is a function of its outcome history

Queries set the half-open flag as they go, but what `state` answers depends only
on the failures since the last success, the time of the latest of them and the
time of asking (`state_of_outcomes`). The counter is a `u32`, so this is about
fewer than `2 ^ 32` failures in a row.
-/
namespace MarginGuard.Guarantees
open Foundation Source

/-- Without a wrap of the counter the breaker opens at the latest failure, from
the one that reaches the threshold on. -/
theorem openedAt_of_few (breaker : CircuitBreaker) {failures : List Nat}
    (few : failures.length < 2 ^ 32) :
    breaker.openedAt failures =
      if breaker.failureThreshold.toNat ≤ failures.length then failures.head? else none := by
  induction failures with
  | nil => simp [CircuitBreaker.openedAt]
  | cons now earlier ih =>
    rw [List.length_cons] at few
    rw [CircuitBreaker.openedAt, Nat.mod_eq_of_lt few, List.length_cons, List.head?_cons]
    split
    · rfl
    · next below =>
      rw [ih (by omega), if_neg (by omega)]

/-- What `state` answers at a time, whatever queries were made before: closed
below the threshold, open until the cooldown after the latest failure has
passed, half-open from then on. -/
theorem state_of_outcomes {breaker : CircuitBreaker} {start now : Nat}
    {history : List BreakerCall} {answer : BreakerState}
    (positive : 1 ≤ breaker.failureThreshold.toNat)
    (legal : (breakerMachine breaker).Legal (.created start) (history ++ [⟨.state now, answer⟩]))
    (few : (failuresSince history).length < 2 ^ 32) :
    ((failuresSince history).length < breaker.failureThreshold.toNat → answer = .closed) ∧
      (breaker.failureThreshold.toNat ≤ (failuresSince history).length →
        ∃ latest, (failuresSince history).head? = some latest ∧
          (now < latest + breaker.cooldownNanos → answer = .opened) ∧
          (latest + breaker.cooldownNanos ≤ now → answer = .halfOpen)) := by
  obtain ⟨before, ⟨later, answered⟩, -⟩ := (Machine.legal_append _ _ _).mp legal
  have tracks := CircuitBreaker.tracks_of_legal before
  have opened := openedAt_of_few breaker few
  rw [tracks.state_eq later, CircuitBreaker.stateAt, opened] at answered
  constructor
  · intro below
    rw [if_neg (Nat.not_le.mpr below)] at answered
    exact answered
  · intro reached
    rw [if_pos reached] at answered opened
    cases found : (failuresSince history).head? with
    | none =>
      rw [List.head?_eq_none_iff.mp found, List.length_nil] at reached
      omega
    | some latest =>
      have past : latest ≤ now := by
        refine (tracks.past latest ?_).trans later
        rw [tracks.opened, opened, found]
      rw [found] at answered
      refine ⟨latest, rfl, ?_, ?_⟩
      · intro early
        exact answered.trans (if_pos (by omega))
      · intro cooled
        exact answered.trans (if_neg (by omega))

/-- Two failures at a threshold of two, a query too early and one in time. -/
theorem state_of_outcomes_after_two : ∃ answer,
    (breakerMachine ⟨2, 10⟩).Legal (.created 0)
      ([⟨.onFailure 1, ()⟩, ⟨.onFailure 3, ()⟩, ⟨.allow 5, false⟩] ++ [⟨.state 13, answer⟩]) ∧
    answer = .halfOpen := by
  have legal : (breakerMachine ⟨2, 10⟩).Legal (.created 0)
      ([⟨.onFailure 1, ()⟩, ⟨.onFailure 3, ()⟩, ⟨.allow 5, false⟩] ++
        [⟨.state 13, .halfOpen⟩]) := by
    simp [breakerMachine, BreakerShared.created, CircuitBreaker.withClock,
      CircuitBreaker.onFailure, CircuitBreaker.allow, CircuitBreaker.state,
      CircuitBreaker.refresh]
  obtain ⟨latest, last, -, cooled⟩ :=
    (state_of_outcomes (by decide) legal (by decide)).2 (by decide)
  cases last
  exact ⟨.halfOpen, legal, cooled (by decide)⟩

end MarginGuard.Guarantees
