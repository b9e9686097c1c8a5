import MarginGuard.Source.Retry
import Mathlib.Order.Bounds.Basic

/-!
# How often does a retry call, and how long does it sleep?

The operation of a retry is one call here, with outcomes from any sequence. The
loop stops at the first success, the first error that is not retryable or the
last attempt, whichever comes first, returns what that call brought, and sleeps
the backoffs in order between the calls (`retry_bounded_exact`).
-/
namespace MarginGuard.Guarantees
open Foundation Source

/-- What the loop does: call the operation, or sleep. -/
inductive RetryOp where
  | call
  | sleep (duration : Duration)
  deriving DecidableEq

abbrev RetryAns (T E : Type) : RetryOp → Type
  | .call => Except E T
  | .sleep _ => Unit

variable {T E : Type}

/-- One call of the operation. -/
def callOp : Program RetryOp (RetryAns T E) (Except E T) := .step .call .done

/-- The retry of the operation. -/
def retried (policy : RetryPolicy) (isRetryable : E → Bool) :
    Program RetryOp (RetryAns T E) (Except E T) := retry .sleep policy isRetryable callOp

/-- The outcome of a call of the operation. -/
def outcome? : Call RetryOp (RetryAns T E) → Option (Except E T)
  | ⟨.call, outcome⟩ => some outcome
  | ⟨.sleep _, _⟩ => none

/-- The outcomes of a run, in order. -/
def obtained (calls : List (Call RetryOp (RetryAns T E))) : List (Except E T) :=
  calls.filterMap outcome?

/-- The operation brought the outcomes of a sequence, from its start. -/
def Meets (outcomes : Nat → Except E T) (calls : List (Call RetryOp (RetryAns T E))) : Prop :=
  obtained calls = (List.range (obtained calls).length).map outcomes

/-- The calls, counted from one, at which a retry may stop: a success, an error that
is not retryable, and the last attempt. -/
def StopsAt (policy : RetryPolicy) (isRetryable : E → Bool) (outcomes : Nat → Except E T)
    (k : Nat) : Prop :=
  (∃ i value, k = i + 1 ∧ outcomes i = .ok value) ∨
    (∃ i err, k = i + 1 ∧ outcomes i = .error err ∧ isRetryable err = false) ∨
    k = max 1 policy.maxAttempts

/-- A sleep and one more call. -/
def round (policy : RetryPolicy) (attempt : Nat) : List RetryOp :=
  [.sleep (policy.backoff attempt), .call]

/-- `k` calls with the backoffs between them. -/
def schedule (policy : RetryPolicy) (k : Nat) : List RetryOp :=
  .call :: (List.range (k - 1)).flatMap (round policy)

/-- Nanoseconds slept. -/
def slept : List RetryOp → Nat
  | [] => 0
  | .call :: ops => slept ops
  | .sleep duration :: ops => duration.nanos + slept ops

variable {policy : RetryPolicy} {isRetryable : E → Bool} {outcomes : Nat → Except E T}

/-! ## Where the loop ends -/

/-- The loop does not go on after the outcome with a given index. -/
def Final (policy : RetryPolicy) (isRetryable : E → Bool) (outcomes : Nat → Except E T)
    (i : Nat) : Prop :=
  ∀ err, outcomes i = .error err → policy.maxAttempts ≤ i + 1 ∨ isRetryable err = false

/-- From a count of failed attempts on, the loop calls up to the first final outcome
and sleeps the backoffs between the calls. -/
theorem retries_schedule {attempt : Nat} {calls : List (Call RetryOp (RetryAns T E))}
    {r : Except E T} (run : Retries RetryOp.sleep policy isRetryable callOp attempt calls r)
    (met : obtained calls = (List.range' attempt (obtained calls).length).map outcomes) :
    ∃ n, calls.map Call.op = .call :: (List.range' attempt n).flatMap (round policy) ∧
      (obtained calls).length = n + 1 ∧ r = outcomes (attempt + n) ∧
      Final policy isRetryable outcomes (attempt + n) ∧
      ∀ i, attempt ≤ i → i < attempt + n → ¬ Final policy isRetryable outcomes i := by
  induction run with
  | @stop attempt calls outcome tried final =>
    obtain ⟨ans, rest, rfl, rfl, rfl⟩ := tried
    have first : outcome = outcomes attempt := by
      simpa [obtained, outcome?] using met
    refine ⟨0, rfl, rfl, first, ?_, fun i low high => by omega⟩
    unfold Final
    rwa [Nat.add_zero, ← first]
  | @again attempt front rest err outcome woken tried more retryable _ ih =>
    -- The rest meets the sequence from the next outcome on.
    obtain ⟨ans, none, rfl, rfl, rfl⟩ := tried
    have split : obtained ([⟨.call, .error err⟩] ++
        ⟨RetryOp.sleep (policy.backoff attempt), woken⟩ :: rest) = .error err :: obtained rest := rfl
    rw [split, List.length_cons, List.range'_succ, List.map_cons] at met
    obtain ⟨failed, later⟩ := List.cons.inj met
    obtain ⟨n, called, count, ended, final, before⟩ := ih later
    have onward : attempt + 1 + n = attempt + (n + 1) := by omega
    rw [onward] at ended final before
    refine ⟨n + 1, ?_, ?_, ended, final, fun i low high => ?_⟩
    · change .call :: .sleep (policy.backoff attempt) :: rest.map Call.op = _
      rw [called, List.range'_succ, List.flatMap_cons]
      rfl
    · rw [split, List.length_cons, count]
    · rcases eq_or_lt_of_le low with rfl | later
      · intro stopped
        rcases stopped err failed.symm with last | fatal
        · omega
        · rw [retryable] at fatal
          cases fatal
      · exact before i later high

/-- The first final outcome is that of the least call at which a retry may stop. -/
theorem isLeast_stopsAt {n : Nat} (final : Final policy isRetryable outcomes n)
    (before : ∀ i < n, ¬ Final policy isRetryable outcomes i) :
    IsLeast {k | StopsAt policy isRetryable outcomes k} (n + 1) := by
  -- Attempts are left after an outcome that is not final.
  have within (i : Nat) (earlier : i < n) : i + 1 < policy.maxAttempts := by
    by_contra last
    exact before i earlier fun _ _ => .inl (by omega)
  constructor
  · cases brought : outcomes n with
    | ok value => exact .inl ⟨n, value, rfl, brought⟩
    | error err =>
      rcases final err brought with last | fatal
      · refine .inr (.inr ?_)
        cases n with
        | zero => omega
        | succ n =>
          have := within n (Nat.lt_succ_self n)
          omega
      · exact .inr (.inl ⟨n, err, rfl, brought, fatal⟩)
  · intro k stops
    by_contra earlier
    rcases stops with ⟨i, value, rfl, brought⟩ | ⟨i, err, rfl, brought, fatal⟩ | rfl
    · refine before i (by omega) fun err failed => ?_
      rw [brought] at failed
      cases failed
    · refine before i (by omega) fun err' failed => .inr ?_
      rw [brought] at failed
      rwa [← Except.error.inj failed]
    · have := within (max 1 policy.maxAttempts - 1) (by omega)
      omega

/-! ## How long it sleeps -/

theorem slept_rounds (policy : RetryPolicy) (attempt n : Nat) :
    slept ((List.range' attempt n).flatMap (round policy)) ≤ n * policy.maxDelay.nanos := by
  induction n generalizing attempt with
  | zero => exact Nat.zero_le _
  | succ n ih =>
    have first := policy.backoff_le_maxDelay attempt
    have rest := ih (attempt + 1)
    rw [List.range'_succ, List.flatMap_cons]
    change (policy.backoff attempt).nanos +
      slept ((List.range' (attempt + 1) n).flatMap (round policy)) ≤ _
    rw [Nat.succ_mul]
    omega

-- 25 and 88.05 milliseconds between the three calls of the default policy.
example : slept (schedule .default 3) = 113050000 := by decide

/-! ## Every sequence of outcomes -/

/-- The operation answers with the next outcome. -/
def bringing (outcomes : Nat → Except E T) (front : List (Call RetryOp (RetryAns T E))) :
    (op : RetryOp) → RetryAns T E op
  | .call => outcomes (obtained front).length
  | .sleep _ => ()

theorem exists_meets (policy : RetryPolicy) (isRetryable : E → Bool)
    (outcomes : Nat → Except E T) :
    ∃ calls r, (retried policy isRetryable).Returns calls r ∧ Meets outcomes calls := by
  obtain ⟨calls, r, run, answered⟩ :=
    (retried policy isRetryable).exists_returns_after (bringing outcomes)
  refine ⟨calls, r, run, Program.picked_in_order (fun front op b picked => ?_) answered⟩
  cases op with
  | call => exact (Option.some.inj picked).symm
  | sleep duration => cases picked

/-- A run that meets the outcomes makes `k` calls, with the backoffs between them. -/
theorem retried_returns {calls : List (Call RetryOp (RetryAns T E))} {r : Except E T}
    (run : (retried policy isRetryable).Returns calls r) (met : Meets outcomes calls) :
    ∃ k, IsLeast {k | StopsAt policy isRetryable outcomes k} k ∧ (obtained calls).length = k ∧
      r = outcomes (k - 1) ∧ calls.map Call.op = schedule policy k ∧
      slept (calls.map Call.op) ≤ (k - 1) * policy.maxDelay.nanos := by
  unfold Meets at met
  rw [List.range_eq_range'] at met
  obtain ⟨n, called, count, ended, final, before⟩ :=
    retries_schedule (retryFrom_returns_iff.mp run) met
  rw [Nat.zero_add] at ended final before
  refine ⟨n + 1, isLeast_stopsAt final fun i earlier => before i (Nat.zero_le i) earlier, count,
    ended, ?_, ?_⟩
  · rw [called, schedule, Nat.add_sub_cancel, List.range_eq_range']
  · rw [called]
    exact slept_rounds policy 0 n

/-- Whatever the operation brings, the retry comes to an end: at the first success,
the first error that is not retryable or the last attempt, call number `k`. It
returns what that call brought and sleeps the backoffs of `0` to `k - 2` between
the calls, each between half of the capped delay and all of it. -/
theorem retry_bounded_exact (policy : RetryPolicy) (isRetryable : E → Bool)
    (outcomes : Nat → Except E T) :
    (∃ calls r, (retried policy isRetryable).Returns calls r ∧ Meets outcomes calls) ∧
    (∃ k, IsLeast {k | StopsAt policy isRetryable outcomes k} k ∧
      ∀ calls r, (retried policy isRetryable).Returns calls r → Meets outcomes calls →
        (obtained calls).length = k ∧ r = outcomes (k - 1) ∧
        calls.map Call.op = schedule policy k ∧
        slept (calls.map Call.op) ≤ (k - 1) * policy.maxDelay.nanos) ∧
    ∀ attempt,
      let capped := min (policy.baseDelay.nanos * 2 ^ min attempt 16) policy.maxDelay.nanos
      capped / 2 ≤ (policy.backoff attempt).nanos ∧ (policy.backoff attempt).nanos ≤ capped := by
  refine ⟨exists_meets policy isRetryable outcomes, ?_, fun attempt => ?_⟩
  · obtain ⟨_, _, first, met⟩ := exists_meets policy isRetryable outcomes
    obtain ⟨k, least, -⟩ := retried_returns first met
    refine ⟨k, least, fun calls r run met => ?_⟩
    obtain ⟨k', least', facts⟩ := retried_returns run met
    rw [least.unique least']
    exact facts
  · rw [← RetryPolicy.capped_nanos]
    exact policy.backoff_bounds attempt

end MarginGuard.Guarantees
