import MarginGuard.Foundation.Program
import Mathlib.Algebra.Order.Ring.Int

/-!
# Bounded retry (`marginguard-resilience/src/retry.rs`)

`retry` runs an operation until it succeeds, fails for good or has used up its
attempts, and sleeps between attempts. The operation is a program of its own;
what it does and how long a sleep takes are left to the environment.
-/
namespace MarginGuard.Source
open Foundation

/-! ## Durations (`std::time::Duration`) -/

/-- Nanoseconds of `Duration::MAX`: `u64::MAX` seconds and 999,999,999 nanoseconds. -/
def MAX_NANOS : Nat := 2 ^ 64 * 1000000000 - 1

@[ext] structure Duration where
  nanos : Nat
  bounded : nanos ≤ MAX_NANOS
  deriving DecidableEq

namespace Duration

def fromMillis (millis : Nat) : Duration := ⟨min (millis * 1000000) MAX_NANOS, min_le_right _ _⟩

def fromSecs (secs : Nat) : Duration := ⟨min (secs * 1000000000) MAX_NANOS, min_le_right _ _⟩

def saturatingMul (d : Duration) (k : Nat) : Duration :=
  ⟨min (d.nanos * k) MAX_NANOS, min_le_right _ _⟩

/-- `Mul<u32>`, which panics on a product that is not representable; no backoff
forms one (`RetryPolicy.half_mul_le`). -/
def mul (d : Duration) (k : Nat) : Duration := ⟨min (d.nanos * k) MAX_NANOS, min_le_right _ _⟩

/-- `Add`, which panics like `mul`; the sum of two halves never does. -/
def add (d d' : Duration) : Duration := ⟨min (d.nanos + d'.nanos) MAX_NANOS, min_le_right _ _⟩

/-- `Div<u32>` -/
def div (d : Duration) (k : Nat) : Duration :=
  ⟨d.nanos / k, le_trans (Nat.div_le_self _ _) d.bounded⟩

/-- `Ord::min` -/
def min (d d' : Duration) : Duration :=
  ⟨Min.min d.nanos d'.nanos, le_trans (min_le_left _ _) d.bounded⟩

end Duration

/-! ## Policies -/

/-- Retry configuration. A thousand times the longest delay is representable, as
the jitter of the backoff needs it. -/
structure RetryPolicy where
  maxAttempts : Nat
  baseDelay : Duration
  maxDelay : Duration
  representable : maxDelay.nanos * 1000 ≤ MAX_NANOS
  deriving DecidableEq

namespace RetryPolicy

/-- The delay before jitter: exponential in the attempt, capped. -/
def capped (policy : RetryPolicy) (attempt : Nat) : Duration :=
  let exp := policy.baseDelay.saturatingMul (1 <<< min attempt 16)
  exp.min policy.maxDelay

/-- `RetryPolicy::default` -/
def default : RetryPolicy where
  maxAttempts := 3
  baseDelay := .fromMillis 50
  maxDelay := .fromSecs 2
  representable := by decide

/-- Thousandths of the half that are added for an attempt. -/
def jitterSteps (attempt : Nat) : Nat := attempt * 2654435761 % 1000

/-- Equal jitter: half fixed, and a fixed fraction of the other half. -/
def backoff (policy : RetryPolicy) (attempt : Nat) : Duration :=
  let half := (policy.capped attempt).div 2
  let jitter := (half.mul (jitterSteps attempt)).div 1000
  half.add jitter

/-- The product in the backoff is representable. -/
theorem half_mul_le (policy : RetryPolicy) (attempt : Nat) :
    ((policy.capped attempt).div 2).nanos * jitterSteps attempt ≤ MAX_NANOS := by
  have steps : jitterSteps attempt < 1000 := Nat.mod_lt _ (by decide)
  have capped : (policy.capped attempt).nanos ≤ policy.maxDelay.nanos := Nat.min_le_right _ _
  have half : ((policy.capped attempt).div 2).nanos ≤ policy.maxDelay.nanos :=
    le_trans (Nat.div_le_self _ _) capped
  exact le_trans (Nat.mul_le_mul half (le_of_lt steps)) policy.representable

theorem capped_nanos (policy : RetryPolicy) (attempt : Nat) :
    (policy.capped attempt).nanos =
      min (policy.baseDelay.nanos * 2 ^ min attempt 16) policy.maxDelay.nanos := by
  change min (min (policy.baseDelay.nanos * (1 <<< min attempt 16)) MAX_NANOS)
    policy.maxDelay.nanos = _
  rw [Nat.one_shiftLeft, min_assoc, min_eq_right policy.maxDelay.bounded]

/-- The source multiplies in 64 bits; an attempt number has 32. -/
theorem jitter_product_fits {attempt : Nat} (small : attempt < 2 ^ 32) :
    attempt * 2654435761 < 2 ^ 64 := by
  omega

/-- The jitter is a fraction of the half. -/
theorem jitter_le (half attempt : Nat) : half * jitterSteps attempt / 1000 ≤ half := by
  have steps : jitterSteps attempt < 1000 := Nat.mod_lt _ (by decide)
  calc half * jitterSteps attempt / 1000
      ≤ half * 1000 / 1000 := Nat.div_le_div_right (Nat.mul_le_mul_left half (le_of_lt steps))
    _ = half := Nat.mul_div_cancel _ (by decide)

/-- No operation of the backoff leaves the durations: its value is the exact one. -/
theorem backoff_nanos (policy : RetryPolicy) (attempt : Nat) :
    (policy.backoff attempt).nanos =
      (policy.capped attempt).nanos / 2 +
        (policy.capped attempt).nanos / 2 * jitterSteps attempt / 1000 := by
  have product := policy.half_mul_le attempt
  have jitter := jitter_le ((policy.capped attempt).nanos / 2) attempt
  have bounded := (policy.capped attempt).bounded
  change (policy.capped attempt).nanos / 2 * jitterSteps attempt ≤ MAX_NANOS at product
  change min ((policy.capped attempt).nanos / 2 +
    min ((policy.capped attempt).nanos / 2 * jitterSteps attempt) MAX_NANOS / 1000) MAX_NANOS = _
  rw [min_eq_left product, min_eq_left (by omega)]

/-- Between half of the capped delay and all of it. -/
theorem backoff_bounds (policy : RetryPolicy) (attempt : Nat) :
    (policy.capped attempt).nanos / 2 ≤ (policy.backoff attempt).nanos ∧
      (policy.backoff attempt).nanos ≤ (policy.capped attempt).nanos := by
  have jitter := jitter_le ((policy.capped attempt).nanos / 2) attempt
  rw [backoff_nanos]
  omega

theorem backoff_le_maxDelay (policy : RetryPolicy) (attempt : Nat) :
    (policy.backoff attempt).nanos ≤ policy.maxDelay.nanos := by
  refine le_trans (policy.backoff_bounds attempt).2 ?_
  rw [capped_nanos]
  exact min_le_right _ _

end RetryPolicy

/-! ## The loop -/

section Retry
variable {Op : Type} {Ans : Op → Type} {T E : Type} (sleep : Duration → Op)
  (policy : RetryPolicy) (isRetryable : E → Bool) (op : Program Op Ans (Except E T))

/-- The loop from a given count of failed attempts. The source counts the failure
first and sleeps `backoff(attempt - 1)`. -/
def retryFrom (attempt : Nat) : Program Op Ans (Except E T) :=
  op.bind fun
    | .ok value => .done (.ok value)
    | .error err =>
      if policy.maxAttempts ≤ attempt + 1 ∨ isRetryable err = false then .done (.error err)
      else .step (sleep (policy.backoff attempt)) fun _ => retryFrom (attempt + 1)
termination_by policy.maxAttempts - attempt
decreasing_by omega

def retry : Program Op Ans (Except E T) := retryFrom sleep policy isRetryable op 0

/-- The runs of the loop: an attempt that ends it, or one more round after a
retryable failure and a sleep. -/
inductive Retries : Nat → List (Call Op Ans) → Except E T → Prop
  | stop {attempt : Nat} {calls : List (Call Op Ans)} {outcome : Except E T}
      (tried : op.Returns calls outcome)
      (final : ∀ err, outcome = .error err →
        policy.maxAttempts ≤ attempt + 1 ∨ isRetryable err = false) :
      Retries attempt calls outcome
  | again {attempt : Nat} {front rest : List (Call Op Ans)} {err : E} {outcome : Except E T}
      {woken : Ans (sleep (policy.backoff attempt))} (tried : op.Returns front (.error err))
      (more : attempt + 1 < policy.maxAttempts) (retryable : isRetryable err = true)
      (later : Retries (attempt + 1) rest outcome) :
      Retries attempt (front ++ ⟨sleep (policy.backoff attempt), woken⟩ :: rest) outcome

variable {sleep policy isRetryable op}

/-- One round: an attempt, then either the end or a sleep and the rest. -/
theorem retryFrom_returns {attempt : Nat} {calls : List (Call Op Ans)} {r : Except E T} :
    (retryFrom sleep policy isRetryable op attempt).Returns calls r ↔
      ∃ front back outcome, calls = front ++ back ∧ op.Returns front outcome ∧
        ((back = [] ∧ r = outcome ∧ ∀ err, outcome = .error err →
            policy.maxAttempts ≤ attempt + 1 ∨ isRetryable err = false) ∨
          ∃ err woken rest, outcome = .error err ∧ attempt + 1 < policy.maxAttempts ∧
            isRetryable err = true ∧ back = ⟨sleep (policy.backoff attempt), woken⟩ :: rest ∧
            (retryFrom sleep policy isRetryable op (attempt + 1)).Returns rest r) := by
  rw [retryFrom, Program.returns_bind]
  refine exists_congr fun front => exists_congr fun back => exists_congr fun outcome =>
    and_congr_right fun _ => and_congr_right fun _ => ?_
  cases outcome with
  | ok value =>
    simp only [Program.Returns, reduceCtorEq, false_implies, implies_true, and_true, false_and,
      exists_false, or_false]
  | error err =>
    simp only [Except.error.injEq, forall_eq', exists_and_left, exists_eq_left']
    split
    · next final =>
      simp only [Program.Returns]
      constructor
      · rintro ⟨rfl, rfl⟩
        exact .inl ⟨rfl, rfl, final⟩
      · rintro (⟨rfl, rfl, -⟩ | ⟨more, retryable, -⟩)
        · exact ⟨rfl, rfl⟩
        · rcases final with last | fatal
          · omega
          · rw [retryable] at fatal
            cases fatal
    · next further =>
      obtain ⟨more, retryable⟩ := not_or.mp further
      simp only [Program.Returns]
      constructor
      · rintro ⟨woken, rest, rfl, later⟩
        exact .inr ⟨by omega, by simpa using retryable, woken, rest, rfl, later⟩
      · rintro (⟨-, -, final⟩ | ⟨-, -, woken, rest, rfl, later⟩)
        · exact absurd final further
        · exact ⟨woken, rest, rfl, later⟩

theorem retryFrom_returns_iff {attempt : Nat} {calls : List (Call Op Ans)} {r : Except E T} :
    (retryFrom sleep policy isRetryable op attempt).Returns calls r ↔
      Retries sleep policy isRetryable op attempt calls r := by
  constructor
  · -- The attempts that are left bound the rounds.
    induction left : policy.maxAttempts - attempt generalizing attempt calls with
    | zero =>
      intro run
      obtain ⟨front, back, outcome, rfl, tried, ⟨rfl, rfl, final⟩ | ⟨_, _, _, _, more, _⟩⟩ :=
        retryFrom_returns.mp run
      · rw [List.append_nil]
        exact .stop tried final
      · omega
    | succ n ih =>
      intro run
      obtain ⟨front, back, outcome, rfl, tried, ⟨rfl, rfl, final⟩ |
        ⟨err, woken, rest, rfl, more, retryable, rfl, later⟩⟩ := retryFrom_returns.mp run
      · rw [List.append_nil]
        exact .stop tried final
      · exact .again tried more retryable (ih (by omega) later)
  · intro run
    induction run with
    | @stop attempt calls outcome tried final =>
      exact retryFrom_returns.mpr
        ⟨calls, [], outcome, by rw [List.append_nil], tried, .inl ⟨rfl, rfl, final⟩⟩
    | again tried more retryable _ ih =>
      exact retryFrom_returns.mpr
        ⟨_, _, _, rfl, tried, .inr ⟨_, _, _, rfl, more, retryable, rfl, ih⟩⟩

end Retry
end MarginGuard.Source
