import Mathlib.Algebra.Order.Field.Rat
import MarginGuard.Foundation.Interleaving
import MarginGuard.Foundation.TokenBucket

/-!
# The rate limiter (`marginguard-resilience/src/limiter.rs`)

The token arithmetic, `f64` in the source, is exact here. A call reads the clock
and then runs its section under the bucket's lock; between the two any number of
other calls may do the same. The clock is monotone: it answers with any time not
before the one it showed last.
-/
namespace MarginGuard.Source
open Foundation

/-- The bucket behind the lock. -/
structure Bucket where
  tokens : Rat
  lastRefillNanos : Nat
  deriving DecidableEq

/-- The fixed part of a `RateLimiter`. -/
structure RateLimiter where
  capacity : Rat
  refillPerSec : Rat

/-- What a call of the limiter does in one indivisible step. -/
inductive LimiterOp where
  /-- `Clock::now_nanos` -/
  | nowNanos
  /-- the section of `try_acquire_n` -/
  | acquire (now : Nat) (n : Rat)

abbrev LimiterAnswer : LimiterOp → Type
  | .nowNanos => Nat
  | .acquire _ _ => Bool

namespace RateLimiter

/-- The bucket `with_clock` starts with. -/
def withClock (limiter : RateLimiter) (now : Nat) : Bucket := ⟨limiter.capacity, now⟩

/-- The locked section of `try_acquire_n`: whether the call is admitted, and the
bucket after it. A reading older than the last refill counts as no time passed,
and becomes the last refill all the same. -/
def acquire (limiter : RateLimiter) (bucket : Bucket) (now : Nat) (n : Rat) : Bool × Bucket :=
  let elapsedSecs : Rat := ((now - bucket.lastRefillNanos : Nat) : Rat) / 1000000000
  let tokens := min (bucket.tokens + elapsedSecs * limiter.refillPerSec) limiter.capacity
  if tokens ≥ n then (true, ⟨tokens - n, now⟩) else (false, ⟨tokens, now⟩)

/-- `RateLimiter::try_acquire_n` -/
def tryAcquireN (n : Rat) : Program LimiterOp LimiterAnswer Bool := do
  let now ← Program.perform LimiterOp.nowNanos
  Program.perform (LimiterOp.acquire now n)

/-- `RateLimiter::try_acquire` -/
def tryAcquire : Program LimiterOp LimiterAnswer Bool := tryAcquireN 1

/-- The section is a request to a token bucket. -/
theorem acquire_eq_take (limiter : RateLimiter) (bucket : Bucket) (now : Nat) (n : Rat) :
    limiter.acquire bucket now n =
      let taken := TokenBucket.take limiter.capacity limiter.refillPerSec bucket.tokens
        (((now - bucket.lastRefillNanos : Nat) : Rat) / 1000000000) n
      (taken.1, ⟨taken.2, now⟩) := by
  unfold acquire TokenBucket.take TokenBucket.refill
  dsimp only
  split <;> rfl

end RateLimiter

/-- The limiter as its callers share it: what the clock showed last and the bucket. -/
structure LimiterState where
  clock : Nat
  bucket : Bucket

/-- Clock readings and locked sections. -/
def limiterMachine (limiter : RateLimiter) : Machine LimiterState LimiterOp LimiterAnswer where
  answers s
    | .nowNanos, now => s.clock ≤ now
    | .acquire now n, admitted => admitted = (limiter.acquire s.bucket now n).1
  effect s
    | .nowNanos, now => { s with clock := now }
    | .acquire now n, _ => { s with bucket := (limiter.acquire s.bucket now n).2 }

instance (limiter : RateLimiter) (s : LimiterState) : (op : LimiterOp) →
    (ans : LimiterAnswer op) → Decidable ((limiterMachine limiter).answers s op ans)
  | .nowNanos, now => inferInstanceAs (Decidable (s.clock ≤ now))
  | .acquire now n, admitted =>
    inferInstanceAs (Decidable (admitted = (limiter.acquire s.bucket now n).1))

/-- A limiter created when the clock showed `now`. -/
def LimiterState.created (limiter : RateLimiter) (now : Nat) : LimiterState :=
  ⟨now, limiter.withClock now⟩

end MarginGuard.Source
