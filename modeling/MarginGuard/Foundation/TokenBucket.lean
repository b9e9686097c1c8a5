import Mathlib.Algebra.Order.Ring.Defs
import Mathlib.Algebra.Order.Group.MinMax

/-!
# Token buckets

A bucket holds at most `capacity` tokens and gains `rate` for each unit of time.
`take` refills it for the time since the last refill and grants a request it can
pay. Amounts and times are any ordered ring.

`take_paid` is the potential argument for one request: what is granted and what
is left are paid by what was there and what has flowed in. Over a run it bounds
everything granted by the initial tokens plus the inflow, provided the times
between refills add up to no more than the time that has passed.
-/
namespace MarginGuard.Foundation
namespace TokenBucket
variable {K : Type} [CommRing K] [LinearOrder K]

/-- The tokens after a refill. -/
def refill (capacity rate tokens elapsed : K) : K := min (tokens + elapsed * rate) capacity

/-- Refill, then grant the request if the tokens cover it. -/
def take (capacity rate tokens elapsed amount : K) : Bool × K :=
  if amount ≤ refill capacity rate tokens elapsed then
    (true, refill capacity rate tokens elapsed - amount)
  else (false, refill capacity rate tokens elapsed)

/-- What a request is charged. -/
def charge (granted : Bool) (amount : K) : K := if granted then amount else 0

variable [IsStrictOrderedRing K] {capacity rate tokens elapsed : K}

theorem take_nonneg (cap : 0 ≤ capacity) (flow : 0 ≤ rate) (filled : 0 ≤ tokens)
    (forward : 0 ≤ elapsed) (amount : K) : 0 ≤ (take capacity rate tokens elapsed amount).2 := by
  have refilled : 0 ≤ refill capacity rate tokens elapsed :=
    le_min (add_nonneg filled (mul_nonneg forward flow)) cap
  unfold take
  split
  · next enough => exact sub_nonneg.mpr enough
  · exact refilled

omit [IsStrictOrderedRing K] in
/-- A request and the tokens it leaves are paid by the tokens before and the inflow. -/
theorem take_paid (capacity rate tokens elapsed amount : K) :
    charge (take capacity rate tokens elapsed amount).1 amount +
      (take capacity rate tokens elapsed amount).2 ≤ tokens + elapsed * rate := by
  have capped : refill capacity rate tokens elapsed ≤ tokens + elapsed * rate := min_le_left _ _
  unfold take
  split
  · change amount + (refill capacity rate tokens elapsed - amount) ≤ _
    rw [add_sub_cancel]
    exact capped
  · change 0 + refill capacity rate tokens elapsed ≤ _
    rw [zero_add]
    exact capped

end TokenBucket
end MarginGuard.Foundation
