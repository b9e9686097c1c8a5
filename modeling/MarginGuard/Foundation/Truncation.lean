import Mathlib.Algebra.Order.Ring.Int

/-!
# Division that truncates toward zero

`Int.tdiv` by a positive divisor is monotone, and rounds down above zero and up
below. The two comparison lemmas say what a quotient away from zero means for
the dividend; the step lemmas bound how far the quotients of two dividends can
be apart, where a pair on one side of zero does better than a pair across it, and
`tdiv_sub` says exactly what the quotient of a difference is.
-/
namespace MarginGuard.Foundation
variable {a a' u u' d k : Int}

/-- The remainder of a dividend that is not negative. -/
theorem tmod_range_of_nonneg (positive : 0 < d) (sign : 0 ≤ a) :
    0 ≤ a.tmod d ∧ a.tmod d < d :=
  ⟨Int.tmod_nonneg d sign, Int.tmod_lt_of_pos a positive⟩

/-- The remainder of a dividend that is not positive. -/
theorem tmod_range_of_nonpos (positive : 0 < d) (sign : a ≤ 0) :
    -d < a.tmod d ∧ a.tmod d ≤ 0 := by
  have flipped := tmod_range_of_nonneg (a := -a) positive (by omega)
  rw [Int.neg_tmod] at flipped
  omega

theorem tdiv_nonpos (positive : 0 < d) (sign : a ≤ 0) : a.tdiv d ≤ 0 := by
  have flipped := Int.tdiv_nonneg (a := -a) (by omega) (le_of_lt positive)
  rw [Int.neg_tdiv] at flipped
  omega

/-- A positive quotient is reached by the dividends from its product with the divisor on. -/
theorem le_tdiv_iff (positive : 0 < d) (above : 0 < k) : k ≤ a.tdiv d ↔ k * d ≤ a := by
  constructor
  · intro quotient
    have sign : 0 ≤ a := by
      by_contra negative
      have := tdiv_nonpos positive (le_of_not_ge negative)
      omega
    calc
      k * d ≤ a.tdiv d * d := mul_le_mul_of_nonneg_right quotient (le_of_lt positive)
      _ = a - a.tmod d := Int.tdiv_mul_self a d
      _ ≤ a := by have := tmod_range_of_nonneg positive sign; omega
  · exact Int.le_tdiv_of_mul_le positive

/-- A negative quotient is reached by the dividends down from its product with the divisor. -/
theorem tdiv_le_neg_iff (positive : 0 < d) (above : 0 < k) :
    a.tdiv d ≤ -k ↔ a ≤ -(k * d) := by
  have flipped := le_tdiv_iff (a := -a) positive above
  rw [Int.neg_tdiv] at flipped
  omega

/-! ## Dividends the same distance apart

`u` and `u'` are not negative; `a` and `a'` lie as far apart, anywhere. -/

/-- Quotients above zero drop by at most two more than quotients anywhere. -/
theorem tdiv_drop_le (positive : 0 < d) (low : 0 ≤ u') (high : 0 ≤ u) (apart : u - u' = a - a') :
    u.tdiv d - u'.tdiv d ≤ a.tdiv d - a'.tdiv d + 2 := by
  have upper := tmod_range_of_nonneg positive high
  have lower := tmod_range_of_nonneg positive low
  have rest := Int.tmod_lt_of_pos a positive
  have rest' := Int.lt_tmod_of_pos a' positive
  have parts := Int.tdiv_mul_add_tmod u d
  have parts' := Int.tdiv_mul_add_tmod u' d
  have split := Int.tdiv_mul_add_tmod a d
  have split' := Int.tdiv_mul_add_tmod a' d
  have scaled : (u.tdiv d - u'.tdiv d - (a.tdiv d - a'.tdiv d)) * d < 3 * d := by
    simp only [Int.sub_mul]
    omega
  have := lt_of_mul_lt_mul_right scaled (le_of_lt positive)
  omega

/-- On one side of zero it is at most one more. -/
theorem tdiv_drop_le_of_side (positive : 0 < d) (low : 0 ≤ u') (high : 0 ≤ u)
    (apart : u - u' = a - a') (side : (0 ≤ a ∧ 0 ≤ a') ∨ (a ≤ 0 ∧ a' ≤ 0)) :
    u.tdiv d - u'.tdiv d ≤ a.tdiv d - a'.tdiv d + 1 := by
  have upper := tmod_range_of_nonneg positive high
  have lower := tmod_range_of_nonneg positive low
  have near : a.tmod d - a'.tmod d < d := by
    rcases side with ⟨above, above'⟩ | ⟨below, below'⟩
    · have := tmod_range_of_nonneg positive above
      have := tmod_range_of_nonneg positive above'
      omega
    · have := tmod_range_of_nonpos positive below
      have := tmod_range_of_nonpos positive below'
      omega
  have parts := Int.tdiv_mul_add_tmod u d
  have parts' := Int.tdiv_mul_add_tmod u' d
  have split := Int.tdiv_mul_add_tmod a d
  have split' := Int.tdiv_mul_add_tmod a' d
  have scaled : (u.tdiv d - u'.tdiv d - (a.tdiv d - a'.tdiv d)) * d < 2 * d := by
    simp only [Int.sub_mul]
    omega
  have := lt_of_mul_lt_mul_right scaled (le_of_lt positive)
  omega

/-- A share of at most the whole drops by at most as much as the whole. -/
theorem tdiv_share_drop_le (positive : 0 < d) (share : 0 ≤ k) (whole : k ≤ d) (low : 0 ≤ u')
    (le : u' ≤ u) : (u * k).tdiv d - (u' * k).tdiv d ≤ u - u' := by
  have product : u * k ≤ u' * k + (u - u') * d := by
    have step : (u - u') * k ≤ (u - u') * d := mul_le_mul_of_nonneg_left whole (by omega)
    rw [Int.sub_mul] at step
    omega
  have moved : (u * k).tdiv d ≤ (u' * k + (u - u') * d).tdiv d := Int.tdiv_le_tdiv positive product
  have nonneg : 0 ≤ u' * k := mul_nonneg low share
  rw [Int.tdiv_eq_ediv_of_nonneg (a := u' * k + (u - u') * d)
      (add_nonneg nonneg (mul_nonneg (by omega) (le_of_lt positive))),
    Int.add_mul_ediv_right _ _ (by omega), ← Int.tdiv_eq_ediv_of_nonneg nonneg] at moved
  omega

/-! ## The quotient of a difference -/

/-- What separates the quotient of a difference from the difference of the
quotients: one, toward zero, where the remainders stand the other way round. -/
def carry (d a b : Int) : Int :=
  if b < a ∧ a % d < b % d then -1 else if a < b ∧ b % d < a % d then 1 else 0

theorem carry_le_one (d a b : Int) : carry d a b ≤ 1 := by
  unfold carry
  split_ifs <;> decide

theorem carry_swap (d a b : Int) : carry d b a = -carry d a b := by
  unfold carry
  split_ifs <;> omega

theorem tdiv_sub_of_le (positive : 0 < d) (le : a' ≤ a) :
    (a - a').tdiv d = a / d - a' / d + carry d a a' := by
  have first := Int.mul_ediv_add_emod a d
  have second := Int.mul_ediv_add_emod a' d
  have low := Int.emod_nonneg a (ne_of_gt positive)
  have high := Int.emod_lt_of_pos a positive
  have low' := Int.emod_nonneg a' (ne_of_gt positive)
  have high' := Int.emod_lt_of_pos a' positive
  rw [Int.tdiv_eq_ediv_of_nonneg (by omega), Int.ediv_eq_iff_of_pos positive, Int.add_mul, Int.sub_mul,
    Int.mul_comm (a / d), Int.mul_comm (a' / d)]
  unfold carry
  split_ifs with down up
  · omega
  · omega
  · have same : a' % d ≤ a % d := by
      by_contra less
      rcases lt_or_eq_of_le le with lt | rfl
      · exact down ⟨lt, by omega⟩
      · omega
    omega

theorem tdiv_sub (positive : 0 < d) (a a' : Int) :
    (a - a').tdiv d = a / d - a' / d + carry d a a' := by
  rcases le_total a' a with le | le
  · exact tdiv_sub_of_le positive le
  · have flipped := tdiv_sub_of_le positive le
    rw [← Int.neg_sub, Int.neg_tdiv, carry_swap] at flipped
    omega

end MarginGuard.Foundation
