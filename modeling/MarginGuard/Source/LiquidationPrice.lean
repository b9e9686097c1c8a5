import Mathlib.Data.Rat.Floor
import Mathlib.Tactic.FieldSimp
import Mathlib.Tactic.LinearCombination
import MarginGuard.Source.Margin

/-!
# The liquidation price (`marginguard-core/src/margin.rs`)

`liquidation_price` solves `equity = maintenance` for the mark in floating point;
the model computes with the rational numbers meant. Exactly computed, equity and
maintenance meet at `crossNumer / crossDenom` micro-dollars, and the price is
that quotient, rounded down, if it is a valid price.
-/
namespace MarginGuard.Source
open Foundation

/-- The cast of a rational to an integer, toward zero. -/
def truncate (q : Rat) : Int := q.num.tdiv q.den

/-- Posted margin less funding paid, by the plain operator of `i128`, which wraps
around in a release build. -/
def netMargin (pos : Position) : I128 :=
  SignedInt.wrap (pos.postedMargin.toInt - pos.fundingPaid.toInt)

/-- The mark at which a position would hit maintenance margin. -/
def liquidationPrice (pos : Position) (params : RiskParams) : Option Price :=
  let size : Rat := pos.size.micros / 1000000
  let entry : Rat := pos.entryPrice.micros / 1000000
  let margin0 : Rat := (netMargin pos).toInt / 1000000
  let sign : Rat := pos.side.sign
  let mm : Rat := params.maintenanceMarginBps.toInt / 10000
  let denom := size * (mm - sign)
  if denom = 0 then none
  else
    let numer := margin0 - sign * entry * size
    let price := numer / denom
    if price ≤ 0 then none
    else (Price.fromMicros (SignedInt.clamp (truncate (price * 1000000)))).toOption

/-! ## The crossing -/

/-- Numerator of the mark at which equity meets maintenance. -/
def crossNumer (pos : Position) : Int :=
  10000 * (pos.entryPrice.micros * pos.size.micros -
    pos.side.sign * (SCALE * (netMargin pos).toInt))

/-- Its denominator. -/
def crossDenom (pos : Position) (params : RiskParams) : Int :=
  pos.size.micros * (10000 - pos.side.sign * params.maintenanceMarginBps.toInt)

variable {pos : Position} {params : RiskParams}

theorem crossDenom_pos (rate : 0 ≤ params.maintenanceMarginBps.toInt)
    (below : params.maintenanceMarginBps.toInt < 10000) : 0 < crossDenom pos params := by
  refine mul_pos pos.size.positive ?_
  cases pos.side <;> simp only [Side.sign] <;> omega

theorem toOption_eq_some {ε α : Type} {x : Except ε α} {a : α} : x.toOption = some a ↔ x = .ok a := by
  cases x with
  | ok b => simp only [Except.toOption, Option.some.injEq, Except.ok.injEq]
  | error e => simp only [Except.toOption, reduceCtorEq]

theorem truncate_eq_iff {q : Rat} (nonneg : 0 ≤ q) {n : Int} :
    truncate q = n ↔ (n : Rat) ≤ q ∧ q < n + 1 := by
  have floor : truncate q = ⌊q⌋ := by
    rw [truncate, Int.tdiv_eq_ediv_of_nonneg (Rat.num_nonneg.mpr nonneg), Rat.floor_def']
  rw [floor, Int.floor_eq_iff]

theorem Side.sign_mul_sign (side : Side) : side.sign * side.sign = 1 := by
  cases side <;> rfl

theorem sign_square (side : Side) : (side.sign : Rat) * side.sign = 1 := by
  exact_mod_cast side.sign_mul_sign

theorem sign_ne_zero (side : Side) : (side.sign : Rat) ≠ 0 := left_ne_zero_of_mul_eq_one (sign_square side)

/-- The denominator of the source. -/
theorem denom_eq (pos : Position) (params : RiskParams) :
    (pos.size.micros / 1000000 *
        (params.maintenanceMarginBps.toInt / 10000 - (pos.side.sign : Rat)) : Rat) =
      -(pos.side.sign : Rat) * crossDenom pos params / 10000000000 := by
  unfold crossDenom
  push_cast
  linear_combination (-(pos.size.micros : Rat) * params.maintenanceMarginBps.toInt / 10000000000) *
    sign_square pos.side

theorem denom_ne_zero (positive : 0 < crossDenom pos params) :
    -(pos.side.sign : Rat) * crossDenom pos params / 10000000000 ≠ 0 := by
  have denom : (crossDenom pos params : Rat) ≠ 0 := by exact_mod_cast ne_of_gt positive
  exact div_ne_zero (mul_ne_zero (neg_ne_zero.mpr (sign_ne_zero pos.side)) denom) (by decide)

/-- The quotient of the source is the crossing. -/
theorem quotient_eq (positive : 0 < crossDenom pos params) :
    ((netMargin pos).toInt / 1000000 -
          (pos.side.sign : Rat) * (pos.entryPrice.micros / 1000000) * (pos.size.micros / 1000000)) /
        (pos.size.micros / 1000000 *
          (params.maintenanceMarginBps.toInt / 10000 - (pos.side.sign : Rat))) =
      (crossNumer pos : Rat) / crossDenom pos params / 1000000 := by
  have denom : (crossDenom pos params : Rat) ≠ 0 := by exact_mod_cast ne_of_gt positive
  rw [denom_eq, div_div, div_eq_div_iff (denom_ne_zero positive) (mul_ne_zero denom (by decide))]
  unfold crossNumer SCALE
  push_cast
  linear_combination (-((netMargin pos).toInt : Rat) * crossDenom pos params) *
    sign_square pos.side

/-- The price is the crossing rounded down, if the crossing is positive. -/
theorem liquidationPrice_eq (positive : 0 < crossDenom pos params) :
    liquidationPrice pos params =
      if crossNumer pos ≤ 0 then none
      else (Price.fromMicros (SignedInt.clamp
        (truncate ((crossNumer pos : Rat) / crossDenom pos params)))).toOption := by
  have denom : (0 : Rat) < crossDenom pos params := by exact_mod_cast positive
  have sign : (crossNumer pos : Rat) / crossDenom pos params / 1000000 ≤ 0 ↔ crossNumer pos ≤ 0 := by
    rw [div_div, div_le_iff₀ (mul_pos denom (by decide)), zero_mul]
    exact Int.cast_nonpos
  simp only [liquidationPrice]
  rw [quotient_eq positive, denom_eq, if_neg (denom_ne_zero positive),
    div_mul_cancel₀ _ (by decide : (1000000 : Rat) ≠ 0)]
  exact if_congr sign rfl rfl

/-- A price is returned exactly if the crossing lies from it up to the next one. -/
theorem liquidationPrice_eq_some_iff (positive : 0 < crossDenom pos params) (price : Price) :
    liquidationPrice pos params = some price ↔
      crossDenom pos params * price.micros ≤ crossNumer pos ∧
        crossNumer pos < crossDenom pos params * (price.micros + 1) := by
  have least : crossDenom pos params ≤ crossDenom pos params * price.micros :=
    le_mul_of_one_le_right (le_of_lt positive) price.positive
  rw [liquidationPrice_eq positive]
  split
  · simp only [reduceCtorEq, false_iff]
    omega
  · next above =>
    have denom : (0 : Rat) < crossDenom pos params := by exact_mod_cast positive
    have nonneg : (0 : Rat) ≤ crossNumer pos / crossDenom pos params :=
      div_nonneg (by exact_mod_cast le_of_lt (not_le.mp above)) (le_of_lt denom)
    have cast (n : Int) : price.micros = (SignedInt.clamp n : I128).toInt ↔ n = price.micros := by
      have low := minInt_neg 128
      have high : MAX_PRICE < maxInt 128 := by decide
      have priceLow := price.positive
      have priceHigh := price.bounded
      rw [SignedInt.toInt_clamp_eq]
      omega
    rw [toOption_eq_some, Price.fromMicros_eq_ok, cast, truncate_eq_iff nonneg, le_div_iff₀ denom,
      div_lt_iff₀ denom]
    norm_cast
    rw [Int.mul_comm price.micros, Int.mul_comm (price.micros + 1)]

/-- No price is returned exactly if the crossing lies below or above all of them. -/
theorem liquidationPrice_eq_none_iff (positive : 0 < crossDenom pos params) :
    liquidationPrice pos params = none ↔
      crossNumer pos < crossDenom pos params ∨
        crossDenom pos params * (MAX_PRICE + 1) ≤ crossNumer pos := by
  constructor
  · intro none
    by_contra inside
    obtain ⟨low, high⟩ := not_or.mp inside
    have quotient : 0 < crossNumer pos / crossDenom pos params := by
      rw [Int.lt_iff_add_one_le, Int.le_ediv_iff_mul_le positive]
      omega
    have bounded : crossNumer pos / crossDenom pos params < MAX_PRICE + 1 := by
      rw [Int.ediv_lt_iff_lt_mul positive, Int.mul_comm]
      omega
    have found := (liquidationPrice_eq_some_iff positive
      ⟨crossNumer pos / crossDenom pos params, quotient, by omega⟩).mpr
      ⟨Int.mul_ediv_self_le (ne_of_gt positive), by
        rw [Int.mul_add, Int.mul_one]
        exact Int.lt_mul_ediv_self_add positive⟩
    rw [none] at found
    cases found
  · intro outside
    rw [Option.eq_none_iff_forall_ne_some]
    intro price found
    obtain ⟨low, high⟩ := (liquidationPrice_eq_some_iff positive price).mp found
    have least : crossDenom pos params ≤ crossDenom pos params * price.micros :=
      le_mul_of_one_le_right (le_of_lt positive) price.positive
    have greatest : crossDenom pos params * (price.micros + 1) ≤
        crossDenom pos params * (MAX_PRICE + 1) :=
      mul_le_mul_of_nonneg_left (by have := price.bounded; omega) (le_of_lt positive)
    omega

end MarginGuard.Source
