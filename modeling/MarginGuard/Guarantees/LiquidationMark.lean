import MarginGuard.Source.LiquidationPrice
import MarginGuard.Guarantees.LiquidationRegion

/-!
# Is a position liquidatable at its liquidation price?

Not as a rule. `liquidation_price` returns the mark where exactly computed equity
and maintenance meet, rounded down, and `is_liquidatable` is strict and rounds on
its own. What the two have in common is read off the products of the inputs:

* equity less maintenance is the margin left, the whole micro-dollars of two values
  and a carry between them (`isLiquidatable_iff_surplus`), and its distance from the exact
  difference is made of remainders (`surplus_eq_remainders`);
* at the price returned a long is liquidatable if the part of the price that is cut
  off outweighs these remainders, a short never is, saturation apart;
* a short that crosses below all marks is liquidatable at all of them if it is at
  one micro-dollar, a long that crosses above them if its slack is at least two
  micro-dollars or the carry stays below it at the marks near the maximum
  (`surplus_eq_slack`).

`None` does not mean liquidatable everywhere: a long whose margin covers its
notional gets `None` too. `liquidation_price_agrees_iff` says exactly when the two
functions agree.
-/
namespace MarginGuard.Guarantees
open Foundation Source

/-- The price and the predicate agree on a position: it is liquidatable at the
price returned, and at every mark if none is. -/
def PriceAgrees (pos : Position) (params : RiskParams) : Prop :=
  (∀ price, liquidationPrice pos params = some price → isLiquidatable pos price params = true) ∧
    (liquidationPrice pos params = none → ∀ mark, isLiquidatable pos mark params = true)

/-! ## Products of the inputs -/

section Products
variable (pos : Position) (params : RiskParams) (micros : Int)

/-- Posted margin less the funding paid. -/
def marginLeft : Int := pos.postedMargin.toInt - pos.fundingPaid.toInt

/-- The whole micro-dollars of the position's value at a price. -/
def wholeValue : Int := micros * pos.size.micros / SCALE

/-- What is left over, in units of `10⁻⁶` micro-dollars. -/
def restOfValue : Int := micros * pos.size.micros % SCALE

/-- What separates the PnL from the difference of the whole values. -/
def pnlCarry : Int := carry SCALE (micros * pos.size.micros) (pos.entryPrice.micros * pos.size.micros)

/-- What the truncations of PnL, notional and maintenance add to equity less
maintenance, in units of `10⁻¹⁰` micro-dollars. -/
def truncated : Int :=
  pos.side.sign * (10000000000 * pnlCarry pos micros +
      10000 * (restOfValue pos pos.entryPrice.micros - restOfValue pos micros)) +
    params.maintenanceMarginBps.toInt * restOfValue pos micros +
    SCALE * (wholeValue pos micros * params.maintenanceMarginBps.toInt % 10000)

/-- The funding paid is within the maintenance of the top of `i128`, where the sum
in the equity stops. -/
def ToppedOut : Prop :=
  10000 * (maxInt 128 + 1 - pos.fundingPaid.toInt) ≤
    wholeValue pos micros * params.maintenanceMarginBps.toInt

/-- The funding paid is the bottom of `i128`, where the sum in the equity stops too,
and the maintenance is less than a micro-dollar. -/
def BottomedOut : Prop :=
  pos.fundingPaid.toInt = minInt 128 ∧
    wholeValue pos micros * params.maintenanceMarginBps.toInt < 10000

/-- How far a long's margin is, in whole micro-dollars, from what it needs to be safe
at the maximum price. -/
def slack : Int :=
  wholeValue pos pos.entryPrice.micros - marginLeft pos -
    1000 * (pos.size.micros * (10000 - params.maintenanceMarginBps.toInt))

/-- The whole micro-dollars that the value lacks to that at the maximum price. -/
def lost : Int := 10000000 * pos.size.micros - wholeValue pos micros

end Products

/-- The least valid mark, one micro-dollar. -/
def LEAST_PRICE : Price := ⟨1, by decide, by decide⟩

/-! ## The condition -/

section Condition
variable (pos : Position) (params : RiskParams)

/-- At the crossing, rounded down: the part cut off exceeds what truncation adds. -/
def AgreesInside : Prop :=
  let price := crossNumer pos / crossDenom pos params
  ToppedOut pos params price ∨
    pos.side = .long ∧ ¬ BottomedOut pos params price ∧
      truncated pos params price < crossNumer pos % crossDenom pos params

/-- The crossing is below all marks: at one micro-dollar the profit of a short and
its margin fall short of the maintenance. -/
def AgreesBelow : Prop :=
  pos.side = .short ∧
    (ToppedOut pos params 1 ∨
      marginLeft pos + (pos.entryPrice.micros - 1) * pos.size.micros / SCALE <
        wholeValue pos 1 * params.maintenanceMarginBps.toInt / 10000)

/-- The crossing is above all marks: a long has slack for any carry, or enough for
the carry at each of the marks so near the maximum that the value lost to it counts
for less than two micro-dollars. -/
def AgreesAbove : Prop :=
  pos.side = .long ∧ ¬ BottomedOut pos params 1 ∧
    (1 < slack pos params ∨ ∀ mark : Price,
      lost pos mark.micros * (10000 - params.maintenanceMarginBps.toInt) < 20000 →
        ToppedOut pos params mark.micros ∨
          pnlCarry pos mark.micros < slack pos params +
            lost pos mark.micros * (10000 - params.maintenanceMarginBps.toInt) / 10000)

/-- When the price and the predicate agree: the margin left is below the range of
`i128`, or is in it and, by where the crossing lies, one of the three holds. -/
def AgreesWhen : Prop :=
  marginLeft pos < minInt 128 ∨
    marginLeft pos ≤ maxInt 128 ∧
      if crossNumer pos < crossDenom pos params then AgreesBelow pos params
      else if crossNumer pos < crossDenom pos params * (MAX_PRICE + 1) then AgreesInside pos params
      else AgreesAbove pos params

end Condition

variable {pos : Position} {params : RiskParams} {mark : Price}

/-! ## The predicate -/

theorem maintenance_range (pos : Position) (mark : Price)
    (rate : 0 ≤ params.maintenanceMarginBps.toInt)
    (below : params.maintenanceMarginBps.toInt < 10000) :
    0 ≤ (maintenanceMargin pos mark params).toInt ∧
      (maintenanceMargin pos mark params).toInt ≤ MAX_NOTIONAL := by
  have nonneg := pos.notional_nonneg mark
  have bounded := pos.notional_le mark
  have share := tdiv_share_drop_le (d := 10000) (by decide) rate (le_of_lt below) (le_refl 0) nonneg
  rw [maintenanceMargin]
  refine ⟨Usd.mulBps_nonneg nonneg rate, ?_⟩
  rw [toInt_notional_mulBps pos mark rate (le_of_lt below)]
  simp only [Int.zero_mul, Int.zero_tdiv] at share
  omega

/-- The outer difference in the equity cannot saturate to a different answer. -/
theorem isLiquidatable_iff_sum (rate : 0 ≤ params.maintenanceMarginBps.toInt)
    (below : params.maintenanceMarginBps.toInt < 10000) :
    isLiquidatable pos mark params = true ↔
      (pos.postedMargin.saturatingAdd (pos.unrealizedPnl mark)).toInt - pos.fundingPaid.toInt <
        (maintenanceMargin pos mark params).toInt := by
  obtain ⟨nonneg, bounded⟩ := maintenance_range pos mark rate below
  have small : MAX_NOTIONAL ≤ maxInt 128 := by decide
  have low := minInt_neg 128
  rw [isLiquidatable_iff, positionEquity, Usd.toInt_saturatingSub]
  omega

theorem wholeValue_nonneg (pos : Position) (mark : Price) : 0 ≤ wholeValue pos mark.micros :=
  Int.ediv_nonneg (value_nonneg pos mark) (by decide)

theorem toInt_notional_eq (pos : Position) (mark : Price) :
    (pos.notional mark).toInt = wholeValue pos mark.micros := by
  rw [pos.toInt_notional, Int.tdiv_eq_ediv_of_nonneg (value_nonneg pos mark), wholeValue]

theorem toInt_pnl_eq (pos : Position) (mark : Price) :
    (pos.unrealizedPnl mark).toInt = pos.side.sign *
      (wholeValue pos mark.micros - wholeValue pos pos.entryPrice.micros +
        pnlCarry pos mark.micros) := by
  rw [pos.toInt_unrealizedPnl, Int.sub_mul, tdiv_sub (by decide)]
  rfl

theorem toInt_maintenance_eq (pos : Position) (mark : Price)
    (rate : 0 ≤ params.maintenanceMarginBps.toInt)
    (below : params.maintenanceMarginBps.toInt < 10000) :
    (maintenanceMargin pos mark params).toInt =
      wholeValue pos mark.micros * params.maintenanceMarginBps.toInt / 10000 := by
  rw [maintenanceMargin, toInt_notional_mulBps pos mark rate (le_of_lt below), toInt_notional_eq,
    Int.tdiv_eq_ediv_of_nonneg (mul_nonneg (wholeValue_nonneg pos mark) rate)]

/-- Equity less maintenance at a price where nothing saturates. -/
def surplus (pos : Position) (params : RiskParams) (micros : Int) : Int :=
  marginLeft pos + pos.side.sign *
      (wholeValue pos micros - wholeValue pos pos.entryPrice.micros + pnlCarry pos micros) -
    wholeValue pos micros * params.maintenanceMarginBps.toInt / 10000

/-- Liquidatable is a negative surplus, but for the two ends of `i128`. -/
theorem isLiquidatable_iff_surplus (mark : Price) (rate : 0 ≤ params.maintenanceMarginBps.toInt)
    (below : params.maintenanceMarginBps.toInt < 10000) :
    isLiquidatable pos mark params = true ↔
      ToppedOut pos params mark.micros ∨
        ¬ BottomedOut pos params mark.micros ∧ surplus pos params mark.micros < 0 := by
  have product := mul_nonneg (wholeValue_nonneg pos mark) rate
  obtain ⟨fundingLow, fundingHigh⟩ := pos.fundingPaid.fits
  have low := minInt_neg 128
  have high := maxInt_nonneg 128
  rw [isLiquidatable_iff_sum rate below, Usd.toInt_saturatingAdd, toInt_pnl_eq,
    toInt_maintenance_eq pos mark rate below]
  unfold ToppedOut BottomedOut surplus marginLeft
  omega

theorem not_bottomedOut_of_toppedOut {micros : Int} (topped : ToppedOut pos params micros) :
    ¬ BottomedOut pos params micros := by
  have low := minInt_neg 128
  have high := maxInt_nonneg 128
  unfold ToppedOut at topped
  unfold BottomedOut
  omega

/-- The margin left is the one `liquidation_price` computes with, if it is in range. -/
theorem toInt_netMargin (fit : Fits 128 (marginLeft pos)) : (netMargin pos).toInt = marginLeft pos :=
  SignedInt.toInt_wrap fit (by decide)

/-- The surplus is the exact difference of equity and maintenance and what the
truncations add. -/
theorem surplus_eq_remainders (fit : Fits 128 (marginLeft pos)) (micros : Int) :
    10000000000 * surplus pos params micros =
      truncated pos params micros -
        pos.side.sign * (crossNumer pos - crossDenom pos params * micros) := by
  have value := Int.mul_ediv_add_emod (micros * pos.size.micros) SCALE
  have entry := Int.mul_ediv_add_emod (pos.entryPrice.micros * pos.size.micros) SCALE
  have share := Int.mul_ediv_add_emod
    (micros * pos.size.micros / SCALE * params.maintenanceMarginBps.toInt) 10000
  have square := pos.side.sign_mul_sign
  unfold surplus truncated crossNumer crossDenom wholeValue restOfValue
  rw [toInt_netMargin fit]
  unfold SCALE at *
  linear_combination (10000 * pos.side.sign - params.maintenanceMarginBps.toInt) * value -
    10000 * pos.side.sign * entry - 1000000 * share -
    (10000000000 * marginLeft pos - pos.size.micros * params.maintenanceMarginBps.toInt * micros) *
      square

/-! ## A margin out of range -/

/-- The sum in the equity, however it saturates, is near the margin less the funding. -/
theorem sum_near (pos : Position) (mark : Price) :
    (pos.postedMargin.saturatingAdd (pos.unrealizedPnl mark)).toInt - pos.fundingPaid.toInt ≤
        marginLeft pos + MAX_NOTIONAL ∧
      marginLeft pos - MAX_NOTIONAL ≤
        (pos.postedMargin.saturatingAdd (pos.unrealizedPnl mark)).toInt - pos.fundingPaid.toInt := by
  obtain ⟨low, high⟩ := pos.postedMargin.fits
  obtain ⟨pnlLow, pnlHigh⟩ := pos.unrealizedPnl_bounds mark
  have nonneg : 0 ≤ MAX_NOTIONAL := by decide
  rw [Usd.toInt_saturatingAdd, marginLeft]
  omega

theorem liquidatable_of_net_low (rate : 0 ≤ params.maintenanceMarginBps.toInt)
    (below : params.maintenanceMarginBps.toInt < 10000) (low : marginLeft pos < minInt 128) :
    isLiquidatable pos mark params = true := by
  obtain ⟨nonneg, _⟩ := maintenance_range pos mark rate below
  obtain ⟨near, _⟩ := sum_near pos mark
  have deep : minInt 128 + MAX_NOTIONAL < 0 := by decide
  rw [isLiquidatable_iff_sum rate below]
  omega

theorem not_liquidatable_of_net_high (rate : 0 ≤ params.maintenanceMarginBps.toInt)
    (below : params.maintenanceMarginBps.toInt < 10000) (high : maxInt 128 < marginLeft pos) :
    ¬ isLiquidatable pos mark params = true := by
  obtain ⟨_, bounded⟩ := maintenance_range pos mark rate below
  obtain ⟨_, near⟩ := sum_near pos mark
  have deep : MAX_NOTIONAL + MAX_NOTIONAL < maxInt 128 := by decide
  rw [isLiquidatable_iff_sum rate below]
  omega

/-! ## At the crossing -/

/-- The remainders in PnL, notional and maintenance take less than a micro-dollar
from equity less maintenance. -/
theorem truncated_lower (mark : Price) (rate : 0 ≤ params.maintenanceMarginBps.toInt) :
    -10000000000 < truncated pos params mark.micros := by
  have value := Int.mul_ediv_add_emod (mark.micros * pos.size.micros) SCALE
  have entry := Int.mul_ediv_add_emod (pos.entryPrice.micros * pos.size.micros) SCALE
  have split := Int.tdiv_mul_add_tmod
    (mark.micros * pos.size.micros - pos.entryPrice.micros * pos.size.micros) SCALE
  have low := Int.lt_tmod_of_pos
    (mark.micros * pos.size.micros - pos.entryPrice.micros * pos.size.micros)
    (by decide : 0 < SCALE)
  have high := Int.tmod_lt_of_pos
    (mark.micros * pos.size.micros - pos.entryPrice.micros * pos.size.micros)
    (by decide : 0 < SCALE)
  have rest := mul_nonneg rate
    (Int.emod_nonneg (mark.micros * pos.size.micros) (by decide : SCALE ≠ 0))
  have share := Int.emod_nonneg (wholeValue pos mark.micros * params.maintenanceMarginBps.toInt)
    (by decide : (10000 : Int) ≠ 0)
  rw [tdiv_sub (by decide)] at split
  unfold truncated pnlCarry restOfValue
  unfold SCALE at *
  cases pos.side <;> simp only [Side.sign] <;> omega

/-- At the price returned the surplus is that of a crossing which the price falls
short of by what is cut off. -/
theorem surplus_at_crossing (fit : Fits 128 (marginLeft pos))
    (crosses : crossDenom pos params * mark.micros ≤ crossNumer pos ∧
      crossNumer pos < crossDenom pos params * (mark.micros + 1)) :
    mark.micros = crossNumer pos / crossDenom pos params ∧
      10000000000 * surplus pos params mark.micros =
        truncated pos params mark.micros -
          pos.side.sign * (crossNumer pos % crossDenom pos params) := by
  obtain ⟨low, high⟩ := crosses
  rw [Int.mul_add, Int.mul_one] at high
  have positive : 0 < crossDenom pos params := by omega
  have price : crossNumer pos / crossDenom pos params = mark.micros := by
    rw [Int.ediv_eq_iff_of_pos positive, Int.mul_comm]
    exact ⟨low, high⟩
  refine ⟨price.symm, ?_⟩
  have parts := Int.mul_ediv_add_emod (crossNumer pos) (crossDenom pos params)
  rw [price] at parts
  have cut : crossNumer pos - crossDenom pos params * mark.micros =
      crossNumer pos % crossDenom pos params := by omega
  rw [surplus_eq_remainders fit, cut]

/-- At the price returned the predicate is decided by remainders. -/
theorem liquidatable_at_crossing_iff (rate : 0 ≤ params.maintenanceMarginBps.toInt)
    (below : params.maintenanceMarginBps.toInt < 10000) (fit : Fits 128 (marginLeft pos))
    (crosses : crossDenom pos params * mark.micros ≤ crossNumer pos ∧
      crossNumer pos < crossDenom pos params * (mark.micros + 1)) :
    isLiquidatable pos mark params = true ↔ AgreesInside pos params := by
  obtain ⟨price, difference⟩ := surplus_at_crossing fit crosses
  have positive : 0 < crossDenom pos params := crossDenom_pos rate below
  have cut := Int.emod_nonneg (crossNumer pos) (ne_of_gt positive)
  have lower : -10000000000 < truncated pos params mark.micros := truncated_lower mark rate
  unfold AgreesInside
  dsimp only
  rw [isLiquidatable_iff_surplus mark rate below, ← price]
  refine or_congr_right ?_
  cases side : pos.side with
  | long =>
    rw [side] at difference
    simp only [Side.sign, Int.one_mul] at difference
    rw [and_iff_right rfl]
    exact and_congr_right fun _ => by omega
  | short =>
    -- what is cut off is to a short's credit
    rw [side] at difference
    simp only [Side.sign, Int.neg_mul, Int.one_mul] at difference
    simp only [reduceCtorEq, false_and, iff_false, not_and]
    intro _
    omega

/-- Unless the funding is near the top of `i128`, a short is not liquidatable at the
price returned for it. -/
theorem short_price_not_liquidatable (rate : 0 ≤ params.maintenanceMarginBps.toInt)
    (below : params.maintenanceMarginBps.toInt < 10000) (fit : Fits 128 (marginLeft pos))
    (found : liquidationPrice pos params = some mark) (short : pos.side = .short)
    (room : ¬ ToppedOut pos params mark.micros) : ¬ isLiquidatable pos mark params = true := by
  have crosses := (liquidationPrice_eq_some_iff (crossDenom_pos rate below) mark).mp found
  have price := (surplus_at_crossing fit crosses).1
  rw [liquidatable_at_crossing_iff rate below fit crosses, AgreesInside, ← price, short]
  simpa using room

/-! ## A crossing outside the valid marks -/

/-- A position that has lost nothing it needs is not liquidatable: a loss does not
saturate to a gain. -/
theorem not_liquidatable_of_loss (rate : 0 ≤ params.maintenanceMarginBps.toInt)
    (below : params.maintenanceMarginBps.toInt < 10000)
    (loss : (pos.unrealizedPnl mark).toInt ≤ 0) (enough : 0 ≤ surplus pos params mark.micros) :
    ¬ isLiquidatable pos mark params = true := by
  obtain ⟨_, top⟩ := pos.postedMargin.fits
  rw [toInt_pnl_eq] at loss
  rw [isLiquidatable_iff_sum rate below, Usd.toInt_saturatingAdd, toInt_pnl_eq,
    toInt_maintenance_eq pos mark rate below]
  unfold surplus marginLeft at enough
  omega

/-- A long that crosses below all marks is not liquidatable at the least one. -/
theorem long_crossing_below (rate : 0 ≤ params.maintenanceMarginBps.toInt)
    (below : params.maintenanceMarginBps.toInt < 10000) (fit : Fits 128 (marginLeft pos))
    (long : pos.side = .long) (crossing : crossNumer pos < crossDenom pos params) :
    ¬ isLiquidatable pos LEAST_PRICE params = true := by
  have entry := pos.entryPrice.positive
  have micros : LEAST_PRICE.micros = 1 := rfl
  apply not_liquidatable_of_loss rate below
  · rw [pos.toInt_unrealizedPnl, long, micros, Side.sign, Int.one_mul]
    exact tdiv_nonpos (by decide)
      (mul_nonpos_of_nonpos_of_nonneg (by omega) (le_of_lt pos.size.positive))
  · have difference : 10000000000 * surplus pos params 1 = _ := surplus_eq_remainders fit 1
    have lower : -10000000000 < truncated pos params LEAST_PRICE.micros :=
      truncated_lower LEAST_PRICE rate
    rw [long] at difference
    rw [micros] at lower ⊢
    simp only [Side.sign, Int.one_mul, Int.mul_one] at difference
    omega

/-- At the least mark a short has made a profit. -/
theorem short_profit_at_least (short : pos.side = .short) :
    (pos.unrealizedPnl LEAST_PRICE).toInt = (pos.entryPrice.micros - 1) * pos.size.micros / SCALE := by
  have entry := pos.entryPrice.positive
  have product : 0 ≤ (pos.entryPrice.micros - 1) * pos.size.micros :=
    mul_nonneg (by omega) (le_of_lt pos.size.positive)
  have micros : LEAST_PRICE.micros = 1 := rfl
  rw [pos.toInt_unrealizedPnl, short, micros, Side.sign, Int.neg_mul, Int.one_mul, ← Int.neg_tdiv,
    ← Int.neg_mul, Int.neg_sub, Int.tdiv_eq_ediv_of_nonneg product]

/-- A short that crosses above all marks is not liquidatable at the least one: its
margin alone covers the maintenance there. -/
theorem short_crossing_above (rate : 0 ≤ params.maintenanceMarginBps.toInt)
    (below : params.maintenanceMarginBps.toInt < 10000) (fit : Fits 128 (marginLeft pos))
    (short : pos.side = .short) (crossing : crossDenom pos params * (MAX_PRICE + 1) ≤ crossNumer pos) :
    ¬ isLiquidatable pos LEAST_PRICE params = true := by
  have sizePositive := pos.size.positive
  have profit : 0 ≤ (pos.unrealizedPnl LEAST_PRICE).toInt := by
    have entry := pos.entryPrice.positive
    rw [short_profit_at_least short]
    exact Int.ediv_nonneg (mul_nonneg (by omega) (le_of_lt sizePositive)) (by decide)
  have kept : pos.postedMargin.toInt ≤
      (pos.postedMargin.saturatingAdd (pos.unrealizedPnl LEAST_PRICE)).toInt := by
    obtain ⟨_, top⟩ := pos.postedMargin.fits
    rw [Usd.toInt_saturatingAdd]
    omega
  have margin : pos.size.micros * params.maintenanceMarginBps.toInt ≤
      10000000000 * marginLeft pos := by
    have entry : pos.entryPrice.micros * pos.size.micros ≤ MAX_PRICE * pos.size.micros :=
      mul_le_mul_of_nonneg_right pos.entryPrice.bounded (le_of_lt sizePositive)
    have product := mul_nonneg (le_of_lt sizePositive) rate
    rw [crossDenom, crossNumer, short, toInt_netMargin fit] at crossing
    simp only [Side.sign, MAX_PRICE, SCALE] at crossing entry
    linarith
  have maintenance : 10000000000 * (maintenanceMargin pos LEAST_PRICE params).toInt ≤
      pos.size.micros * params.maintenanceMarginBps.toInt := by
    have micros : LEAST_PRICE.micros = 1 := rfl
    have value := Int.mul_ediv_self_le (x := 1 * pos.size.micros) (by decide : SCALE ≠ 0)
    have scaled := mul_le_mul_of_nonneg_right value rate
    rw [toInt_maintenance_eq pos LEAST_PRICE rate below, micros, wholeValue]
    simp only [SCALE, Int.one_mul] at scaled ⊢
    rw [Int.mul_assoc] at scaled
    omega
  rw [isLiquidatable_iff_sum rate below]
  unfold marginLeft at margin
  omega

/-- A short is liquidatable everywhere exactly if it is at the least mark. -/
theorem short_everywhere_iff (rate : 0 ≤ params.maintenanceMarginBps.toInt)
    (below : params.maintenanceMarginBps.toInt < 10000) (short : pos.side = .short) :
    (∀ mark, isLiquidatable pos mark params = true) ↔ AgreesBelow pos params := by
  have least : (∀ mark, isLiquidatable pos mark params = true) ↔
      isLiquidatable pos LEAST_PRICE params = true :=
    ⟨fun everywhere => everywhere LEAST_PRICE, fun least mark =>
      short_region (m := LEAST_PRICE) rate short mark.positive least⟩
  have micros : LEAST_PRICE.micros = 1 := rfl
  have profit := toInt_pnl_eq pos LEAST_PRICE
  rw [short_profit_at_least short, micros] at profit
  have gain : 0 ≤ (pos.entryPrice.micros - 1) * pos.size.micros / SCALE := by
    have entry := pos.entryPrice.positive
    exact Int.ediv_nonneg (mul_nonneg (by omega) (le_of_lt pos.size.positive)) (by decide)
  obtain ⟨postedLow, _⟩ := pos.postedMargin.fits
  rw [least, isLiquidatable_iff_surplus LEAST_PRICE rate below, micros]
  unfold AgreesBelow surplus
  rw [and_iff_right short, ← profit]
  refine or_congr_right ⟨fun ⟨_, less⟩ => by omega, fun less => ⟨?_, by omega⟩⟩
  -- funding at the bottom of the range leaves a margin that is not negative
  unfold BottomedOut
  unfold marginLeft at less
  omega

/-! ### A long above all marks -/

theorem lost_nonneg (pos : Position) (mark : Price) : 0 ≤ lost pos mark.micros := by
  have product : mark.micros * pos.size.micros ≤ MAX_PRICE * pos.size.micros :=
    mul_le_mul_of_nonneg_right mark.bounded (le_of_lt pos.size.positive)
  unfold lost wholeValue
  simp only [MAX_PRICE, SCALE] at product ⊢
  omega

/-- The surplus of a long, seen from the maximum price. -/
theorem surplus_eq_slack (long : pos.side = .long) (micros : Int) :
    surplus pos params micros =
      pnlCarry pos micros - slack pos params -
        lost pos micros * (10000 - params.maintenanceMarginBps.toInt) / 10000 := by
  have share : wholeValue pos micros * params.maintenanceMarginBps.toInt =
      lost pos micros * (10000 - params.maintenanceMarginBps.toInt) +
        10000 * (wholeValue pos micros -
          1000 * (pos.size.micros * (10000 - params.maintenanceMarginBps.toInt))) := by
    unfold lost
    ring
  unfold surplus slack
  rw [long, share]
  simp only [Side.sign]
  omega

/-- A long that crosses above all marks is short of no whole micro-dollar. -/
theorem slack_nonneg (below : params.maintenanceMarginBps.toInt < 10000)
    (fit : Fits 128 (marginLeft pos)) (long : pos.side = .long)
    (crossing : crossDenom pos params * (MAX_PRICE + 1) ≤ crossNumer pos) : 0 ≤ slack pos params := by
  have share : 0 ≤ pos.size.micros * (10000 - params.maintenanceMarginBps.toInt) :=
    mul_nonneg (le_of_lt pos.size.positive) (by omega)
  have entry := Int.mul_ediv_add_emod (pos.entryPrice.micros * pos.size.micros) SCALE
  have rest := Int.emod_lt_of_pos (pos.entryPrice.micros * pos.size.micros) (by decide : 0 < SCALE)
  rw [crossDenom, crossNumer, long, toInt_netMargin fit] at crossing
  unfold slack wholeValue
  simp only [Side.sign, Int.one_mul, MAX_PRICE, SCALE] at *
  omega

/-- A long that crosses above all marks is liquidatable at all of them exactly if it
has the slack for its carries. -/
theorem long_everywhere_iff (rate : 0 ≤ params.maintenanceMarginBps.toInt)
    (below : params.maintenanceMarginBps.toInt < 10000) (fit : Fits 128 (marginLeft pos))
    (long : pos.side = .long) (crossing : crossDenom pos params * (MAX_PRICE + 1) ≤ crossNumer pos) :
    (∀ mark, isLiquidatable pos mark params = true) ↔ AgreesAbove pos params := by
  have slackNonneg := slack_nonneg below fit long crossing
  have share : 0 < 10000 - params.maintenanceMarginBps.toInt := by omega
  unfold AgreesAbove
  rw [and_iff_right long]
  constructor
  · intro everywhere
    have decided (mark : Price) := (isLiquidatable_iff_surplus mark rate below).mp (everywhere mark)
    refine ⟨?_, .inr fun mark _ => (decided mark).imp_right fun ⟨_, negative⟩ => ?_⟩
    · exact (decided LEAST_PRICE).elim not_bottomedOut_of_toppedOut And.left
    · rw [surplus_eq_slack long] at negative
      omega
  · rintro ⟨high, enough⟩ mark
    have counts := Int.ediv_nonneg (mul_nonneg (lost_nonneg pos mark) (le_of_lt share))
      (by decide : (0 : Int) ≤ 10000)
    have carried : pnlCarry pos mark.micros ≤ 1 := carry_le_one _ _ _
    rw [isLiquidatable_iff_surplus mark rate below, surplus_eq_slack long]
    by_cases topped : ToppedOut pos params mark.micros
    · exact .inl topped
    refine .inr ⟨?_, ?_⟩
    · rintro ⟨funding, small⟩
      have least : 1 * pos.size.micros ≤ mark.micros * pos.size.micros :=
        mul_le_mul_of_nonneg_right mark.positive (le_of_lt pos.size.positive)
      have value := Int.ediv_le_ediv (by decide : 0 < SCALE) least
      exact high ⟨funding, lt_of_le_of_lt (mul_le_mul_of_nonneg_right value rate) small⟩
    · rcases enough with much | near
      · omega
      · by_cases close : lost pos mark.micros * (10000 - params.maintenanceMarginBps.toInt) < 20000
        · have covered := (near mark close).resolve_left topped
          omega
        · omega

/-! ## Agreement -/

theorem agrees_iff_of_some {price : Price} (found : liquidationPrice pos params = some price) :
    PriceAgrees pos params ↔ isLiquidatable pos price params = true := by
  unfold PriceAgrees
  rw [found]
  simp only [Option.some.injEq, forall_eq', reduceCtorEq, false_implies, and_true]

theorem agrees_iff_of_none (found : liquidationPrice pos params = none) :
    PriceAgrees pos params ↔ ∀ mark, isLiquidatable pos mark params = true := by
  unfold PriceAgrees
  rw [found]
  simp only [reduceCtorEq, false_implies, implies_true, true_and, forall_const]

/-- With the margin in range, by where the crossing lies. -/
theorem agrees_iff_of_fits (rate : 0 ≤ params.maintenanceMarginBps.toInt)
    (below : params.maintenanceMarginBps.toInt < 10000) (fit : Fits 128 (marginLeft pos)) :
    PriceAgrees pos params ↔
      if crossNumer pos < crossDenom pos params then AgreesBelow pos params
      else if crossNumer pos < crossDenom pos params * (MAX_PRICE + 1) then AgreesInside pos params
      else AgreesAbove pos params := by
  have positive : 0 < crossDenom pos params := crossDenom_pos rate below
  have nowhere := liquidationPrice_eq_none_iff positive
  split_ifs with low high
  · rw [agrees_iff_of_none (nowhere.mpr (.inl low))]
    cases side : pos.side with
    | long =>
      refine iff_of_false (fun everywhere => ?_) fun agrees => ?_
      · exact long_crossing_below rate below fit side low (everywhere LEAST_PRICE)
      · have short := agrees.1
        rw [side] at short
        cases short
    | short => exact short_everywhere_iff rate below side
  · cases found : liquidationPrice pos params with
    | some price =>
      rw [agrees_iff_of_some found]
      exact liquidatable_at_crossing_iff rate below fit
        ((liquidationPrice_eq_some_iff positive price).mp found)
    | none =>
      have outside := nowhere.mp found
      omega
  · rw [agrees_iff_of_none (nowhere.mpr (.inr (not_lt.mp high)))]
    cases side : pos.side with
    | long => exact long_everywhere_iff rate below fit side (not_lt.mp high)
    | short =>
      refine iff_of_false (fun everywhere => ?_) fun agrees => ?_
      · exact short_crossing_above rate below fit side (not_lt.mp high) (everywhere LEAST_PRICE)
      · have long := agrees.1
        rw [side] at long
        cases long

/-- The price and the predicate agree exactly when the margin left is below the range
of `i128`, or in it and, according to where equity and maintenance cross, the part of
the price that is cut off exceeds what truncation adds; a short's margin and profit
at one micro-dollar fall short of the maintenance; a long has slack for its
carries. -/
theorem liquidation_price_agrees_iff (pos : Position) (params : RiskParams)
    (rate : 0 ≤ params.maintenanceMarginBps.toInt)
    (below : params.maintenanceMarginBps.toInt < 10000) :
    PriceAgrees pos params ↔ AgreesWhen pos params := by
  unfold AgreesWhen
  rcases lt_or_ge (marginLeft pos) (minInt 128) with low | low
  · exact iff_of_true
      ⟨fun _ _ => liquidatable_of_net_low rate below low,
        fun _ _ => liquidatable_of_net_low rate below low⟩ (.inl low)
  rcases lt_or_ge (maxInt 128) (marginLeft pos) with high | high
  · refine iff_of_false ?_ (by omega)
    rintro ⟨there, everywhere⟩
    cases found : liquidationPrice pos params with
    | some price => exact not_liquidatable_of_net_high rate below high (there price found)
    | none => exact not_liquidatable_of_net_high rate below high (everywhere found LEAST_PRICE)
  · rw [agrees_iff_of_fits rate below ⟨low, high⟩, or_iff_right (not_lt.mpr low),
      and_iff_right high]

open Sample

/-- A long of ten contracts at 100 dollars, margin a hundred: liquidatable at the
92.307692 dollars returned, a third of a micro-dollar below the crossing. -/
theorem long_agrees : PriceAgrees (held .long 10000000 100000000 100000000 0) .standard := by
  refine (liquidation_price_agrees_iff _ _ (by decide) (by decide)).mpr (.inr ⟨by decide, ?_⟩)
  rw [if_neg (by decide), if_pos (by decide)]
  exact .inr ⟨rfl, fun bottomed => absurd bottomed.1 (by decide), by decide⟩

/-- Two longs of one contract at 100 dollars. With a margin of five dollars at five
percent equity equals maintenance at the price returned. With a margin of 200
dollars no price is returned, and at 100 dollars equity is 200 dollars. -/
theorem liquidation_price_disagrees :
    ¬ PriceAgrees (held .long 1000000 100000000 5000000 0) (tier 1000 500) ∧
      ¬ PriceAgrees (held .long 1000000 100000000 200000000 0) .standard := by
  constructor
  · rintro ⟨there, _⟩
    have positive : 0 < crossDenom (held .long 1000000 100000000 5000000 0) (tier 1000 500) := by
      decide
    have found := (liquidationPrice_eq_some_iff positive (price 100)).mpr ⟨by decide, by decide⟩
    exact absurd (there _ found) (by decide +kernel)
  · rintro ⟨_, everywhere⟩
    have positive : 0 < crossDenom (held .long 1000000 100000000 200000000 0) .standard := by decide
    have none := (liquidationPrice_eq_none_iff positive).mpr (.inl (by decide))
    exact absurd (everywhere none (price 100)) (by decide +kernel)

end MarginGuard.Guarantees
