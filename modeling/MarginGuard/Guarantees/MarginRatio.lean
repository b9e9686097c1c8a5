import MarginGuard.Source.Ratios
import MarginGuard.Source.Script

/-!
# Is the margin ratio faithful to equity?

`margin_ratio_bps` narrows its quotient with `i64::MAX` as the fallback, which is
meant for ratios too large and taken for those too small as well: an equity far
enough below zero is reported as the best ratio there is
(`margin_ratio_unfaithful`). `margin_ratio_faithful_iff` says exactly when order
and sign survive, and when the distance of a liquidatable position does.
-/
namespace MarginGuard.Guarantees
open Foundation Source

/-- The larger equity has the larger ratio. -/
def OrderKept (notional equity equity' : Usd) : Prop :=
  ∃ r r', marginRatioBps equity notional = some r ∧ marginRatioBps equity' notional = some r' ∧
    r.toInt ≤ r'.toInt

/-- The ratio is not positive. -/
def NotPositive (notional equity : Usd) : Prop :=
  ∃ r, marginRatioBps equity notional = some r ∧ r.toInt ≤ 0

/-- The distance is at most zero, and its subtraction does not overflow. -/
def DistanceKept (ctx : AdviceContext) : Prop :=
  ∃ r d, ctx.marginRatioBps = some r ∧ Fits 64 (r.toInt - ctx.maintenanceRatioBps.toInt) ∧
    ctx.liquidationDistanceBps = some d ∧ d.toInt ≤ 0

/-- Equity times ten thousand, clipped below, is more than `k` notionals down. -/
def Above (k : Int) (equity notional : Usd) : Prop :=
  -(k * notional.toInt) < max (minInt 128) (equity.toInt * 10000)

/-- The ratio is not below `i64::MIN`. -/
def InRange (equity notional : Usd) : Prop := Above (-minInt 64 + 1) equity notional

/-- The ratio is at least `i64::MAX`. -/
def AtTop (equity notional : Usd) : Prop :=
  maxInt 64 * notional.toInt ≤ min (maxInt 128) (equity.toInt * 10000)

section Ratio
variable {equity equity' notional : Usd} (positive : 0 < notional.toInt)
include positive

theorem above_iff {k : Int} (h : 0 < k) :
    Above k equity notional ↔ -k < ratioQuotient equity notional := by
  rw [Above, ← not_iff_not, not_lt, not_lt, ratioQuotient_le_neg_iff positive h]

theorem inRange_iff : InRange equity notional ↔ minInt 64 ≤ ratioQuotient equity notional := by
  have := minInt_neg 64
  rw [InRange, above_iff positive (by omega)]
  omega

theorem atTop_iff : AtTop equity notional ↔ maxInt 64 ≤ ratioQuotient equity notional :=
  (le_ratioQuotient_iff positive (by decide)).symm

/-- Order is kept unless the smaller equity falls below the range and the larger
one neither does nor reaches the top. -/
theorem orderKept_iff (le : equity ≤ equity') :
    OrderKept notional equity equity' ↔
      InRange equity notional ∨ ¬ InRange equity' notional ∨ AtTop equity' notional := by
  obtain ⟨r, found, value⟩ := marginRatioBps_of_pos equity positive
  obtain ⟨r', found', value'⟩ := marginRatioBps_of_pos equity' positive
  have ordered := ratioQuotient_mono positive le
  have kept : OrderKept notional equity equity' ↔ r.toInt ≤ r'.toInt := by
    simp [OrderKept, found, found']
  rw [kept, inRange_iff positive, inRange_iff positive, atTop_iff positive, value, value']
  split <;> split <;> omega

/-- A negative equity has no positive ratio unless it falls below the range. -/
theorem notPositive_iff (negative : equity.toInt < 0) :
    NotPositive notional equity ↔ InRange equity notional := by
  obtain ⟨r, found, value⟩ := marginRatioBps_of_pos equity positive
  have below : ratioQuotient equity notional ≤ 0 :=
    tdiv_nonpos positive (SignedInt.clamp_nonpos (by omega))
  have wide : 0 < maxInt 64 := by decide
  have kept : NotPositive notional equity ↔ r.toInt ≤ 0 := by simp [NotPositive, found]
  rw [kept, inRange_iff positive, value]
  split <;> omega

end Ratio

/-- Below maintenance the two quotients are ordered. -/
theorem quotient_le_maintenance {pos : Position} {mark : Price} {params : RiskParams}
    (rate : 0 ≤ params.maintenanceMarginBps.toInt) (positive : 0 < (pos.notional mark).toInt)
    (liquidatable : isLiquidatable pos mark params = true) :
    ratioQuotient (positionEquity pos mark) (pos.notional mark) ≤
      maintenanceQuotient pos mark params := by
  rw [isLiquidatable_iff] at liquidatable
  rw [← ratioQuotient_maintenance rate]
  exact ratioQuotient_mono positive (le_of_lt liquidatable)

/-- When the distance of a liquidatable position is at most zero without overflow. -/
theorem distanceKept_iff {pos : Position} {mark : Price} {params : RiskParams}
    {market : MarketState} (rate : 0 ≤ params.maintenanceMarginBps.toInt)
    (positive : 0 < (pos.notional mark).toInt)
    (liquidatable : isLiquidatable pos mark params = true) :
    DistanceKept (adviceContext pos mark params market) ↔
      Above (-minInt 64 + 1 - maintenanceQuotient pos mark params) (positionEquity pos mark)
          (pos.notional mark) ∨
        (maintenanceQuotient pos mark params = maxInt 64 ∧
          ¬ InRange (positionEquity pos mark) (pos.notional mark)) := by
  obtain ⟨r, found, value⟩ := marginRatioBps_of_pos (positionEquity pos mark) positive
  obtain ⟨ratio, nonneg, atMost⟩ :=
    toInt_maintenanceRatioBps market rate positive
  have ordered := quotient_le_maintenance rate positive liquidatable
  have upper := params.maintenanceMarginBps.upper
  have edge := minInt_eq 64
  have wide := maxInt_nonneg 64
  have context : (adviceContext pos mark params market).marginRatioBps = some r := found
  have kept : DistanceKept (adviceContext pos mark params market) ↔
      Fits 64 (r.toInt - maintenanceQuotient pos mark params) ∧
        r.toInt - maintenanceQuotient pos mark params ≤ 0 := by
    simp only [DistanceKept, AdviceContext.liquidationDistanceBps, context, ratio,
      Option.map_some, Option.some.injEq, exists_and_left, exists_eq_left']
    constructor
    · rintro ⟨fit, low⟩
      rw [SignedInt.toInt_wrap fit (by decide)] at low
      exact ⟨fit, low⟩
    · rintro ⟨fit, low⟩
      rw [SignedInt.toInt_wrap fit (by decide)]
      exact ⟨fit, low⟩
  rw [kept, above_iff positive (by omega), inRange_iff positive, value]
  unfold Fits
  split <;> omega

/-- Exactly when the margin ratio is faithful to equity: for order, for sign, and for
the distance of a liquidatable position. -/
theorem margin_ratio_faithful_iff (notional equity equity' : Usd) (pos : Position) (mark : Price)
    (params : RiskParams) (market : MarketState) :
    (0 < notional.toInt → equity ≤ equity' →
      (OrderKept notional equity equity' ↔
        InRange equity notional ∨ ¬ InRange equity' notional ∨ AtTop equity' notional)) ∧
    (0 < notional.toInt → equity.toInt < 0 →
      (NotPositive notional equity ↔ InRange equity notional)) ∧
    (0 ≤ params.maintenanceMarginBps.toInt → (pos.notional mark).toInt ≠ 0 →
      isLiquidatable pos mark params = true →
      (DistanceKept (adviceContext pos mark params market) ↔
        Above (-minInt 64 + 1 - maintenanceQuotient pos mark params) (positionEquity pos mark)
            (pos.notional mark) ∨
          (maintenanceQuotient pos mark params = maxInt 64 ∧
            ¬ InRange (positionEquity pos mark) (pos.notional mark)))) := by
  refine ⟨?_, ?_, ?_⟩
  · intro positive le
    exact orderKept_iff positive le
  · intro positive negative
    exact notPositive_iff positive negative
  · intro rate flat liquidatable
    have nonneg := pos.notional_nonneg mark
    exact distanceKept_iff rate (by omega) liquidatable

open Sample

/-- A debt of a micro-dollar and a solvent equity on a notional of a thousand dollars,
and a long of one contract at 100 dollars with a margin of two: order, sign and
distance are all kept. -/
theorem margin_ratio_faithful_iff_solvent :
    OrderKept (dollars 1000) (usd (-1)) (dollars 50) ∧ NotPositive (dollars 1000) (usd (-1)) ∧
      DistanceKept (adviceContext (held .long 1000000 100000000 2000000 0) (price 100) .standard
        (quoted (price 100))) := by
  obtain ⟨order, sign, distance⟩ := margin_ratio_faithful_iff (dollars 1000) (usd (-1)) (dollars 50)
    (held .long 1000000 100000000 2000000 0) (price 100) .standard (quoted (price 100))
  have near : InRange (usd (-1)) (dollars 1000) := by
    unfold InRange Above
    decide +kernel
  refine ⟨?_, ?_, ?_⟩
  · exact (order (by decide +kernel) (by decide +kernel)).mpr (.inl near)
  · exact (sign (by decide +kernel) (by decide +kernel)).mpr near
  · refine (distance (by decide +kernel) (by decide +kernel) (by decide +kernel)).mpr (.inl ?_)
    unfold Above
    decide +kernel

/-- A trillion dollars short on a notional of one micro-dollar. The ratio is reported
as `i64::MAX`: above that of zero equity, positive, and as far from liquidation as
can be for a position that is liquidatable. -/
theorem margin_ratio_unfaithful :
    (usd (-10 ^ 18) ≤ Usd.ZERO ∧ ¬ OrderKept (usd 1) (usd (-10 ^ 18)) .ZERO) ∧
    ¬ NotPositive (usd 1) (usd (-10 ^ 18)) ∧
    (((held .long 1 1000000 0 (10 ^ 18)).notional (price 1)).toInt = 1 ∧
      isLiquidatable (held .long 1 1000000 0 (10 ^ 18)) (price 1) .standard = true ∧
      ¬ DistanceKept (adviceContext (held .long 1 1000000 0 (10 ^ 18)) (price 1) .standard
        (quoted (price 1)))) := by
  have liquidatable :
      isLiquidatable (held .long 1 1000000 0 (10 ^ 18)) (price 1) .standard = true := by
    decide +kernel
  refine ⟨⟨by decide +kernel, ?_⟩, ?_, by decide +kernel, liquidatable, ?_⟩
  · rw [orderKept_iff (by decide +kernel) (by decide +kernel)]
    unfold InRange AtTop Above
    decide +kernel
  · rw [notPositive_iff (by decide +kernel) (by decide +kernel)]
    unfold InRange Above
    decide +kernel
  · rw [distanceKept_iff (by decide +kernel) (by decide +kernel) liquidatable]
    unfold InRange Above
    decide +kernel

end MarginGuard.Guarantees
