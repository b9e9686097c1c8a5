import Mathlib.Tactic.Linarith
import MarginGuard.Foundation.Truncation
import MarginGuard.Source.Advice

/-!
# The two ratios of an advice context

For a context made from a position's health, the maintenance ratio is the exact
truncated quotient: none of its steps wraps, clips or falls back. The margin ratio
is the truncated quotient of the clipped product, except that a quotient below
`i64::MIN` is reported as `i64::MAX`.
-/
namespace MarginGuard.Source
open Foundation

/-- The quotient `margin_ratio_bps` narrows to an `i64`. -/
def ratioQuotient (equity notional : Usd) : Int :=
  ((SignedInt.clamp (equity.toInt * 10000) : I128).toInt).tdiv notional.toInt

/-- The margin ratio of a positive notional, by where the quotient lies. -/
theorem marginRatioBps_of_pos (equity : Usd) {notional : Usd} (positive : 0 < notional.toInt) :
    ∃ r, marginRatioBps equity notional = some r ∧
      r.toInt = if minInt 64 ≤ ratioQuotient equity notional
        then min (ratioQuotient equity notional) (maxInt 64) else maxInt 64 := by
  refine ⟨_, if_neg (by omega), ?_⟩
  rw [SignedInt.toInt_tryFrom_getD_maxValue, SignedInt.toInt_div _ positive]
  rfl

theorem ratioQuotient_mono {equity equity' notional : Usd} (positive : 0 < notional.toInt)
    (le : equity ≤ equity') : ratioQuotient equity notional ≤ ratioQuotient equity' notional := by
  rw [Usd.le_iff] at le
  exact Int.tdiv_le_tdiv positive (SignedInt.clamp_mono (by omega))

/-- How far a negative equity takes the quotient down. -/
theorem ratioQuotient_le_neg_iff {equity notional : Usd} (positive : 0 < notional.toInt) {k : Int}
    (above : 0 < k) :
    ratioQuotient equity notional ≤ -k ↔
      max (minInt 128) (equity.toInt * 10000) ≤ -(k * notional.toInt) := by
  have product : 0 < k * notional.toInt := mul_pos above positive
  have := maxInt_nonneg 128
  rw [ratioQuotient, tdiv_le_neg_iff positive above, SignedInt.toInt_clamp_eq]
  omega

/-- How far a positive equity takes the quotient up. -/
theorem le_ratioQuotient_iff {equity notional : Usd} (positive : 0 < notional.toInt) {k : Int}
    (above : 0 < k) :
    k ≤ ratioQuotient equity notional ↔
      k * notional.toInt ≤ min (maxInt 128) (equity.toInt * 10000) := by
  have product : 0 < k * notional.toInt := mul_pos above positive
  have := minInt_neg 128
  rw [ratioQuotient, le_tdiv_iff positive above, SignedInt.toInt_clamp_eq]
  omega

section Context
variable (pos : Position) (mark : Price) (params : RiskParams) (market : MarketState)

/-- The context of a position at a mark and a market state. -/
abbrev adviceContext : AdviceContext :=
  .fromParts pos (accountHealth pos mark params) market

/-- Maintenance over notional, truncated. -/
def maintenanceQuotient : Int :=
  ((maintenanceMargin pos mark params).toInt * 10000).tdiv (pos.notional mark).toInt

variable {pos mark params market}

variable (pos mark) in
/-- Maintenance is at most its share of the notional. -/
theorem maintenance_bounds (rate : 0 ≤ params.maintenanceMarginBps.toInt) :
    0 ≤ (maintenanceMargin pos mark params).toInt ∧
      (maintenanceMargin pos mark params).toInt * 10000 ≤
        (pos.notional mark).toInt * params.maintenanceMarginBps.toInt ∧
      Fits 128 ((maintenanceMargin pos mark params).toInt * 10000) := by
  have notional := pos.notional_nonneg mark
  have nonneg : 0 ≤ (maintenanceMargin pos mark params).toInt := Usd.mulBps_nonneg notional rate
  have clipped : (maintenanceMargin pos mark params).toInt * 10000 ≤
      (SignedInt.clamp ((pos.notional mark).toInt * params.maintenanceMarginBps.toInt) :
        I128).toInt := Usd.mulBps_mul_le notional rate
  have share := SignedInt.clamp_le (w := 128) (Int.mul_nonneg notional rate)
  have upper := (SignedInt.clamp
    ((pos.notional mark).toInt * params.maintenanceMarginBps.toInt) : I128).upper
  have low := minInt_neg 128
  exact ⟨nonneg, by omega, by omega, by omega⟩

/-- The quotient of maintenance is the one that would be taken of an equity. -/
theorem ratioQuotient_maintenance (rate : 0 ≤ params.maintenanceMarginBps.toInt) :
    ratioQuotient (maintenanceMargin pos mark params) (pos.notional mark) =
      maintenanceQuotient pos mark params := by
  obtain ⟨-, -, fit⟩ := maintenance_bounds pos mark rate
  rw [ratioQuotient, SignedInt.toInt_clamp fit, maintenanceQuotient]

/-- The maintenance ratio where its product does not wrap. -/
theorem maintenanceRatioBps_of_fits (ctx : AdviceContext) (positive : 0 < ctx.notionalMicros.toInt)
    (fit : Fits 128 (ctx.maintenanceMarginMicros.toInt * 10000))
    (low : minInt 64 ≤ (ctx.maintenanceMarginMicros.toInt * 10000).tdiv ctx.notionalMicros.toInt) :
    ctx.maintenanceRatioBps.toInt =
      min ((ctx.maintenanceMarginMicros.toInt * 10000).tdiv ctx.notionalMicros.toInt)
        (maxInt 64) := by
  unfold AdviceContext.maintenanceRatioBps
  rw [if_neg (Int.not_le.mpr positive)]
  dsimp only
  rw [SignedInt.toInt_tryFrom_getD_maxValue, SignedInt.toInt_div _ positive,
    SignedInt.toInt_wrap fit (by decide), if_pos low]

variable (market) in
/-- The maintenance ratio is exact, and at most the rate it comes from. -/
theorem toInt_maintenanceRatioBps (rate : 0 ≤ params.maintenanceMarginBps.toInt)
    (positive : 0 < (pos.notional mark).toInt) :
    (adviceContext pos mark params market).maintenanceRatioBps.toInt =
        maintenanceQuotient pos mark params ∧
      0 ≤ maintenanceQuotient pos mark params ∧
      maintenanceQuotient pos mark params ≤ params.maintenanceMarginBps.toInt := by
  obtain ⟨nonneg, share, fit⟩ := maintenance_bounds pos mark rate
  have quotient : 0 ≤ maintenanceQuotient pos mark params :=
    Int.tdiv_nonneg (by omega) (le_of_lt positive)
  have atMost : maintenanceQuotient pos mark params ≤ params.maintenanceMarginBps.toInt := by
    by_contra above
    have := (le_tdiv_iff positive (by omega)).mp (Int.not_le.mp above)
    linarith
  have upper := params.maintenanceMarginBps.upper
  have least := minInt_neg 64
  have exactly : (adviceContext pos mark params market).maintenanceRatioBps.toInt =
      min (maintenanceQuotient pos mark params) (maxInt 64) :=
    maintenanceRatioBps_of_fits (adviceContext pos mark params market) positive fit
      (le_trans (le_of_lt least) quotient)
  exact ⟨exactly.trans (min_eq_left (by omega)), quotient, atMost⟩

end Context
end MarginGuard.Source
