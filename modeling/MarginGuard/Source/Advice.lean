import Mathlib.Algebra.Order.Ring.Rat
import MarginGuard.Source.Margin

/-!
# Risk advice (`marginguard-ai/src/advice.rs`, `marginguard-ai/src/advisor.rs`)

The heuristic advisor works on two ratios in basis points, each truncated on its
own. The product and the difference it forms use the plain operators of `i128`
and `i64`, which wrap around in a release build. Confidences, `f64` in the
source, are rational.
-/
namespace MarginGuard.Source
open Foundation

/-! ## Advice values (`advice.rs`) -/

/-- Liquidation-risk tiers, from the safest to the most severe. -/
inductive RiskLevel where
  | safe | caution | warning | critical
  deriving DecidableEq

namespace RiskLevel

/-- Place in the derived order. -/
def severity : RiskLevel → Nat
  | .safe => 0
  | .caution => 1
  | .warning => 2
  | .critical => 3

instance : LE RiskLevel := ⟨fun level level' => level.severity ≤ level'.severity⟩

theorem le_iff (level level' : RiskLevel) : level ≤ level' ↔ level.severity ≤ level'.severity :=
  Iff.rfl

theorem le_critical (level : RiskLevel) : level ≤ .critical := by
  rw [le_iff]
  cases level <;> simp [severity]

theorem safe_le (level : RiskLevel) : .safe ≤ level := by
  rw [le_iff]
  simp [severity]

/-- The wire code of a tier. -/
def code : RiskLevel → String
  | .safe => "safe"
  | .caution => "caution"
  | .warning => "warning"
  | .critical => "critical"

end RiskLevel

/-- The backend that produced a piece of advice. -/
inductive AdviceSource where
  | heuristic | llm
  deriving DecidableEq

/-- An assessment of one position. -/
@[ext] structure RiskAdvice where
  riskLevel : RiskLevel
  marginRatioBps : Option I64
  liquidationDistanceBps : Option I64
  recommendedAction : String
  summary : String
  confidence : Rat
  source : AdviceSource
  deriving DecidableEq

/-- What an advisor reasons over. -/
structure AdviceContext where
  side : Side
  leverage : Nat
  entryPriceMicros : Int
  markPriceMicros : Int
  fundingRateBps : I64
  equityMicros : I128
  notionalMicros : I128
  maintenanceMarginMicros : I128
  marginRatioBps : Option I64
  liquidatable : Bool
  deriving DecidableEq

namespace AdviceContext

/-- The context of a position with its health at a market state. -/
def fromParts (position : Position) (health : AccountHealth) (market : MarketState) :
    AdviceContext where
  side := position.side
  leverage := position.leverage.get
  entryPriceMicros := position.entryPrice.micros
  markPriceMicros := market.markPrice.micros
  fundingRateBps := market.fundingRateBps
  equityMicros := health.equity.micros
  notionalMicros := health.notional.micros
  maintenanceMarginMicros := health.maintenanceMargin.micros
  marginRatioBps := health.marginRatioBps
  liquidatable := health.liquidatable

/-- `maintenance / notional` in basis points, zero for a flat account. A ratio that
does not fit an `i64` becomes `i64::MAX`. -/
def maintenanceRatioBps (ctx : AdviceContext) : I64 :=
  if ctx.notionalMicros.toInt ≤ 0 then SignedInt.zero
  else
    let product : I128 := SignedInt.wrap (ctx.maintenanceMarginMicros.toInt * 10000)
    let ratio := product.div ctx.notionalMicros.toInt
    (SignedInt.tryFrom ratio.toInt).getD SignedInt.maxValue

/-- The cushion between the margin ratio and the maintenance ratio. -/
def liquidationDistanceBps (ctx : AdviceContext) : Option I64 :=
  ctx.marginRatioBps.map fun mr =>
    (SignedInt.wrap (mr.toInt - ctx.maintenanceRatioBps.toInt) : I64)

end AdviceContext

/-! ## The heuristic advisor (`advisor.rs`) -/

/-- Buffer at or below which a position is critical. -/
def CRITICAL_BPS : Int := 0

/-- Buffer at or below which a position is a warning. -/
def WARNING_BPS : Int := 200

/-- Buffer at or below which a position warrants caution. -/
def CAUTION_BPS : Int := 500

def classify (liquidatable : Bool) (distance : Option I64) : RiskLevel :=
  if liquidatable then .critical
  else
    match distance with
    | some d =>
      if d.toInt ≤ CRITICAL_BPS then .critical
      else if d.toInt ≤ WARNING_BPS then .warning
      else if d.toInt ≤ CAUTION_BPS then .caution
      else .safe
    | none => .safe

def buildSummary (level : RiskLevel) (ctx : AdviceContext) (distance : Option I64) : String :=
  let side := ctx.side.code
  let lev := ctx.leverage
  let tier := level.code
  let fund := ctx.fundingRateBps.toInt
  match level, distance with
  | .safe, none => "Account is flat; no liquidation risk."
  | _, some d =>
    s!"{side} position at {lev}x is {tier}: margin buffer is {d.toInt} bps from " ++
      s!"liquidation (funding {fund} bps)."
  | _, none => s!"{side} position is {tier}."

/-- The recommended action and the confidence of a tier. -/
def recommendation : RiskLevel → String × Rat
  | .critical => ("Add margin or reduce size immediately to avoid liquidation.", 90 / 100)
  | .warning => ("Margin buffer is thin; add margin or trim exposure soon.", 75 / 100)
  | .caution => ("Monitor closely; the margin buffer is moderate.", 60 / 100)
  | .safe => ("No action needed; the position is well collateralised.", 55 / 100)

/-- `HeuristicAdvisor::score` -/
def HeuristicAdvisor.score (ctx : AdviceContext) : RiskAdvice :=
  let distance := ctx.liquidationDistanceBps
  let level := classify ctx.liquidatable distance
  let (recommendedAction, confidence) := recommendation level
  { riskLevel := level
    marginRatioBps := ctx.marginRatioBps
    liquidationDistanceBps := distance
    recommendedAction
    summary := buildSummary level ctx distance
    confidence
    source := .heuristic }

end MarginGuard.Source
