import MarginGuard.Source.Position

/-!
# Margin mathematics (`marginguard-core/src/margin.rs`) and the insurance fund
(`marginguard-core/src/insurance.rs`)

`liquidatable_account_health` ties the two places that decide liquidation: the
health view and the sweep compare the same two amounts.
-/
namespace MarginGuard.Source
open Foundation

/-- `equity = posted_margin + unrealised_pnl - funding_paid`. -/
def positionEquity (pos : Position) (mark : Price) : Usd :=
  (pos.postedMargin.saturatingAdd (pos.unrealizedPnl mark)).saturatingSub pos.fundingPaid

def maintenanceMargin (pos : Position) (mark : Price) (params : RiskParams) : Usd :=
  (pos.notional mark).mulBps params.maintenanceMarginBps

def initialMargin (pos : Position) (mark : Price) (params : RiskParams) : Usd :=
  (pos.notional mark).mulBps params.initialMarginBps

/-- `equity / notional` in basis points, `none` for zero notional. A ratio that
does not fit an `i64` becomes `i64::MAX`. -/
def marginRatioBps (equity notional : Usd) : Option I64 :=
  if notional.toInt = 0 then none
  else
    let ratio := (SignedInt.clamp (equity.toInt * 10000) : I128).div notional.toInt
    some ((SignedInt.tryFrom ratio.toInt).getD SignedInt.maxValue)

/-- Equity below maintenance at the mark. -/
def isLiquidatable (pos : Position) (mark : Price) (params : RiskParams) : Bool :=
  decide (positionEquity pos mark < maintenanceMargin pos mark params)

def accountHealth (pos : Position) (mark : Price) (params : RiskParams) : AccountHealth :=
  let equity := positionEquity pos mark
  let notional := pos.notional mark
  let maintenance := maintenanceMargin pos mark params
  { account := pos.account
    equity
    notional
    maintenanceMargin := maintenance
    marginRatioBps := marginRatioBps equity notional
    liquidatable := decide (equity < maintenance) }

/-- Signed funding payment for one accrual: at a positive rate longs pay. -/
def fundingPayment (pos : Position) (mark : Price) (rateBps : I64) : Usd :=
  let magnitude := (pos.notional mark).mulBps rateBps
  match pos.side with
  | .long => magnitude
  | .short => magnitude.neg

/-- A short pays exactly what a long of its size receives. -/
theorem toInt_fundingPayment (pos : Position) (mark : Price) (rateBps : I64) :
    (fundingPayment pos mark rateBps).toInt =
      pos.side.sign * ((pos.notional mark).mulBps rateBps).toInt := by
  unfold fundingPayment
  cases pos.side with
  | long => simp only [Side.sign, Int.one_mul]
  | short => simp only [Side.sign, Usd.toInt_neg_mulBps, Int.neg_mul, Int.one_mul]

theorem liquidatable_account_health (pos : Position) (mark : Price) (params : RiskParams) :
    (accountHealth pos mark params).liquidatable = isLiquidatable pos mark params := by
  simp only [accountHealth, isLiquidatable]

theorem isLiquidatable_iff (pos : Position) (mark : Price) (params : RiskParams) :
    isLiquidatable pos mark params = true ↔
      (positionEquity pos mark).toInt < (maintenanceMargin pos mark params).toInt := by
  rw [isLiquidatable, decide_eq_true_iff, Usd.lt_iff]

/-- Equity grows with the sum of posted margin and PnL, clipped or not. -/
theorem positionEquity_le {pos pos' : Position} {m m' : Price}
    (funding : pos.fundingPaid = pos'.fundingPaid)
    (sum : pos.postedMargin.toInt + (pos.unrealizedPnl m).toInt ≤
      pos'.postedMargin.toInt + (pos'.unrealizedPnl m').toInt) :
    (positionEquity pos m).toInt ≤ (positionEquity pos' m').toInt := by
  rw [positionEquity, positionEquity, funding]
  exact SignedInt.clamp_mono (Int.sub_le_sub_right (SignedInt.clamp_mono sum) _)

/-! ## Exact amounts -/

/-- Neither the sum nor the difference in the equity clips. -/
def EquityFits (pos : Position) (mark : Price) : Prop :=
  Fits 128 (pos.postedMargin.toInt + (pos.unrealizedPnl mark).toInt) ∧
    Fits 128 (pos.postedMargin.toInt + (pos.unrealizedPnl mark).toInt - pos.fundingPaid.toInt)

instance (pos : Position) (mark : Price) : Decidable (EquityFits pos mark) :=
  inferInstanceAs (Decidable (_ ∧ _))

theorem toInt_positionEquity {pos : Position} {mark : Price} (fit : EquityFits pos mark) :
    (positionEquity pos mark).toInt =
      pos.postedMargin.toInt + (pos.unrealizedPnl mark).toInt - pos.fundingPaid.toInt := by
  have sum := Usd.toInt_saturatingAdd_of_fits fit.1
  have difference := fit.2
  rw [← sum] at difference
  rw [positionEquity, Usd.toInt_saturatingSub_of_fits difference, sum]

/-- Where nothing clips, a close realises the PnL less the funding paid; the posted
margin cancels. -/
theorem toInt_realized {pos : Position} {mark : Price} (fit : EquityFits pos mark)
    (net : Fits 128 ((pos.unrealizedPnl mark).toInt - pos.fundingPaid.toInt)) :
    ((positionEquity pos mark).saturatingSub pos.postedMargin).toInt =
      (pos.unrealizedPnl mark).toInt - pos.fundingPaid.toInt := by
  have cancels : (positionEquity pos mark).toInt - pos.postedMargin.toInt =
      (pos.unrealizedPnl mark).toInt - pos.fundingPaid.toInt := by
    rw [toInt_positionEquity fit]
    omega
  rw [Usd.toInt_saturatingSub_of_fits (by rwa [cancels]), cancels]

/-- At a rate of at most the whole no share of a notional clips. -/
theorem toInt_notional_mulBps (pos : Position) (mark : Price) {bps : I64} (rate : 0 ≤ bps.toInt)
    (whole : bps.toInt ≤ 10000) :
    ((pos.notional mark).mulBps bps).toInt =
      ((pos.notional mark).toInt * bps.toInt).tdiv 10000 := by
  have nonneg := mul_nonneg (pos.notional_nonneg mark) rate
  have bounded : (pos.notional mark).toInt * bps.toInt ≤ MAX_NOTIONAL * 10000 :=
    mul_le_mul (pos.notional_le mark) whole rate (by decide)
  have small : MAX_NOTIONAL * 10000 ≤ maxInt 128 := by decide
  have low := minInt_neg 128
  exact Usd.toInt_mulBps ⟨by omega, by omega⟩

/-- The notional grows with the mark. -/
theorem notional_mono (pos : Position) {m m' : Price} (le : m.micros ≤ m'.micros) :
    (pos.notional m).toInt ≤ (pos.notional m').toInt := by
  rw [pos.toInt_notional, pos.toInt_notional]
  exact Int.tdiv_le_tdiv (by decide) (mul_le_mul_of_nonneg_right le (le_of_lt pos.size.positive))

/-- Maintenance grows with the mark. -/
theorem maintenanceMargin_mono (pos : Position) {m m' : Price} {params : RiskParams}
    (rate : 0 ≤ params.maintenanceMarginBps.toInt) (le : m.micros ≤ m'.micros) :
    (maintenanceMargin pos m params).toInt ≤ (maintenanceMargin pos m' params).toInt :=
  Usd.mulBps_mono rate (notional_mono pos le)

/-- The insurance-fund balance. -/
@[ext] structure InsuranceFund where
  balance : Usd
  deriving DecidableEq

namespace InsuranceFund

/-- Credit the fund. -/
def credit (fund : InsuranceFund) (amount : Usd) : InsuranceFund :=
  ⟨fund.balance.saturatingAdd amount⟩

/-- Attempt to cover a shortfall: `(drawn, socialized)` and the fund after it.
A balance below the shortfall leaves the fund at zero, also when it was
negative. -/
def cover (fund : InsuranceFund) (shortfall : Usd) : (Usd × Usd) × InsuranceFund :=
  if shortfall ≤ fund.balance then
    ((shortfall, .ZERO), ⟨fund.balance.saturatingSub shortfall⟩)
  else
    let drawn := fund.balance.max .ZERO
    let socialized := shortfall.saturatingSub drawn
    ((drawn, socialized), ⟨.ZERO⟩)

end InsuranceFund
end MarginGuard.Source
