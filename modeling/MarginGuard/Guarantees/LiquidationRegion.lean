import MarginGuard.Foundation.Truncation
import MarginGuard.Source.Script

/-!
# Is the liquidation region one-sided in the mark?

For a short it is: equity falls with the mark and maintenance rises. For a long
both fall, and maintenance, truncated at its own scale, can lose a micro-dollar
that PnL keeps (`long_region_gap`). What truncation can cost a long is bounded
(`long_drop`): from a mark where it is liquidatable down, equity is never more
than one micro-dollar above maintenance, and not at all on one side of the entry
price or for a whole number of contracts.
-/
namespace MarginGuard.Guarantees
open Foundation Source

variable {pos : Position} {m m' : Price} {params : RiskParams}

/-! ## Shorts -/

/-- The equity of a short falls with the mark, clipped or not. -/
theorem short_equity_antitone (short : pos.side = .short) (le : m.micros ≤ m'.micros) :
    (positionEquity pos m').toInt ≤ (positionEquity pos m).toInt := by
  have product : (m.micros - pos.entryPrice.micros) * pos.size.micros ≤
      (m'.micros - pos.entryPrice.micros) * pos.size.micros :=
    mul_le_mul_of_nonneg_right (by omega) (le_of_lt pos.size.positive)
  have quotient := Int.tdiv_le_tdiv (c := SCALE) (by decide) product
  have pnl : (pos.unrealizedPnl m').toInt ≤ (pos.unrealizedPnl m).toInt := by
    rw [pos.toInt_unrealizedPnl, pos.toInt_unrealizedPnl, short]
    simp only [Side.sign]
    omega
  exact positionEquity_le rfl (Int.add_le_add_left pnl _)

theorem short_region (rate : 0 ≤ params.maintenanceMarginBps.toInt) (short : pos.side = .short)
    (le : m.micros ≤ m'.micros) (liquidatable : isLiquidatable pos m params = true) :
    isLiquidatable pos m' params = true := by
  rw [isLiquidatable_iff] at liquidatable ⊢
  have equity := short_equity_antitone short le
  have maintenance := maintenanceMargin_mono pos rate le
  omega

/-! ## Longs -/

/-- What equity minus maintenance of a long gains at most when the mark falls: two
micro-dollars, one on one side of the entry price, none for whole contracts. -/
theorem long_drop (rate : 0 ≤ params.maintenanceMarginBps.toInt)
    (whole : params.maintenanceMarginBps.toInt ≤ 10000) (long : pos.side = .long)
    (le : m'.micros ≤ m.micros) (fit : EquityFits pos m) (fit' : EquityFits pos m') {s : Int}
    (drop : (m.micros * pos.size.micros).tdiv SCALE - (m'.micros * pos.size.micros).tdiv SCALE ≤
      ((m.micros - pos.entryPrice.micros) * pos.size.micros).tdiv SCALE -
        ((m'.micros - pos.entryPrice.micros) * pos.size.micros).tdiv SCALE + s) :
    (positionEquity pos m').toInt - (maintenanceMargin pos m' params).toInt ≤
      (positionEquity pos m).toInt - (maintenanceMargin pos m params).toInt + s := by
  have falls := notional_mono pos le
  have share := tdiv_share_drop_le (d := 10000) (by decide) rate whole (pos.notional_nonneg m') falls
  rw [toInt_positionEquity fit, toInt_positionEquity fit', pos.toInt_unrealizedPnl,
    pos.toInt_unrealizedPnl, long, maintenanceMargin, maintenanceMargin,
    toInt_notional_mulBps pos m rate whole, toInt_notional_mulBps pos m' rate whole]
  rw [pos.toInt_notional, pos.toInt_notional] at share ⊢
  simp only [Side.sign]
  omega

/-- The products under the two quotients lie equally far apart. -/
theorem products_apart (pos : Position) (m m' : Price) :
    m.micros * pos.size.micros - m'.micros * pos.size.micros =
      (m.micros - pos.entryPrice.micros) * pos.size.micros -
        (m'.micros - pos.entryPrice.micros) * pos.size.micros := by
  simp only [Int.sub_mul]
  omega

theorem value_nonneg (pos : Position) (m : Price) : 0 ≤ m.micros * pos.size.micros :=
  mul_nonneg (le_of_lt m.positive) (le_of_lt pos.size.positive)

/-- For a whole number of contracts nothing is truncated. -/
theorem drop_of_whole_contracts (pos : Position) (m m' : Price) (contracts : SCALE ∣ pos.size.micros) :
    (m.micros * pos.size.micros).tdiv SCALE - (m'.micros * pos.size.micros).tdiv SCALE =
      ((m.micros - pos.entryPrice.micros) * pos.size.micros).tdiv SCALE -
        ((m'.micros - pos.entryPrice.micros) * pos.size.micros).tdiv SCALE := by
  simp only [Int.mul_tdiv_assoc _ contracts]
  simp only [Int.sub_mul]
  omega

/-- One-sidedness in the mark: exact for a short; for a long up to what truncation
at a lower mark can give back. -/
theorem liquidation_region (pos : Position) (params : RiskParams) (m m' : Price)
    (rate : 0 ≤ params.maintenanceMarginBps.toInt)
    (whole : params.maintenanceMarginBps.toInt ≤ 10000) :
    (pos.side = .short → m.micros ≤ m'.micros → isLiquidatable pos m params = true →
      isLiquidatable pos m' params = true) ∧
    (pos.side = .long → m'.micros ≤ m.micros → EquityFits pos m → EquityFits pos m' →
      (isLiquidatable pos m params = true →
        (positionEquity pos m').toInt ≤ (maintenanceMargin pos m' params).toInt + 1) ∧
      (isLiquidatable pos m params = true →
        m.micros ≤ pos.entryPrice.micros ∨ pos.entryPrice.micros ≤ m'.micros →
        (positionEquity pos m').toInt ≤ (maintenanceMargin pos m' params).toInt) ∧
      (isLiquidatable pos m params = true → SCALE ∣ pos.size.micros →
        isLiquidatable pos m' params = true) ∧
      ((positionEquity pos m).toInt + 2 < (maintenanceMargin pos m params).toInt →
        isLiquidatable pos m' params = true)) := by
  refine ⟨short_region rate, ?_⟩
  intro long le fit fit'
  have positive : 0 < SCALE := by decide
  have apart := products_apart pos m m'
  have anywhere := long_drop rate whole long le fit fit'
    (tdiv_drop_le positive (value_nonneg pos m') (value_nonneg pos m) apart)
  simp only [isLiquidatable_iff]
  refine ⟨?_, ?_, ?_, ?_⟩
  · intro liquidatable
    omega
  · intro liquidatable side
    have sameSide := long_drop rate whole long le fit fit'
      (tdiv_drop_le_of_side positive (value_nonneg pos m') (value_nonneg pos m) apart (by
        rcases side with below | above
        · exact Or.inr ⟨mul_nonpos_of_nonpos_of_nonneg (by omega) (le_of_lt pos.size.positive),
            mul_nonpos_of_nonpos_of_nonneg (by omega) (le_of_lt pos.size.positive)⟩
        · exact Or.inl ⟨mul_nonneg (by omega) (le_of_lt pos.size.positive),
            mul_nonneg (by omega) (le_of_lt pos.size.positive)⟩))
    omega
  · intro liquidatable contracts
    have exactly := long_drop (s := 0) rate whole long le fit fit'
      (by rw [drop_of_whole_contracts pos m m' contracts]; omega)
    omega
  · intro deep
    omega

open Sample

/-- A long of one contract, liquidatable at 97 dollars and so at 90. -/
theorem liquidation_region_falling :
    isLiquidatable (held .long 1000000 100000000 5000000 0) (price 97) .standard = true ∧
      isLiquidatable (held .long 1000000 100000000 5000000 0) (price 90) .standard = true := by
  have at97 : isLiquidatable (held .long 1000000 100000000 5000000 0) (price 97) .standard = true := by
    decide +kernel
  obtain ⟨-, -, contracts, -⟩ := (liquidation_region (held .long 1000000 100000000 5000000 0)
    .standard (price 97) (price 90) (by decide) (by decide)).2 rfl (by decide +kernel)
    (by decide +kernel) (by decide +kernel)
  exact ⟨at97, contracts at97 ⟨1, by decide⟩⟩

/-- Half a contract: liquidatable at 100 dollars, where equity is 1.249999 and
maintenance 1.25, but not one micro-dollar lower, where maintenance has lost the
micro-dollar that truncated PnL has not. -/
theorem long_region_gap :
    ¬ ∀ (pos : Position) (params : RiskParams) (m m' : Price),
      0 ≤ params.maintenanceMarginBps.toInt → params.maintenanceMarginBps.toInt ≤ 10000 →
      EquityFits pos m → EquityFits pos m' → pos.side = .long → m'.micros ≤ m.micros →
      isLiquidatable pos m params = true → isLiquidatable pos m' params = true := by
  intro oneSided
  have lower := oneSided (held .long 500000 100000000 2500000 1250001) .standard
    (microPrice 100000000) (microPrice 99999999) (by decide) (by decide) (by decide +kernel)
    (by decide +kernel) rfl (by decide +kernel) (by decide +kernel)
  revert lower
  decide +kernel

end MarginGuard.Guarantees
