import MarginGuard.Foundation.Truncation
import MarginGuard.Source.Invariants
import MarginGuard.Source.Script

/-!
# Can an accepted position be liquidatable from the start?

`open` asks for the initial margin at the entry price its command names, and a
sweep compares equity with maintenance at the mark. An entry price off the mark
can therefore be accepted and swept at once (`born_liquidatable`). The position
survives exactly if its margin and the PnL between entry and mark cover the
maintenance margin, which they do at an entry equal to the mark, for a short
entered above it and, but for one truncated micro-dollar, for a long entered
below it (`opened_position_covered`).
-/
namespace MarginGuard.Guarantees
open Foundation Source

variable {pos : Position} {mark : Price} {params : RiskParams}

/-- Without funding the breach compares margin and PnL with maintenance, even where
equity clips. -/
theorem unfunded_liquidatable_iff (mark : Price) (unfunded : pos.fundingPaid = .ZERO)
    (rate : 0 ≤ params.maintenanceMarginBps.toInt) :
    isLiquidatable pos mark params = false ↔
      (maintenanceMargin pos mark params).toInt ≤
        pos.postedMargin.toInt + (pos.unrealizedPnl mark).toInt := by
  have nonneg : 0 ≤ (maintenanceMargin pos mark params).toInt :=
    Usd.mulBps_nonneg (pos.notional_nonneg mark) rate
  have low := minInt_neg 128
  have high := (maintenanceMargin pos mark params).fits.2
  have sum := (pos.postedMargin.saturatingAdd (pos.unrealizedPnl mark)).fits
  have equity : (positionEquity pos mark).toInt =
      (pos.postedMargin.saturatingAdd (pos.unrealizedPnl mark)).toInt := by
    have fit : Fits 128 ((pos.postedMargin.saturatingAdd (pos.unrealizedPnl mark)).toInt -
        Usd.ZERO.toInt) := by simpa using sum
    rw [positionEquity, unfunded, Usd.toInt_saturatingSub_of_fits fit]
    simp
  rw [← Bool.not_eq_true, isLiquidatable_iff, not_lt, equity, Usd.toInt_saturatingAdd]
  omega

/-- At its entry price a position has no PnL. -/
theorem unrealizedPnl_at_entry (pos : Position) : (pos.unrealizedPnl pos.entryPrice).toInt = 0 := by
  rw [pos.toInt_unrealizedPnl]
  simp

theorem short_pnl_nonneg (mark : Price) (short : pos.side = .short)
    (above : mark.micros ≤ pos.entryPrice.micros) : 0 ≤ (pos.unrealizedPnl mark).toInt := by
  have loss := tdiv_nonpos (d := SCALE) (by decide) (mul_nonpos_of_nonpos_of_nonneg
    (Int.sub_nonpos_of_le above) (le_of_lt pos.size.positive))
  rw [pos.toInt_unrealizedPnl, short]
  simp only [Side.sign]
  omega

/-- What maintenance gains above the entry price of a long, its PnL gains too, up to
one micro-dollar; for whole contracts entirely. -/
theorem long_gain (mark : Price) (rate : 0 ≤ params.maintenanceMarginBps.toInt)
    (whole : params.maintenanceMarginBps.toInt ≤ 10000) (long : pos.side = .long)
    (below : pos.entryPrice.micros ≤ mark.micros) :
    (maintenanceMargin pos mark params).toInt ≤
        (maintenanceMargin pos pos.entryPrice params).toInt + (pos.unrealizedPnl mark).toInt + 1 ∧
      (SCALE ∣ pos.size.micros → (maintenanceMargin pos mark params).toInt ≤
        (maintenanceMargin pos pos.entryPrice params).toInt + (pos.unrealizedPnl mark).toInt) := by
  have positive : 0 < SCALE := by decide
  have size := le_of_lt pos.size.positive
  have share := tdiv_share_drop_le (d := 10000) (by decide) rate whole
    (pos.notional_nonneg pos.entryPrice) (notional_mono pos below)
  have pnl : (pos.unrealizedPnl mark).toInt =
      ((mark.micros - pos.entryPrice.micros) * pos.size.micros).tdiv SCALE := by
    rw [pos.toInt_unrealizedPnl, long, Side.sign, Int.one_mul]
  have apart : mark.micros * pos.size.micros - pos.entryPrice.micros * pos.size.micros =
      (mark.micros - pos.entryPrice.micros) * pos.size.micros - 0 := by
    rw [Int.sub_mul, Int.sub_zero]
  have near := tdiv_drop_le_of_side positive
    (mul_nonneg (le_of_lt pos.entryPrice.positive) size)
    (mul_nonneg (le_of_lt mark.positive) size) apart
    (Or.inl ⟨mul_nonneg (by omega) size, le_refl 0⟩)
  unfold maintenanceMargin
  rw [toInt_notional_mulBps pos mark rate whole, toInt_notional_mulBps pos _ rate whole, pnl]
  rw [pos.toInt_notional, pos.toInt_notional] at share ⊢
  simp only [Int.zero_tdiv] at near
  refine ⟨by omega, ?_⟩
  intro contracts
  simp only [Int.mul_tdiv_assoc _ contracts] at share ⊢
  simp only [Int.sub_mul]
  omega

section Opened
variable {engine engine' : RiskEngine} {account : AccountId} {symbol : Symbol} {side : Side}
  {marginMode : MarginMode} {size : Size} {entryPrice : Price} {leverage : Leverage} {posted : Usd}
  {outcome : CommandOutcome} {state : MarketState}

/-- An accepted open stores its position over the initial margin and moves no market. -/
theorem stored_of_opened (ran : Executes engine
    (.openPosition account symbol side marginMode size entryPrice leverage posted) (.ok outcome)
    engine') :
    engine'.store.get account.asStr symbol =
        some (openedPosition account symbol side marginMode size entryPrice leverage posted) ∧
      ¬ posted < initialMargin
        (openedPosition account symbol side marginMode size entryPrice leverage posted) entryPrice
        (engine.riskParams symbol) ∧
      engine'.market symbol = engine.market symbol ∧
      engine'.riskParams symbol = engine.riskParams symbol := by
  cases ran.transition with
  | opened own absent enough =>
    subst own
    refine ⟨?_, enough, rfl, rfl⟩
    exact (PositionStore.get_upsert _ _ _ _).trans (if_pos rfl)

/-- A sweep leaves what is not in breach. -/
theorem kept_of_swept {result : Except CoreError CommandOutcome} {engine'' : RiskEngine}
    (stored : engine'.store.get account.asStr symbol = some pos)
    (priced : engine'.market symbol = some state)
    (sound : isLiquidatable pos state.markPrice (engine'.riskParams symbol) = false)
    (swept : Executes engine' (.liquidateMarket symbol) result engine'') :
    engine''.store.get account.asStr symbol = some pos := by
  cases swept.transition with
  | rateLimited => exact stored
  | sweepUnpriced unpriced => exact stored
  | swept state' listing settled priced' lists processed waterfall =>
    obtain rfl : state' = state := Option.some.inj (priced'.symm.trans priced)
    rw [RiskEngine.emit_store, RiskEngine.swept_store, processed.get_removeAll lists, if_pos rfl,
      stored]
    simp [Option.filter, sound]

/-- An accepted position against the mark: when it is not liquidatable, which entry
prices make sure of it, and that the next sweep then leaves it. -/
theorem opened_position_covered (rate : 0 ≤ (engine.riskParams symbol).maintenanceMarginBps.toInt)
    (tiers : (engine.riskParams symbol).maintenanceMarginBps.toInt ≤
      (engine.riskParams symbol).initialMarginBps.toInt)
    (priced : engine.market symbol = some state)
    (opened : Executes engine
      (.openPosition account symbol side marginMode size entryPrice leverage posted) (.ok outcome)
      engine') :
    ∃ pos, pos = openedPosition account symbol side marginMode size entryPrice leverage posted ∧
      engine'.store.get account.asStr symbol = some pos ∧
      (isLiquidatable pos state.markPrice (engine.riskParams symbol) = false ↔
        (maintenanceMargin pos state.markPrice (engine.riskParams symbol)).toInt ≤
          posted.toInt + (pos.unrealizedPnl state.markPrice).toInt) ∧
      (entryPrice = state.markPrice →
        isLiquidatable pos state.markPrice (engine.riskParams symbol) = false) ∧
      (side = .short → state.markPrice.micros ≤ entryPrice.micros →
        isLiquidatable pos state.markPrice (engine.riskParams symbol) = false) ∧
      (side = .long → entryPrice.micros ≤ state.markPrice.micros →
        (engine.riskParams symbol).maintenanceMarginBps.toInt ≤ 10000 →
          (maintenanceMargin pos state.markPrice (engine.riskParams symbol)).toInt ≤
              posted.toInt + (pos.unrealizedPnl state.markPrice).toInt + 1 ∧
            (SCALE ∣ size.micros →
              isLiquidatable pos state.markPrice (engine.riskParams symbol) = false)) ∧
      (isLiquidatable pos state.markPrice (engine.riskParams symbol) = false →
        ∀ result engine'', Executes engine' (.liquidateMarket symbol) result engine'' →
          engine''.store.get account.asStr symbol = some pos) := by
  obtain ⟨stored, enough, sameMarket, sameParams⟩ := stored_of_opened opened
  generalize own : openedPosition account symbol side marginMode size entryPrice leverage posted
    = pos at stored enough
  have unfunded : pos.fundingPaid = .ZERO := by rw [← own]; rfl
  have margin : pos.postedMargin = posted := by rw [← own]; rfl
  have entry : pos.entryPrice = entryPrice := by rw [← own]; rfl
  have sides : pos.side = side := by rw [← own]; rfl
  have sizes : pos.size = size := by rw [← own]; rfl
  have covered := unfunded_liquidatable_iff state.markPrice unfunded rate
  have initial : (initialMargin pos entryPrice (engine.riskParams symbol)).toInt ≤ posted.toInt :=
    Int.not_lt.mp enough
  have required : (maintenanceMargin pos entryPrice (engine.riskParams symbol)).toInt ≤
      posted.toInt :=
    (Usd.mulBps_mono_rate (pos.notional_nonneg entryPrice) tiers).trans initial
  rw [margin] at covered
  refine ⟨pos, rfl, stored, covered, ?_, ?_, ?_, ?_⟩
  · rintro rfl
    rw [covered, ← entry, unrealizedPnl_at_entry, entry]
    omega
  · intro short above
    have gain := short_pnl_nonneg state.markPrice (sides.trans short) (by rw [entry]; exact above)
    have less := maintenanceMargin_mono pos rate above
    rw [covered]
    omega
  · intro long below whole
    obtain ⟨near, contracts⟩ := long_gain state.markPrice rate whole (sides.trans long)
      (by rw [entry]; exact below)
    rw [entry] at near contracts
    rw [sizes] at contracts
    refine ⟨by omega, ?_⟩
    intro divides
    have exactly := contracts divides
    rw [covered]
    omega
  · intro sound result engine'' swept
    rw [← sameParams] at sound
    exact kept_of_swept stored (sameMarket.trans priced) sound swept

end Opened

open Sample

/-- Opened at the mark, swept at once, still there. -/
theorem opened_position_covered_at_mark : ∃ engine outcome engine' result engine'',
    Reachable (dollars 5) standard engine ∧
      Executes engine (enter alice .long (contracts 1) (price 100) (dollars 5)) (.ok outcome)
        engine' ∧
      Executes engine' (.liquidateMarket sol) result engine'' ∧
      engine''.store.get alice.asStr sol =
        some (openedPosition alice sol .long .cross (contracts 1) (price 100) tenfold (dollars 5)) := by
  obtain ⟨engine, result, engine', reachable, ran, priced, accepted⟩ :=
    exists_executes_after_script (dollars 5) standard [({}, mark (price 100) (rate 0))] {}
      (enter alice .long (contracts 1) (price 100) (dollars 5))
      (fun engine result _ => engine.market sol = some (quoted (price 100)) ∧
        (eventsOf result).length = 1) (by decide +kernel)
  cases result with
  | error e => simp [eventsOf] at accepted
  | ok outcome =>
    obtain ⟨result, engine'', swept⟩ := exists_executes engine' (.liquidateMarket sol)
    have params : engine.riskParams sol = .standard := reachable.sound.riskParams sol
    obtain ⟨pos, rfl, -, -, atMark, -, -, kept⟩ := opened_position_covered
      (by rw [params]; decide) (by rw [params]; decide) priced ran
    exact ⟨engine, outcome, engine', result, engine'', reachable, ran, swept,
      kept (atMark rfl) result engine'' swept⟩

/-- A long entered at 100 dollars while the mark is 50: the initial margin is met at
the entry price, and the loss of 50 dollars is there from the start. -/
theorem born_liquidatable :
    ¬ ∀ seed config engine, Reachable seed config engine → ∀ symbol state,
      engine.market symbol = some state →
      0 ≤ (engine.riskParams symbol).maintenanceMarginBps.toInt →
      (engine.riskParams symbol).maintenanceMarginBps.toInt ≤
        (engine.riskParams symbol).initialMarginBps.toInt →
      ∀ account side marginMode size entryPrice leverage posted outcome engine',
        Executes engine
          (.openPosition account symbol side marginMode size entryPrice leverage posted)
          (.ok outcome) engine' →
        ∀ pos, engine'.store.get account.asStr symbol = some pos →
          isLiquidatable pos state.markPrice (engine.riskParams symbol) = false := by
  intro covered
  obtain ⟨engine, result, engine', reachable, ran, priced, accepted⟩ :=
    exists_executes_after_script (dollars 5) standard [({}, mark (price 50) (rate 0))] {}
      (enter alice .long (contracts 1) (price 100) (dollars 5))
      (fun engine result _ => engine.market sol = some (quoted (price 50)) ∧
        (eventsOf result).length = 1) (by decide +kernel)
  cases result with
  | error e => simp [eventsOf] at accepted
  | ok outcome =>
    have params : engine.riskParams sol = .standard := reachable.sound.riskParams sol
    have sound := covered _ _ engine reachable sol _ priced (by rw [params]; decide)
      (by rw [params]; decide) _ _ _ _ _ _ _ _ _ ran _ (stored_of_opened ran).1
    rw [params] at sound
    revert sound
    decide +kernel

end MarginGuard.Guarantees
