import MarginGuard.Source.Script
import MarginGuard.Source.Waterfall

/-!
# Value across a sweep

The value of a market is the insurance balance plus the equity of its open
positions at the mark. A sweep changes it in two ways: what a solvent position
holds above its credited fee goes nowhere, and a socialised loss is charged to
nobody. `sweep_conserves_iff` says when the two cancel: the dropped surplus has
to equal the largest deficit of the fund during the sweep.
-/
namespace MarginGuard.Guarantees
open Foundation Source

/-- Equity of a market's open positions at a mark. -/
def marketEquity (store : PositionStore) (symbol : Symbol) (mark : Price) : Int :=
  FiniteMap.total
    (fun (k : Key) pos => if k.2 = symbol then (positionEquity pos mark).toInt else 0) store.byKey

/-- Insurance balance plus equity of a market. -/
def marketValue (engine : RiskEngine) (symbol : Symbol) (mark : Price) : Int :=
  engine.insuranceBalance.toInt + marketEquity engine.store symbol mark

/-- What a liquidated position holds above what the fund is credited; nothing
for a bankrupt one. -/
def droppedSurplus (mark : Price) (params : RiskParams) (pos : Position) : Int :=
  if (positionEquity pos mark).isNegative then 0
  else (positionEquity pos mark).toInt -
    (((pos.notional mark).mulBps params.liquidationFeeBps).min (positionEquity pos mark)).toInt

/-- The surplus a sweep over a listing drops. -/
def sweepSurplus (mark : Price) (params : RiskParams) (listing : List Position) : Int :=
  ((listing.filter fun pos => isLiquidatable pos mark params).map (droppedSurplus mark params)).sum

/-- No credit of the sweep is capped and no shortfall is the one value whose
negation saturates. -/
structure NoSaturation (balance : Usd) (mark : Price) (params : RiskParams)
    (listing : List Position) : Prop where
  credits : Reserve.Unclipped (minInt 128) (maxInt 128) balance.toInt
    (sweepFlows mark params listing)
  shortfalls : ∀ pos ∈ listing, (positionEquity pos mark).toInt ≠ minInt 128

instance (balance : Usd) (mark : Price) (params : RiskParams) (listing : List Position) :
    Decidable (NoSaturation balance mark params listing) :=
  decidable_of_iff (_ ∧ _) ⟨fun ⟨credits, shortfalls⟩ => ⟨credits, shortfalls⟩,
    fun exactly => ⟨exactly.credits, exactly.shortfalls⟩⟩

/-! ## Equity of what is removed -/

theorem marketEquity_removeAll {store : PositionStore} {symbol : Symbol}
    {positions : List Position} (nodup : (positions.map fun pos => pos.account.asStr).Nodup)
    (stored : ∀ pos ∈ positions, store.get pos.account.asStr symbol = some pos) (mark : Price) :
    (positions.map fun pos => (positionEquity pos mark).toInt).sum +
        marketEquity (store.removeAll symbol positions) symbol mark =
      marketEquity store symbol mark :=
  PositionStore.marketTotal_removeAll nodup stored fun pos => (positionEquity pos mark).toInt

/-- Equity is a credit plus the dropped surplus, or a draw. -/
theorem equity_eq_flow (params : RiskParams) {mark : Price} {pos : Position}
    (representable : (positionEquity pos mark).toInt ≠ minInt 128) :
    (positionEquity pos mark).toInt = Reserve.credits [fundFlow mark params pos] -
      Reserve.draws [fundFlow mark params pos] + droppedSurplus mark params pos := by
  unfold fundFlow droppedSurplus
  split
  · simp only [Reserve.credits, Reserve.draws, Usd.toInt_neg representable]
    omega
  · simp only [Reserve.credits, Reserve.draws]
    omega

theorem equity_sum (mark : Price) (params : RiskParams) (positions : List Position)
    (representable : ∀ pos ∈ positions, (positionEquity pos mark).toInt ≠ minInt 128) :
    (positions.map fun pos => (positionEquity pos mark).toInt).sum =
      Reserve.credits (positions.map (fundFlow mark params)) -
        Reserve.draws (positions.map (fundFlow mark params)) +
        (positions.map (droppedSurplus mark params)).sum := by
  induction positions with
  | nil => rfl
  | cons pos positions ih =>
    have head := equity_eq_flow params (representable pos (by simp))
    have rest := ih fun other member => representable other (by simp [member])
    have flows : fundFlow mark params pos :: positions.map (fundFlow mark params) =
        [fundFlow mark params pos] ++ positions.map (fundFlow mark params) := rfl
    simp only [List.map_cons, List.sum_cons]
    rw [flows, Reserve.credits_append, Reserve.draws_append]
    omega

/-! ## The sweep -/

/-- The change of a market's value is the deficit the fund ran minus the
surplus the sweep dropped. -/
theorem swept_value {engine : RiskEngine} {symbol : Symbol} {state : MarketState}
    {listing : List Position} {settled : List Settlement}
    (lists : engine.store.Lists symbol listing)
    (processed : Processed state.markPrice (engine.riskParams symbol) listing settled)
    (exactly : NoSaturation engine.insuranceBalance state.markPrice (engine.riskParams symbol)
      listing) :
    marketValue (engine.swept symbol settled) symbol state.markPrice +
        sweepSurplus state.markPrice (engine.riskParams symbol) listing =
      marketValue engine symbol state.markPrice +
        Reserve.peakDeficit engine.insuranceBalance.toInt
          (sweepFlows state.markPrice (engine.riskParams symbol) listing) := by
  have equity := marketEquity_removeAll (processed.ids_nodup lists)
    (fun pos member => by
      obtain ⟨s, settledMember, rfl⟩ := List.mem_map.mp member
      exact processed.stored lists settledMember) state.markPrice
  have removed := equity_sum state.markPrice (engine.riskParams symbol)
    (settled.map Settlement.position) (fun pos member => by
      obtain ⟨s, settledMember, rfl⟩ := List.mem_map.mp member
      exact exactly.shortfalls _ (processed.mem_listing settledMember).1)
  have fund := Reserve.after_eq exactly.credits
  rw [Reserve.deficiency_eq exactly.credits, ← processed.flows_eq] at fund
  have balance := balance_fundAfterAll settled engine.state.insurance
  rw [processed.positions_eq] at removed equity
  have flows : (listing.filter fun pos => isLiquidatable pos state.markPrice
      (engine.riskParams symbol)).map (fundFlow state.markPrice (engine.riskParams symbol)) =
      settled.map Settlement.flow := by rw [processed.flows_eq]; rfl
  rw [flows] at removed
  simp only [RiskEngine.insuranceBalance] at fund
  simp only [marketValue, RiskEngine.insuranceBalance, RiskEngine.swept_insurance,
    RiskEngine.swept_store, sweepSurplus]
  rw [processed.positions_eq, balance, fund, ← processed.flows_eq]
  omega

/-- A sweep keeps the market's value exactly when the surplus it drops equals
the largest deficit the fund runs into on the way. -/
theorem sweep_conserves_iff {engine : RiskEngine} {symbol : Symbol} {state : MarketState}
    {listing : List Position} (priced : engine.market symbol = some state)
    (lists : engine.store.Lists symbol listing)
    (exactly : NoSaturation engine.insuranceBalance state.markPrice (engine.riskParams symbol)
      listing) :
    (∀ result engine', SweepsOn engine symbol listing result engine' →
      marketValue engine' symbol state.markPrice = marketValue engine symbol state.markPrice) ↔
    sweepSurplus state.markPrice (engine.riskParams symbol) listing =
      Reserve.peakDeficit engine.insuranceBalance.toInt
        (sweepFlows state.markPrice (engine.riskParams symbol) listing) := by
  constructor
  · intro conserves
    obtain ⟨settled, processed, _, ran⟩ := exists_sweep priced lists
    have kept := conserves _ _ ran
    have value := swept_value lists processed exactly
    change marketValue (engine.swept symbol settled) symbol state.markPrice = _ at kept
    omega
  · intro cancels result engine' ran
    obtain ⟨state', settled, priced', _, processed, _, _, rfl⟩ := ran.swept
    obtain rfl : state' = state := Option.some.inj (priced'.symm.trans priced)
    have value := swept_value lists processed exactly
    change marketValue (engine.swept symbol settled) symbol state'.markPrice = _
    omega

section Books
open Sample

/-- A sweep of one solvent long whose equity is its fee. -/
theorem sweep_conserves_fee_only :
    ∃ engine listing, (engine.store.Lists sol listing ∧ sweepFlows (price 90) .standard listing ≠ []) ∧
      ∀ result engine', SweepsOn engine sol listing result engine' →
        marketValue engine' sol (price 90) = marketValue engine sol (price 90) := by
  let pos := openedPosition bob sol .long .cross (contracts 10) (price 100) tenfold (dollars 109)
  obtain ⟨entries, engine, run, checked⟩ := exists_history_of_script (dollars 5) standard
    (fun _ _ => True)
    [({}, enter bob .long (contracts 10) (price 100) (dollars 109)), ({}, mark (price 90) (rate 0))]
    (fun _ engine =>
      engine.market sol = some ⟨sol, price 90, price 90, rate 0⟩ ∧ engine.store.Lists sol [pos] ∧
      NoSaturation engine.insuranceBalance (price 90) (engine.riskParams sol) [pos] ∧
      sweepSurplus (price 90) (engine.riskParams sol) [pos] =
        Reserve.peakDeficit engine.insuranceBalance.toInt
          (sweepFlows (price 90) (engine.riskParams sol) [pos]) ∧
      sweepFlows (price 90) .standard [pos] ≠ []) (by decide)
  obtain ⟨priced, lists, exactly, cancels, nonempty⟩ := of_decide_eq_true checked
  exact ⟨engine, [pos], ⟨lists, nonempty⟩, (sweep_conserves_iff priced lists exactly).mpr cancels⟩

/-- A solvent long liquidated with a dollar more than its fee: the dollar is
neither credited nor left to anyone. -/
theorem surplus_disappears :
    ¬ ∀ seed config engine, Reachable seed config engine → ∀ symbol state listing,
      engine.market symbol = some state → engine.store.Lists symbol listing →
      0 ≤ engine.insuranceBalance.toInt →
      NoSaturation engine.insuranceBalance state.markPrice (engine.riskParams symbol) listing →
      ∀ result engine', SweepsOn engine symbol listing result engine' →
        marketValue engine' symbol state.markPrice = marketValue engine symbol state.markPrice := by
  intro conserves
  let pos := openedPosition bob sol .long .cross (contracts 10) (price 100) tenfold (dollars 110)
  let state : MarketState := ⟨sol, price 90, price 90, rate 0⟩
  obtain ⟨entries, engine, run, checked⟩ := exists_history_of_script (dollars 5) standard
    (fun _ _ => True)
    [({}, enter bob .long (contracts 10) (price 100) (dollars 110)), ({}, mark (price 90) (rate 0))]
    (fun _ engine =>
      engine.market sol = some state ∧ engine.store.Lists sol [pos] ∧
      0 ≤ engine.insuranceBalance.toInt ∧
      NoSaturation engine.insuranceBalance state.markPrice (engine.riskParams sol) [pos] ∧
      sweepSurplus state.markPrice (engine.riskParams sol) [pos] ≠
        Reserve.peakDeficit engine.insuranceBalance.toInt
          (sweepFlows state.markPrice (engine.riskParams sol) [pos])) (by decide)
  obtain ⟨priced, lists, funded, exactly, differs⟩ := of_decide_eq_true checked
  obtain ⟨settled, processed, _, ran⟩ := exists_sweep priced lists
  have kept := conserves _ _ engine ⟨entries, run⟩ sol state [pos] priced lists funded exactly _ _ ran
  have value := swept_value lists processed exactly
  change marketValue (engine.swept sol settled) sol state.markPrice = _ at kept
  exact differs (by omega)

end Books
end MarginGuard.Guarantees
