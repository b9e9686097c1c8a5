import MarginGuard.Foundation.Fallible
import MarginGuard.Source.Decisions
import MarginGuard.Source.Oracle

/-!
# The scenario simulator (`marginguard-node/src/simulate.rs`)

`run_simulation` opens a book of positions on a fresh engine, walks the mark
price and sweeps the market at every step. It is the only user of its engine, so
each command is applied with nothing else in flight; what the limiter says and
in which order a market is listed comes from a list of environments, one for
each call. The sample advice it prints at the end is left out.
-/
namespace MarginGuard.Source
open Foundation

/-- `EngineConfig::default`, as far as the commands read it. -/
def EngineConfig.default : EngineConfig := ⟨.standard⟩

/-- Arguments of the `simulate` subcommand, less the choice of an advisor. -/
structure SimulateArgs where
  accounts : Nat
  steps : Nat
  startPrice : I64
  driftBps : I64
  volBps : I64
  fundingBps : I64
  fundingInterval : Nat
  insuranceSeed : Nat
  seed : BitVec 64
  accounts_lt : accounts < 2 ^ 64

/-- Aggregate results of a simulation run. -/
structure SimReport where
  steps : Nat
  accounts : Nat
  liquidations : Nat
  adlEvents : Nat
  fundingSettlements : Nat
  insuranceStartMicros : Int
  insuranceEndMicros : Int
  startPriceMicros : Int
  finalPriceMicros : Int
  survivors : Nat
  deriving DecidableEq

/-- What ends a simulation early. -/
inductive SimError where
  | invalid (e : InvalidInput)
  | core (e : CoreError)
  deriving DecidableEq

/-- The simulator runs on its engine, an environment deciding at every call. -/
abbrev Sim := Fallible (Fallible.Guided RiskEngine Environment) SimError

namespace Sim

/-- `.map_err(to_anyhow)?` -/
def check {α : Type} : Except InvalidInput α → Sim α
  | .ok a => pure a
  | .error e => throw (.invalid e)

/-- `engine.apply(command).await?` -/
def apply (command : RiskCommand) : Sim CommandOutcome :=
  Fallible.guided fun env engine => (execute env engine command).map fun
    | (.ok outcome, engine) => .ok (outcome, engine)
    | (.error e, _) => .error (.core e)

/-- `engine.positions_in(&symbol).await?` -/
def positionsIn (symbol : Symbol) : Sim (List Position) :=
  Fallible.guided fun env engine =>
    if engine.store.Lists symbol env.listing then some (.ok (env.listing, engine)) else none

/-- `set_market` -/
def setMarket (symbol : Symbol) (price : Price) (fundingBps : I64) : Sim Unit := do
  let _ ← apply (.updateMarket symbol price price fundingBps)

/-- Accrue funding, if it is due. -/
def accrueIf (due : Bool) (symbol : Symbol) : Sim Unit :=
  if due then do let _ ← apply (.accrueFunding symbol) else pure ()

end Sim

/-- `format!("acct-{i}")` -/
def accountName (i : Nat) : String := String.ofList ("acct-".toList ++ Decimal.render i)

namespace SimulateArgs

/-- The whole dollars each position posts: 6% of the notional of ten contracts. -/
def marginWhole (args : SimulateArgs) : I64 :=
  let size : I64 := .clamp 10
  let notional : I64 := .wrap (args.startPrice.toInt * size.toInt)
  (SignedInt.wrap (notional.toInt * 6) : I64).div 100

/-- The oracle of a simulation. -/
def oracle (args : SimulateArgs) (startPrice : Price) : SimMarketOracle :=
  .new args.seed ⟨startPrice.micros, startPrice.fits.1, startPrice.fits.2⟩ args.driftBps args.volBps

/-- The seed of the insurance fund. -/
def fund (args : SimulateArgs) : Usd :=
  .fromWhole ((SignedInt.tryFrom args.insuranceSeed).getD SignedInt.maxValue)

/-- The engine of a simulation. -/
def engine (args : SimulateArgs) : RiskEngine := .fromParts args.fund .default

end SimulateArgs

/-- One turn of the loop that opens the book. -/
def openAccount (args : SimulateArgs) (symbol : Symbol) (startPrice : Price) (i : Nat) (_ : Unit) :
    Sim Unit := do
  let side := if i % 2 = 0 then Side.long else Side.short
  let account ← Sim.check (AccountId.new (accountName i))
  let size ← Sim.check (Size.fromWhole (.clamp 10))
  let leverage ← Sim.check (Leverage.new 10)
  let _ ← Sim.apply
    (.openPosition account symbol side .cross size startPrice leverage (.fromWhole args.marginWhole))

/-- `args.funding_interval > 0 && step % args.funding_interval == 0` -/
def SimulateArgs.accrues (args : SimulateArgs) (step : Nat) : Bool :=
  0 < args.fundingInterval && step % args.fundingInterval == 0

/-- One turn of the loop over the steps. -/
def walkStep (args : SimulateArgs) (symbol : Symbol) (step : Nat) (oracle : SimMarketOracle) :
    Sim SimMarketOracle := do
  let next := oracle.nextPrice
  let price ← Sim.check (Price.fromMicros next.1)
  Sim.setMarket symbol price args.fundingBps
  Sim.accrueIf (args.accrues step) symbol
  let _ ← Sim.apply (.liquidateMarket symbol)
  return next.2

/-- `run_simulation`, on an engine just made. -/
def runSimulation (args : SimulateArgs) : Sim SimReport := do
  let symbol ← Sim.check (Symbol.new "SOL-PERP")
  let startPrice ← Sim.check (Price.fromWhole args.startPrice)
  Sim.setMarket symbol startPrice args.fundingBps
  let insuranceStart := (← Fallible.read).insuranceBalance
  Fallible.upto (openAccount args symbol startPrice) args.accounts ()
  let oracle ← Fallible.upto (walkStep args symbol) args.steps (args.oracle startPrice)
  let stats := (← Fallible.read).stats
  let survivors ← Sim.positionsIn symbol
  let insuranceEnd := (← Fallible.read).insuranceBalance
  return {
    steps := args.steps
    accounts := args.accounts
    liquidations := stats.liquidations
    adlEvents := stats.adlEvents
    fundingSettlements := stats.fundingSettlements
    insuranceStartMicros := insuranceStart.toInt
    insuranceEndMicros := insuranceEnd.toInt
    startPriceMicros := startPrice.micros
    finalPriceMicros := oracle.priceMicros.toInt
    survivors := survivors.length }

/-- The simulation under the given environments; `none` when they do not fit. -/
def simulate (args : SimulateArgs) (given : List Environment) : Option (Except SimError SimReport) :=
  ((runSimulation args).outcome ⟨args.engine, given⟩).map fun r => r.map Prod.fst

end MarginGuard.Source
