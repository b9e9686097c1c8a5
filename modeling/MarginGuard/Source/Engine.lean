import MarginGuard.Source.Ports

/-!
# The risk engine's commands (`marginguard-core/src/engine.rs`)

Each method of `RiskEngine` is a program over `Action`s, in the order of the
source: a store call, a section under the lock or a publish is one action, and
what is computed between them is pure. `?` on a port result becomes the early
return of `ask`.

What the actions mean is not fixed here. `Source.Execution` runs the same
programs one after another or interleaved.
-/
namespace MarginGuard.Source
open Foundation

/-- Engine code: actions, with an early return on error. -/
abbrev EngineM := ExceptT CoreError (Program Action Answer)

/-- Run a section under the state lock, or try the limiter. -/
def locked (action : Action) : EngineM (Answer action) := ExceptT.lift (Program.perform action)

/-- `.await?` on a port call. -/
def ask {α : Type} (port : Program Action Answer (Except PortError α)) : EngineM α :=
  ExceptT.mk (port.bind fun
    | .ok value => .done (.ok value)
    | .error e => .done (.error (.port e)))

namespace Port

def get (account : String) (symbol : Symbol) : EngineM (Option Position) :=
  ask (.perform (Action.get account symbol))

def upsert (position : Position) : EngineM Unit := ask (.perform (Action.upsert position))

def remove (account : String) (symbol : Symbol) : EngineM (Option Position) :=
  ask (.perform (Action.remove account symbol))

def byMarket (symbol : Symbol) : EngineM (List Position) :=
  ask (.perform (Action.byMarket symbol))

def publish (events : List RiskEvent) : EngineM Unit := ask (.perform (Action.publish events))

end Port

namespace RiskEngine

/-- `RiskEngine::account_health` -/
def accountHealth (account : String) (symbol : Symbol) : EngineM AccountHealth := do
  match ← Port.get account symbol with
  | none => throw .positionNotFound
  | some pos =>
    match ← locked (.markFor symbol) with
    | none => throw .marketNotFound
    | some mark => do
      let params ← locked (.riskParams symbol)
      return Source.accountHealth pos mark params

/-- `RiskEngine::open` -/
def openPosition (account : AccountId) (symbol : Symbol) (side : Side) (marginMode : MarginMode)
    (size : Size) (entryPrice : Price) (leverage : Leverage) (posted : Usd) :
    EngineM CommandOutcome := do
  match ← Port.get account.asStr symbol with
  | some _ => throw .positionExists
  | none => do
    let position : Position :=
      { account, symbol, side, marginMode, size, entryPrice, leverage
        postedMargin := posted
        fundingPaid := .ZERO }
    let params ← locked (.riskParams symbol)
    let required := initialMargin position entryPrice params
    if posted < required then throw .insufficientMargin
    else do
      let notional := position.notional entryPrice
      Port.upsert position
      locked .countOpened
      return ⟨[.positionOpened account symbol side notional]⟩

/-- `RiskEngine::close` -/
def close (account : String) (symbol : Symbol) : EngineM CommandOutcome := do
  match ← Port.remove account symbol with
  | none => throw .positionNotFound
  | some pos =>
    match ← locked (.markFor symbol) with
    | none => throw .marketNotFound
    | some mark => do
      let realized := (positionEquity pos mark).saturatingSub pos.postedMargin
      locked .countClosed
      return ⟨[.positionClosed pos.account symbol realized]⟩

/-- `RiskEngine::update_market` -/
def updateMarket (symbol : Symbol) (markPrice indexPrice : Price) (fundingRateBps : I64) :
    EngineM CommandOutcome := do
  locked (.insertMarket { symbol, markPrice, indexPrice, fundingRateBps })
  return ⟨[.marketUpdated symbol markPrice.micros fundingRateBps]⟩

/-- The loop of `accrue_funding` over the listed positions. -/
def accrueLoop (symbol : Symbol) (mark : Price) (rateBps : I64) :
    List Position → List RiskEvent → EngineM (List RiskEvent)
  | [], events => pure events
  | pos :: positions, events => do
    let payment := fundingPayment pos mark rateBps
    let settled := { pos with fundingPaid := pos.fundingPaid.saturatingAdd payment }
    Port.upsert settled
    accrueLoop symbol mark rateBps positions
      (events ++ [.fundingSettled pos.account symbol payment])

/-- `RiskEngine::accrue_funding` -/
def accrueFunding (symbol : Symbol) : EngineM CommandOutcome := do
  match ← locked (.fundingTerms symbol) with
  | none => throw .marketNotFound
  | some (mark, rateBps) => do
    let positions ← Port.byMarket symbol
    let events ← accrueLoop symbol mark rateBps positions []
    if events.isEmpty then return ⟨events⟩
    else do
      locked (.countFunding events.length)
      return ⟨events⟩

/-- The loop of `liquidate_market` over the listed positions, with the events
and the socialised total gathered so far. -/
def liquidateLoop (symbol : Symbol) (mark : Price) (params : RiskParams) :
    List Position → List RiskEvent → Usd → EngineM (List RiskEvent × Usd)
  | [], events, totalSocialized => pure (events, totalSocialized)
  | pos :: positions, events, totalSocialized =>
    if !isLiquidatable pos mark params then
      liquidateLoop symbol mark params positions events totalSocialized
    else do
      let closedNotional := pos.notional mark
      let equity := positionEquity pos mark
      let fee := closedNotional.mulBps params.liquidationFeeBps
      let _ ← Port.remove pos.account.asStr symbol
      let (reason, insuranceDraw, socialized, totalSocialized) ←
        if equity.isNegative then do
          let (drawn, soc) ← locked (.cover pos equity.neg)
          pure (LiquidationReason.bankruptcy, drawn, soc, totalSocialized.saturatingAdd soc)
        else do
          locked (.credit pos (fee.min equity))
          pure (LiquidationReason.maintenanceBreach, Usd.ZERO, Usd.ZERO, totalSocialized)
      locked .countLiquidated
      liquidateLoop symbol mark params positions
        (events ++ [.liquidated { account := pos.account, symbol, reason, closedNotional,
                                  insuranceDraw, socializedLoss := socialized }])
        totalSocialized

/-- `RiskEngine::liquidate_market` -/
def liquidateMarket (symbol : Symbol) : EngineM CommandOutcome := do
  match ← locked (.sweepTerms symbol) with
  | none => throw .marketNotFound
  | some (mark, params) => do
    let positions ← Port.byMarket symbol
    let (events, totalSocialized) ← liquidateLoop symbol mark params positions [] .ZERO
    if totalSocialized.toInt = 0 then return ⟨events⟩
    else do
      locked .countAdl
      return ⟨events ++ [.autoDeleveraged symbol totalSocialized]⟩

/-- The method a command is dispatched to. -/
def dispatch : RiskCommand → EngineM CommandOutcome
  | .openPosition account symbol side marginMode size entryPrice leverage margin =>
    openPosition account symbol side marginMode size entryPrice leverage margin
  | .closePosition account symbol => close account.asStr symbol
  | .updateMarket symbol markPrice indexPrice fundingRateBps =>
    updateMarket symbol markPrice indexPrice fundingRateBps
  | .accrueFunding symbol => accrueFunding symbol
  | .liquidateMarket symbol => liquidateMarket symbol

/-- `RiskEngine::apply` -/
def apply (command : RiskCommand) : EngineM CommandOutcome := do
  let admitted ← locked .tryAcquire
  if !admitted then throw .rateLimited
  else do
    let outcome ← dispatch command
    if outcome.events.isEmpty then return outcome
    else do
      Port.publish outcome.events
      return outcome

end RiskEngine
end MarginGuard.Source
