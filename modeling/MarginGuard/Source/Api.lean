import MarginGuard.Foundation.Observation
import MarginGuard.Source.Advice
import MarginGuard.Source.Execution
import MarginGuard.Source.Wire

/-!
# The query and mutation resolvers (`marginguard-api/src`)

Each resolver is a program over the engine's actions and what it reads of the
engine besides (`Look`). A mutation translates its input into a command, or ends
before it has called anything. What the interface does with `f64` and the serializer
of the events are parameters (`Boundary`), `F` standing for `f64`.
-/
namespace MarginGuard.Source
open Foundation

/-! ## Errors (`error.rs`) -/

/-- `Display for PortError` -/
def PortError.toString : PortError → String
  | .unavailable reason => s!"dependency unavailable: {reason}"
  | .timeout => "dependency timed out"
  | .internal reason => s!"internal error: {reason}"

/-- `Display for CoreError` -/
def CoreError.toString : CoreError → String
  | .invalid input => input.toString
  | .port error => error.toString
  | .positionNotFound => "position not found"
  | .positionExists => "position already exists"
  | .marketNotFound => "market not found"
  | .insufficientMargin => "insufficient initial margin"
  | .rateLimited => "rate limited"

/-! ## What is handed out (`dto.rs`) -/

/-- How amounts and events cross the interface. -/
structure Boundary (F : Type) where
  /-- `(whole * 1_000_000.0).round() as i128` -/
  toMicros : F → I128
  /-- `micros as f64 / 1_000_000.0` -/
  display : Int → F
  /-- `serde_json::to_string` -/
  serialize : RiskEvent → Option String

/-- `Decimal`: a fixed-point quantity exposed as exact micros plus a display float. -/
structure DecimalDto (F : Type) where
  micros : String
  value : F
  deriving DecidableEq

section Dtos
variable {F : Type} (wire : Boundary F)

def DecimalDto.fromMicros (micros : Int) : DecimalDto F where
  micros := String.ofList (Decimal.render micros)
  value := wire.display micros

def DecimalDto.of (amount : Usd) : DecimalDto F := .fromMicros wire amount.toInt

/-- An open position. -/
structure PositionDto (F : Type) where
  account : String
  symbol : String
  side : String
  marginMode : String
  size : DecimalDto F
  entryPrice : DecimalDto F
  leverage : I32
  postedMargin : DecimalDto F
  fundingPaid : DecimalDto F
  deriving DecidableEq

def PositionDto.of (pos : Position) : PositionDto F where
  account := pos.account.asStr
  symbol := pos.symbol.asStr
  side := pos.side.code
  marginMode := pos.marginMode.code
  size := .fromMicros wire pos.size.micros
  entryPrice := .fromMicros wire pos.entryPrice.micros
  leverage := (SignedInt.tryFrom pos.leverage.get).getD SignedInt.maxValue
  postedMargin := .of wire pos.postedMargin
  fundingPaid := .of wire pos.fundingPaid

/-- An account's risk health for a market. -/
structure AccountHealthDto (F : Type) where
  account : String
  equity : DecimalDto F
  notional : DecimalDto F
  maintenanceMargin : DecimalDto F
  marginRatioBps : Option I64
  liquidatable : Bool
  deriving DecidableEq

def AccountHealthDto.of (health : AccountHealth) : AccountHealthDto F where
  account := health.account.asStr
  equity := .of wire health.equity
  notional := .of wire health.notional
  maintenanceMargin := .of wire health.maintenanceMargin
  marginRatioBps := health.marginRatioBps
  liquidatable := health.liquidatable

/-- A market's price and funding state. -/
structure MarketStateDto (F : Type) where
  symbol : String
  markPrice : DecimalDto F
  indexPrice : DecimalDto F
  fundingRateBps : I64
  deriving DecidableEq

def MarketStateDto.of (state : MarketState) : MarketStateDto F where
  symbol := state.symbol.asStr
  markPrice := .fromMicros wire state.markPrice.micros
  indexPrice := .fromMicros wire state.indexPrice.micros
  fundingRateBps := state.fundingRateBps

/-- The insurance fund balance. -/
structure InsuranceFundDto (F : Type) where
  balance : DecimalDto F
  deriving DecidableEq

end Dtos

/-- Aggregate read-model statistics. -/
structure RiskStatsDto where
  openPositions : Nat
  liquidations : Nat
  fundingSettlements : Nat
  adlEvents : Nat
  deriving DecidableEq

def RiskStatsDto.of (stats : RiskStats) : RiskStatsDto where
  openPositions := stats.openPositions
  liquidations := stats.liquidations
  fundingSettlements := stats.fundingSettlements
  adlEvents := stats.adlEvents

/-- The wire code of a backend. -/
def AdviceSource.code : AdviceSource → String
  | .heuristic => "heuristic"
  | .llm => "llm"

/-- A liquidation-risk assessment. -/
structure RiskAdviceDto where
  riskLevel : String
  marginRatioBps : Option I64
  liquidationDistanceBps : Option I64
  recommendedAction : String
  summary : String
  confidence : Rat
  source : String
  deriving DecidableEq

def RiskAdviceDto.of (advice : RiskAdvice) : RiskAdviceDto where
  riskLevel := advice.riskLevel.code
  marginRatioBps := advice.marginRatioBps
  liquidationDistanceBps := advice.liquidationDistanceBps
  recommendedAction := advice.recommendedAction
  summary := advice.summary
  confidence := advice.confidence
  source := advice.source.code

/-- What a resolver returns. -/
inductive Response (F : Type) where
  | outcome (dto : OutcomeDto)
  | position (dto : Option (PositionDto F))
  | positions (dtos : List (PositionDto F))
  | accountHealth (dto : AccountHealthDto F)
  | marketState (dto : Option (MarketStateDto F))
  | insuranceFund (dto : InsuranceFundDto F)
  | riskStats (dto : RiskStatsDto)
  | riskAdvice (dto : RiskAdviceDto)

/-! ## Resolver code -/

/-- What a resolver reads besides the engine's own actions: sections under the
lock, and the advisor. -/
inductive Look where
  /-- `RiskEngine::market` -/
  | market (symbol : Symbol)
  /-- `RiskEngine::insurance_balance` -/
  | insuranceBalance
  /-- `RiskEngine::stats` -/
  | stats
  /-- `RiskAdvisor::assess` -/
  | assess (ctx : AdviceContext)

abbrev Sight : Look → Type
  | .market _ => Option MarketState
  | .insuranceBalance => Usd
  | .stats => RiskStats
  | .assess _ => RiskAdvice

/-- What may be read; any advisor may be configured. -/
def Look.Shows (advisor : AdviceContext → RiskAdvice → Prop) (engine : RiskEngine) :
    (look : Look) → Sight look → Prop
  | .market symbol, sight => sight = engine.market symbol
  | .insuranceBalance, sight => sight = engine.insuranceBalance
  | .stats, sight => sight = engine.stats
  | .assess ctx, sight => advisor ctx sight

instance {advisor : AdviceContext → RiskAdvice → Prop}
    [∀ ctx advice, Decidable (advisor ctx advice)] (engine : RiskEngine) :
    (look : Look) → (sight : Sight look) → Decidable (look.Shows advisor engine sight)
  | .market symbol, sight => inferInstanceAs (Decidable (sight = engine.market symbol))
  | .insuranceBalance, sight => inferInstanceAs (Decidable (sight = engine.insuranceBalance))
  | .stats, sight => inferInstanceAs (Decidable (sight = engine.stats))
  | .assess ctx, sight => inferInstanceAs (Decidable (advisor ctx sight))

/-- The engine behind the interface. -/
abbrev apiPorts (ports : Machine RiskEngine Action Answer)
    (advisor : AdviceContext → RiskAdvice → Prop) :
    Machine RiskEngine (Action ⊕ Look) (Observed Answer Sight) := ports.observed (Look.Shows advisor)

/-- A call of an interleaving of requests. -/
abbrev ApiAct (ι : Type) := Act ι (Action ⊕ Look) (Observed Answer Sight)

/-- What is left of a request. -/
abbrev ApiThread (F : Type) :=
  Program (Action ⊕ Look) (Observed Answer Sight) (Except String (Response F))

/-- Resolver code: an error reaches the client by its text. -/
abbrev ApiM := ExceptT String (Program (Action ⊕ Look) (Observed Answer Sight))

/-- `.map_err(to_err)?` on a constructor -/
def check {α : Type} : Except InvalidInput α → ApiM α
  | .ok a => pure a
  | .error e => throw e.toString

/-- `.await.map_err(to_err)?` on a method of the engine -/
def method {α : Type} (code : EngineM α) : ApiM α :=
  ExceptT.mk ((Program.embed code).present (Except.mapError CoreError.toString))

def look (look : Look) : ApiM (Sight look) := ExceptT.lift (Program.perform (Sum.inr look))

namespace RiskEngine

/-- `RiskEngine::position` -/
def position (account : String) (symbol : Symbol) : EngineM (Option Position) :=
  Port.get account symbol

/-- `RiskEngine::positions_in` -/
def positionsIn (symbol : Symbol) : EngineM (List Position) := Port.byMarket symbol

end RiskEngine

/-! ## Queries (`query.rs`) -/

namespace QueryRoot
variable {F : Type} (wire : Boundary F)

def position (account symbol : String) : ApiM (Response F) := do
  let sym ← check (Symbol.new symbol)
  let pos ← method (RiskEngine.position account sym)
  return .position (pos.map (PositionDto.of wire))

def positions (symbol : String) : ApiM (Response F) := do
  let sym ← check (Symbol.new symbol)
  let positions ← method (RiskEngine.positionsIn sym)
  return .positions (positions.map (PositionDto.of wire))

def accountHealth (account symbol : String) : ApiM (Response F) := do
  let sym ← check (Symbol.new symbol)
  let health ← method (RiskEngine.accountHealth account sym)
  return .accountHealth (.of wire health)

def marketState (symbol : String) : ApiM (Response F) := do
  let sym ← check (Symbol.new symbol)
  let state ← look (.market sym)
  return .marketState (state.map (MarketStateDto.of wire))

def insuranceFund : ApiM (Response F) := do
  let balance ← look .insuranceBalance
  return .insuranceFund ⟨.of wire balance⟩

def riskStats : ApiM (Response F) := do
  let stats ← look .stats
  return .riskStats (.of stats)

def riskAdvice (account symbol : String) : ApiM (Response F) := do
  let sym ← check (Symbol.new symbol)
  match ← method (RiskEngine.position account sym) with
  | none => throw "position not found"
  | some pos => do
    let health ← method (RiskEngine.accountHealth account sym)
    match ← look (.market sym) with
    | none => throw "market not found"
    | some market => do
      let advice ← look (.assess (.fromParts pos health market))
      return .riskAdvice (.of advice)

end QueryRoot

/-! ## Mutations (`mutation.rs`) -/

/-- Position direction input. -/
inductive SideInput where
  | long | short

def SideInput.into : SideInput → Side
  | .long => .long
  | .short => .short

/-- Margin mode input. -/
inductive MarginModeInput where
  | isolated | cross

def MarginModeInput.into : MarginModeInput → MarginMode
  | .isolated => .isolated
  | .cross => .cross

/-- Inputs to open a position. -/
structure OpenPositionInput (F : Type) where
  account : String
  symbol : String
  side : SideInput
  marginMode : MarginModeInput
  size : F
  entryPrice : F
  leverage : I32
  margin : F

/-- `map_err(to_err)?` where a command is put together -/
def orText {α : Type} (checked : Except InvalidInput α) : Except String α :=
  checked.mapError InvalidInput.toString

namespace MutationRoot
variable {F : Type} (wire : Boundary F)

def openPosition (input : OpenPositionInput F) : Except String RiskCommand := do
  let leverage ← if 0 ≤ input.leverage.toInt then pure input.leverage.toInt.toNat
    else throw "leverage out of range"
  let account ← orText (AccountId.new input.account)
  let symbol ← orText (Symbol.new input.symbol)
  let size ← orText (Size.fromMicros (wire.toMicros input.size))
  let entryPrice ← orText (Price.fromMicros (wire.toMicros input.entryPrice))
  let leverage ← orText (Leverage.new leverage)
  return .openPosition account symbol input.side.into input.marginMode.into size entryPrice
    leverage ⟨wire.toMicros input.margin⟩

def closePosition (account symbol : String) : Except String RiskCommand := do
  let account ← orText (AccountId.new account)
  let symbol ← orText (Symbol.new symbol)
  return .closePosition account symbol

def updateMarket (symbol : String) (markPrice indexPrice : F) (fundingRateBps : I64) :
    Except String RiskCommand := do
  let symbol ← orText (Symbol.new symbol)
  let markPrice ← orText (Price.fromMicros (wire.toMicros markPrice))
  let indexPrice ← orText (Price.fromMicros (wire.toMicros indexPrice))
  return .updateMarket symbol markPrice indexPrice fundingRateBps

def accrueFunding (symbol : String) : Except String RiskCommand := do
  let symbol ← orText (Symbol.new symbol)
  return .accrueFunding symbol

def liquidateMarket (symbol : String) : Except String RiskCommand := do
  let symbol ← orText (Symbol.new symbol)
  return .liquidateMarket symbol

end MutationRoot

/-- The command of a mutation is applied, its outcome handed out. -/
def mutate {F : Type} (wire : Boundary F) : Except String RiskCommand → ApiM (Response F)
  | .error e => throw e
  | .ok command => do
    let outcome ← method (RiskEngine.apply command)
    return .outcome (.of wire.serialize outcome)

/-! ## Requests -/

inductive Mutation (F : Type) where
  | openPosition (input : OpenPositionInput F)
  | closePosition (account symbol : String)
  | updateMarket (symbol : String) (markPrice indexPrice : F) (fundingRateBps : I64)
  | accrueFunding (symbol : String)
  | liquidateMarket (symbol : String)

/-- What a mutation asks of the engine, or what its input is refused for. -/
def Mutation.command {F : Type} (wire : Boundary F) : Mutation F → Except String RiskCommand
  | .openPosition input => MutationRoot.openPosition wire input
  | .closePosition account symbol => MutationRoot.closePosition account symbol
  | .updateMarket symbol markPrice indexPrice fundingRateBps =>
    MutationRoot.updateMarket wire symbol markPrice indexPrice fundingRateBps
  | .accrueFunding symbol => MutationRoot.accrueFunding symbol
  | .liquidateMarket symbol => MutationRoot.liquidateMarket symbol

inductive Query where
  | position (account symbol : String)
  | positions (symbol : String)
  | accountHealth (account symbol : String)
  | marketState (symbol : String)
  | insuranceFund
  | riskStats
  | riskAdvice (account symbol : String)

def Query.resolve {F : Type} (wire : Boundary F) : Query → ApiM (Response F)
  | .position account symbol => QueryRoot.position wire account symbol
  | .positions symbol => QueryRoot.positions wire symbol
  | .accountHealth account symbol => QueryRoot.accountHealth wire account symbol
  | .marketState symbol => QueryRoot.marketState wire symbol
  | .insuranceFund => QueryRoot.insuranceFund wire
  | .riskStats => QueryRoot.riskStats
  | .riskAdvice account symbol => QueryRoot.riskAdvice account symbol

inductive Request (F : Type) where
  | query (query : Query)
  | mutation (mutation : Mutation F)

/-- What serves a request. -/
def Request.serve {F : Type} (wire : Boundary F) : Request F → ApiThread F
  | .query asked => asked.resolve wire
  | .mutation given => mutate wire (given.command wire)

/-- The command a request passes on, if it does. -/
def Request.command {F : Type} (wire : Boundary F) : Request F → Option RiskCommand
  | .query _ => none
  | .mutation given => (given.command wire).toOption

end MarginGuard.Source
