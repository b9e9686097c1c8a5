import MarginGuard.Foundation.Json
import MarginGuard.Source.Bus
import MarginGuard.Source.PgCodec

/-!
# Events on the wire (`marginguard-api/src/dto.rs`)

`RiskEvent` derives its serialization (`marginguard-core/src/event.rs`). The
serializer is a parameter, as a client's parser is. `DerivedJson` lists what is
relied on of what the derive writes: a member `event` with the variant's name in
snake case, and the variant's fields by their names. Identifiers and amounts are
transparent, the other enumerations are written by their variants' names.
-/
namespace MarginGuard.Source
open Foundation

/-! ## The declared names -/

def Side.variant : Side → String
  | .long => "Long"
  | .short => "Short"

def LiquidationReason.variant : LiquidationReason → String
  | .maintenanceBreach => "MaintenanceBreach"
  | .bankruptcy => "Bankruptcy"

def textField (name value : String) : Json.Member := (name.toList, .text value.toList)

def usdField (name : String) (amount : Usd) : Json.Member := (name.toList, .number amount.toInt)

def Liquidation.fields (l : Liquidation) : List Json.Member :=
  [textField "account" l.account.asStr, textField "symbol" l.symbol.asStr,
    textField "reason" l.reason.variant, usdField "closed_notional" l.closedNotional,
    usdField "insurance_draw" l.insuranceDraw, usdField "socialized_loss" l.socializedLoss]

namespace RiskEvent

def variant : RiskEvent → String
  | .positionOpened _ _ _ _ => "PositionOpened"
  | .positionClosed _ _ _ => "PositionClosed"
  | .marketUpdated _ _ _ => "MarketUpdated"
  | .fundingSettled _ _ _ => "FundingSettled"
  | .liquidated _ => "Liquidated"
  | .autoDeleveraged _ _ => "AutoDeleveraged"

/-- The fields of a variant; those of the record that `Liquidated` carries are
written in its place. -/
def fields : RiskEvent → List Json.Member
  | .positionOpened account symbol side notional =>
    [textField "account" account.asStr, textField "symbol" symbol.asStr,
      textField "side" side.variant, usdField "notional" notional]
  | .positionClosed account symbol realizedPnl =>
    [textField "account" account.asStr, textField "symbol" symbol.asStr,
      usdField "realized_pnl" realizedPnl]
  | .marketUpdated symbol markPrice fundingRateBps =>
    [textField "symbol" symbol.asStr, ("mark_price".toList, .number markPrice),
      ("funding_rate_bps".toList, .number fundingRateBps.toInt)]
  | .fundingSettled account symbol amount =>
    [textField "account" account.asStr, textField "symbol" symbol.asStr, usdField "amount" amount]
  | .liquidated liquidation => liquidation.fields
  | .autoDeleveraged symbol socializedLoss =>
    [textField "symbol" symbol.asStr, usdField "socialized_loss" socializedLoss]

end RiskEvent

/-! ## The derived serialization -/

/-- A word with its first letter in upper case. -/
def capitalize : List Char → List Char
  | [] => []
  | c :: cs => c.toUpper :: cs

/-- `rename_all = "snake_case"`: words that run together, each with a capital, are set
apart by underscores. -/
def SnakeCase (rename : String → String) : Prop :=
  ∀ words : List (List Char), (∀ word ∈ words, word ≠ [] ∧ word.all Char.isLower = true) →
    rename (String.ofList (words.flatMap capitalize)) = String.ofList (['_'].intercalate words)

/-- What is relied on of `serde_json::to_string` on a `RiskEvent`, and of a parser of
flat objects. -/
structure DerivedJson (rename : String → String) (serialize : RiskEvent → Option String)
    (parse : String → Option (List Json.Member)) : Prop where
  snakeCase : SnakeCase rename
  /-- `tag = "event"`. The fields of a record that a variant carries are written in its
  place. -/
  written : ∀ event, ∃ json members, serialize event = some json ∧ parse json = some members ∧
    members.lookup "event".toList = some (.text (rename event.variant).toList) ∧
    ∀ field ∈ event.fields, members.lookup field.1 = some field.2

/-! ## What the interface hands out -/

/-- A risk event for subscriptions. -/
structure RiskEventDto where
  kind : String
  json : String

/-- `From<&RiskEvent> for RiskEventDto` -/
def RiskEventDto.of (serialize : RiskEvent → Option String) (event : RiskEvent) : RiskEventDto where
  kind := event.kind
  json := (serialize event).getD ""

/-- `CommandOutcome::liquidation_count` -/
def CommandOutcome.liquidationCount (outcome : CommandOutcome) : Nat :=
  outcome.events.countP fun
    | .liquidated _ => true
    | _ => false

/-- The result of applying a command. -/
structure OutcomeDto where
  events : List RiskEventDto
  liquidationCount : I32

/-- `From<CommandOutcome> for OutcomeDto` -/
def OutcomeDto.of (serialize : RiskEvent → Option String) (outcome : CommandOutcome) : OutcomeDto where
  events := outcome.events.map (RiskEventDto.of serialize)
  liquidationCount := (SignedInt.tryFrom outcome.liquidationCount).getD SignedInt.maxValue

end MarginGuard.Source
