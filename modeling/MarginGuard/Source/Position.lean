import MarginGuard.Source.Money

/-!
# Positions, markets and risk outcomes (`marginguard-types`)

Bounded quantities carry the bounds their constructors enforce, so a `Price` of
the model is one `Price::from_micros` accepts. Statistics are natural numbers:
a `u64` counter that wraps needs more commands than a run can hold, and no
branch of the engine reads one.
-/
namespace MarginGuard.Source
open Foundation

/-! ## Identifiers and bounded quantities (`error.rs`, `ids.rs`) -/

/-- Why a domain value was refused. -/
inductive InvalidInput where
  | nonPositivePrice | priceTooLarge | nonPositiveSize | sizeTooLarge
  | leverageOutOfRange (max : Nat)
  | invalidSymbol (max : Nat)
  | invalidAccount (max : Nat)
  deriving DecidableEq

/-- `Display for InvalidInput`. -/
def InvalidInput.toString : InvalidInput → String
  | .nonPositivePrice => "price must be positive"
  | .priceTooLarge => "price exceeds maximum"
  | .nonPositiveSize => "size must be positive"
  | .sizeTooLarge => "size exceeds maximum"
  | .leverageOutOfRange max => s!"leverage must be between 1x and {max}x"
  | .invalidSymbol max => s!"symbol must be 1..={max} bytes"
  | .invalidAccount max => s!"account id must be 1..={max} bytes"

def MAX_SYMBOL_LEN : Nat := 24
def MAX_ACCOUNT_LEN : Nat := 48
def MAX_LEVERAGE : Nat := 100

/-- A positive, bounded per-contract price in micro-USD. -/
@[ext] structure Price where
  micros : Int
  positive : 0 < micros
  bounded : micros ≤ MAX_PRICE
  deriving DecidableEq

/-- A positive, bounded position size in micro-contracts. -/
@[ext] structure Size where
  micros : Int
  positive : 0 < micros
  bounded : micros ≤ MAX_SIZE
  deriving DecidableEq

/-- A leverage multiplier in `1..=MAX_LEVERAGE`. -/
@[ext] structure Leverage where
  get : Nat
  positive : 0 < get
  bounded : get ≤ MAX_LEVERAGE
  deriving DecidableEq

/-- A market symbol of `1..=MAX_SYMBOL_LEN` bytes. -/
@[ext] structure Symbol where
  asStr : String
  nonempty : 0 < asStr.utf8ByteSize
  bounded : asStr.utf8ByteSize ≤ MAX_SYMBOL_LEN
  deriving DecidableEq

/-- An account identifier of `1..=MAX_ACCOUNT_LEN` bytes. -/
@[ext] structure AccountId where
  asStr : String
  nonempty : 0 < asStr.utf8ByteSize
  bounded : asStr.utf8ByteSize ≤ MAX_ACCOUNT_LEN
  deriving DecidableEq

/-- The check of `from_micros`: positive and within the bound. -/
def boundedMicros (max : Int) (nonPositive tooLarge : InvalidInput) (micros : I128) :
    Except InvalidInput { n : Int // 0 < n ∧ n ≤ max } :=
  if low : micros.toInt ≤ 0 then .error nonPositive
  else if high : max < micros.toInt then .error tooLarge
  else .ok ⟨micros.toInt, by omega, by omega⟩

def Price.fromMicros (micros : I128) : Except InvalidInput Price :=
  (boundedMicros MAX_PRICE .nonPositivePrice .priceTooLarge micros).map fun n => ⟨n.1, n.2.1, n.2.2⟩

def Size.fromMicros (micros : I128) : Except InvalidInput Size :=
  (boundedMicros MAX_SIZE .nonPositiveSize .sizeTooLarge micros).map fun n => ⟨n.1, n.2.1, n.2.2⟩

/-- `Price::from_whole` -/
def Price.fromWhole (dollars : I64) : Except InvalidInput Price :=
  Price.fromMicros (.wrap (dollars.toInt * SCALE))

/-- `Size::from_whole` -/
def Size.fromWhole (contracts : I64) : Except InvalidInput Size :=
  Size.fromMicros (.wrap (contracts.toInt * SCALE))

def Leverage.new (x : Nat) : Except InvalidInput Leverage :=
  if outside : x = 0 ∨ MAX_LEVERAGE < x then .error (.leverageOutOfRange MAX_LEVERAGE)
  else .ok ⟨x, by omega, by omega⟩

/-- The check of the identifiers: a length of `1..=max` bytes. -/
def boundedText (max : Nat) (invalid : InvalidInput) (s : String) :
    Except InvalidInput { s : String // 0 < s.utf8ByteSize ∧ s.utf8ByteSize ≤ max } :=
  if outside : s.utf8ByteSize = 0 ∨ max < s.utf8ByteSize then .error invalid
  else .ok ⟨s, by omega, by omega⟩

def Symbol.new (s : String) : Except InvalidInput Symbol :=
  (boundedText MAX_SYMBOL_LEN (.invalidSymbol MAX_SYMBOL_LEN) s).map fun s => ⟨s.1, s.2.1, s.2.2⟩

def AccountId.new (s : String) : Except InvalidInput AccountId :=
  (boundedText MAX_ACCOUNT_LEN (.invalidAccount MAX_ACCOUNT_LEN) s).map fun s => ⟨s.1, s.2.1, s.2.2⟩

theorem Price.fits (price : Price) : Fits 128 price.micros := by
  have positive := price.positive
  have bounded := price.bounded
  have low := minInt_neg 128
  have high : MAX_PRICE ≤ maxInt 128 := by decide
  exact ⟨by omega, by omega⟩

theorem Size.fits (size : Size) : Fits 128 size.micros := by
  have positive := size.positive
  have bounded := size.bounded
  have low := minInt_neg 128
  have high : MAX_SIZE ≤ maxInt 128 := by decide
  exact ⟨by omega, by omega⟩

/-! A constructor accepts the contents of a bounded value, and nothing else. -/

theorem map_eq_ok {ε α β : Type} {x : Except ε α} {f : α → β} {b : β} :
    x.map f = .ok b ↔ ∃ a, x = .ok a ∧ f a = b := by
  cases x with
  | ok a => simp only [Except.map, Except.ok.injEq, exists_eq_left']
  | error e => simp only [Except.map, reduceCtorEq, false_and, exists_false]

theorem boundedMicros_eq_ok {max : Int} {nonPositive tooLarge : InvalidInput} {micros : I128}
    {n : { n : Int // 0 < n ∧ n ≤ max }} :
    boundedMicros max nonPositive tooLarge micros = .ok n ↔ n.1 = micros.toInt := by
  obtain ⟨positive, bounded⟩ := n.2
  unfold boundedMicros
  split_ifs
  · simp only [false_iff]; omega
  · simp only [false_iff]; omega
  · simp only [Except.ok.injEq, Subtype.ext_iff, eq_comm]

theorem Price.fromMicros_eq_ok {micros : I128} {price : Price} :
    Price.fromMicros micros = .ok price ↔ price.micros = micros.toInt := by
  simp only [fromMicros, map_eq_ok, boundedMicros_eq_ok, Price.ext_iff]
  constructor
  · rintro ⟨n, read, same⟩
    rw [← same, read]
  · exact fun read => ⟨⟨price.micros, price.positive, price.bounded⟩, read, rfl⟩

theorem Size.fromMicros_eq_ok {micros : I128} {size : Size} :
    Size.fromMicros micros = .ok size ↔ size.micros = micros.toInt := by
  simp only [fromMicros, map_eq_ok, boundedMicros_eq_ok, Size.ext_iff]
  constructor
  · rintro ⟨n, read, same⟩
    rw [← same, read]
  · exact fun read => ⟨⟨size.micros, size.positive, size.bounded⟩, read, rfl⟩

theorem Leverage.new_eq_ok {x : Nat} {leverage : Leverage} :
    Leverage.new x = .ok leverage ↔ leverage.get = x := by
  have positive := leverage.positive
  have bounded := leverage.bounded
  unfold new
  split_ifs
  · simp only [false_iff]; omega
  · simp only [Except.ok.injEq, Leverage.ext_iff, eq_comm]

theorem boundedText_eq_ok {max : Nat} {invalid : InvalidInput} {s : String}
    {t : { s : String // 0 < s.utf8ByteSize ∧ s.utf8ByteSize ≤ max }} :
    boundedText max invalid s = .ok t ↔ t.1 = s := by
  unfold boundedText
  split_ifs with outside
  · simp only [false_iff]
    rintro rfl
    have := t.2
    omega
  · simp only [Except.ok.injEq, Subtype.ext_iff, eq_comm]

theorem Symbol.new_eq_ok {s : String} {symbol : Symbol} :
    Symbol.new s = .ok symbol ↔ symbol.asStr = s := by
  simp only [new, map_eq_ok, boundedText_eq_ok, Symbol.ext_iff]
  constructor
  · rintro ⟨t, rfl, same⟩
    exact same.symm
  · exact fun read => ⟨⟨symbol.asStr, symbol.nonempty, symbol.bounded⟩, read, rfl⟩

theorem AccountId.new_eq_ok {s : String} {account : AccountId} :
    AccountId.new s = .ok account ↔ account.asStr = s := by
  simp only [new, map_eq_ok, boundedText_eq_ok, AccountId.ext_iff]
  constructor
  · rintro ⟨t, rfl, same⟩
    exact same.symm
  · exact fun read => ⟨⟨account.asStr, account.nonempty, account.bounded⟩, read, rfl⟩

theorem Symbol.asStr_injective : Function.Injective Symbol.asStr := fun _ _ => Symbol.ext

theorem AccountId.asStr_injective : Function.Injective AccountId.asStr := fun _ _ => AccountId.ext

/-! ## Positions (`position.rs`) -/

inductive Side where
  | long | short
  deriving DecidableEq

/-- Sign multiplier: `+1` for long, `-1` for short. -/
def Side.sign : Side → Int
  | .long => 1
  | .short => -1

/-- The wire code of a side. -/
def Side.code : Side → String
  | .long => "long"
  | .short => "short"

inductive MarginMode where
  | isolated | cross
  deriving DecidableEq

/-- The wire code of a margin mode. -/
def MarginMode.code : MarginMode → String
  | .isolated => "isolated"
  | .cross => "cross"

/-- An open perpetual-futures position. -/
@[ext] structure Position where
  account : AccountId
  symbol : Symbol
  side : Side
  marginMode : MarginMode
  size : Size
  entryPrice : Price
  leverage : Leverage
  postedMargin : Usd
  fundingPaid : Usd
  deriving DecidableEq

/-- What the largest size is worth at the largest price. -/
def MAX_NOTIONAL : Int := (MAX_PRICE * MAX_SIZE).tdiv SCALE

namespace Position

/-- Notional value at the mark. -/
def notional (pos : Position) (mark : Price) : Usd := ⟨scaledMul mark.micros pos.size.micros⟩

/-- Unrealised PnL at the mark. The difference of two prices is far from the
`i128` bounds, so its subtraction and sign change are exact. -/
def unrealizedPnl (pos : Position) (mark : Price) : Usd :=
  let diff := (mark.micros - pos.entryPrice.micros) * pos.side.sign
  ⟨scaledMul diff pos.size.micros⟩

theorem notional_nonneg (pos : Position) (mark : Price) : 0 ≤ (pos.notional mark).toInt :=
  scaledMul_nonneg (le_of_lt mark.positive) (le_of_lt pos.size.positive)

theorem toInt_notional (pos : Position) (mark : Price) :
    (pos.notional mark).toInt = (mark.micros * pos.size.micros).tdiv SCALE := by
  have positive := mark.positive
  have small : 0 ≤ MAX_PRICE := by decide
  exact toInt_scaledMul (by omega) mark.bounded (le_of_lt pos.size.positive) pos.size.bounded

theorem notional_le (pos : Position) (mark : Price) : (pos.notional mark).toInt ≤ MAX_NOTIONAL := by
  rw [toInt_notional]
  have product : mark.micros * pos.size.micros ≤ MAX_PRICE * MAX_SIZE :=
    mul_le_mul mark.bounded pos.size.bounded (le_of_lt pos.size.positive) (by decide)
  exact Int.tdiv_le_tdiv (by decide) product

/-- PnL is odd in the side, the truncation included. -/
theorem toInt_unrealizedPnl (pos : Position) (mark : Price) :
    (pos.unrealizedPnl mark).toInt =
      pos.side.sign * ((mark.micros - pos.entryPrice.micros) * pos.size.micros).tdiv SCALE := by
  have positive := mark.positive
  have bounded := mark.bounded
  have entryPositive := pos.entryPrice.positive
  have entryBounded := pos.entryPrice.bounded
  have sizePositive := le_of_lt pos.size.positive
  unfold unrealizedPnl
  cases pos.side with
  | long =>
    simp only [Side.sign, Int.mul_one, Int.one_mul]
    exact toInt_scaledMul (by omega) (by omega) sizePositive pos.size.bounded
  | short =>
    simp only [Side.sign, Int.mul_neg, Int.mul_one, Int.neg_mul, Int.one_mul]
    rw [← Int.neg_tdiv, ← Int.neg_mul]
    exact toInt_scaledMul (by omega) (by omega) sizePositive pos.size.bounded

/-- PnL is at most a notional in magnitude. -/
theorem unrealizedPnl_bounds (pos : Position) (mark : Price) :
    -MAX_NOTIONAL ≤ (pos.unrealizedPnl mark).toInt ∧
      (pos.unrealizedPnl mark).toInt ≤ MAX_NOTIONAL := by
  have positive := mark.positive
  have bounded := mark.bounded
  have entryPositive := pos.entryPrice.positive
  have entryBounded := pos.entryPrice.bounded
  have size := le_of_lt pos.size.positive
  have above : (mark.micros - pos.entryPrice.micros) * pos.size.micros ≤ MAX_PRICE * MAX_SIZE :=
    mul_le_mul (by omega) pos.size.bounded size (by decide)
  have below : -(mark.micros - pos.entryPrice.micros) * pos.size.micros ≤ MAX_PRICE * MAX_SIZE :=
    mul_le_mul (by omega) pos.size.bounded size (by decide)
  have upper : _ ≤ MAX_NOTIONAL := Int.tdiv_le_tdiv (c := SCALE) (by decide) above
  have lower : _ ≤ MAX_NOTIONAL := Int.tdiv_le_tdiv (c := SCALE) (by decide) below
  rw [Int.neg_mul, Int.neg_tdiv] at lower
  rw [toInt_unrealizedPnl]
  cases pos.side <;> simp only [Side.sign] <;> omega

end Position

/-! ## Markets and risk parameters (`market.rs`) -/

/-- Live state of one perpetual market. -/
@[ext] structure MarketState where
  symbol : Symbol
  markPrice : Price
  indexPrice : Price
  fundingRateBps : I64
  deriving DecidableEq

/-- Margin requirements of a market, in basis points of notional. -/
@[ext] structure RiskParams where
  initialMarginBps : I64
  maintenanceMarginBps : I64
  liquidationFeeBps : I64
  deriving DecidableEq

/-- The default tier: 5% initial, 2.5% maintenance, 1% fee. -/
def RiskParams.standard : RiskParams where
  initialMarginBps := ⟨500, by decide, by decide⟩
  maintenanceMarginBps := ⟨250, by decide, by decide⟩
  liquidationFeeBps := ⟨100, by decide, by decide⟩

/-! ## Outcomes (`risk.rs`) -/

/-- Risk health of one position. -/
structure AccountHealth where
  account : AccountId
  equity : Usd
  notional : Usd
  maintenanceMargin : Usd
  marginRatioBps : Option I64
  liquidatable : Bool
  deriving DecidableEq

inductive LiquidationReason where
  | maintenanceBreach | bankruptcy
  deriving DecidableEq

/-- The record of a completed liquidation. -/
structure Liquidation where
  account : AccountId
  symbol : Symbol
  reason : LiquidationReason
  closedNotional : Usd
  insuranceDraw : Usd
  socializedLoss : Usd
  deriving DecidableEq

/-- Aggregate statistics. The counters are `u64` and raised without a check; what is
said of them assumes fewer than 2^64 increments. -/
@[ext] structure RiskStats where
  openPositions : Nat := 0
  liquidations : Nat := 0
  fundingSettlements : Nat := 0
  adlEvents : Nat := 0
  deriving DecidableEq

end MarginGuard.Source
