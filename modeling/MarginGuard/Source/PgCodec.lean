import MarginGuard.Foundation.Decimal
import MarginGuard.Source.Ports

/-!
# Rows of the Postgres position store (`marginguard-infra/src/pg.rs`)

A row holds the nine columns of the table as the driver hands them over, seven
of them TEXT written by hand and one INT. `upsertRow` is what `upsert` binds,
`rowToPosition` what every query of the store maps its rows through.
-/
namespace MarginGuard.Source
open Foundation

/-- `i32` -/
abbrev I32 := SignedInt 32

/-- One row of `positions`. -/
@[ext] structure Row where
  account : String
  symbol : String
  side : String
  marginMode : String
  size : String
  entryPrice : String
  leverage : I32
  postedMargin : String
  fundingPaid : String
  deriving DecidableEq

/-! ## Columns -/

/-- `i128::to_string` -/
def microsText (n : Int) : String := String.ofList (Decimal.render n)

/-- `str::parse::<i128>` -/
def parseI128 (s : String) : Option I128 := (Decimal.parse s.toList).bind SignedInt.tryFrom

/-- `map_err(|e| PortError::Internal(e.to_string()))` -/
def orInternal {α : Type} : Except InvalidInput α → Except PortError α
  | .ok a => .ok a
  | .error e => .error (.internal e.toString)

def parseMicros (s : String) : Except PortError I128 :=
  match parseI128 s with
  | some n => .ok n
  | none => .error (.internal s!"bad money value: {s}")

/-- A text that names a value; any other is reported as it is. -/
def parseTag {α : Type} (tags : List (String × α)) (complaint : String) (s : String) :
    Except PortError α :=
  match tags.lookup s with
  | some a => .ok a
  | none => .error (.internal s!"{complaint}: {s}")

def parseSide : String → Except PortError Side :=
  parseTag [("long", .long), ("short", .short)] "bad side"

def parseMarginMode : String → Except PortError MarginMode :=
  parseTag [("isolated", .isolated), ("cross", .cross)] "bad margin mode"

/-- The INT column as a multiplier: `u32::try_from(leverage).unwrap_or(1)`,
checked by `Leverage::new`. -/
def parseLeverage (column : I32) : Except PortError Leverage :=
  orInternal (Leverage.new (if 0 ≤ column.toInt then column.toInt.toNat else 1))

/-! ## Rows -/

/-- The columns `upsert` binds. The multiplier is bound as an `i64`; being at
most `MAX_LEVERAGE`, it is stored in the INT column as it is. -/
def upsertRow (pos : Position) : Row where
  account := pos.account.asStr
  symbol := pos.symbol.asStr
  side := pos.side.code
  marginMode := pos.marginMode.code
  size := microsText pos.size.micros
  entryPrice := microsText pos.entryPrice.micros
  leverage := SignedInt.clamp pos.leverage.get
  postedMargin := microsText pos.postedMargin.toInt
  fundingPaid := microsText pos.fundingPaid.toInt

/-- The columns are read in the order of the fields; the first bad one decides
the error. -/
def rowToPosition (row : Row) : Except PortError Position := do
  let account ← orInternal (AccountId.new row.account)
  let symbol ← orInternal (Symbol.new row.symbol)
  let side ← parseSide row.side
  let marginMode ← parseMarginMode row.marginMode
  let size ← orInternal (Size.fromMicros (← parseMicros row.size))
  let entryPrice ← orInternal (Price.fromMicros (← parseMicros row.entryPrice))
  let leverage ← parseLeverage row.leverage
  let postedMargin ← parseMicros row.postedMargin
  let fundingPaid ← parseMicros row.fundingPaid
  return {
    account, symbol, side, marginMode, size, entryPrice, leverage
    postedMargin := ⟨postedMargin⟩
    fundingPaid := ⟨fundingPaid⟩ }

/-! ## What one column reads -/

theorem bind_eq_ok {ε α β : Type} {x : Except ε α} {f : α → Except ε β} {b : β} :
    x >>= f = .ok b ↔ ∃ a, x = .ok a ∧ f a = .ok b := by
  cases x with
  | ok a => exact ⟨fun done => ⟨a, rfl, done⟩, by rintro ⟨_, ⟨rfl⟩, done⟩; exact done⟩
  | error e => exact ⟨by rintro ⟨⟩, by rintro ⟨_, ⟨⟩, _⟩⟩

theorem orInternal_eq_ok {α : Type} {x : Except InvalidInput α} {a : α} :
    orInternal x = .ok a ↔ x = .ok a := by
  cases x with
  | ok b => simp only [orInternal, Except.ok.injEq]
  | error e => exact ⟨by rintro ⟨⟩, by rintro ⟨⟩⟩

theorem parseMicros_eq_ok {s : String} {n : I128} :
    parseMicros s = .ok n ↔ Decimal.parse s.toList = some n.toInt := by
  unfold parseMicros parseI128
  cases Decimal.parse s.toList with
  | none => simp only [Option.bind_none]; exact ⟨by rintro ⟨⟩, by rintro ⟨⟩⟩
  | some k =>
    simp only [Option.bind_some, SignedInt.tryFrom, Option.some.injEq]
    split_ifs with fit
    · simp only [Except.ok.injEq, SignedInt.ext_iff]
    · refine ⟨by rintro ⟨⟩, fun same => absurd ?_ fit⟩
      rw [same]
      exact n.fits

/-- Two tags that are the codes of all values there are read back exactly. -/
theorem parseTag_eq_ok {α : Type} (code : α → String) (first second : α) {complaint s : String}
    (all : ∀ a, a = first ∨ a = second) (distinct : code second ≠ code first) (a : α) :
    parseTag [(code first, first), (code second, second)] complaint s = .ok a ↔ code a = s := by
  unfold parseTag
  simp only [List.lookup_cons, List.lookup_nil]
  by_cases one : s = code first
  · subst one
    simp only [beq_self_eq_true, Except.ok.injEq]
    rcases all a with rfl | rfl
    · exact iff_of_true rfl rfl
    · exact iff_of_false (fun same => distinct (congrArg code same).symm) distinct
  · rw [beq_false_of_ne one]
    by_cases two : s = code second
    · subst two
      simp only [beq_self_eq_true, Except.ok.injEq]
      rcases all a with rfl | rfl
      · exact iff_of_false (fun same => one (congrArg code same)) fun same => one same.symm
      · exact iff_of_true rfl rfl
    · rw [beq_false_of_ne two]
      refine iff_of_false (by rintro ⟨⟩) ?_
      rintro rfl
      rcases all a with rfl | rfl
      · exact one rfl
      · exact two rfl

theorem Side.eq_long_or_short (side : Side) : side = .long ∨ side = .short := by
  cases side <;> simp

theorem MarginMode.eq_isolated_or_cross (mode : MarginMode) : mode = .isolated ∨ mode = .cross := by
  cases mode <;> simp

theorem parseSide_eq_ok {s : String} {side : Side} : parseSide s = .ok side ↔ side.code = s :=
  parseTag_eq_ok Side.code .long .short Side.eq_long_or_short (by decide) side

theorem parseMarginMode_eq_ok {s : String} {mode : MarginMode} :
    parseMarginMode s = .ok mode ↔ mode.code = s :=
  parseTag_eq_ok MarginMode.code .isolated .cross MarginMode.eq_isolated_or_cross (by decide) mode

/-- A negative column is read as the multiplier one. -/
theorem parseLeverage_eq_ok {column : I32} {leverage : Leverage} :
    parseLeverage column = .ok leverage ↔
      leverage.get = if 0 ≤ column.toInt then column.toInt.toNat else 1 := by
  rw [parseLeverage, orInternal_eq_ok, Leverage.new_eq_ok]

theorem toInt_leverage_column (leverage : Leverage) :
    (SignedInt.clamp leverage.get : I32).toInt = leverage.get := by
  have bounded := leverage.bounded
  have low : minInt 32 ≤ 0 := by decide
  have high : (MAX_LEVERAGE : Int) ≤ maxInt 32 := by decide
  exact SignedInt.toInt_clamp ⟨by omega, by omega⟩

/-- The columns of a row, each read on its own. -/
structure Reads (row : Row) (pos : Position) : Prop where
  account : pos.account.asStr = row.account
  symbol : pos.symbol.asStr = row.symbol
  side : pos.side.code = row.side
  marginMode : pos.marginMode.code = row.marginMode
  size : Decimal.parse row.size.toList = some pos.size.micros
  entryPrice : Decimal.parse row.entryPrice.toList = some pos.entryPrice.micros
  leverage : pos.leverage.get = if 0 ≤ row.leverage.toInt then row.leverage.toInt.toNat else 1
  postedMargin : Decimal.parse row.postedMargin.toList = some pos.postedMargin.toInt
  fundingPaid : Decimal.parse row.fundingPaid.toList = some pos.fundingPaid.toInt

/-- A row is read as a position exactly when every column is. -/
theorem rowToPosition_eq_ok {row : Row} {pos : Position} :
    rowToPosition row = .ok pos ↔ Reads row pos := by
  simp only [rowToPosition, bind_eq_ok, orInternal_eq_ok, AccountId.new_eq_ok, Symbol.new_eq_ok,
    parseSide_eq_ok, parseMarginMode_eq_ok, parseMicros_eq_ok, Size.fromMicros_eq_ok,
    Price.fromMicros_eq_ok, parseLeverage_eq_ok]
  constructor
  · rintro ⟨account, accountRead, symbol, symbolRead, side, sideRead, mode, modeRead,
      sizeMicros, sizeRead, size, sizeValue, priceMicros, priceRead, price, priceValue,
      leverage, leverageRead, posted, postedRead, funding, fundingRead, built⟩
    obtain rfl := Except.ok.inj built
    exact ⟨accountRead, symbolRead, sideRead, modeRead, sizeValue ▸ sizeRead,
      priceValue ▸ priceRead, leverageRead, postedRead, fundingRead⟩
  · intro reads
    have sizeFits := pos.size.fits
    have priceFits := pos.entryPrice.fits
    exact ⟨pos.account, reads.account, pos.symbol, reads.symbol, pos.side, reads.side,
      pos.marginMode, reads.marginMode, ⟨pos.size.micros, sizeFits.1, sizeFits.2⟩, reads.size,
      pos.size, rfl, ⟨pos.entryPrice.micros, priceFits.1, priceFits.2⟩, reads.entryPrice,
      pos.entryPrice, rfl, pos.leverage, reads.leverage, pos.postedMargin.micros,
      reads.postedMargin, pos.fundingPaid.micros, reads.fundingPaid, rfl⟩

end MarginGuard.Source
