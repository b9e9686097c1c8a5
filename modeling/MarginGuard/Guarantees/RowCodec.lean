import MarginGuard.Source.PgCodec
import MarginGuard.Source.Script

/-!
# Does a stored position come back as it was?

Every position does (`rowToPosition_upsertRow`). A row with canonical decimals
is either refused or written back unchanged, one kind of row apart: a negative
multiplier is read as one, so a row whose other columns are all good comes back
as a position of leverage one (`row_codec_exact_iff`).
-/
namespace MarginGuard.Guarantees
open Foundation Source

/-- The four amounts of a row are canonical decimals. -/
structure CanonicalRow (row : Row) : Prop where
  size : Decimal.Canonical row.size.toList
  entryPrice : Decimal.Canonical row.entryPrice.toList
  postedMargin : Decimal.Canonical row.postedMargin.toList
  fundingPaid : Decimal.Canonical row.fundingPaid.toList

/-- Every column but the multiplier is in the range of its field. -/
structure ColumnsValid (row : Row) : Prop where
  account : 0 < row.account.utf8ByteSize ∧ row.account.utf8ByteSize ≤ MAX_ACCOUNT_LEN
  symbol : 0 < row.symbol.utf8ByteSize ∧ row.symbol.utf8ByteSize ≤ MAX_SYMBOL_LEN
  side : row.side = "long" ∨ row.side = "short"
  marginMode : row.marginMode = "isolated" ∨ row.marginMode = "cross"
  size : ∃ n, Decimal.parse row.size.toList = some n ∧ 0 < n ∧ n ≤ MAX_SIZE
  entryPrice : ∃ n, Decimal.parse row.entryPrice.toList = some n ∧ 0 < n ∧ n ≤ MAX_PRICE
  postedMargin : ∃ n, Decimal.parse row.postedMargin.toList = some n ∧ Fits 128 n
  fundingPaid : ∃ n, Decimal.parse row.fundingPaid.toList = some n ∧ Fits 128 n

/-- Whatever is read from the row is written back as the row. -/
def RowKept (row : Row) : Prop := ∀ pos, rowToPosition row = .ok pos → upsertRow pos = row

/-! ## Canonical amounts -/

/-- A canonical amount is the text of what is read from it. -/
theorem microsText_of_parse {s : String} (canonical : Decimal.Canonical s.toList) {n : Int}
    (read : Decimal.parse s.toList = some n) : microsText n = s := by
  rw [microsText, Decimal.render_parse canonical read, String.ofList_toList]

theorem canonical_microsText (n : Int) : Decimal.Canonical (microsText n).toList := by
  rw [microsText, String.toList_ofList]
  exact Decimal.canonical_render n

theorem upsertRow_canonical (pos : Position) : CanonicalRow (upsertRow pos) :=
  ⟨canonical_microsText _, canonical_microsText _, canonical_microsText _, canonical_microsText _⟩

/-! ## From a position to its row and back -/

theorem reads_upsertRow (pos : Position) : Reads (upsertRow pos) pos := by
  have amount (n : Int) : Decimal.parse (microsText n).toList = some n := by
    rw [microsText, String.toList_ofList, Decimal.parse_render]
  refine ⟨rfl, rfl, rfl, rfl, amount _, amount _, ?_, amount _, amount _⟩
  change pos.leverage.get = if 0 ≤ (SignedInt.clamp pos.leverage.get : I32).toInt then
    (SignedInt.clamp pos.leverage.get : I32).toInt.toNat else 1
  rw [toInt_leverage_column, if_pos (by omega), Int.toNat_natCast]

/-- Every position comes back from its row. -/
theorem rowToPosition_upsertRow (pos : Position) : rowToPosition (upsertRow pos) = .ok pos :=
  rowToPosition_eq_ok.mpr (reads_upsertRow pos)

/-! ## From a row to its position and back -/

/-- A canonical row is written back unchanged exactly if its multiplier is. -/
theorem upsertRow_eq_iff {row : Row} (canonical : CanonicalRow row) {pos : Position}
    (reads : Reads row pos) : upsertRow pos = row ↔ 0 ≤ row.leverage.toInt := by
  have read := reads.leverage
  constructor
  · rintro same
    rw [← same]
    change 0 ≤ (SignedInt.clamp pos.leverage.get : I32).toInt
    rw [toInt_leverage_column]
    omega
  · intro nonneg
    rw [if_pos nonneg] at read
    have column : (SignedInt.clamp pos.leverage.get : I32) = row.leverage := by
      apply SignedInt.ext
      rw [toInt_leverage_column]
      omega
    exact Row.ext reads.account reads.symbol reads.side reads.marginMode
      (microsText_of_parse canonical.size reads.size)
      (microsText_of_parse canonical.entryPrice reads.entryPrice) column
      (microsText_of_parse canonical.postedMargin reads.postedMargin)
      (microsText_of_parse canonical.fundingPaid reads.fundingPaid)

/-- A text is one of two codes exactly if it is the code of a value. -/
theorem exists_code {α : Type} (code : α → String) (first second : α)
    (all : ∀ a, a = first ∨ a = second) (s : String) :
    s = code first ∨ s = code second ↔ ∃ a, code a = s := by
  constructor
  · rintro (rfl | rfl)
    · exact ⟨first, rfl⟩
    · exact ⟨second, rfl⟩
  · rintro ⟨a, rfl⟩
    rcases all a with rfl | rfl
    · exact .inl rfl
    · exact .inr rfl

theorem exists_side (s : String) : s = "long" ∨ s = "short" ↔ ∃ side : Side, side.code = s :=
  exists_code Side.code .long .short Side.eq_long_or_short s

theorem exists_marginMode (s : String) :
    s = "isolated" ∨ s = "cross" ↔ ∃ mode : MarginMode, mode.code = s :=
  exists_code MarginMode.code .isolated .cross MarginMode.eq_isolated_or_cross s

/-- A row that is read has all its other columns in range. -/
theorem columnsValid_of_reads {row : Row} {pos : Position} (reads : Reads row pos) :
    ColumnsValid row where
  account := reads.account ▸ ⟨pos.account.nonempty, pos.account.bounded⟩
  symbol := reads.symbol ▸ ⟨pos.symbol.nonempty, pos.symbol.bounded⟩
  side := (exists_side row.side).mpr ⟨pos.side, reads.side⟩
  marginMode := (exists_marginMode row.marginMode).mpr ⟨pos.marginMode, reads.marginMode⟩
  size := ⟨_, reads.size, pos.size.positive, pos.size.bounded⟩
  entryPrice := ⟨_, reads.entryPrice, pos.entryPrice.positive, pos.entryPrice.bounded⟩
  postedMargin := ⟨_, reads.postedMargin, pos.postedMargin.fits⟩
  fundingPaid := ⟨_, reads.fundingPaid, pos.fundingPaid.fits⟩

/-- With the other columns in range, a negative multiplier is no obstacle. -/
theorem exists_reads {row : Row} (valid : ColumnsValid row) (negative : row.leverage.toInt < 0) :
    ∃ pos, Reads row pos := by
  obtain ⟨side, sideRead⟩ := (exists_side row.side).mp valid.side
  obtain ⟨mode, modeRead⟩ := (exists_marginMode row.marginMode).mp valid.marginMode
  obtain ⟨size, sizeRead, sizePositive, sizeBounded⟩ := valid.size
  obtain ⟨price, priceRead, pricePositive, priceBounded⟩ := valid.entryPrice
  obtain ⟨posted, postedRead, postedFits⟩ := valid.postedMargin
  obtain ⟨funding, fundingRead, fundingFits⟩ := valid.fundingPaid
  refine ⟨{
    account := ⟨row.account, valid.account.1, valid.account.2⟩
    symbol := ⟨row.symbol, valid.symbol.1, valid.symbol.2⟩
    side := side
    marginMode := mode
    size := ⟨size, sizePositive, sizeBounded⟩
    entryPrice := ⟨price, pricePositive, priceBounded⟩
    leverage := ⟨1, by decide, by decide⟩
    postedMargin := ⟨⟨posted, postedFits.1, postedFits.2⟩⟩
    fundingPaid := ⟨⟨funding, fundingFits.1, fundingFits.2⟩⟩ },
    rfl, rfl, sideRead, modeRead, sizeRead, priceRead, ?_, postedRead, fundingRead⟩
  rw [if_neg (by omega)]

/-- The rows that do not come back: a negative multiplier among good columns. -/
theorem rowKept_iff {row : Row} (canonical : CanonicalRow row) :
    RowKept row ↔ 0 ≤ row.leverage.toInt ∨ ¬ ColumnsValid row := by
  constructor
  · intro kept
    by_contra outside
    obtain ⟨negative, valid⟩ := not_or.mp outside
    obtain ⟨pos, reads⟩ := exists_reads (not_not.mp valid) (not_le.mp negative)
    exact negative ((upsertRow_eq_iff canonical reads).mp (kept pos (rowToPosition_eq_ok.mpr reads)))
  · rintro condition pos read
    have reads := rowToPosition_eq_ok.mp read
    rcases condition with nonneg | invalid
    · exact (upsertRow_eq_iff canonical reads).mpr nonneg
    · exact absurd (columnsValid_of_reads reads) invalid

/-- A position comes back from its row, and a canonical row is refused or kept
exactly if its multiplier is not negative or another column is bad. -/
theorem row_codec_exact_iff (pos : Position) (row : Row) (canonical : CanonicalRow row) :
    rowToPosition (upsertRow pos) = .ok pos ∧
      (RowKept row ↔ 0 ≤ row.leverage.toInt ∨ ¬ ColumnsValid row) :=
  ⟨rowToPosition_upsertRow pos, rowKept_iff canonical⟩

/-- A short of one contract at 100 dollars that has received funding. -/
def storedShort : Position := Sample.held .short 1000000 100000000 10000000 (-2500)

theorem stored_short_kept : RowKept (upsertRow storedShort) :=
  (row_codec_exact_iff storedShort _ (upsertRow_canonical storedShort)).2.mpr (.inl (by decide))

/-- The same row with a multiplier of minus five. -/
def negativeLeverageRow : Row := { upsertRow storedShort with leverage := SignedInt.clamp (-5) }

/-- It is read, as a position of leverage one. -/
theorem negative_leverage_replaced :
    ¬ ((∀ pos, rowToPosition (upsertRow pos) = .ok pos) ∧
      ∀ row, CanonicalRow row → RowKept row) := by
  rintro ⟨-, kept⟩
  have written := upsertRow_canonical storedShort
  have canonical : CanonicalRow negativeLeverageRow :=
    ⟨written.size, written.entryPrice, written.postedMargin, written.fundingPaid⟩
  have stored := reads_upsertRow storedShort
  have reads : Reads negativeLeverageRow { storedShort with leverage := ⟨1, by decide, by decide⟩ } :=
    ⟨rfl, rfl, rfl, rfl, stored.size, stored.entryPrice, rfl, stored.postedMargin,
      stored.fundingPaid⟩
  have same := kept negativeLeverageRow canonical _ (rowToPosition_eq_ok.mpr reads)
  exact absurd (congrArg (fun row => row.leverage.toInt) same) (by decide)

end MarginGuard.Guarantees
