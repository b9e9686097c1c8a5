import Mathlib.Data.Finset.Card
import MarginGuard.Source.Execution
import MarginGuard.Source.MemoryStore
import MarginGuard.Source.PgCodec

/-!
# The Postgres position store (`marginguard-infra/src/pg.rs`)

Each call of the store sends one statement and reads what the driver hands back.
The database is a parameter, known by what it may answer and by the rows it holds.
`Database.Serves` lists what is relied on of one that is reachable: a row for each
primary key, written and read as the statements say; a query returns its rows in no
particular order; and a TEXT value cannot contain the character with code zero,
which the identifiers do not exclude, so that a statement that binds one is refused.
Every row goes through `rowToPosition` on its way out, whoever wrote it.
-/
namespace MarginGuard.Source
open Foundation

/-- What the driver reports. -/
inductive SqlxError where
  | poolTimedOut
  | poolClosed (text : String)
  | io (text : String)
  | other (text : String)

/-- `to_port` -/
def toPort : SqlxError → PortError
  | .poolTimedOut => .timeout
  | .poolClosed text => .unavailable text
  | .io text => .unavailable text
  | .other text => .internal text

/-! ## The database -/

/-- A statement, with the values bound to it. -/
inductive Statement where
  /-- `INSERT .. ON CONFLICT (account, symbol) DO UPDATE` of every other column -/
  | upsert (row : Row)
  /-- `SELECT * .. WHERE account = $1 AND symbol = $2` -/
  | select (account symbol : String)
  /-- `DELETE .. WHERE account = $1 AND symbol = $2 RETURNING *` -/
  | delete (account symbol : String)
  /-- `SELECT * .. WHERE symbol = $1` -/
  | selectMarket (symbol : String)
  /-- `SELECT COUNT(*) AS n` -/
  | selectCount

/-- The driver hands back rows, or the count, an `i64`. -/
abbrev Outcome : Statement → Type
  | .upsert _ => Unit
  | .select _ _ => Option Row
  | .delete _ _ => Option Row
  | .selectMarket _ => List Row
  | .selectCount => Int

abbrev SqlxResult (statement : Statement) : Type := Except SqlxError (Outcome statement)

/-- The texts a statement binds. -/
def Statement.texts : Statement → List String
  | .upsert row => [row.account, row.symbol, row.side, row.marginMode, row.size, row.entryPrice,
      row.postedMargin, row.fundingPaid]
  | .select account symbol => [account, symbol]
  | .delete account symbol => [account, symbol]
  | .selectMarket symbol => [symbol]
  | .selectCount => []

/-- A text the database can store. -/
def storableText (s : String) : Bool := s.toList.all fun c => c ≠ Char.ofNat 0

def Statement.storable (statement : Statement) : Bool := statement.texts.all storableText

/-- The rows of `positions` by primary key. -/
abbrev Rows := String → String → Option Row

/-- The rows of a market, in some order. -/
structure Selects (row : Rows) (symbol : String) (rows : List Row) : Prop where
  nodup : rows.Nodup
  mem_iff : ∀ found, found ∈ rows ↔
    found.symbol = symbol ∧ row found.account found.symbol = some found

/-- What a statement hands back, of these rows. -/
def Statement.Returns (row : Rows) : (statement : Statement) → Outcome statement → Prop
  | .upsert _, _ => True
  | .select account symbol, found => found = row account symbol
  | .delete account symbol, found => found = row account symbol
  | .selectMarket symbol, rows => Selects row symbol rows
  | .selectCount, n => ∃ keys : Finset (String × String),
      (∀ key, key ∈ keys ↔ (row key.1 key.2).isSome = true) ∧ n = keys.card

/-- The rows after a statement. -/
def Statement.run (row : Rows) : Statement → Rows
  | .upsert written => fun account symbol =>
    if (account, symbol) = (written.account, written.symbol) then some written else row account symbol
  | .delete account' symbol' => fun account symbol =>
    if (account, symbol) = (account', symbol') then none else row account symbol
  | .select _ _ => row
  | .selectMarket _ => row
  | .selectCount => row

@[simp] theorem Statement.run_upsert (row : Rows) (written : Row) (account symbol : String) :
    Statement.run row (.upsert written) account symbol =
      if (account, symbol) = (written.account, written.symbol) then some written
      else row account symbol := rfl

@[simp] theorem Statement.run_delete (row : Rows) (account' symbol' account symbol : String) :
    Statement.run row (.delete account' symbol') account symbol =
      if (account, symbol) = (account', symbol') then none else row account symbol := rfl

/-- A database: what may come of a statement, the state after it, and the rows of
`positions` in a state. -/
structure Database where
  State : Type
  outcome : State → (statement : Statement) → SqlxResult statement → Prop
  after : State → Statement → State
  row : State → Rows

namespace Database

/-- The table as `ensure_schema` creates it. -/
def Empty (db : Database) (s : db.State) : Prop := ∀ account symbol, db.row s account symbol = none

/-- What is relied on of a database that is reachable. -/
structure Serves (db : Database) : Prop where
  /-- `PRIMARY KEY (account, symbol)` -/
  keyed : ∀ s account symbol row, db.row s account symbol = some row →
    (row.account, row.symbol) = (account, symbol)
  /-- A text that cannot be stored is refused, and nothing is written. -/
  refused : ∀ s statement, statement.storable = false →
    (∀ res, db.outcome s statement res → ∃ text, res = .error (.other text)) ∧
      db.row (db.after s statement) = db.row s
  /-- Any other statement has an outcome. -/
  answered : ∀ s statement, statement.storable = true → ∃ res, db.outcome s statement res
  /-- It hands back what it says. -/
  returned : ∀ s statement res, statement.storable = true → db.outcome s statement res →
    ∃ value, res = .ok value ∧ statement.Returns (db.row s) value
  /-- It writes what it says. -/
  written : ∀ s statement, statement.storable = true →
    db.row (db.after s statement) = statement.run (db.row s)

/-- The rows after any statement. -/
theorem Serves.row_after {db : Database} (serves : db.Serves) (s : db.State) (statement : Statement) :
    db.row (db.after s statement) =
      if statement.storable then statement.run (db.row s) else db.row s := by
  split
  · next storable => exact serves.written s statement storable
  · next refused => exact (serves.refused s statement (Bool.eq_false_of_not_eq_true refused)).2

end Database

/-! ## The store -/

/-- The statement a call sends. -/
def StoreCall.statement : StoreCall → Statement
  | .upsert position => .upsert (upsertRow position)
  | .get account symbol => .select account symbol.asStr
  | .remove account symbol => .delete account symbol.asStr
  | .byMarket symbol => .selectMarket symbol.asStr
  | .count => .selectCount

/-- The texts a call binds can be stored. -/
def StoreCall.storable (call : StoreCall) : Bool := call.statement.storable

/-- What the `PositionStore` port answers. -/
abbrev PortAnswer (call : StoreCall) : Type := Except PortError (StoreAnswer call)

/-- A store that never fails, behind the port. -/
def upPort {σ : Type} (M : Machine σ StoreCall StoreAnswer) : Machine σ StoreCall PortAnswer where
  answers s
    | call, .ok answer => M.answers s call answer
    | _, .error _ => False
  effect s
    | call, .ok answer => M.effect s call answer
    | _, .error _ => s

/-- `row.as_ref().map(row_to_position).transpose()` -/
def readOptional : Option Row → Except PortError (Option Position)
  | none => .ok none
  | some row => (rowToPosition row).map some

/-- What a call makes of the outcome. -/
def StoreCall.read : (call : StoreCall) → SqlxResult call.statement → PortAnswer call
  | .upsert _, res => res.mapError toPort
  | .get _ _, res => res.mapError toPort >>= readOptional
  | .remove _ _, res => res.mapError toPort >>= readOptional
  | .byMarket _, res => res.mapError toPort >>= fun rows => rows.mapM rowToPosition
  | .count, res => (res.mapError toPort).map fun n : Int => (max n 0).toNat

/-- `PgPositionStore`, over its pool. A removal deletes its row before the row is
read. -/
def pgStore (db : Database) : Machine db.State StoreCall PortAnswer where
  answers s call answer := ∃ res, db.outcome s call.statement res ∧ answer = call.read res
  effect s call _ := db.after s call.statement

/-! ## The engine over this store -/

/-- An engine whose positions are in the table. -/
structure PgEngine (db : Database) where
  table : db.State
  sink : List RiskEvent
  state : EngineState
  config : EngineConfig

namespace PgEngine
variable {db : Database}

/-- `RiskEngine::from_parts` -/
def fromParts (table : db.State) (insuranceSeed : Usd) (config : EngineConfig) : PgEngine db where
  table := table
  sink := []
  state := (RiskEngine.fromParts insuranceSeed config).state
  config := config

/-- The engine without its positions. -/
def core (engine : PgEngine db) : RiskEngine where
  store := .empty
  sink := engine.sink
  state := engine.state
  config := engine.config

/-- Store calls go to the database. -/
def Answers (engine : PgEngine db) : (action : Action) → Answer action → Prop
  | .get account symbol, ans => (pgStore db).answers engine.table (.get account symbol) ans
  | .upsert position, ans => (pgStore db).answers engine.table (.upsert position) ans
  | .remove account symbol, ans => (pgStore db).answers engine.table (.remove account symbol) ans
  | .byMarket symbol, ans => (pgStore db).answers engine.table (.byMarket symbol) ans
  | action, ans => portsUp.answers engine.core action ans

def perform (engine : PgEngine db) : (action : Action) → Answer action → PgEngine db
  | .get account symbol, ans =>
    { engine with table := (pgStore db).effect engine.table (.get account symbol) ans }
  | .upsert position, ans =>
    { engine with table := (pgStore db).effect engine.table (.upsert position) ans }
  | .remove account symbol, ans =>
    { engine with table := (pgStore db).effect engine.table (.remove account symbol) ans }
  | .byMarket symbol, ans =>
    { engine with table := (pgStore db).effect engine.table (.byMarket symbol) ans }
  | action, ans =>
    let after := portsUp.effect engine.core action ans
    { engine with sink := after.sink, state := after.state }

end PgEngine

/-- The engine over a database and a sink that never fails. -/
def onPostgres (db : Database) : Machine (PgEngine db) Action Answer where
  answers := PgEngine.Answers
  effect := PgEngine.perform

/-- The texts a store call binds can be stored. -/
def Action.storable : Action → Bool
  | .get account symbol => (StoreCall.get account symbol).storable
  | .upsert position => (StoreCall.upsert position).storable
  | .remove account symbol => (StoreCall.remove account symbol).storable
  | .byMarket symbol => (StoreCall.byMarket symbol).storable
  | _ => true

/-- So can those a command names. -/
def RiskCommand.storable (command : RiskCommand) : Bool :=
  storableText command.symbol.asStr &&
    match command with
    | .openPosition account .. => storableText account.asStr
    | .closePosition account _ => storableText account.asStr
    | _ => true

/-! ## The texts of a call -/

theorem storableText_microsText (n : Int) : storableText (microsText n) = true := by
  have digits : ∀ c ∈ Nat.toDigits 10 n.natAbs, c ≠ Char.ofNat 0 := by
    rintro c member rfl
    exact absurd (Nat.isDigit_of_mem_toDigits (by decide) (by decide) member) (by decide)
  rw [storableText, microsText, String.toList_ofList, List.all_eq_true]
  intro c member
  rw [decide_eq_true_iff]
  unfold Decimal.render at member
  split at member
  · rcases List.mem_cons.mp member with rfl | digit
    · decide
    · exact digits c digit
  · exact digits c member

/-- Of a position, only its key decides. -/
theorem storable_upsert (pos : Position) : (StoreCall.upsert pos).storable =
    (storableText pos.account.asStr && storableText pos.symbol.asStr) := by
  have side : storableText pos.side.code = true := by
    cases pos.side <;> decide
  have mode : storableText pos.marginMode.code = true := by
    cases pos.marginMode <;> decide
  simp [StoreCall.storable, StoreCall.statement, Statement.storable, Statement.texts, upsertRow,
    storableText_microsText, side, mode]

theorem storable_get (account : String) (symbol : Symbol) : (StoreCall.get account symbol).storable =
    (storableText account && storableText symbol.asStr) := by
  simp [StoreCall.storable, StoreCall.statement, Statement.storable, Statement.texts]

theorem storable_remove (account : String) (symbol : Symbol) :
    (StoreCall.remove account symbol).storable =
      (storableText account && storableText symbol.asStr) := storable_get account symbol

theorem storable_byMarket (symbol : Symbol) :
    (StoreCall.byMarket symbol).storable = storableText symbol.asStr := Bool.and_true _

end MarginGuard.Source
