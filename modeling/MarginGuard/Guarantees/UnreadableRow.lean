import MarginGuard.Guarantees.PostgresEngine

/-!
# A row that cannot be read

The table may hold a row no position is read from, written by another program or
by hand. Every listing of its market then fails as a whole, so the market is
neither funded nor swept, and its key cannot be opened (`apply_spares`). No
command but a close of that key touches the row, and the other markets go on
(`unreadable_row_blocks_market`).
-/
namespace MarginGuard.Guarantees
open Foundation Source

/-- What the answers cannot be while the row is there. -/
def SkipsRow (account : String) (symbol : Symbol) : (action : Action) → Answer action → Prop
  | .get account' symbol', .ok _ => (account', symbol') ≠ (account, symbol)
  | .remove account' symbol', .ok _ => (account', symbol') ≠ (account, symbol)
  | .byMarket symbol', .ok listing => symbol' ≠ symbol ∧ ∀ pos ∈ listing, pos.symbol = symbol'
  | _, _ => True

/-- The action does not write the key. -/
def LeavesKey (account : String) (symbol : Symbol) : Action → Prop
  | .upsert pos => pos.key ≠ (account, symbol)
  | .remove account' symbol' => (account', symbol') ≠ (account, symbol)
  | _ => True

/-- The same rows, and the same engine beside the table. -/
structure Unmoved {db : Database} (engine engine' : PgEngine db) : Prop where
  rows : db.row engine'.table = db.row engine.table
  core : engine'.core = engine.core

/-- The action has no effect, whatever its answer. -/
def Idle (db : Database) (action : Action) : Prop :=
  ∀ engine ans, Unmoved engine ((onPostgres db).effect engine action ans)

/-- The command needs the row to be read. -/
def Blocked (account : String) (symbol : Symbol) : RiskCommand → Prop
  | .openPosition owner market .. => (owner.asStr, market) = (account, symbol)
  | .accrueFunding market => market = symbol
  | .liquidateMarket market => market = symbol
  | .closePosition _ _ => False
  | .updateMarket .. => False

/-- The command closes the key. -/
def ClosesKey (account : String) (symbol : Symbol) : RiskCommand → Prop
  | .closePosition owner market => (owner.asStr, market) = (account, symbol)
  | _ => False

/-- A mapping that succeeds does so on every element, and delivers nothing else. -/
theorem mem_of_mapM {α β ε : Type} {f : α → Except ε β} {as : List α} {bs : List β}
    (read : as.mapM f = .ok bs) :
    (∀ a ∈ as, ∃ b, f a = .ok b) ∧ ∀ b ∈ bs, ∃ a ∈ as, f a = .ok b := by
  induction as generalizing bs with
  | nil =>
    obtain rfl : [] = bs := Except.ok.inj read
    simp
  | cons a as ih =>
    rw [List.mapM_cons] at read
    obtain ⟨b, first, read⟩ := bind_eq_ok.mp read
    obtain ⟨rest, later, read⟩ := bind_eq_ok.mp read
    obtain rfl : b :: rest = bs := Except.ok.inj read
    obtain ⟨all, only⟩ := ih later
    refine ⟨List.forall_mem_cons.mpr ⟨⟨b, first⟩, all⟩, List.forall_mem_cons.mpr ⟨?_, ?_⟩⟩
    · exact ⟨a, List.mem_cons_self .., first⟩
    · intro b' member
      obtain ⟨a', own, image⟩ := only b' member
      exact ⟨a', List.mem_cons_of_mem _ own, image⟩

section Answers
variable {db : Database} {table : db.State} {account : String} {symbol : Symbol} {row : Row}

/-- The row is never among what is read. -/
theorem key_ne_of_read (stored : db.row table account symbol.asStr = some row)
    (unreadable : ∀ pos, rowToPosition row ≠ .ok pos) {account' : String} {symbol' : Symbol}
    {held : Option Position}
    (read : .ok held = readOptional (db.row table account' symbol'.asStr)) :
    (account', symbol') ≠ (account, symbol) := by
  intro same
  obtain ⟨rfl, rfl⟩ := Prod.mk.inj same
  rw [stored, readOptional] at read
  cases own : rowToPosition row with
  | ok pos => exact unreadable pos own
  | error e =>
    rw [own] at read
    cases read

/-- A listing that succeeds is of another market. -/
theorem listed_elsewhere (serves : db.Serves)
    (stored : db.row table account symbol.asStr = some row)
    (unreadable : ∀ pos, rowToPosition row ≠ .ok pos) {market : Symbol} {rows : List Row}
    (selects : Selects (db.row table) market.asStr rows) {listing : List Position}
    (read : .ok listing = rows.mapM rowToPosition) :
    market ≠ symbol ∧ ∀ pos ∈ listing, pos.symbol = market := by
  obtain ⟨all, only⟩ := mem_of_mapM read.symm
  constructor
  · rintro rfl
    obtain ⟨rfl, same⟩ := Prod.mk.inj (serves.keyed _ _ _ _ stored)
    have member : row ∈ rows := (selects.mem_iff row).mpr ⟨same, same ▸ stored⟩
    obtain ⟨pos, readable⟩ := all row member
    exact unreadable pos readable
  · intro pos member
    obtain ⟨row', selected, image⟩ := only pos member
    have own := (rowToPosition_eq_ok.mp image).symbol
    rw [((selects.mem_iff row').mp selected).1] at own
    exact Symbol.asStr_injective own

/-- A call that succeeds has read what its statement returns. -/
theorem returned_of_ok (serves : db.Serves) {call : StoreCall} {answer : StoreAnswer call}
    (answered : (pgStore db).answers table call (.ok answer)) :
    ∃ value, call.statement.Returns (db.row table) value ∧ .ok answer = call.read (.ok value) := by
  cases storable : call.storable with
  | false =>
    obtain ⟨⟨e, same⟩, -⟩ := refused_answers serves storable answered
    cases same
  | true =>
    obtain ⟨res, possible, read⟩ := answered
    obtain ⟨value, rfl, returned⟩ := serves.returned table call.statement res storable possible
    exact ⟨value, returned, read⟩

/-- A statement that leaves a key alone keeps its row, refused or not. -/
theorem kept_of_run (serves : db.Serves) {statement : Statement} {name : String}
    (same : statement.run (db.row table) account name = db.row table account name) :
    db.row (db.after table statement) account name = db.row table account name := by
  rw [serves.row_after]
  split
  · exact same
  · rfl

end Answers

/-- While the row is there, what does not write its key leaves it there, and no
answer brings it. -/
theorem row_stays {db : Database} (serves : db.Serves) {account : String} {symbol : Symbol} {row : Row}
    (unreadable : ∀ pos, rowToPosition row ≠ .ok pos) :
    (onPostgres db).Upholds (fun engine => db.row engine.table account symbol.asStr = some row)
      (LeavesKey account symbol) (SkipsRow account symbol) where
  sound := by
    intro engine action ans stored leaves answered
    cases action
    case get account' symbol' =>
      cases ans with
      | error e => trivial
      | ok held =>
        obtain ⟨found, rfl, read⟩ := returned_of_ok serves answered
        exact key_ne_of_read stored unreadable read
    case remove account' symbol' =>
      cases ans with
      | error e => trivial
      | ok removed => exact leaves
    case byMarket symbol' =>
      cases ans with
      | error e => trivial
      | ok listing =>
        obtain ⟨rows, selects, read⟩ := returned_of_ok serves answered
        exact listed_elsewhere serves stored unreadable selects read
    all_goals trivial
  keeps := by
    intro engine action ans stored leaves answered
    have other : ∀ key : Key, key ≠ (account, symbol) →
        (account, symbol.asStr) ≠ (key.1, key.2.asStr) := by
      rintro ⟨account', symbol'⟩ different same
      obtain ⟨rfl, names⟩ := Prod.mk.inj same
      exact different (Prod.ext rfl (Symbol.asStr_injective names.symm))
    cases action
    case upsert pos =>
      have same : (StoreCall.upsert pos).statement.run (db.row engine.table) account symbol.asStr =
          db.row engine.table account symbol.asStr := if_neg (other pos.key leaves)
      exact (kept_of_run serves same).trans stored
    case remove account' symbol' =>
      have same : (StoreCall.remove account' symbol').statement.run (db.row engine.table) account
          symbol.asStr = db.row engine.table account symbol.asStr :=
        if_neg (other (account', symbol') leaves)
      exact (kept_of_run serves same).trans stored
    case get account' symbol' => exact (kept_of_run serves rfl).trans stored
    case byMarket symbol' => exact (kept_of_run serves rfl).trans stored
    all_goals exact stored

/-! ## Commands -/

theorem idle_get {db : Database} (serves : db.Serves) (account : String) (symbol : Symbol) :
    Idle db (.get account symbol) :=
  fun engine _ => ⟨(serves.row_after engine.table _).trans (ite_self _), rfl⟩

theorem idle_byMarket {db : Database} (serves : db.Serves) (symbol : Symbol) :
    Idle db (.byMarket symbol) :=
  fun engine _ => ⟨(serves.row_after engine.table _).trans (ite_self _), rfl⟩

/-- What a command may do while the row is there: never write its key, and
nothing at all if it needs the row. -/
def Spares (db : Database) (account : String) (symbol : Symbol) (command : RiskCommand)
    (action : Action) : Prop :=
  LeavesKey account symbol action ∧ (Blocked account symbol command → Idle db action)

/-- Commands other than a close of the key keep to that, and those that need the
row deliver nothing. -/
theorem apply_spares {db : Database} (serves : db.Serves) {account : String} {symbol : Symbol}
    {command : RiskCommand} (kept : ¬ ClosesKey account symbol command) :
    Program.Delivers (Spares db account symbol command) (SkipsRow account symbol)
      (fun _ => ¬ Blocked account symbol command) (RiskEngine.apply command) := by
  have free : ∀ {action}, ¬ Blocked account symbol command → LeavesKey account symbol action →
      Spares db account symbol command action := fun unblocked leaves =>
    ⟨leaves, fun blocked => absurd blocked unblocked⟩
  refine RiskEngine.delivers_apply ⟨trivial, fun _ _ _ => ⟨rfl, rfl⟩⟩ ?_ fun _ unblocked =>
    free unblocked trivial
  cases command with
  | openPosition owner market side marginMode size entryPrice leverage margin =>
    exact RiskEngine.delivers_openPosition ⟨trivial, fun _ => idle_get serves _ _⟩ fun unblocked =>
      ⟨free unblocked trivial, free unblocked unblocked, free unblocked trivial⟩
  | closePosition owner market =>
    exact Program.Delivers.weaken (RiskEngine.delivers_close (free id kept) (free id trivial)
      (free id trivial)) fun _ _ => id
  | updateMarket market markPrice indexPrice fundingRateBps =>
    exact Program.Delivers.weaken (RiskEngine.delivers_updateMarket (free id trivial)) fun _ _ => id
  | accrueFunding market =>
    refine Program.Delivers.weaken (RiskEngine.delivers_accrueFunding
      ⟨trivial, fun _ _ _ => ⟨rfl, rfl⟩⟩ ⟨trivial, fun _ => idle_byMarket serves _⟩ ?_) ?_
    · refine fun listing elsewhere => ⟨fun pos member fundingPaid => ?_, fun _ =>
        free elsewhere.1 trivial⟩
      refine free elsewhere.1 fun same => elsewhere.1 ?_
      exact (elsewhere.2 pos member).symm.trans (congrArg Prod.snd same)
    · rintro _ ⟨listing, elsewhere⟩
      exact elsewhere.1
  | liquidateMarket market =>
    refine Program.Delivers.weaken (RiskEngine.delivers_liquidateMarket
      ⟨trivial, fun _ _ _ => ⟨rfl, rfl⟩⟩ ⟨trivial, fun _ => idle_byMarket serves _⟩ ?_) ?_
    · exact fun listing elsewhere => ⟨fun pos member =>
        ⟨free elsewhere.1 fun same => elsewhere.1 (congrArg Prod.snd same),
          fun _ => ⟨free elsewhere.1 trivial, free elsewhere.1 trivial⟩⟩,
        free elsewhere.1 trivial, free elsewhere.1 trivial⟩
    · rintro _ ⟨listing, elsewhere⟩
      exact elsewhere.1

/-- Over a database that serves, a row that cannot be read stays in the table whatever
commands run, as long as none closes its key. Opening that key and every accrual and
sweep of its market end in an error and have no effect. -/
theorem unreadable_row_blocks_market {ι : Type} [DecidableEq ι] {db : Database} (serves : db.Serves)
    {commands : ι → RiskCommand} {engine engine' : PgEngine db} {trace : List (EngineAct ι)}
    {threads : ι → Thread} {account : String} {symbol : Symbol} {row : Row}
    (stored : db.row engine.table account symbol.asStr = some row)
    (unreadable : ∀ pos, rowToPosition row ≠ .ok pos)
    (kept : ∀ i, ¬ ClosesKey account symbol (commands i))
    (run : OnPostgres db commands engine trace engine' threads) :
    db.row engine'.table account symbol.asStr = some row ∧
      ∀ i, Blocked account symbol (commands i) →
        (∀ r, threads i = .done r → ∃ e, r = .error e) ∧
          ∀ a ∈ trace, a.thread = i → Idle db a.call.op := by
  obtain ⟨stays, each, left⟩ := run.obeys
    (fun i => (row_stays serves unreadable).mono
      fun _ (spares : Spares _ _ _ (commands i) _) => spares.1)
    stored fun i => apply_spares serves (kept i)
  refine ⟨stays, fun i blocked => ⟨fun r finished => ?_, ?_⟩⟩
  · have own := left i
    rw [finished] at own
    cases r with
    | error e => exact ⟨e, rfl⟩
    | ok outcome => exact absurd blocked (own outcome rfl)
  · rintro a member rfl
    exact (each a member).1.2 blocked

open Sample in
/-- A row of `sol` whose side someone has mistyped. -/
def mistypedRow : Row := { upsertRow storedShort with side := "shrot" }

theorem mistypedRow_unreadable (pos : Position) : rowToPosition mistypedRow ≠ .ok pos := by
  intro read
  have side : pos.side.code = "shrot" := (rowToPosition_eq_ok.mp read).side
  cases own : pos.side <;> rw [own] at side <;> exact absurd side (by decide)

/-- The table with that row only. -/
def mistypedTable : Table := Table.empty.upsert mistypedRow

theorem row_mistypedTable (account symbol : String) : mistypedTable.row account symbol =
    if (account, symbol) = (mistypedRow.account, mistypedRow.symbol) then some mistypedRow else none := by
  have written := Table.row_run Table.empty (.upsert mistypedRow)
  have before := Table.empty_fresh account symbol
  change mistypedTable.row = _ at written
  change Table.empty.row account symbol = none at before
  rw [written, Statement.run_upsert, before]

theorem mistypedTable_selects : Selects mistypedTable.row mistypedRow.symbol [mistypedRow] where
  nodup := List.nodup_singleton _
  mem_iff row := by
    rw [List.mem_singleton, row_mistypedTable]
    constructor
    · rintro rfl
      exact ⟨rfl, if_pos rfl⟩
    · rintro ⟨market, stored⟩
      split at stored
      · exact (Option.some.inj stored).symm
      · cases stored

open Sample in
/-- A quote and a sweep of the market. -/
def quoteAndSweep : Bool → RiskCommand
  | false => .updateMarket sol (price 100) (price 100) (rate 5)
  | true => .liquidateMarket sol

open Sample in
/-- An engine over that table. -/
def mistypedEngine : PgEngine Table.database := .fromParts mistypedTable (dollars 1) standard

open Sample in
/-- The quoted market cannot be swept. -/
theorem unreadable_row_blocks_market_mistyped :
    ∃ trace engine' threads,
      OnPostgres Table.database quoteAndSweep mistypedEngine trace engine' threads ∧
      threads true = .done (.error (.port (.internal "bad side: shrot"))) ∧
      Table.database.row engine'.table mistypedRow.account sol.asStr = some mistypedRow := by
  have storable : (StoreCall.byMarket sol).storable = true := by decide
  have read : (StoreCall.byMarket sol).read (.ok [mistypedRow]) =
      .error (.internal "bad side: shrot") := by decide +kernel
  have answered : (pgStore Table.database).answers mistypedTable (.byMarket sol)
      (.error (.internal "bad side: shrot")) :=
    ⟨_, (Table.outcome_of_storable mistypedTable storable _).mpr
      ⟨[mistypedRow], rfl, mistypedTable_selects⟩, read.symm⟩
  have run : OnPostgres Table.database quoteAndSweep mistypedEngine
      [⟨false, ⟨.tryAcquire, true⟩⟩,
        ⟨false, ⟨.insertMarket ⟨sol, price 100, price 100, rate 5⟩, ()⟩⟩,
        ⟨true, ⟨.tryAcquire, true⟩⟩, ⟨true, ⟨.sweepTerms sol, some (price 100, .standard)⟩⟩,
        ⟨true, ⟨.byMarket sol, .error (.internal "bad side: shrot")⟩⟩] _ _ :=
    .step false rfl trivial (.step false rfl trivial (.step true rfl trivial
      (.step true rfl rfl (.step true rfl answered (.refl _ _)))))
  have stored : Table.database.row mistypedEngine.table mistypedRow.account sol.asStr =
      some mistypedRow := (row_mistypedTable _ _).trans (if_pos rfl)
  have kept : ∀ i, ¬ ClosesKey mistypedRow.account sol (quoteAndSweep i) := by
    intro i
    cases i <;> exact id
  have blocked := unreadable_row_blocks_market Table.serves stored mistypedRow_unreadable kept run
  exact ⟨_, _, _, run, rfl, blocked.1⟩

end MarginGuard.Guarantees
