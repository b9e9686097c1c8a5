import MarginGuard.Foundation.Simulation
import MarginGuard.Guarantees.RowCodec
import MarginGuard.Guarantees.StoreRefinement
import MarginGuard.Source.PgStore

/-!
# The two position stores are interchangeable

Over any database that serves. `RowsOf` relates the table to the store it stands
for: it holds the rows `upsert` binds for the stored positions and no others. What a
statement returns from such a table is read as what the contract of the port answers
from the store (`RowsOf.read_of_returns`), and so does the in-memory store answer,
whose walks of an index set are all the listings there are
(`Represents.listsMarket_iff`). A text the database cannot store is the one thing
that tells them apart. `Table` is a database that serves.
-/
namespace MarginGuard.Guarantees
open Foundation Source

/-- Every listing of the market is a walk of its index set. -/
theorem Represents.listsMarket_iff {g : MemoryPositionStore} {store : PositionStore}
    (represents : Represents g store) {symbol : Symbol} {listing : List Position} :
    g.ListsMarket symbol listing ↔ store.Lists symbol listing := by
  refine ⟨represents.lists, fun lists => ?_⟩
  obtain ⟨walked, same⟩ := Quotient.exists_rep (((g.byMarket.lookup symbol).getD ∅).val.filterMap
    fun account => g.byKey.lookup (account, symbol))
  rw [Multiset.quot_mk_to_coe] at same
  have answered := (g.listsMarket_iff symbol walked).mpr same
  rw [g.listsMarket_iff, ← same, Multiset.coe_eq_coe]
  exact lists.perm (represents.lists answered)

theorem upsertRow_injective : Function.Injective upsertRow := by
  intro pos other same
  have read := congrArg rowToPosition same
  rw [rowToPosition_upsertRow, rowToPosition_upsertRow] at read
  exact Except.ok.inj read

/-- The rows are the ones bound for the positions of the store. -/
structure RowsOf (row : Rows) (store : PositionStore) : Prop where
  keyed : ∀ account symbol found, row account symbol = some found →
    (found.account, found.symbol) = (account, symbol)
  bound : ∀ account symbol, row account symbol.asStr = (store.get account symbol).map upsertRow
  written : ∀ account name found, row account name = some found → ∃ pos, found = upsertRow pos

theorem rowsOf_empty {db : Database} {table : db.State} (fresh : db.Empty table) :
    RowsOf (db.row table) .empty where
  keyed account symbol found stored := by
    rw [fresh] at stored
    cases stored
  bound account symbol := by
    rw [fresh, PositionStore.get, PositionStore.empty]
    simp
  written account name found stored := by
    rw [fresh] at stored
    cases stored

namespace RowsOf
variable {row : Rows} {store : PositionStore}

/-- A row of the table is the one of a stored position. -/
theorem exists_stored (rowsOf : RowsOf row store) {found : Row}
    (stored : row found.account found.symbol = some found) :
    ∃ pos, found = upsertRow pos ∧ store.get pos.account.asStr pos.symbol = some pos := by
  obtain ⟨pos, rfl⟩ := rowsOf.written _ _ _ stored
  refine ⟨pos, rfl, ?_⟩
  change row pos.account.asStr pos.symbol.asStr = _ at stored
  rw [rowsOf.bound, Option.map_eq_some_iff] at stored
  obtain ⟨other, held, same⟩ := stored
  rw [held, upsertRow_injective same]

theorem readOptional_row (rowsOf : RowsOf row store) (account : String) (symbol : Symbol) :
    readOptional (row account symbol.asStr) = .ok (store.get account symbol) := by
  rw [rowsOf.bound]
  cases store.get account symbol with
  | none => rfl
  | some pos =>
    rw [Option.map_some, readOptional, rowToPosition_upsertRow]
    rfl

theorem upsert (rowsOf : RowsOf row store) (pos : Position) :
    RowsOf (Statement.run row (.upsert (upsertRow pos))) (store.upsert pos) where
  keyed account name found stored := by
    rw [Statement.run_upsert] at stored
    split at stored
    · next same => rw [← Option.some.inj stored, same]
    · exact rowsOf.keyed account name found stored
  bound account symbol := by
    rw [Statement.run_upsert, PositionStore.get_upsert, rowsOf.bound]
    have keys : (account, symbol.asStr) = ((upsertRow pos).account, (upsertRow pos).symbol) ↔
        (account, symbol) = pos.key := by
      rw [Prod.mk.injEq, Position.key, Prod.mk.injEq]
      exact and_congr_right fun _ => Symbol.asStr_injective.eq_iff
    split
    · next same => rw [if_pos (keys.mp same), Option.map_some]
    · next other => rw [if_neg fun same => other (keys.mpr same)]
  written account name found stored := by
    rw [Statement.run_upsert] at stored
    split at stored
    · exact ⟨pos, (Option.some.inj stored).symm⟩
    · exact rowsOf.written account name found stored

theorem delete (rowsOf : RowsOf row store) (account : String) (symbol : Symbol) :
    RowsOf (Statement.run row (.delete account symbol.asStr)) (store.remove account symbol) where
  keyed account' name found stored := by
    rw [Statement.run_delete] at stored
    split at stored
    · cases stored
    · exact rowsOf.keyed account' name found stored
  bound account' symbol' := by
    rw [Statement.run_delete, PositionStore.get_remove, rowsOf.bound]
    simp only [Prod.mk.injEq, Symbol.asStr_injective.eq_iff]
    split <;> rfl
  written account' name found stored := by
    rw [Statement.run_delete] at stored
    split at stored
    · cases stored
    · exact rowsOf.written account' name found stored

/-- The rows of a market are those of its positions. -/
theorem mem_iff (rowsOf : RowsOf row store) {symbol : Symbol} {found : Row} :
    found.symbol = symbol.asStr ∧ row found.account found.symbol = some found ↔
      ∃ pos, found = upsertRow pos ∧
        pos.symbol = symbol ∧ store.get pos.account.asStr symbol = some pos := by
  constructor
  · rintro ⟨market, stored⟩
    obtain ⟨pos, rfl, held⟩ := rowsOf.exists_stored stored
    obtain rfl := Symbol.asStr_injective market
    exact ⟨pos, rfl, rfl, held⟩
  · rintro ⟨pos, rfl, rfl, held⟩
    refine ⟨rfl, ?_⟩
    change row pos.account.asStr pos.symbol.asStr = _
    rw [rowsOf.bound, held, Option.map_some]

/-- Selecting a market returns the bound rows of a listing. -/
theorem exists_listing (rowsOf : RowsOf row store) {symbol : Symbol} {rows : List Row}
    (selects : Selects row symbol.asStr rows) :
    ∃ listing, rows = listing.map upsertRow ∧ store.Lists symbol listing := by
  have bound : ∀ found ∈ rows, ∃ pos, upsertRow pos = found := by
    intro found member
    obtain ⟨-, stored⟩ := (selects.mem_iff found).mp member
    obtain ⟨pos, same⟩ := rowsOf.written _ _ _ stored
    exact ⟨pos, same.symm⟩
  obtain ⟨listing, rfl⟩ : rows ∈ Set.range (List.map upsertRow) := by
    rw [Set.range_list_map]
    exact bound
  have held : ∀ pos, pos ∈ listing ↔
      pos.symbol = symbol ∧ store.get pos.account.asStr symbol = some pos := by
    intro pos
    rw [← List.mem_map_of_injective upsertRow_injective, selects.mem_iff, rowsOf.mem_iff]
    constructor
    · rintro ⟨other, same, held⟩
      rwa [upsertRow_injective same]
    · exact fun held => ⟨pos, rfl, held⟩
  refine ⟨listing, rfl, ?_, fun pos member => (held pos).mp member, ?_⟩
  · apply List.Nodup.map_on ?_ (List.Nodup.of_map _ selects.nodup)
    intro pos member other member' same
    obtain ⟨rfl, stored⟩ := (held pos).mp member
    obtain ⟨-, stored'⟩ := (held other).mp member'
    rw [← (Prod.mk.inj same).1, stored] at stored'
    exact Option.some.inj stored'
  · rintro ⟨account, own⟩ present rfl
    obtain ⟨pos, stored⟩ := Finmap.mem_iff.mp (Finmap.mem_keys.mp present)
    have key := store.filed _ pos stored
    obtain ⟨rfl, rfl⟩ := Prod.mk.inj key
    exact ⟨pos, (held pos).mpr ⟨rfl, stored⟩, rfl⟩

/-- As many rows as positions. -/
theorem card (rowsOf : RowsOf row store) {keys : Finset (String × String)}
    (present : ∀ key, key ∈ keys ↔ (row key.1 key.2).isSome = true) : keys.card = store.count := by
  have same : keys = store.byKey.keys.image fun key => (key.1, key.2.asStr) := by
    ext ⟨account, name⟩
    rw [present, Option.isSome_iff_exists, Finset.mem_image]
    constructor
    · rintro ⟨found, stored⟩
      have filed := rowsOf.keyed _ _ found stored
      obtain ⟨rfl, rfl⟩ := Prod.mk.inj filed
      obtain ⟨pos, rfl, held⟩ := rowsOf.exists_stored stored
      exact ⟨pos.key, Finmap.mem_keys.mpr (Finmap.mem_of_lookup_eq_some held), rfl⟩
    · rintro ⟨⟨account', symbol⟩, stored, same⟩
      obtain ⟨rfl, rfl⟩ := Prod.mk.inj same
      obtain ⟨pos, held⟩ := Finmap.mem_iff.mp (Finmap.mem_keys.mp stored)
      refine ⟨upsertRow pos, (rowsOf.bound account' symbol).trans ?_⟩
      rw [PositionStore.get, held, Option.map_some]
  have distinct : Function.Injective fun key : Key => (key.1, key.2.asStr) := by
    intro key key' same
    obtain ⟨accounts, symbols⟩ := Prod.mk.inj same
    exact Prod.ext accounts (Symbol.asStr_injective symbols)
  rw [same, Finset.card_image_of_injective _ distinct]
  rfl

end RowsOf

/-- Rows that were bound for positions are read back as these. -/
theorem mapM_rowToPosition (positions : List Position) :
    (positions.map upsertRow).mapM rowToPosition = .ok positions := by
  rw [List.mapM_map]
  induction positions with
  | nil => rfl
  | cons pos positions ih =>
    rw [List.mapM_cons, ih, Function.comp_apply, rowToPosition_upsertRow]
    rfl

/-! ## One call -/

/-- What the contract of the port answers from a store. -/
def Gives (store : PositionStore) : (call : StoreCall) → StoreAnswer call → Prop
  | .upsert _, _ => True
  | .get account symbol, held => held = store.get account symbol
  | .remove account symbol, removed => removed = store.get account symbol
  | .byMarket symbol, listing => store.Lists symbol listing
  | .count, n => n = store.count

/-- The store after a call. -/
def storeAfter (store : PositionStore) : StoreCall → PositionStore
  | .upsert position => store.upsert position
  | .remove account symbol => store.remove account symbol
  | .get _ _ => store
  | .byMarket _ => store
  | .count => store

/-- What is returned from the rows is read as an answer from the store. -/
theorem RowsOf.read_of_returns {row : Rows} {store : PositionStore} (rowsOf : RowsOf row store)
    {call : StoreCall} {value : Outcome call.statement}
    (returned : call.statement.Returns row value) :
    ∃ answer, call.read (.ok value) = .ok answer ∧ Gives store call answer := by
  cases call with
  | upsert pos => exact ⟨(), rfl, trivial⟩
  | get account symbol =>
    obtain rfl : value = row account symbol.asStr := returned
    exact ⟨_, rowsOf.readOptional_row account symbol, rfl⟩
  | remove account symbol =>
    obtain rfl : value = row account symbol.asStr := returned
    exact ⟨_, rowsOf.readOptional_row account symbol, rfl⟩
  | byMarket symbol =>
    obtain ⟨listing, rfl, lists⟩ := rowsOf.exists_listing returned
    exact ⟨listing, mapM_rowToPosition listing, lists⟩
  | count =>
    obtain ⟨keys, present, rfl⟩ := returned
    refine ⟨keys.card, ?_, rowsOf.card present⟩
    change Except.ok (max (keys.card : Int) 0).toNat = _
    rw [max_eq_left (Int.natCast_nonneg _), Int.toNat_natCast]

theorem RowsOf.afterCall {row : Rows} {store : PositionStore} (rowsOf : RowsOf row store)
    (call : StoreCall) :
    RowsOf (call.statement.run row) (storeAfter store call) := by
  cases call with
  | upsert pos => exact rowsOf.upsert pos
  | remove account symbol => exact rowsOf.delete account symbol
  | get account symbol => exact rowsOf
  | byMarket symbol => exact rowsOf
  | count => exact rowsOf

section Served
variable {db : Database} {table : db.State} {store : PositionStore} {call : StoreCall}
  {answer : PortAnswer call}

/-- A call whose texts can be stored is answered as from the store, -/
theorem gives_of_answers (serves : db.Serves) (rowsOf : RowsOf (db.row table) store)
    (storable : call.storable = true) (answered : (pgStore db).answers table call answer) :
    ∃ value, answer = .ok value ∧ Gives store call value := by
  obtain ⟨res, possible, rfl⟩ := answered
  obtain ⟨value, rfl, returned⟩ := serves.returned table call.statement res storable possible
  exact rowsOf.read_of_returns returned

/-- is answered at all, -/
theorem exists_answer (serves : db.Serves) (table : db.State) (storable : call.storable = true) :
    ∃ answer, (pgStore db).answers table call answer := by
  obtain ⟨res, possible⟩ := serves.answered table call.statement storable
  exact ⟨_, res, possible, rfl⟩

/-- and takes the rows along. -/
theorem rowsOf_after (serves : db.Serves) (rowsOf : RowsOf (db.row table) store)
    (storable : call.storable = true) :
    RowsOf (db.row ((pgStore db).effect table call answer)) (storeAfter store call) := by
  change RowsOf (db.row (db.after table call.statement)) _
  rw [serves.written table call.statement storable]
  exact rowsOf.afterCall call

/-- A refused call answers an error and changes nothing. -/
theorem refused_answers (serves : db.Serves) (refused : call.storable = false)
    (answered : (pgStore db).answers table call answer) :
    (∃ e, answer = .error e) ∧
      db.row ((pgStore db).effect table call answer) = db.row table := by
  obtain ⟨errors, kept⟩ := serves.refused table call.statement refused
  obtain ⟨res, possible, rfl⟩ := answered
  obtain ⟨text, rfl⟩ := errors res possible
  refine ⟨⟨toPort (.other text), ?_⟩, kept⟩
  cases call <;> rfl

end Served

/-! ## The stores -/

/-- Both stores stand for one store. -/
def StandForOne (db : Database) (table : db.State) (g : MemoryPositionStore) : Prop :=
  ∃ store, Represents g store ∧ RowsOf (db.row table) store

theorem upPort_answers_iff {σ : Type} {M : Machine σ StoreCall StoreAnswer} {s : σ}
    {call : StoreCall} {answer : PortAnswer call} :
    (upPort M).answers s call answer ↔ ∃ value, answer = .ok value ∧ M.answers s call value := by
  cases answer with
  | ok value => exact ⟨fun answered => ⟨value, rfl, answered⟩, by rintro ⟨_, ⟨⟩, answered⟩; exact answered⟩
  | error e => exact ⟨by rintro ⟨⟩, by rintro ⟨_, ⟨⟩, _⟩⟩

/-- The in-memory store answers what the contract answers, -/
theorem Represents.answers_iff {g : MemoryPositionStore} {store : PositionStore}
    (represents : Represents g store) {call : StoreCall} {answer : StoreAnswer call} :
    memoryStore.answers g call answer ↔ Gives store call answer := by
  cases call with
  | upsert pos => exact Iff.rfl
  | get account symbol =>
    change answer = g.get account symbol ↔ _
    rw [represents.get]
    exact Iff.rfl
  | remove account symbol =>
    change answer = (g.remove account symbol).1 ↔ _
    rw [represents.remove_fst]
    exact Iff.rfl
  | byMarket symbol => exact represents.listsMarket_iff
  | count =>
    change answer = g.count ↔ _
    rw [represents.count]
    exact Iff.rfl

/-- and goes where it goes. -/
theorem Represents.afterCall {g : MemoryPositionStore} {store : PositionStore}
    (represents : Represents g store) (call : StoreCall) (answer : StoreAnswer call) :
    Represents (memoryStore.effect g call answer) (storeAfter store call) := by
  cases call with
  | upsert pos => exact represents.upsert pos
  | remove account symbol => exact represents.remove account symbol
  | get account symbol => exact represents
  | byMarket symbol => exact represents
  | count => exact represents

/-- The same answer, but that positions may be listed in another order. -/
def SameAnswer : (call : StoreCall) → PortAnswer call → PortAnswer call → Prop
  | .byMarket _, .ok listing, .ok listing' => listing.Perm listing'
  | _, answer, answer' => answer = answer'

theorem sameAnswer_of_gives {store : PositionStore} {call : StoreCall} {value value' : StoreAnswer call}
    (gives : Gives store call value) (gives' : Gives store call value') :
    SameAnswer call (.ok value) (.ok value') := by
  cases call with
  | upsert pos => rfl
  | get account symbol => exact congrArg Except.ok (gives.trans gives'.symm)
  | remove account symbol => exact congrArg Except.ok (gives.trans gives'.symm)
  | byMarket symbol => exact PositionStore.Lists.perm gives gives'
  | count => exact congrArg Except.ok (gives.trans gives'.symm)

section Interchange
variable {db : Database}

/-- What the table answers, the in-memory store can answer. -/
theorem memory_follows_pg (serves : db.Serves) :
    (pgStore db).Follows (upPort memoryStore) (fun call => call.storable = true) (fun _ => Eq)
      (StandForOne db) := by
  rintro table g ⟨store, represents, rowsOf⟩ call storable answer answered
  obtain ⟨value, rfl, gives⟩ := gives_of_answers serves rowsOf storable answered
  exact ⟨.ok value, rfl, represents.answers_iff.mpr gives, _, represents.afterCall call value,
    rowsOf_after serves rowsOf storable⟩

/-- What the in-memory store answers, the table answers but for the order. -/
theorem pg_follows_memory (serves : db.Serves) :
    (upPort memoryStore).Follows (pgStore db) (fun call => call.storable = true) SameAnswer
      (fun g table => StandForOne db table g) := by
  rintro g table ⟨store, represents, rowsOf⟩ call storable answer answered
  obtain ⟨value, rfl, held⟩ := upPort_answers_iff.mp answered
  obtain ⟨answer', possible⟩ := exists_answer serves table storable
  obtain ⟨value', rfl, gives⟩ := gives_of_answers serves rowsOf storable possible
  exact ⟨.ok value', sameAnswer_of_gives (represents.answers_iff.mp held) gives, possible, _,
    represents.afterCall call value, rowsOf_after serves rowsOf storable⟩

end Interchange

/-- Over a database that serves, and for calls whose texts it can store: what a fresh
table answers to them a fresh in-memory store can answer, and what a fresh in-memory
store answers to them the table answers too, but for the order of positions listed. -/
theorem stores_interchangeable {db : Database} (serves : db.Serves) {table : db.State}
    (fresh : db.Empty table) {calls : List (Call StoreCall PortAnswer)}
    (storable : ∀ c ∈ calls, c.op.storable = true) :
    ((pgStore db).Legal table calls → (upPort memoryStore).Legal .new calls) ∧
    ((upPort memoryStore).Legal .new calls → ∃ calls',
      List.Forall₂ (Machine.AlikeCalls SameAnswer) calls calls' ∧ (pgStore db).Legal table calls') := by
  have start : StandForOne db table .new := ⟨.empty, represents_new, rowsOf_empty fresh⟩
  refine ⟨fun legal => ?_, (pg_follows_memory serves).legal start storable⟩
  obtain ⟨calls', same, legal'⟩ := (memory_follows_pg serves).legal start storable legal
  rwa [Machine.eq_of_alikeCalls same]

/-! ## A database -/

/-- A table in memory, every row under its primary key. -/
structure Table where
  rows : FiniteMap (String × String) Row
  filed : ∀ key row, rows.lookup key = some row → (row.account, row.symbol) = key

namespace Table

def empty : Table := ⟨∅, fun key row stored => by simp at stored⟩

def row (table : Table) : Rows := fun account symbol => table.rows.lookup (account, symbol)

def upsert (table : Table) (row : Row) : Table where
  rows := table.rows.insert (row.account, row.symbol) row
  filed key other stored := by
    rw [FiniteMap.lookup_insert_eq] at stored
    split at stored
    · next same => rw [← Option.some.inj stored, same]
    · exact table.filed key other stored

def delete (table : Table) (account symbol : String) : Table where
  rows := table.rows.erase (account, symbol)
  filed key other stored := by
    rw [FiniteMap.lookup_erase_eq] at stored
    split at stored
    · cases stored
    · exact table.filed key other stored

def run (table : Table) : Statement → Table
  | .upsert row => table.upsert row
  | .delete account symbol => table.delete account symbol
  | .select _ _ => table
  | .selectMarket _ => table
  | .selectCount => table

def outcome (table : Table) (statement : Statement) (res : SqlxResult statement) : Prop :=
  if statement.storable then ∃ value, res = .ok value ∧ statement.Returns table.row value
  else res = .error (.other "invalid byte sequence")

def after (table : Table) (statement : Statement) : Table :=
  if statement.storable then table.run statement else table

/-- The database with this table. It returns rows in any order. -/
def database : Database := ⟨Table, outcome, after, row⟩

/-- Every market can be selected. -/
theorem exists_selects (table : Table) (symbol : String) : ∃ rows, Selects table.row symbol rows := by
  classical
  let found : Finset Row := table.rows.keys.filterMap
    (fun key => (table.rows.lookup key).filter fun row => row.symbol = symbol)
    (by
      intro key key' row mine other
      rw [Option.mem_def, Option.filter_eq_some_iff] at mine other
      rw [← table.filed key row mine.1, table.filed key' row other.1])
  refine ⟨found.toList, found.nodup_toList, fun row => ?_⟩
  rw [Finset.mem_toList, Finset.mem_filterMap]
  constructor
  · rintro ⟨key, -, own⟩
    rw [Option.filter_eq_some_iff] at own
    have filed := table.filed key row own.1
    refine ⟨by simpa using own.2, ?_⟩
    rw [Table.row, filed]
    exact own.1
  · rintro ⟨rfl, stored⟩
    refine ⟨(row.account, row.symbol), ?_, ?_⟩
    · exact Finmap.mem_keys.mpr (Finmap.mem_of_lookup_eq_some stored)
    · rw [Option.filter_eq_some_iff]
      exact ⟨stored, by simp⟩

theorem exists_returned (table : Table) (statement : Statement) :
    ∃ value, statement.Returns table.row value := by
  cases statement with
  | upsert row => exact ⟨(), trivial⟩
  | select account symbol => exact ⟨_, rfl⟩
  | delete account symbol => exact ⟨_, rfl⟩
  | selectMarket symbol => exact table.exists_selects symbol
  | selectCount =>
    refine ⟨_, table.rows.keys, fun key => ?_, rfl⟩
    rw [Finmap.mem_keys, Finmap.mem_iff, Table.row, Option.isSome_iff_exists]

theorem row_run (table : Table) (statement : Statement) :
    (table.run statement).row = statement.run table.row := by
  funext account symbol
  cases statement with
  | upsert row => exact FiniteMap.lookup_insert_eq ..
  | delete account' symbol' => exact FiniteMap.lookup_erase_eq ..
  | select account' symbol' => rfl
  | selectMarket symbol' => rfl
  | selectCount => rfl

theorem outcome_of_storable (table : Table) {statement : Statement}
    (storable : statement.storable = true) (res : SqlxResult statement) :
    table.outcome statement res ↔ ∃ value, res = .ok value ∧ statement.Returns table.row value := by
  rw [outcome, if_pos storable]

theorem outcome_of_refused (table : Table) {statement : Statement}
    (refused : statement.storable = false) (res : SqlxResult statement) :
    table.outcome statement res ↔ res = .error (.other "invalid byte sequence") := by
  rw [outcome, if_neg (ne_true_of_eq_false refused)]

theorem empty_fresh : database.Empty empty := by
  intro account symbol
  change Table.row empty account symbol = none
  rw [Table.row, empty]
  exact Finmap.lookup_empty _

theorem serves : database.Serves where
  keyed table account symbol row stored := table.filed (account, symbol) row stored
  refused table statement refused :=
    ⟨fun res possible => ⟨_, (table.outcome_of_refused refused res).mp possible⟩,
      congrArg Table.row (if_neg (ne_true_of_eq_false refused))⟩
  answered table statement storable := by
    obtain ⟨value, returned⟩ := table.exists_returned statement
    exact ⟨.ok value, (table.outcome_of_storable storable _).mpr ⟨value, rfl, returned⟩⟩
  returned table statement res storable := (table.outcome_of_storable storable res).mp
  written table statement storable :=
    (congrArg Table.row (if_pos storable)).trans (table.row_run statement)

end Table

open Sample in
/-- Two positions of one market, listed, and one of them removed twice. -/
theorem stores_interchangeable_two_positions :
    let long :=
      openedPosition alice sol .long .cross (contracts 10) (price 100) tenfold (dollars 60)
    let short := openedPosition bob sol .short .cross (contracts 5) (price 100) tenfold (dollars 50)
    let calls : List (Call StoreCall PortAnswer) :=
      [⟨.upsert long, .ok ()⟩, ⟨.upsert short, .ok ()⟩, ⟨.byMarket sol, .ok [short, long]⟩,
        ⟨.remove "alice" sol, .ok (some long)⟩, ⟨.remove "alice" sol, .ok none⟩, ⟨.count, .ok 1⟩]
    ∃ calls', List.Forall₂ (Machine.AlikeCalls SameAnswer) calls calls' ∧
      (pgStore Table.database).Legal Table.empty calls' ∧ (upPort memoryStore).Legal .new calls' := by
  intro long short calls
  have storable : ∀ c ∈ calls, c.op.storable = true := by decide +kernel
  have held : (upPort memoryStore).Legal .new calls := by
    refine ⟨trivial, trivial, ⟨["bob", "alice"], by decide, by decide, by decide⟩, ?_, ?_, ?_, trivial⟩
      <;> rfl
  obtain ⟨calls', same, possible⟩ := (stores_interchangeable Table.serves Table.empty_fresh storable).2 held
  have storable' := Machine.op_of_alikeCalls (fun call => call.storable = true) same storable
  exact ⟨calls', same, possible, (stores_interchangeable Table.serves Table.empty_fresh storable').1 possible⟩

end MarginGuard.Guarantees
