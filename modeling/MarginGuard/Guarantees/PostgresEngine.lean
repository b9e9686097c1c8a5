import MarginGuard.Guarantees.PgStoreRefinement
import MarginGuard.Source.Concurrent
import MarginGuard.Source.Contracts
import MarginGuard.Source.Faults

/-!
# The engine on Postgres

Over a database that serves, an engine does what the modelled engine does over
ports that may fail (`onPostgres_simulates`), and the only failures are calls
that bind a text the database cannot store (`refusals`). Commands that name
no such text never meet one: whatever they list was stored before
(`accepted_apply`), so their interleavings are interleavings of the modelled
engine with its ports up.
-/
namespace MarginGuard.Guarantees
open Foundation Source

/-- The engine on Postgres is where the modelled one is. -/
structure Shows {db : Database} (engine : PgEngine db) (abstract : RiskEngine) : Prop where
  rows : RowsOf (db.row engine.table) abstract.store
  sink : engine.sink = abstract.sink
  state : engine.state = abstract.state
  config : engine.config = abstract.config

theorem shows_fromParts {db : Database} {table : db.State} (fresh : db.Empty table)
    (insuranceSeed : Usd) (config : EngineConfig) :
    Shows (.fromParts table insuranceSeed config) (.fromParts insuranceSeed config) :=
  ⟨rowsOf_empty fresh, rfl, rfl, rfl⟩

section Actions
variable {db : Database} {engine : PgEngine db} {abstract : RiskEngine} {action : Action}
  {ans : Answer action}

/-- Its texts being storable, an action is answered as by ports that are up. -/
theorem answered_up (serves : db.Serves) (shown : Shows engine abstract)
    (storable : action.storable = true) (answered : (onPostgres db).answers engine action ans) :
    portsUp.answers abstract action ans ∧
      Shows ((onPostgres db).effect engine action ans) (abstract.perform action ans) := by
  obtain ⟨table, sink, state, config⟩ := engine
  obtain ⟨store, _, _, _⟩ := abstract
  obtain ⟨rows, rfl, rfl, rfl⟩ := shown
  cases action
  case get account symbol =>
    have kept : RowsOf (db.row ((pgStore db).effect table (.get account symbol) ans)) store :=
      rowsOf_after serves rows storable
    obtain ⟨value, rfl, gives⟩ := gives_of_answers serves rows storable answered
    exact ⟨congrArg Except.ok gives, kept, rfl, rfl, rfl⟩
  case upsert position =>
    have written : RowsOf (db.row ((pgStore db).effect table (.upsert position) ans))
        (store.upsert position) := rowsOf_after serves rows storable
    obtain ⟨value, rfl, -⟩ := gives_of_answers serves rows storable answered
    exact ⟨rfl, written, rfl, rfl, rfl⟩
  case remove account symbol =>
    have deleted : RowsOf (db.row ((pgStore db).effect table (.remove account symbol) ans))
        (store.remove account symbol) := rowsOf_after serves rows storable
    obtain ⟨value, rfl, gives⟩ := gives_of_answers serves rows storable answered
    exact ⟨congrArg Except.ok gives, deleted, rfl, rfl, rfl⟩
  case byMarket symbol =>
    have kept : RowsOf (db.row ((pgStore db).effect table (.byMarket symbol) ans)) store :=
      rowsOf_after serves rows storable
    obtain ⟨listing, rfl, lists⟩ := gives_of_answers serves rows storable answered
    exact ⟨lists, kept, rfl, rfl, rfl⟩
  case publish events =>
    obtain rfl : ans = .ok () := answered
    exact ⟨rfl, rows, rfl, rfl, rfl⟩
  all_goals exact ⟨answered, rows, rfl, rfl, rfl⟩

/-- An action that binds a text the database cannot store fails. -/
theorem refused (serves : db.Serves) (shown : Shows engine abstract)
    (unstorable : action.storable = false) (answered : (onPostgres db).answers engine action ans) :
    Failed action ans ∧ Action.isStoreCall action = true ∧
      Shows ((onPostgres db).effect engine action ans) (abstract.perform action ans) := by
  obtain ⟨table, sink, state, config⟩ := engine
  obtain ⟨store, _, _, _⟩ := abstract
  obtain ⟨rows, rfl, rfl, rfl⟩ := shown
  cases action
  case get account symbol =>
    obtain ⟨⟨e, rfl⟩, kept⟩ := refused_answers serves unstorable answered
    rw [← kept] at rows
    exact ⟨trivial, rfl, rows, rfl, rfl, rfl⟩
  case upsert position =>
    obtain ⟨⟨e, rfl⟩, kept⟩ := refused_answers serves unstorable answered
    rw [← kept] at rows
    exact ⟨trivial, rfl, rows, rfl, rfl, rfl⟩
  case remove account symbol =>
    obtain ⟨⟨e, rfl⟩, kept⟩ := refused_answers serves unstorable answered
    rw [← kept] at rows
    exact ⟨trivial, rfl, rows, rfl, rfl, rfl⟩
  case byMarket symbol =>
    obtain ⟨⟨e, rfl⟩, kept⟩ := refused_answers serves unstorable answered
    rw [← kept] at rows
    exact ⟨trivial, rfl, rows, rfl, rfl, rfl⟩
  all_goals cases unstorable

end Actions

theorem onPostgres_simulates {db : Database} (serves : db.Serves) :
    (onPostgres db).Simulates (portsMayFail Action.isStoreCall) Shows := by
  intro engine abstract shown action ans answered
  cases storable : action.storable with
  | true =>
    obtain ⟨up, after⟩ := answered_up serves shown storable answered
    exact ⟨.inl up, after⟩
  | false =>
    obtain ⟨failed, own, after⟩ := refused serves shown storable answered
    exact ⟨.inr ⟨own, failed⟩, after⟩

/-! ## Commands without such texts -/

/-- The texts a position is filed under can be stored. -/
def storablePosition (pos : Position) : Bool :=
  storableText pos.account.asStr && storableText pos.symbol.asStr

/-- A listing brings only such positions. -/
def BringsStorable : (action : Action) → Answer action → Prop
  | .byMarket _, .ok listing => ∀ pos ∈ listing, storablePosition pos = true
  | _, _ => True

/-- The database accepts what a command that names storable texts asks of it. -/
theorem accepted_apply {command : RiskCommand} (storable : command.storable = true) :
    Program.Delivers (fun action => Action.storable action = true) BringsStorable (fun _ => True)
      (RiskEngine.apply command) := by
  obtain ⟨market, names⟩ := (Bool.and_eq_true _ _).mp storable
  refine RiskEngine.delivers_apply rfl ?_ fun _ _ => rfl
  cases command with
  | openPosition account symbol side marginMode size entryPrice leverage margin =>
    have key : (storableText account.asStr && storableText symbol.asStr) = true :=
      (Bool.and_eq_true _ _).mpr ⟨names, market⟩
    exact Program.Delivers.weaken (RiskEngine.delivers_openPosition
      ((storable_get _ _).trans key) fun _ => ⟨rfl, (storable_upsert _).trans key, rfl⟩)
      fun _ _ => trivial
  | closePosition account symbol =>
    have key : (storableText account.asStr && storableText symbol.asStr) = true :=
      (Bool.and_eq_true _ _).mpr ⟨names, market⟩
    exact RiskEngine.delivers_close ((storable_remove _ _).trans key) rfl rfl
  | updateMarket symbol markPrice indexPrice fundingRateBps =>
    exact RiskEngine.delivers_updateMarket rfl
  | accrueFunding symbol =>
    exact Program.Delivers.weaken (RiskEngine.delivers_accrueFunding rfl
      ((storable_byMarket symbol).trans market) fun listing brings =>
        ⟨fun pos member _ => (storable_upsert _).trans (brings pos member), fun _ => rfl⟩)
      fun _ _ => trivial
  | liquidateMarket symbol =>
    refine Program.Delivers.weaken (RiskEngine.delivers_liquidateMarket rfl
      ((storable_byMarket symbol).trans market)
      fun listing brings => ⟨fun pos member => ⟨?_, fun _ => ⟨rfl, rfl⟩⟩, rfl, rfl⟩)
      fun _ _ => trivial
    have account := ((Bool.and_eq_true _ _).mp (brings pos member)).1
    exact (storable_remove _ _).trans ((Bool.and_eq_true _ _).mpr ⟨account, market⟩)

/-! ## Runs -/

/-- What ports that are up answer is no failure. -/
theorem not_failed {engine : RiskEngine} {action : Action} {ans : Answer action}
    (up : portsUp.answers engine action ans) : ¬ Failed action ans := by
  cases action
  case get account symbol =>
    obtain rfl : ans = .ok (engine.store.get account symbol) := up
    exact id
  case upsert position =>
    obtain rfl : ans = .ok () := up
    exact id
  case remove account symbol =>
    obtain rfl : ans = .ok (engine.store.get account symbol) := up
    exact id
  case byMarket symbol =>
    cases ans with
    | ok listing => exact id
    | error e => exact absurd up id
  case publish events =>
    obtain rfl : ans = .ok () := up
    exact id
  all_goals exact id

/-- A call fails exactly when it is refused. -/
theorem refusals {db : Database} (serves : db.Serves) :
    (onPostgres db).Upholds (fun engine => ∃ abstract, Shows engine abstract)
      (fun _ => True) fun action ans => Failed action ans ↔ action.storable = false where
  sound := by
    rintro engine action ans ⟨abstract, shown⟩ - answered
    cases storable : action.storable with
    | true =>
      exact iff_of_false (not_failed (answered_up serves shown storable answered).1) Bool.noConfusion
    | false => exact iff_of_true (refused serves shown storable answered).1 rfl
  keeps := by
    rintro engine action ans ⟨abstract, shown⟩ - answered
    exact ⟨_, (onPostgres_simulates serves engine abstract shown action ans answered).2⟩

/-- The positions in the table have come in through calls that were accepted. -/
def AllStorable {db : Database} (engine : PgEngine db) : Prop :=
  ∃ abstract, Shows engine abstract ∧
    ∀ key pos, abstract.held key = some pos → storablePosition pos = true

theorem acceptance {db : Database} (serves : db.Serves) :
    (onPostgres db).Upholds AllStorable (fun action => Action.storable action = true)
      BringsStorable where
  sound := by
    rintro engine action ans ⟨abstract, shown, each⟩ storable answered
    obtain ⟨up, -⟩ := answered_up serves shown storable answered
    cases action
    case byMarket symbol =>
      cases ans with
      | error e => exact absurd up id
      | ok listing =>
        intro pos member
        have lists : abstract.store.Lists symbol listing := up
        exact each (pos.account.asStr, symbol) pos (lists.stored pos member).2
    all_goals trivial
  keeps := by
    rintro engine action ans ⟨abstract, shown, each⟩ storable answered
    obtain ⟨up, after⟩ := answered_up serves shown storable answered
    refine ⟨_, after, fun key pos stored => ?_⟩
    change (portsUp.effect abstract action ans).held key = some pos at stored
    have effect := @held_effect abstract ⟨action, ans⟩ up key
    dsimp only at effect
    rw [effect] at stored
    cases action
    case upsert position =>
      dsimp only at stored
      split at stored
      · rw [← Option.some.inj stored]
        exact (storable_upsert position).symm.trans storable
      · exact each key pos stored
    case remove account symbol =>
      dsimp only at stored
      split at stored
      · cases stored
      · exact each key pos stored
    all_goals exact each key pos stored

/-- Where nothing failed, the ports were up. -/
theorem run_up {ι α : Type} [DecidableEq ι] {may : Action → Bool} {engine engine' : RiskEngine}
    {pool pool' : ι → Program Action Answer α} {trace : List (EngineAct ι)}
    (run : Run (portsMayFail may) engine pool trace engine' pool')
    (up : ∀ a ∈ trace, ¬ Failed a.call.op a.call.ans) : Run portsUp engine pool trace engine' pool' := by
  induction run with
  | refl => exact .refl _ _
  | step i head allowed rest ih =>
    have answered := allowed.resolve_right fun failed => up _ (List.mem_cons_self ..) failed.2
    exact .step i head answered (ih fun a member => up a (List.mem_cons_of_mem _ member))

/-- Any interleaving of commands on Postgres. -/
abbrev OnPostgres {ι : Type} [DecidableEq ι] (db : Database) (commands : ι → RiskCommand)
    (engine : PgEngine db) (trace : List (EngineAct ι)) (engine' : PgEngine db) (threads : ι → Thread) :
    Prop :=
  Run (onPostgres db) engine (fun i => RiskEngine.apply (commands i)) trace engine' threads

/-- Over a database that serves, commands on a fresh table do, call by call, what they
do over ports that may fail. A call fails exactly when it binds a text the database
cannot store, and where no command names such a text the ports are up. -/
theorem postgres_refines_engine {ι : Type} [DecidableEq ι] {db : Database} (serves : db.Serves)
    {table : db.State} (fresh : db.Empty table) {commands : ι → RiskCommand}
    {insuranceSeed : Usd} {config : EngineConfig} {trace : List (EngineAct ι)} {engine : PgEngine db}
    {threads : ι → Thread}
    (run : OnPostgres db commands (.fromParts table insuranceSeed config) trace engine threads) :
    ∃ abstract, Shows engine abstract ∧
      Run (portsMayFail Action.isStoreCall) (.fromParts insuranceSeed config)
        (fun i => RiskEngine.apply (commands i)) trace abstract threads ∧
      (∀ a ∈ trace, Failed a.call.op a.call.ans ↔ a.call.op.storable = false) ∧
      ((∀ i, (commands i).storable = true) →
        Concurrent commands (.fromParts insuranceSeed config) trace abstract threads) := by
  have start := shows_fromParts fresh insuranceSeed config
  obtain ⟨abstract, mayFail, shown⟩ := (onPostgres_simulates serves).run start run
  have failures := (run.obeys (fun _ => refusals serves) ⟨_, start⟩
    fun i => Program.obeys_trivial _).2.1
  refine ⟨abstract, shown, mayFail, fun a member => (failures a member).2, fun storable => ?_⟩
  have accepted := (run.obeys (fun _ => acceptance serves) ⟨_, start, fun key pos stored => by
    simp [RiskEngine.held, RiskEngine.fromParts, PositionStore.get, PositionStore.empty] at stored⟩
    fun i => accepted_apply (storable i)).2.1
  refine run_up mayFail fun a member failed => ?_
  have unstorable := (failures a member).2.mp failed
  rw [(accepted a member).1] at unstorable
  cases unstorable

open Sample in
/-- A quote, and an account id of one character the database cannot store. -/
def quoteAndStray (i : Fin 2) : RiskCommand :=
  if i = 0 then .updateMarket sol (price 100) (price 100) (rate 5)
  else .closePosition ⟨"\x00", by decide, by decide⟩ sol

open Sample in
/-- The market is written while the close is refused. -/
theorem postgres_refines_engine_refused_close :
    ∃ trace engine threads abstract,
      OnPostgres Table.database quoteAndStray (.fromParts Table.empty (dollars 1) standard) trace
        engine threads ∧
      threads 1 = .done (.error (.port (.internal "invalid byte sequence"))) ∧
      Shows engine abstract ∧ (abstract.market sol).isSome = true := by
  let refusal : PortError := .internal "invalid byte sequence"
  have unstorable : (StoreCall.remove "\x00" sol).storable = false := by decide
  have answered : (pgStore Table.database).answers Table.empty (.remove "\x00" sol) (.error refusal) :=
    ⟨_, (Table.outcome_of_refused Table.empty unstorable _).mpr rfl, rfl⟩
  have run : OnPostgres Table.database quoteAndStray (.fromParts Table.empty (dollars 1) standard)
      [⟨1, ⟨.tryAcquire, true⟩⟩, ⟨0, ⟨.tryAcquire, true⟩⟩,
        ⟨0, ⟨.insertMarket ⟨sol, price 100, price 100, rate 5⟩, ()⟩⟩,
        ⟨1, ⟨.remove "\x00" sol, .error refusal⟩⟩] _ _ :=
    .step 1 rfl trivial (.step 0 rfl trivial (.step 0 rfl trivial
      (.step 1 rfl answered (.refl _ _))))
  obtain ⟨abstract, shown, -⟩ := postgres_refines_engine Table.serves Table.empty_fresh run
  refine ⟨_, _, _, abstract, run, rfl, shown, ?_⟩
  rw [RiskEngine.market, ← shown.state]
  decide

end MarginGuard.Guarantees
