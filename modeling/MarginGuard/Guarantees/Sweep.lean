import MarginGuard.Source.Invariants
import MarginGuard.Source.Script

/-!
# What a sweep liquidates

`account_health` and the sweep decide liquidation in two places of the source.
They agree at every engine (`reportedLiquidatable_iff`), so a sweep removes
exactly the positions the health view flags (`sweep_liquidates_reported`), with
one event and one count for each, and leaves nothing for a second sweep.
-/
namespace MarginGuard.Guarantees
open Foundation Source

/-- `account_health`, asked now, flags the position. -/
def ReportedLiquidatable (engine : RiskEngine) (account : String) (symbol : Symbol) : Prop :=
  ∃ health engine', portsUp.Completes engine (RiskEngine.accountHealth account symbol) (.ok health)
    engine' ∧ health.liquidatable = true

/-- What a sweep from `engine` to `engine'` at `mark` owes its caller. -/
structure SweepGuarantee (engine engine' : RiskEngine) (symbol : Symbol) (mark : Price)
    (events : List RiskEvent) : Prop where
  removed : ∀ account, ReportedLiquidatable engine account symbol →
    engine'.store.get account symbol = none
  kept : ∀ account symbol', ¬ (symbol' = symbol ∧ ReportedLiquidatable engine account symbol) →
    engine'.store.get account symbol' = engine.store.get account symbol'
  one_event : ∀ account : AccountId, ReportedLiquidatable engine account.asStr symbol →
    ((liquidationsOf events).map Liquidation.account).count account = 1
  no_other_event : ∀ liquidation ∈ liquidationsOf events, liquidation.symbol = symbol ∧
    ReportedLiquidatable engine liquidation.account.asStr symbol
  reason : ∀ liquidation ∈ liquidationsOf events, ∃ pos,
    engine.store.get liquidation.account.asStr symbol = some pos ∧
      (liquidation.reason = .bankruptcy ↔ (positionEquity pos mark).toInt < 0)
  store_count : engine'.store.count + (liquidationsOf events).length = engine.store.count
  liquidations : engine'.stats.liquidations =
    engine.stats.liquidations + (liquidationsOf events).length
  openPositions : engine'.stats.openPositions + (liquidationsOf events).length =
    engine.stats.openPositions
  again : ∀ result engine'', Executes engine' (.liquidateMarket symbol) result engine'' →
    eventsOf result = [] ∧ engine'' = engine'

/-! ## The two decisions agree -/

theorem accountHealth_completes {engine : RiskEngine} {symbol : Symbol} {pos : Position}
    {state : MarketState} {account : String} (present : engine.store.get account symbol = some pos)
    (priced : engine.market symbol = some state) :
    portsUp.Completes engine (RiskEngine.accountHealth account symbol)
      (.ok (accountHealth pos state.markPrice (engine.riskParams symbol))) engine := by
  refine ⟨[⟨.get account symbol, .ok (some pos)⟩, ⟨.markFor symbol, some state.markPrice⟩,
    ⟨.riskParams symbol, engine.riskParams symbol⟩], ?_, ?_, rfl⟩
  · exact ⟨.ok (some pos), _, rfl, some state.markPrice, _, rfl, _, _, rfl, rfl, rfl⟩
  · refine ⟨congrArg Except.ok present.symm, ?_, rfl, trivial⟩
    change some state.markPrice = (engine.market symbol).map _
    rw [priced]
    rfl

/-- The health view flags exactly what a sweep at the same state takes. -/
theorem reportedLiquidatable_iff {engine : RiskEngine} {symbol : Symbol} {state : MarketState}
    (priced : engine.market symbol = some state) (account : String) :
    ReportedLiquidatable engine account symbol ↔ ∃ pos,
      engine.store.get account symbol = some pos ∧
        isLiquidatable pos state.markPrice (engine.riskParams symbol) = true := by
  constructor
  · rintro ⟨health, engine', ⟨calls, run, legal, final⟩, flagged⟩
    cases returns_accountHealth run with
    | reported pos mark params =>
      obtain ⟨present, marked, rfl, _⟩ := legal
      change some mark = (engine.market symbol).map _ at marked
      rw [priced] at marked
      obtain rfl := Option.some.inj marked
      rw [liquidatable_account_health] at flagged
      exact ⟨pos, (Except.ok.inj present).symm, flagged⟩
  · rintro ⟨pos, present, breach⟩
    refine ⟨_, engine, accountHealth_completes present priced, ?_⟩
    rw [liquidatable_account_health, breach]

/-! ## Events -/

theorem reason_eq_bankruptcy_iff (symbol : Symbol) (s : Settlement) :
    (s.liquidation symbol).reason = .bankruptcy ↔ s.equity.toInt < 0 := by
  rw [← Usd.isNegative_iff]
  change (if s.bankrupt then _ else _) = _ ↔ s.bankrupt = true
  cases s.bankrupt <;> simp

/-! ## The guarantee -/

section Swept
variable {engine : RiskEngine} {symbol : Symbol} {state : MarketState} {listing : List Position}
  {settled : List Settlement}

/-- After a sweep nothing is left to settle. -/
theorem processed_after_sweep (lists : engine.store.Lists symbol listing)
    (processed : Processed state.markPrice (engine.riskParams symbol) listing settled)
    {listing' : List Position} {settled' : List Settlement}
    (lists' : (engine.swept symbol settled).store.Lists symbol listing')
    (processed' : Processed state.markPrice (engine.riskParams symbol) listing' settled') :
    settled' = [] := by
  rw [← List.map_eq_nil_iff (f := Settlement.position), processed'.positions_eq,
    List.filter_eq_nil_iff]
  intro pos member
  have stored := (lists'.mem_iff pos).mp member
  rw [RiskEngine.swept_store, processed.get_removeAll lists, if_pos rfl] at stored
  have survives := (Option.filter_eq_some_iff.mp stored).2
  simpa using survives

theorem sweep_again {engine' engine'' : RiskEngine} {events : List RiskEvent}
    {result : Except CoreError CommandOutcome}
    (final : engine' = (engine.swept symbol settled).emit events)
    (priced : engine.market symbol = some state) (lists : engine.store.Lists symbol listing)
    (processed : Processed state.markPrice (engine.riskParams symbol) listing settled)
    (ran : Executes engine' (.liquidateMarket symbol) result engine'') :
    eventsOf result = [] ∧ engine'' = engine' := by
  subst final
  cases ran.transition with
  | rateLimited => exact ⟨rfl, rfl⟩
  | sweepUnpriced unpriced => exact ⟨rfl, rfl⟩
  | swept state' listing' settled' priced' lists' processed' waterfall' =>
    have same : state' = state := Option.some.inj (priced'.symm.trans priced)
    subst same
    obtain rfl := processed_after_sweep lists processed lists' processed'
    refine ⟨rfl, ?_⟩
    rw [RiskEngine.swept_nil]
    exact RiskEngine.emit_nil _

/-- A sweep leaves the positions the health view does not flag. -/
theorem swept_kept (priced : engine.market symbol = some state)
    (lists : engine.store.Lists symbol listing)
    (processed : Processed state.markPrice (engine.riskParams symbol) listing settled)
    {account : String} {symbol' : Symbol}
    (other : ¬ (symbol' = symbol ∧ ReportedLiquidatable engine account symbol)) :
    (engine.swept symbol settled).store.get account symbol' = engine.store.get account symbol' := by
  rw [RiskEngine.swept_store, processed.get_removeAll lists]
  split
  · next same =>
    subst same
    cases present : engine.store.get account symbol' with
    | none => rfl
    | some pos =>
      have healthy : isLiquidatable pos state.markPrice (engine.riskParams symbol') = false := by
        by_contra breach
        rw [Bool.not_eq_false] at breach
        exact other ⟨rfl, (reportedLiquidatable_iff priced account).mpr ⟨pos, present, breach⟩⟩
      simp [Option.filter, healthy]
  · rfl

/-- A sweep emits one liquidation for each position the health view flags. -/
theorem swept_one_event (priced : engine.market symbol = some state)
    (lists : engine.store.Lists symbol listing)
    (processed : Processed state.markPrice (engine.riskParams symbol) listing settled)
    {account : AccountId} (flagged : ReportedLiquidatable engine account.asStr symbol) :
    ((liquidationsOf (sweepEvents symbol settled)).map Liquidation.account).count account = 1 := by
  obtain ⟨pos, present, breach⟩ := (reportedLiquidatable_iff priced account.asStr).mp flagged
  have own : pos.account = account := AccountId.asStr_injective
    (PositionStore.account_of_get present)
  have member : pos ∈ settled.map Settlement.position := by
    rw [processed.positions_eq]
    exact List.mem_filter.mpr ⟨(lists.mem_iff pos).mpr (by rw [own]; exact present), breach⟩
  have accounts : (liquidationsOf (sweepEvents symbol settled)).map Liquidation.account =
      (settled.map Settlement.position).map Position.account := by
    rw [liquidationsOf_sweep, List.map_map, List.map_map]
    rfl
  have nodup : ((settled.map Settlement.position).map Position.account).Nodup := by
    rw [processed.positions_eq]
    exact (List.Sublist.map _ List.filter_sublist).nodup lists.accounts_nodup
  rw [accounts]
  exact List.count_eq_one_of_mem nodup (List.mem_map.mpr ⟨pos, member, own⟩)

theorem sweepGuarantee_of_swept (counted : engine.store.count ≤ engine.stats.openPositions)
    (priced : engine.market symbol = some state) (lists : engine.store.Lists symbol listing)
    (processed : Processed state.markPrice (engine.riskParams symbol) listing settled) :
    SweepGuarantee engine ((engine.swept symbol settled).emit (sweepEvents symbol settled)) symbol
      state.markPrice (sweepEvents symbol settled) := by
  have reported := reportedLiquidatable_iff priced
  have fewer := processed.count_removeAll lists
  have stored : ∀ s ∈ settled, engine.store.get s.position.account.asStr symbol = some s.position :=
    fun s member => processed.stored lists member
  have liquidated := liquidationsOf_sweep symbol settled
  refine ⟨?_, fun _ _ => swept_kept priced lists processed,
    fun _ => swept_one_event priced lists processed, ?_, ?_, ?_, ?_, ?_, ?_⟩
  · intro account flagged
    obtain ⟨pos, present, breach⟩ := (reported account).mp flagged
    rw [RiskEngine.emit_store, RiskEngine.swept_store, processed.get_removeAll lists, if_pos rfl,
      present]
    simp [Option.filter, breach]
  · intro liquidation member
    rw [liquidated] at member
    obtain ⟨s, settledMember, rfl⟩ := List.mem_map.mp member
    exact ⟨rfl, (reported _).mpr ⟨s.position, stored s settledMember,
      (processed.mem_listing settledMember).2⟩⟩
  · intro liquidation member
    rw [liquidated] at member
    obtain ⟨s, settledMember, rfl⟩ := List.mem_map.mp member
    refine ⟨s.position, stored s settledMember, ?_⟩
    rw [reason_eq_bankruptcy_iff, Settlement.equity, (processed.terms s settledMember).1]
  · rw [liquidated, List.length_map]
    exact fewer
  · rw [liquidated, List.length_map]
    rfl
  · rw [liquidated, List.length_map]
    change engine.stats.openPositions - settled.length + settled.length = _
    omega
  · intro result engine'' ran
    exact sweep_again rfl priced lists processed ran

end Swept

/-- A sweep of a market with a state, at any reachable engine, liquidates
exactly what `account_health` flags. -/
theorem sweep_liquidates_reported {seed : Usd} {config : EngineConfig} {engine engine' : RiskEngine}
    {symbol : Symbol} {state : MarketState} {result : Except CoreError CommandOutcome}
    (reachable : Reachable seed config engine) (priced : engine.market symbol = some state)
    (ran : Executes engine (.liquidateMarket symbol) result engine')
    (admitted : result ≠ .error .rateLimited) :
    ∃ outcome, result = .ok outcome ∧
      SweepGuarantee engine engine' symbol state.markPrice outcome.events := by
  cases ran.transition with
  | rateLimited => exact absurd rfl admitted
  | sweepUnpriced unpriced =>
    rw [unpriced] at priced
    cases priced
  | swept state' listing settled priced' lists processed waterfall =>
    have same : state' = state := Option.some.inj (priced'.symm.trans priced)
    subst same
    exact ⟨_, rfl, sweepGuarantee_of_swept reachable.sound.counted priced lists processed⟩

open Sample in
/-- The guarantee at a concrete sweep that liquidates a bankrupt position. -/
theorem sweep_liquidates_underwater_long :
    ∃ engine engine' outcome, Executes engine (.liquidateMarket sol) (.ok outcome) engine' ∧
      outcome.events ≠ [] ∧ SweepGuarantee engine engine' sol (price 90) outcome.events := by
  let pos := openedPosition alice sol .long .cross (contracts 10) (price 100) tenfold (dollars 60)
  obtain ⟨entries, engine, run, checked⟩ := exists_history_of_script (dollars 5) standard
    (fun _ _ => True)
    [({}, enter alice .long (contracts 10) (price 100) (dollars 60)), ({}, mark (price 90) (rate 0))]
    (fun _ engine => (engine.market sol == some ⟨sol, price 90, price 90, rate 0⟩) &&
      (execute { listing := [pos] } engine (.liquidateMarket sol)).any fun ran =>
        !(eventsOf ran.1).isEmpty) (by decide)
  rw [Bool.and_eq_true, beq_iff_eq] at checked
  obtain ⟨⟨result, engine'⟩, ran, nonempty⟩ := (Option.any_eq_true _ _).mp checked.2
  have executed := execute_executes ran
  cases result with
  | error e => cases nonempty
  | ok outcome =>
    obtain ⟨outcome', same, guarantee⟩ := sweep_liquidates_reported ⟨entries, run⟩ checked.1
      executed (by simp)
    obtain rfl := Except.ok.inj same
    exact ⟨engine, engine', outcome, executed, by simpa [eventsOf] using nonempty, guarantee⟩

end MarginGuard.Guarantees
