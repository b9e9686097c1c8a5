import MarginGuard.Guarantees.SweepOrder
import MarginGuard.Source.Decisions

/-!
# What a larger insurance seed changes

Two engines that differ in their seed run the same commands under the same
decisions of limiter and store. No branch of a command reads the fund, so
positions, markets and counters stay equal (`SameBook`). The two funds are two
reserves under the same flows: the larger stays larger, leaves less to be
socialised, and the difference of the seeds is always accounted for
(`larger_seed_only_helps`).
-/
namespace MarginGuard.Guarantees
open Foundation Source

/-- The engines hold the same positions, markets, parameters and counters; fund,
stream and auto-deleverage count may differ. -/
structure SameBook (one other : RiskEngine) : Prop where
  store_eq : one.store = other.store
  markets_eq : one.state.markets = other.state.markets
  risk_eq : one.state.risk = other.state.risk
  config_eq : one.config = other.config
  openPositions_eq : one.stats.openPositions = other.stats.openPositions
  liquidations_eq : one.stats.liquidations = other.stats.liquidations
  fundingSettlements_eq : one.stats.fundingSettlements = other.stats.fundingSettlements

/-- The market a command sweeps, with its state. -/
def sweepOf (env : Environment) (engine : RiskEngine) : RiskCommand → Option (Symbol × MarketState)
  | .liquidateMarket symbol =>
    if env.admitted then (engine.market symbol).map fun state => (symbol, state) else none
  | _ => none

/-- The fund movements of a sweep over the environment's listing. -/
def flowsOf (env : Environment) (engine : RiskEngine) (symbol : Symbol) (state : MarketState) :
    List (Flow Int) :=
  sweepFlows state.markPrice (engine.riskParams symbol) env.listing

/-- No credit of the sweep a command runs is capped. -/
def CreditsFit (env : Environment) (engine : RiskEngine) (command : RiskCommand) : Prop :=
  ∀ swept ∈ sweepOf env engine command, Reserve.Unclipped (minInt 128) (maxInt 128)
    engine.insuranceBalance.toInt (flowsOf env engine swept.1 swept.2)

/-- The same commands under the same decisions, from two seeds. -/
inductive SideBySide (seed seed' : Usd) (config : EngineConfig) :
    List Entry → RiskEngine → List Entry → RiskEngine → Prop
  | fresh : SideBySide seed seed' config [] (.fromParts seed config) [] (.fromParts seed' config)
  | apply {entries entries' : List Entry} {one one' other other' : RiskEngine}
      {command : RiskCommand} {result result' : Except CoreError CommandOutcome}
      (before : SideBySide seed seed' config entries one entries' other) (env : Environment)
      (ran : execute env one command = some (result, one'))
      (ran' : execute env other command = some (result', other'))
      (fits : CreditsFit env other command) :
      SideBySide seed seed' config (entries ++ [⟨command, result⟩]) one'
        (entries' ++ [⟨command, result'⟩]) other'

/-- The liquidations a run reported, in order. -/
def liquidationsIn (entries : List Entry) : List Liquidation :=
  entries.flatMap fun entry => liquidationsOf (eventsOf entry.result)

/-- The losses a run socialised. -/
def socializedIn (entries : List Entry) : Int :=
  ((liquidationsIn entries).map fun l => l.socializedLoss.toInt).sum

/-- The same liquidation, with no larger loss socialised. -/
structure Milder (first second : Liquidation) : Prop where
  account_eq : first.account = second.account
  symbol_eq : first.symbol = second.symbol
  reason_eq : first.reason = second.reason
  closedNotional_eq : first.closedNotional = second.closedNotional
  socialized_le : second.socializedLoss.toInt ≤ first.socializedLoss.toInt

/-! ## One command -/

namespace SameBook
variable {one other : RiskEngine}

theorem market (same : SameBook one other) (symbol : Symbol) :
    one.market symbol = other.market symbol := by
  rw [RiskEngine.market, same.markets_eq, RiskEngine.market]

theorem riskParams (same : SameBook one other) (symbol : Symbol) :
    one.riskParams symbol = other.riskParams symbol := by
  rw [RiskEngine.riskParams, same.risk_eq, same.config_eq, RiskEngine.riskParams]

theorem emit (same : SameBook one other) (events events' : List RiskEvent) :
    SameBook (one.emit events) (other.emit events') :=
  ⟨same.store_eq, same.markets_eq, same.risk_eq, same.config_eq, same.openPositions_eq,
    same.liquidations_eq, same.fundingSettlements_eq⟩

theorem setStore (same : SameBook one other) {store store' : PositionStore} (eq : store = store') :
    SameBook (one.setStore store) (other.setStore store') :=
  ⟨eq, same.markets_eq, same.risk_eq, same.config_eq, same.openPositions_eq,
    same.liquidations_eq, same.fundingSettlements_eq⟩

theorem opened (same : SameBook one other) (pos : Position) :
    SameBook (one.opened pos) (other.opened pos) where
  store_eq := congrArg (·.upsert pos) same.store_eq
  markets_eq := same.markets_eq
  risk_eq := same.risk_eq
  config_eq := same.config_eq
  openPositions_eq := congrArg (· + 1) same.openPositions_eq
  liquidations_eq := same.liquidations_eq
  fundingSettlements_eq := same.fundingSettlements_eq

theorem closed (same : SameBook one other) (account : String) (symbol : Symbol) :
    SameBook (one.closed account symbol) (other.closed account symbol) where
  store_eq := congrArg (·.remove account symbol) same.store_eq
  markets_eq := same.markets_eq
  risk_eq := same.risk_eq
  config_eq := same.config_eq
  openPositions_eq := congrArg (· - 1) same.openPositions_eq
  liquidations_eq := same.liquidations_eq
  fundingSettlements_eq := same.fundingSettlements_eq

theorem withMarket (same : SameBook one other) (state : MarketState) :
    SameBook (one.withMarket state) (other.withMarket state) where
  store_eq := same.store_eq
  markets_eq := congrArg (·.insert state.symbol.asStr state) same.markets_eq
  risk_eq := same.risk_eq
  config_eq := same.config_eq
  openPositions_eq := same.openPositions_eq
  liquidations_eq := same.liquidations_eq
  fundingSettlements_eq := same.fundingSettlements_eq

variable {symbol : Symbol} {listing listing' : List Position}

/-- A funding round settles the market whatever the order of its listing. -/
theorem accrued (same : SameBook one other) (lists : one.store.Lists symbol listing)
    (lists' : other.store.Lists symbol listing') (mark : Price) (rateBps : I64) :
    SameBook (one.accrued mark rateBps listing) (other.accrued mark rateBps listing') where
  store_eq := by
    have keyed : ∀ pos, (fundedPosition mark rateBps pos).key = pos.key := fun _ => rfl
    apply PositionStore.ext
    intro account symbol'
    refine (lists.get_upsertAll_map keyed account symbol').trans ?_
    rw [same.store_eq]
    exact (lists'.get_upsertAll_map keyed account symbol').symm
  markets_eq := same.markets_eq
  risk_eq := same.risk_eq
  config_eq := same.config_eq
  openPositions_eq := same.openPositions_eq
  liquidations_eq := same.liquidations_eq
  fundingSettlements_eq := by
    have perm := (same.store_eq ▸ lists).perm lists'
    exact congrArg₂ (· + ·) same.fundingSettlements_eq perm.length_eq

/-- A sweep removes the positions in breach whatever the order of its listing. -/
theorem swept (same : SameBook one other) (lists : one.store.Lists symbol listing)
    (lists' : other.store.Lists symbol listing') {mark : Price} {params : RiskParams}
    {settled settled' : List Settlement} (processed : Processed mark params listing settled)
    (processed' : Processed mark params listing' settled') :
    SameBook (one.swept symbol settled) (other.swept symbol settled') := by
  have perm := (same.store_eq ▸ lists).perm lists'
  have length : settled.length = settled'.length := by
    rw [← List.length_map Settlement.position, processed.positions_eq, (perm.filter _).length_eq,
      ← processed'.positions_eq, List.length_map]
  exact {
    store_eq := by
      apply PositionStore.ext
      intro account symbol'
      rw [RiskEngine.swept_store, RiskEngine.swept_store, processed.get_removeAll lists,
        processed'.get_removeAll lists', same.store_eq]
    markets_eq := same.markets_eq
    risk_eq := same.risk_eq
    config_eq := same.config_eq
    openPositions_eq := congrArg₂ (· - ·) same.openPositions_eq length
    liquidations_eq := congrArg₂ (· + ·) same.liquidations_eq length
    fundingSettlements_eq := same.fundingSettlements_eq }

theorem rejection (same : SameBook one other) (command : RiskCommand) :
    one.rejection command = other.rejection command := by
  unfold RiskEngine.rejection
  split <;> simp only [same.store_eq, same.market, same.riskParams]

/-- One command, refused by the limiter in both runs or in neither, keeps the
books equal: what it checks is in the book. -/
theorem step (same : SameBook one other) {command : RiskCommand} {one' other' : RiskEngine}
    {result result' : Except CoreError CommandOutcome}
    (verdict : result = .error .rateLimited ↔ result' = .error .rateLimited)
    (first : Transition one command result one')
    (second : Transition other command result' other') : SameBook one' other' := by
  have errors : errorOf result = errorOf result' := by
    by_cases admitted : result = .error .rateLimited
    · rw [admitted, verdict.mp admitted]
    · rw [first.errorOf_eq admitted, second.errorOf_eq fun refused => admitted (verdict.mpr refused),
        same.rejection]
  -- the other command of each pair cannot have ended differently
  cases first with
  | opened own absent enough =>
    subst own
    cases second with
    | opened own absent enough =>
      subst own
      exact (same.opened _).emit _ _
    | _ => cases errors
  | closeUnpriced pos present unpriced =>
    cases second with
    | closeUnpriced pos present unpriced => exact same.setStore (by rw [same.store_eq])
    | _ => cases errors
  | closed pos state present priced =>
    cases second with
    | closed pos state present priced => exact (same.closed _ _).emit _ _
    | _ => cases errors
  | updated =>
    cases second with
    | updated => exact (same.withMarket _).emit _ _
    | _ => cases errors
  | accrued state listing priced lists =>
    rw [same.market] at priced
    cases second with
    | accrued state' listing' priced' lists' =>
      obtain rfl := Option.some.inj (priced.symm.trans priced')
      exact (same.accrued lists lists' _ _).emit _ _
    | _ => cases errors
  | swept state listing settled priced lists processed waterfall =>
    rw [same.market] at priced
    cases second with
    | swept state' listing' settled' priced' lists' processed' waterfall' =>
      obtain rfl := Option.some.inj (priced.symm.trans priced')
      rw [same.riskParams] at processed
      exact (same.swept lists lists' processed processed').emit _ _
    | _ => cases errors
  | _ => cases second <;> first | exact same | cases errors

theorem sweepOf_eq (same : SameBook one other) (env : Environment) (command : RiskCommand) :
    sweepOf env one command = sweepOf env other command := by
  unfold sweepOf
  split
  · rw [same.market]
  · rfl

end SameBook

section Fund
variable {env : Environment} {engine engine' : RiskEngine} {command : RiskCommand}
  {result : Except CoreError CommandOutcome}

/-- A command that sweeps nothing leaves the fund and reports no liquidation. -/
theorem fund_kept (ran : execute env engine command = some (result, engine'))
    (unswept : sweepOf env engine command = none) :
    engine'.insuranceBalance = engine.insuranceBalance ∧
      liquidationsOf (eventsOf result) = [] := by
  have verdict := execute_rateLimited_iff ran
  cases (execute_executes ran).transition with
  | accrued state listing priced lists =>
    exact ⟨rfl, liquidationsOf_funding _ state.markPrice state.fundingRateBps listing⟩
  | swept state listing settled priced lists processed waterfall =>
    cases admitted : env.admitted with
    | true => simp [sweepOf, admitted, priced] at unswept
    | false => cases verdict.mpr admitted
  | _ => exact ⟨rfl, rfl⟩

/-- A command that sweeps runs over the environment's listing. -/
theorem sweepsOn_of_sweepOf {symbol : Symbol} {state : MarketState}
    (ran : execute env engine command = some (result, engine'))
    (swept : sweepOf env engine command = some (symbol, state)) :
    engine.market symbol = some state ∧ SweepsOn engine symbol env.listing result engine' := by
  unfold sweepOf at swept
  split at swept
  · next symbol' =>
    split at swept
    · next admitted =>
      obtain ⟨state', priced, same⟩ := Option.map_eq_some_iff.mp swept
      obtain ⟨rfl, rfl⟩ := Prod.mk.inj same
      exact ⟨priced, execute_swept ran admitted priced⟩
    · cases swept
  · cases swept

/-- One position liquidated from two funds, one below the other. -/
theorem milder_of_answered (symbol : Symbol) {fund fund' : InsuranceFund} {s s' : Settlement}
    (le : fund.balance.toInt ≤ fund'.balance.toInt) (position_eq : s.position = s'.position)
    (mark_eq : s.mark = s'.mark) (flow_eq : s.flow = s'.flow)
    (answered : s.bankrupt = true → (s.drawn, s.socialized) = (fund.cover s.equity.neg).1)
    (answered' : s'.bankrupt = true → (s'.drawn, s'.socialized) = (fund'.cover s'.equity.neg).1) :
    Milder (s.liquidation symbol) (s'.liquidation symbol) where
  account_eq := congrArg Position.account position_eq
  symbol_eq := rfl
  reason_eq := by
    have short : s.bankrupt = s'.bankrupt := by
      rw [Settlement.bankrupt, Settlement.equity, position_eq, mark_eq]
      rfl
    simp only [Settlement.liquidation, short]
  closedNotional_eq := by simp only [Settlement.liquidation, position_eq, mark_eq]
  socialized_le := by
    change s'.socialized.toInt ≤ s.socialized.toInt
    rw [socialized_of_answered answered, socialized_of_answered answered', flow_eq]
    exact Reserve.unpaid_antitone le _

/-- The same positions liquidated from two funds, one below the other. -/
theorem milder_of_waterfalls {mark : Price} {params : RiskParams} (symbol : Symbol)
    {fund fund' : InsuranceFund} {settled settled' : List Settlement}
    (le : fund.balance.toInt ≤ fund'.balance.toInt)
    (positions_eq : settled.map Settlement.position = settled'.map Settlement.position)
    (terms : ∀ s ∈ settled, s.mark = mark ∧ s.params = params)
    (terms' : ∀ s ∈ settled', s.mark = mark ∧ s.params = params)
    (waterfall : Waterfall fund settled) (waterfall' : Waterfall fund' settled') :
    List.Forall₂ Milder (settled.map (Settlement.liquidation symbol))
      (settled'.map (Settlement.liquidation symbol)) := by
  induction settled generalizing settled' fund fund' with
  | nil =>
    rw [List.map_nil, eq_comm, List.map_eq_nil_iff] at positions_eq
    rw [positions_eq]
    exact .nil
  | cons s settled ih =>
    cases settled' with
    | nil => cases positions_eq
    | cons s' settled' =>
      rw [List.map_cons, List.map_cons, List.cons.injEq] at positions_eq
      obtain ⟨mark_eq, params_eq⟩ := terms s List.mem_cons_self
      obtain ⟨mark_eq', params_eq'⟩ := terms' s' List.mem_cons_self
      have flow_eq : s.flow = s'.flow := by
        rw [Settlement.flow, Settlement.flow, mark_eq, mark_eq', params_eq, params_eq',
          positions_eq.1]
      refine .cons (milder_of_answered symbol le positions_eq.1 (mark_eq.trans mark_eq'.symm)
        flow_eq waterfall.1 waterfall'.1) ?_
      refine ih ?_ positions_eq.2 (fun t member => terms t (List.mem_cons_of_mem _ member))
        (fun t member => terms' t (List.mem_cons_of_mem _ member)) waterfall.2 waterfall'.2
      rw [balance_fundAfter, balance_fundAfter, flow_eq]
      exact Reserve.step_mono le _

end Fund

/-! ## Two runs -/

/-- What holds of two runs side by side. -/
structure Ahead (seed seed' : Usd) (config : EngineConfig) (entries : List Entry) (one : RiskEngine)
    (entries' : List Entry) (other : RiskEngine) : Prop where
  sound : Sound config one
  same : SameBook one other
  funded : 0 ≤ one.insuranceBalance.toInt
  balance_le : one.insuranceBalance.toInt ≤ other.insuranceBalance.toInt
  milder : List.Forall₂ Milder (liquidationsIn entries) (liquidationsIn entries')
  accounted : (other.insuranceBalance.toInt - one.insuranceBalance.toInt) +
    (socializedIn entries - socializedIn entries') = seed'.toInt - seed.toInt

theorem liquidationsIn_concat (entries : List Entry) (entry : Entry) :
    liquidationsIn (entries ++ [entry]) =
      liquidationsIn entries ++ liquidationsOf (eventsOf entry.result) := by
  simp [liquidationsIn]

theorem socializedIn_concat (entries : List Entry) (entry : Entry) :
    socializedIn (entries ++ [entry]) = socializedIn entries + socializedOf entry.result := by
  simp [socializedIn, socializedOf, liquidationsIn_concat]

namespace Ahead
variable {seed seed' : Usd} {config : EngineConfig} {entries entries' : List Entry}
  {one one' other other' : RiskEngine} {env : Environment} {command : RiskCommand}
  {result result' : Except CoreError CommandOutcome}

/-- One command that sweeps nothing. -/
theorem step_unswept (ahead : Ahead seed seed' config entries one entries' other)
    (ran : execute env one command = some (result, one'))
    (ran' : execute env other command = some (result', other'))
    (unswept : sweepOf env one command = none) :
    Ahead seed seed' config (entries ++ [⟨command, result⟩]) one'
      (entries' ++ [⟨command, result'⟩]) other' := by
  obtain ⟨balance, quiet⟩ := fund_kept ran unswept
  rw [ahead.same.sweepOf_eq] at unswept
  obtain ⟨balance', quiet'⟩ := fund_kept ran' unswept
  have verdict := (execute_rateLimited_iff ran).trans (execute_rateLimited_iff ran').symm
  exact {
    sound := (execute_executes ran).transition.sound ahead.sound
    same := ahead.same.step verdict (execute_executes ran).transition
      (execute_executes ran').transition
    funded := by rw [balance]; exact ahead.funded
    balance_le := by rw [balance, balance']; exact ahead.balance_le
    milder := by
      rw [liquidationsIn_concat, liquidationsIn_concat, quiet, quiet', List.append_nil,
        List.append_nil]
      exact ahead.milder
    accounted := by
      have unsocialized : socializedOf result = 0 := by rw [socializedOf, quiet]; rfl
      have unsocialized' : socializedOf result' = 0 := by rw [socializedOf, quiet']; rfl
      have kept := ahead.accounted
      rw [socializedIn_concat, socializedIn_concat, balance, balance', unsocialized, unsocialized']
      omega }

/-- One sweep: two reserves under the same flows. -/
theorem step_swept (fee : 0 ≤ config.defaultRisk.liquidationFeeBps.toInt)
    (ahead : Ahead seed seed' config entries one entries' other)
    (ran : execute env one command = some (result, one'))
    (ran' : execute env other command = some (result', other')) {symbol : Symbol}
    {state : MarketState} (swept : sweepOf env one command = some (symbol, state))
    (fits : CreditsFit env other command) :
    Ahead seed seed' config (entries ++ [⟨command, result⟩]) one'
      (entries' ++ [⟨command, result'⟩]) other' := by
  have swept' := swept
  rw [ahead.same.sweepOf_eq] at swept'
  have unclipped := fits _ swept'
  obtain ⟨priced, sweeps⟩ := sweepsOn_of_sweepOf ran swept
  obtain ⟨priced', sweeps'⟩ := sweepsOn_of_sweepOf ran' swept'
  have verdict := (execute_rateLimited_iff ran).trans (execute_rateLimited_iff ran').symm
  have same := ahead.same.step verdict (execute_executes ran).transition
    (execute_executes ran').transition
  have sound := (execute_executes ran).transition.sound ahead.sound
  have gains : ∀ amount, .credit amount ∈ flowsOf env one symbol state → 0 ≤ amount := by
    intro amount member
    exact sweepFlows_gains (by rw [ahead.sound.riskParams]; exact fee) member
  have flows_eq : flowsOf env one symbol state = flowsOf env other symbol state := by
    rw [flowsOf, flowsOf, ahead.same.riskParams]
  rw [← flows_eq] at unclipped
  obtain ⟨state₁, settled, priced₁, _, processed, waterfall, rfl, rfl⟩ := sweeps.swept
  obtain ⟨state₂, settled', priced₂, _, processed', waterfall', rfl, rfl⟩ := sweeps'.swept
  obtain rfl := Option.some.inj (priced₁.symm.trans priced)
  obtain rfl := Option.some.inj (priced₂.symm.trans priced')
  have balance := swept_balance processed
  have loss := swept_socialized processed waterfall
  have balance' := swept_balance processed'
  have loss' := swept_socialized processed' waterfall'
  rw [← ahead.same.riskParams] at balance' loss'
  have low := le_of_lt (minInt_neg 128)
  have high := maxInt_nonneg 128
  exact {
    sound
    same
    funded := balance ▸ Reserve.after_nonneg high ahead.funded gains
    balance_le := by
      change (fundAfterAll one.state.insurance settled).balance.toInt ≤
        (fundAfterAll other.state.insurance settled').balance.toInt
      rw [balance, balance']
      exact Reserve.after_mono ahead.balance_le _
    milder := by
      rw [liquidationsIn_concat, liquidationsIn_concat]
      refine List.rel_append ahead.milder ?_
      change List.Forall₂ Milder (liquidationsOf (sweepEvents symbol settled))
        (liquidationsOf (sweepEvents symbol settled'))
      rw [liquidationsOf_sweep, liquidationsOf_sweep]
      rw [← ahead.same.riskParams] at processed'
      exact milder_of_waterfalls symbol ahead.balance_le
        (processed.positions_eq.trans processed'.positions_eq.symm) processed.terms processed'.terms
        waterfall waterfall'
    accounted := by
      have surplus := Reserve.surplus_kept low ahead.funded ahead.balance_le gains unclipped
      have kept := ahead.accounted
      rw [socializedIn_concat, socializedIn_concat, loss, loss']
      change (fundAfterAll other.state.insurance settled').balance.toInt -
        (fundAfterAll one.state.insurance settled).balance.toInt + _ = _
      rw [balance, balance']
      rw [flowsOf] at surplus
      omega }

end Ahead

/-- Of two runs of the same commands under the same decisions, the one with the
larger seed holds the same positions, markets and counters, never a smaller
fund, reports the same liquidations with no larger loss socialised, and
accounts for the difference of the seeds. -/
theorem larger_seed_only_helps {seed seed' : Usd} {config : EngineConfig}
    {entries entries' : List Entry} {one other : RiskEngine}
    (fee : 0 ≤ config.defaultRisk.liquidationFeeBps.toInt) (funded : 0 ≤ seed.toInt)
    (more : seed.toInt ≤ seed'.toInt)
    (runs : SideBySide seed seed' config entries one entries' other) :
    SameBook one other ∧ one.insuranceBalance.toInt ≤ other.insuranceBalance.toInt ∧
      List.Forall₂ Milder (liquidationsIn entries) (liquidationsIn entries') ∧
      (other.insuranceBalance.toInt - one.insuranceBalance.toInt) +
        (socializedIn entries - socializedIn entries') = seed'.toInt - seed.toInt := by
  have ahead : Ahead seed seed' config entries one entries' other := by
    induction runs with
    | fresh =>
      exact ⟨sound_fromParts seed config, ⟨rfl, rfl, rfl, rfl, rfl, rfl, rfl⟩, funded, more, .nil,
        by rw [Int.sub_self, Int.add_zero]; rfl⟩
    | @apply _ _ one _ _ _ command _ _ before env ran ran' fits ih =>
      cases swept : sweepOf env one command with
      | none => exact ih.step_unswept ran ran' swept
      | some found => exact ih.step_swept fee ran ran' swept fits
  exact ⟨ahead.same, ahead.balance_le, ahead.milder, ahead.accounted⟩

section Books
open Sample

instance (env : Environment) (engine : RiskEngine) (command : RiskCommand) :
    Decidable (CreditsFit env engine command) := inferInstanceAs (Decidable (∀ swept ∈ _, _))

/-- One command of a script, in both runs. -/
def besideStep (state : (List Entry × RiskEngine) × List Entry × RiskEngine)
    (step : Environment × RiskCommand) :
    Option ((List Entry × RiskEngine) × List Entry × RiskEngine) :=
  if CreditsFit step.1 state.2.2 step.2 then
    (execute step.1 state.1.2 step.2).bind fun ran =>
      (execute step.1 state.2.2 step.2).map fun ran' =>
        ((state.1.1 ++ [⟨step.2, ran.1⟩], ran.2), state.2.1 ++ [⟨step.2, ran'.1⟩], ran'.2)
  else none

theorem foldlM_sideBySide {seed seed' : Usd} {config : EngineConfig}
    {script : List (Environment × RiskCommand)}
    {state final : (List Entry × RiskEngine) × List Entry × RiskEngine}
    (before : SideBySide seed seed' config state.1.1 state.1.2 state.2.1 state.2.2)
    (ran : script.foldlM besideStep state = some final) :
    SideBySide seed seed' config final.1.1 final.1.2 final.2.1 final.2.2 := by
  induction script generalizing state with
  | nil =>
    obtain rfl : state = final := by simpa using ran
    exact before
  | cons step script ih =>
    rw [List.foldlM_cons] at ran
    obtain ⟨next, stepped, rest⟩ := Option.bind_eq_some_iff.mp ran
    refine ih ?_ rest
    unfold besideStep at stepped
    split at stepped
    · next fits =>
      obtain ⟨first, executed, stepped⟩ := Option.bind_eq_some_iff.mp stepped
      obtain ⟨second, executed', rfl⟩ := Option.map_eq_some_iff.mp stepped
      exact before.apply step.1 executed executed' fits
    · cases stepped

/-- A long short of forty dollars, swept with five dollars in one fund and
fifteen in the other: ten dollars less are socialised and both funds are spent. -/
theorem larger_seed_only_helps_one_sweep : ∃ entries one entries' other,
    SideBySide (dollars 5) (dollars 15) standard entries one entries' other ∧
      socializedIn entries = 35000000 ∧
      (other.insuranceBalance.toInt - one.insuranceBalance.toInt) +
        (socializedIn entries - socializedIn entries') = 10000000 := by
  let long := openedPosition alice sol .long .cross (contracts 10) (price 100) tenfold (dollars 60)
  have ran : ([({}, enter alice .long (contracts 10) (price 100) (dollars 60)),
      ({}, mark (price 90) (rate 0)), ({ listing := [long] }, .liquidateMarket sol)].foldlM
        besideStep (([], .fromParts (dollars 5) standard), [], .fromParts (dollars 15) standard)).any
      (fun final => socializedIn final.1.1 = 35000000) = true := by decide
  obtain ⟨⟨⟨entries, one⟩, entries', other⟩, computed, loss⟩ := (Option.any_eq_true _ _).mp ran
  have runs : SideBySide (dollars 5) (dollars 15) standard entries one entries' other :=
    foldlM_sideBySide .fresh computed
  exact ⟨entries, one, entries', other, runs, of_decide_eq_true loss,
    (larger_seed_only_helps (by decide) (by decide) (by decide) runs).2.2.2⟩

end Books
end MarginGuard.Guarantees
