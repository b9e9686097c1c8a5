import MarginGuard.Foundation.Interleaving
import MarginGuard.Source.Engine

/-!
# What the engine's actions do

The shared state of a `RiskEngine` and the meaning of each action on it while
store and sink never fail. The limiter's verdict and the order in which
`by_market` lists a market are the environment's: any Boolean and any
admissible listing is a possible answer. Every theorem about `portsUp` hence
covers every limiter, clock and iteration order.

`Executes` applies one command with nothing else in flight; `History` is a
sequence of such applications from a fresh engine.
-/
namespace MarginGuard.Source
open Foundation

/-! ## Engine state -/

/-- Market registry, fund and statistics, guarded by the engine lock. -/
@[ext] structure EngineState where
  markets : FiniteMap String MarketState
  risk : FiniteMap String RiskParams
  insurance : InsuranceFund
  stats : RiskStats

/-- The configuration the commands read. -/
structure EngineConfig where
  defaultRisk : RiskParams

/-- The engine with what its ports hold: the stored positions and, for the
sink, everything published so far. -/
@[ext] structure RiskEngine where
  store : PositionStore
  sink : List RiskEvent
  state : EngineState
  config : EngineConfig

namespace RiskEngine

/-- `RiskEngine::from_parts`, over an empty store. -/
def fromParts (insuranceSeed : Usd) (config : EngineConfig) : RiskEngine where
  store := .empty
  sink := []
  state := { markets := ∅, risk := ∅, insurance := ⟨insuranceSeed⟩, stats := {} }
  config := config

/-- `RiskEngine::insurance_balance` -/
def insuranceBalance (engine : RiskEngine) : Usd := engine.state.insurance.balance

/-- `RiskEngine::stats` -/
def stats (engine : RiskEngine) : RiskStats := engine.state.stats

/-- `RiskEngine::market` -/
def market (engine : RiskEngine) (symbol : Symbol) : Option MarketState :=
  engine.state.markets.lookup symbol.asStr

/-- `RiskEngine::risk_params` -/
def riskParams (engine : RiskEngine) (symbol : Symbol) : RiskParams :=
  (engine.state.risk.lookup symbol.asStr).getD engine.config.defaultRisk

def setStore (engine : RiskEngine) (store : PositionStore) : RiskEngine := { engine with store }

def setInsurance (engine : RiskEngine) (insurance : InsuranceFund) : RiskEngine :=
  { engine with state := { engine.state with insurance } }

def setStats (engine : RiskEngine) (stats : RiskStats) : RiskEngine :=
  { engine with state := { engine.state with stats } }

/-- What an action does to the engine, given its answer. A failed store call
or publish has no effect. -/
def perform (engine : RiskEngine) : (action : Action) → Answer action → RiskEngine
  | .upsert position, .ok () => engine.setStore (engine.store.upsert position)
  | .remove account symbol, .ok _ => engine.setStore (engine.store.remove account symbol)
  | .publish events, .ok () => { engine with sink := engine.sink ++ events }
  | .countOpened, () =>
    engine.setStats { engine.stats with openPositions := engine.stats.openPositions + 1 }
  | .countClosed, () =>
    engine.setStats { engine.stats with openPositions := engine.stats.openPositions - 1 }
  | .insertMarket state, () =>
    { engine with state :=
      { engine.state with markets := engine.state.markets.insert state.symbol.asStr state } }
  | .countFunding settled, () =>
    engine.setStats
      { engine.stats with fundingSettlements := engine.stats.fundingSettlements + settled }
  | .cover _ shortfall, _ => engine.setInsurance (engine.state.insurance.cover shortfall).2
  | .credit _ amount, () => engine.setInsurance (engine.state.insurance.credit amount)
  | .countLiquidated, () =>
    engine.setStats
      { engine.stats with
        openPositions := engine.stats.openPositions - 1
        liquidations := engine.stats.liquidations + 1 }
  | .countAdl, () => engine.setStats { engine.stats with adlEvents := engine.stats.adlEvents + 1 }
  | .upsert _, .error _ => engine
  | .remove _ _, .error _ => engine
  | .publish _, .error _ => engine
  | .tryAcquire, _ => engine
  | .get _ _, _ => engine
  | .byMarket _, _ => engine
  | .riskParams _, _ => engine
  | .markFor _, _ => engine
  | .fundingTerms _, _ => engine
  | .sweepTerms _, _ => engine

/-- The answers of an engine whose store and sink never fail. -/
def Answers (engine : RiskEngine) : (action : Action) → Answer action → Prop
  | .tryAcquire, _ => True
  | .get account symbol, ans => ans = .ok (engine.store.get account symbol)
  | .upsert _, ans => ans = .ok ()
  | .remove account symbol, ans => ans = .ok (engine.store.get account symbol)
  | .byMarket symbol, .ok listing => engine.store.Lists symbol listing
  | .byMarket _, .error _ => False
  | .riskParams symbol, ans => ans = engine.riskParams symbol
  | .markFor symbol, ans => ans = (engine.market symbol).map (·.markPrice)
  | .fundingTerms symbol, ans =>
    ans = (engine.market symbol).map fun m => (m.markPrice, m.fundingRateBps)
  | .sweepTerms symbol, ans =>
    ans = (engine.market symbol).map fun m => (m.markPrice, engine.riskParams symbol)
  | .cover _ shortfall, ans => ans = (engine.state.insurance.cover shortfall).1
  | .publish _, ans => ans = .ok ()
  | .countOpened, _ => True
  | .countClosed, _ => True
  | .insertMarket _, _ => True
  | .countFunding _, _ => True
  | .credit _ _, _ => True
  | .countLiquidated, _ => True
  | .countAdl, _ => True

instance (engine : RiskEngine) : (action : Action) → (ans : Answer action) →
    Decidable (engine.Answers action ans)
  | .tryAcquire, _ => .isTrue trivial
  | .get account symbol, ans =>
    inferInstanceAs (Decidable (ans = .ok (engine.store.get account symbol)))
  | .upsert _, ans => inferInstanceAs (Decidable (ans = .ok ()))
  | .remove account symbol, ans =>
    inferInstanceAs (Decidable (ans = .ok (engine.store.get account symbol)))
  | .byMarket symbol, .ok listing => inferInstanceAs (Decidable (engine.store.Lists symbol listing))
  | .byMarket _, .error _ => .isFalse id
  | .riskParams symbol, ans => inferInstanceAs (Decidable (ans = engine.riskParams symbol))
  | .markFor symbol, ans =>
    inferInstanceAs (Decidable (ans = (engine.market symbol).map (·.markPrice)))
  | .fundingTerms symbol, ans => inferInstanceAs (Decidable
      (ans = (engine.market symbol).map fun m => (m.markPrice, m.fundingRateBps)))
  | .sweepTerms symbol, ans => inferInstanceAs (Decidable
      (ans = (engine.market symbol).map fun m => (m.markPrice, engine.riskParams symbol)))
  | .cover _ shortfall, ans =>
    inferInstanceAs (Decidable (ans = (engine.state.insurance.cover shortfall).1))
  | .publish _, ans => inferInstanceAs (Decidable (ans = .ok ()))
  | .countOpened, _ => .isTrue trivial
  | .countClosed, _ => .isTrue trivial
  | .insertMarket _, _ => .isTrue trivial
  | .countFunding _, _ => .isTrue trivial
  | .credit _ _, _ => .isTrue trivial
  | .countLiquidated, _ => .isTrue trivial
  | .countAdl, _ => .isTrue trivial

end RiskEngine

/-- The engine over a store and a sink that never fail. -/
def portsUp : Machine RiskEngine Action Answer where
  answers := RiskEngine.Answers
  effect := RiskEngine.perform

instance (engine : RiskEngine) (action : Action) (ans : Answer action) :
    Decidable (portsUp.answers engine action ans) :=
  inferInstanceAs (Decidable (engine.Answers action ans))

section Read
variable {engine : RiskEngine} {symbol : Symbol} {mark : Price}

/-- The terms of a funding round come from the market's state. -/
theorem fundingTerms_read {rateBps : I64}
    (answered : portsUp.answers engine (.fundingTerms symbol) (some (mark, rateBps))) :
    ∃ state, engine.market symbol = some state ∧ mark = state.markPrice ∧
      rateBps = state.fundingRateBps := by
  obtain ⟨state, known, same⟩ := Option.map_eq_some_iff.mp (Eq.symm answered)
  exact ⟨state, known, (congrArg Prod.fst same).symm, (congrArg Prod.snd same).symm⟩

/-- Those of a sweep from the market's state and its risk tier. -/
theorem sweepTerms_read {params : RiskParams}
    (answered : portsUp.answers engine (.sweepTerms symbol) (some (mark, params))) :
    ∃ state, engine.market symbol = some state ∧ mark = state.markPrice ∧
      params = engine.riskParams symbol := by
  obtain ⟨state, known, same⟩ := Option.map_eq_some_iff.mp (Eq.symm answered)
  exact ⟨state, known, (congrArg Prod.fst same).symm, (congrArg Prod.snd same).symm⟩

end Read

/-- No call changes the risk tiers or the configuration. -/
theorem after_tiers (engine : RiskEngine) (calls : List (Call Action Answer)) :
    (portsUp.after engine calls).state.risk = engine.state.risk ∧
      (portsUp.after engine calls).config = engine.config := by
  have kept := Machine.after_preserves (M := portsUp)
    (fun engine => (engine.state.risk, engine.config))
    (fun engine op ans => by cases op <;> first | rfl | (cases ans <;> rfl)) engine calls
  exact Prod.mk.inj kept

/-! ## One command after another -/

/-- Applying a command while nothing else is in flight. -/
def Executes (engine : RiskEngine) (command : RiskCommand)
    (result : Except CoreError CommandOutcome) (engine' : RiskEngine) : Prop :=
  portsUp.Completes engine (RiskEngine.apply command) result engine'

/-- What the environment decides during one command. -/
structure Environment where
  admitted : Bool := true
  listing : List Position := []

/-- The answers under an environment. -/
def Environment.answer (env : Environment) (engine : RiskEngine) : (action : Action) → Answer action
  | .tryAcquire => env.admitted
  | .get account symbol => .ok (engine.store.get account symbol)
  | .upsert _ => .ok ()
  | .remove account symbol => .ok (engine.store.get account symbol)
  | .byMarket _ => .ok env.listing
  | .riskParams symbol => engine.riskParams symbol
  | .markFor symbol => (engine.market symbol).map (·.markPrice)
  | .fundingTerms symbol => (engine.market symbol).map fun m => (m.markPrice, m.fundingRateBps)
  | .sweepTerms symbol => (engine.market symbol).map fun m => (m.markPrice, engine.riskParams symbol)
  | .cover _ shortfall => (engine.state.insurance.cover shortfall).1
  | .publish _ => .ok ()
  | .countOpened => ()
  | .countClosed => ()
  | .insertMarket _ => ()
  | .countFunding _ => ()
  | .credit _ _ => ()
  | .countLiquidated => ()
  | .countAdl => ()

/-- Compute an application; `none` when the environment's listing is not one
the store may give. -/
def execute (env : Environment) (engine : RiskEngine) (command : RiskCommand) :
    Option (Except CoreError CommandOutcome × RiskEngine) :=
  portsUp.solo env.answer (RiskEngine.apply command) engine

theorem execute_executes {env : Environment} {engine engine' : RiskEngine} {command : RiskCommand}
    {result : Except CoreError CommandOutcome}
    (ran : execute env engine command = some (result, engine')) :
    Executes engine command result engine' := Machine.solo_completes _ ran

/-- Every market of every store has a listing. -/
theorem PositionStore.exists_lists (store : PositionStore) (symbol : Symbol) :
    ∃ listing, store.Lists symbol listing := by
  refine ⟨_, Lists.of_keys (store.byKey.keys.nodup_toList.filter fun k => k.2 = symbol) ?_⟩
  intro k
  rw [List.mem_filter, Finset.mem_toList, Finmap.mem_keys, Finmap.lookup_isSome, and_comm,
    decide_eq_true_eq]

/-- Every action has an answer. -/
theorem portsUp_answers (engine : RiskEngine) (action : Action) :
    ∃ ans, portsUp.answers engine action ans := by
  cases action
  case byMarket symbol =>
    obtain ⟨listing, lists⟩ := engine.store.exists_lists symbol
    exact ⟨.ok listing, lists⟩
  case tryAcquire => exact ⟨true, trivial⟩
  all_goals first | exact ⟨_, rfl⟩ | exact ⟨(), trivial⟩

/-- With ports that never fail, every command runs to a result. -/
theorem exists_executes (engine : RiskEngine) (command : RiskCommand) :
    ∃ result engine', Executes engine command result engine' :=
  Machine.exists_completes portsUp_answers _ engine

/-- One entry of a history: a command and what `apply` returned. -/
structure Entry where
  command : RiskCommand
  result : Except CoreError CommandOutcome

/-- The events a command's result carries. -/
def eventsOf : Except CoreError CommandOutcome → List RiskEvent
  | .ok outcome => outcome.events
  | .error _ => []

/-- Commands applied one after another from a fresh engine, each application
satisfying `admissible` in the state it meets. -/
inductive History (seed : Usd) (config : EngineConfig)
    (admissible : RiskEngine → RiskCommand → Prop) : List Entry → RiskEngine → Prop
  | fresh : History seed config admissible [] (.fromParts seed config)
  | apply {entries : List Entry} {engine engine' : RiskEngine} {command : RiskCommand}
      {result : Except CoreError CommandOutcome}
      (before : History seed config admissible entries engine)
      (admitted : admissible engine command)
      (ran : Executes engine command result engine') :
      History seed config admissible (entries ++ [⟨command, result⟩]) engine'

/-- An engine state some sequence of commands leads to. -/
def Reachable (seed : Usd) (config : EngineConfig) (engine : RiskEngine) : Prop :=
  ∃ entries, History seed config (fun _ _ => True) entries engine

end MarginGuard.Source
