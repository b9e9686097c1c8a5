import MarginGuard.Foundation.Isolation
import MarginGuard.Source.Sequential

/-!
# The parts of the engine's state

A command reads and writes its own market (the stored positions, the quote and
the risk tier) and, if it is a sweep, the insurance fund. Every other call it
makes goes to the limiter, the sink or a counter. So `engineParts` is a
partition of the engine into its markets and its fund, and a command touches at
most these two (`Applied.reaches`).
-/
namespace MarginGuard.Source
open Foundation

/-- A market by its registry key, or the fund. -/
inductive Part where
  | market (name : String)
  | fund
  deriving DecidableEq

/-- The part a call reads or writes; none for the limiter, the sink and the
counters. -/
def Action.part : Action → Option Part
  | .get _ symbol => some (.market symbol.asStr)
  | .upsert pos => some (.market pos.symbol.asStr)
  | .remove _ symbol => some (.market symbol.asStr)
  | .byMarket symbol => some (.market symbol.asStr)
  | .riskParams symbol => some (.market symbol.asStr)
  | .markFor symbol => some (.market symbol.asStr)
  | .fundingTerms symbol => some (.market symbol.asStr)
  | .sweepTerms symbol => some (.market symbol.asStr)
  | .insertMarket state => some (.market state.symbol.asStr)
  | .cover _ _ => some .fund
  | .credit _ _ => some .fund
  | _ => none

/-- Two engines hold the same of a market. -/
structure SameMarket (name : String) (engine other : RiskEngine) : Prop where
  positions : ∀ account (symbol : Symbol), symbol.asStr = name →
    engine.store.get account symbol = other.store.get account symbol
  quote : engine.state.markets.lookup name = other.state.markets.lookup name
  tier : (engine.state.risk.lookup name).getD engine.config.defaultRisk =
    (other.state.risk.lookup name).getD other.config.defaultRisk

def Part.Agree : Part → RiskEngine → RiskEngine → Prop
  | .market name => SameMarket name
  | .fund => fun engine other => engine.state.insurance = other.state.insurance

theorem SameMarket.refl (name : String) (engine : RiskEngine) : SameMarket name engine engine :=
  ⟨fun _ _ _ => rfl, rfl, rfl⟩

theorem Part.agree_equivalence (part : Part) : Equivalence part.Agree := by
  cases part with
  | market name =>
    refine ⟨SameMarket.refl name, fun same => ?_, fun same same' => ?_⟩
    · exact ⟨fun account symbol own => (same.positions account symbol own).symm, same.quote.symm,
        same.tier.symm⟩
    · exact ⟨fun account symbol own =>
          (same.positions account symbol own).trans (same'.positions account symbol own),
        same.quote.trans same'.quote, same.tier.trans same'.tier⟩
  | fund => exact ⟨fun _ => rfl, Eq.symm, Eq.trans⟩

section Frame
variable {engine : RiskEngine} {name : String}

theorem sameMarket_upsert {pos : Position} (other : pos.symbol.asStr ≠ name) :
    SameMarket name (engine.setStore (engine.store.upsert pos)) engine := by
  refine ⟨fun account symbol own => ?_, rfl, rfl⟩
  change (engine.store.upsert pos).get account symbol = _
  rw [PositionStore.get_upsert, if_neg]
  intro same
  obtain rfl : symbol = pos.symbol := (Prod.mk.inj same).2
  exact other own

theorem sameMarket_remove {account : String} {symbol : Symbol} (other : symbol.asStr ≠ name) :
    SameMarket name (engine.setStore (engine.store.remove account symbol)) engine := by
  refine ⟨fun account' symbol' own => ?_, rfl, rfl⟩
  change (engine.store.remove account symbol).get account' symbol' = _
  rw [PositionStore.get_remove, if_neg]
  intro same
  obtain rfl : symbol' = symbol := (Prod.mk.inj same).2
  exact other own

theorem sameMarket_insertMarket {state : MarketState} (other : state.symbol.asStr ≠ name) :
    SameMarket name (engine.withMarket state) engine := by
  refine ⟨fun _ _ _ => rfl, ?_, rfl⟩
  change (engine.state.markets.insert state.symbol.asStr state).lookup name = _
  rw [FiniteMap.lookup_insert_eq, if_neg other.symm]

/-- A call leaves the parts it has nothing to do with. -/
theorem part_frame (engine : RiskEngine) (c : EngineCall) (part : Part)
    (other : c.op.part ≠ some part) :
    part.Agree (portsUp.effect engine c.op c.ans) engine := by
  obtain ⟨op, ans⟩ := c
  cases part with
  | fund =>
    cases op <;> first | exact absurd rfl other | rfl | (cases ans <;> rfl)
  | market name =>
    have same := SameMarket.refl name engine
    cases op
    case upsert pos =>
      cases ans with
      | error e => exact same
      | ok done => exact sameMarket_upsert fun own => other (own ▸ rfl)
    case remove account symbol =>
      cases ans with
      | error e => exact same
      | ok held => exact sameMarket_remove fun own => other (own ▸ rfl)
    case insertMarket state => exact sameMarket_insertMarket fun own => other (own ▸ rfl)
    case publish events => cases ans <;> exact ⟨fun _ _ _ => rfl, rfl, rfl⟩
    all_goals exact ⟨fun _ _ _ => rfl, rfl, rfl⟩

/-- An answer depends on the part it is about. -/
theorem part_answers {engine other : RiskEngine} {c : EngineCall}
    (same : ∀ part, c.op.part = some part → part.Agree engine other)
    (answered : portsUp.answers engine c.op c.ans) : portsUp.answers other c.op c.ans := by
  obtain ⟨op, ans⟩ := c
  cases op
  case get account symbol =>
    have agree : SameMarket symbol.asStr engine other := same _ rfl
    exact answered.trans (congrArg Except.ok (agree.positions account symbol rfl))
  case remove account symbol =>
    have agree : SameMarket symbol.asStr engine other := same _ rfl
    exact answered.trans (congrArg Except.ok (agree.positions account symbol rfl))
  case byMarket symbol =>
    have agree : SameMarket symbol.asStr engine other := same _ rfl
    cases ans with
    | error e => exact answered
    | ok listing => exact PositionStore.Lists.congr answered fun account =>
      agree.positions account symbol rfl
  case riskParams symbol =>
    have agree : SameMarket symbol.asStr engine other := same _ rfl
    exact answered.trans agree.tier
  case markFor symbol =>
    have agree : SameMarket symbol.asStr engine other := same _ rfl
    exact answered.trans (congrArg (Option.map _) agree.quote)
  case fundingTerms symbol =>
    have agree : SameMarket symbol.asStr engine other := same _ rfl
    exact answered.trans (congrArg (Option.map _) agree.quote)
  case sweepTerms symbol =>
    have agree : SameMarket symbol.asStr engine other := same _ rfl
    have quote : engine.market symbol = other.market symbol := agree.quote
    have tier : engine.riskParams symbol = other.riskParams symbol := agree.tier
    change ans = _ at answered
    change ans = _
    rw [answered, quote, tier]
  case cover position shortfall =>
    have agree : engine.state.insurance = other.state.insurance := same _ rfl
    change ans = _ at answered
    change ans = _
    rw [answered, agree]
  all_goals exact answered

/-- So does what the call makes of it. -/
theorem part_effects {engine other : RiskEngine} {c : EngineCall} {part : Part}
    (own : c.op.part = some part) (agree : part.Agree engine other) :
    part.Agree (portsUp.effect engine c.op c.ans) (portsUp.effect other c.op c.ans) := by
  obtain ⟨op, ans⟩ := c
  cases op <;> cases own
  case upsert pos =>
    cases ans with
    | error e => exact agree
    | ok done =>
      refine ⟨fun account symbol own => ?_, agree.quote, agree.tier⟩
      change (engine.store.upsert pos).get _ _ = (other.store.upsert pos).get _ _
      rw [PositionStore.get_upsert, PositionStore.get_upsert, agree.positions account symbol own]
  case remove account symbol =>
    cases ans with
    | error e => exact agree
    | ok held =>
      refine ⟨fun account' symbol' own => ?_, agree.quote, agree.tier⟩
      change (engine.store.remove account symbol).get _ _ =
        (other.store.remove account symbol).get _ _
      rw [PositionStore.get_remove, PositionStore.get_remove, agree.positions account' symbol' own]
  case insertMarket state =>
    refine ⟨agree.positions, ?_, agree.tier⟩
    change (engine.state.markets.insert state.symbol.asStr state).lookup state.symbol.asStr =
      (other.state.markets.insert state.symbol.asStr state).lookup state.symbol.asStr
    rw [Finmap.lookup_insert, Finmap.lookup_insert]
  case cover position shortfall =>
    exact congrArg (fun fund => (InsuranceFund.cover fund shortfall).2) agree
  case credit position amount => exact congrArg (InsuranceFund.credit · amount) agree
  all_goals exact agree

/-- The engine, divided into its markets and its fund. -/
def engineParts : Partition portsUp Part where
  Agree := Part.Agree
  equiv := Part.agree_equivalence
  Touches c part := c.op.part = some part
  frame := part_frame
  answers _ _ _ := part_answers
  effects _ _ _ same _ own := part_effects own (same _ own)

end Frame

/-- Engines that agree on every part differ at most in counters and sink. -/
theorem eq_of_agree {engine other : RiskEngine}
    (same : ∀ part, engineParts.Agree part engine other) :
    engine.store = other.store ∧ engine.state.markets = other.state.markets ∧
      engine.state.insurance = other.state.insurance := by
  have market : ∀ name, SameMarket name engine other := fun name => same (.market name)
  refine ⟨?_, ?_, same .fund⟩
  · apply PositionStore.ext
    intro account symbol
    exact (market symbol.asStr).positions account symbol rfl
  · apply Finmap.ext_lookup
    intro name
    exact (market name).quote

/-! ## What a command touches -/

/-- The parts a command may touch. -/
def RiskCommand.Reaches (command : RiskCommand) (part : Part) : Prop :=
  part = .market command.symbol.asStr ∨ part = .fund ∧ ∃ symbol, command = .liquidateMarket symbol

section Reach
variable {command : RiskCommand} {calls body : List EngineCall}
  {r : Except CoreError CommandOutcome} {c : EngineCall} {part : Part}

theorem Served.reaches (served : Served command body r) :
    ∀ c ∈ body, ∀ part, c.op.part = some part → command.Reaches part := by
  cases served with
  | positionExists opens held =>
    obtain ⟨_, _, _, _, _, _, _, _, rfl, rfl⟩ := opening_eq_some opens
    simp [Action.part, RiskCommand.Reaches, RiskCommand.symbol, openedPosition]
  | insufficientMargin opens =>
    obtain ⟨_, _, _, _, _, _, _, _, rfl, rfl⟩ := opening_eq_some opens
    simp [Action.part, RiskCommand.Reaches, RiskCommand.symbol, openedPosition]
  | opened opens =>
    obtain ⟨_, _, _, _, _, _, _, _, rfl, rfl⟩ := opening_eq_some opens
    simp [Action.part, RiskCommand.Reaches, RiskCommand.symbol, openedPosition]
  | accrued symbol mark rateBps listing lists =>
    have terms : ∀ part, some (Part.market symbol.asStr) = some part →
        (RiskCommand.accrueFunding symbol).Reaches part := by
      intro part own
      exact Or.inl (Option.some.inj own).symm
    simp only [List.forall_mem_cons, List.forall_mem_append]
    refine ⟨terms, terms, fun c settled part own => ?_, fun c counted part own => ?_⟩
    · obtain ⟨pos, listed, rfl⟩ := List.mem_map.mp settled
      obtain rfl := lists.symbol_eq listed
      exact terms part own
    · rw [mem_fundingCount counted] at own
      cases own
  | swept symbol mark params listing settled processed lists =>
    have terms : ∀ part, some (Part.market symbol.asStr) = some part →
        (RiskCommand.liquidateMarket symbol).Reaches part := by
      intro part own
      exact Or.inl (Option.some.inj own).symm
    simp only [List.forall_mem_cons, List.forall_mem_append]
    refine ⟨terms, terms, fun c member part own => ?_, fun c counted part own => ?_⟩
    · obtain ⟨s, -, rfl | rfl | rfl | rfl⟩ := Settlement.mem_settlements member
      · exact terms part own
      · exact Or.inr ⟨(Option.some.inj own).symm, symbol, rfl⟩
      · exact Or.inr ⟨(Option.some.inj own).symm, symbol, rfl⟩
      · cases own
    · rw [mem_adlCalls counted] at own
      cases own
  | _ => simp [Action.part, RiskCommand.Reaches, RiskCommand.symbol]

/-- A command touches its market and, if it is a sweep, the fund. -/
theorem Applied.reaches (applied : Applied command calls r) :
    ∀ c ∈ calls, ∀ part, c.op.part = some part → command.Reaches part := by
  cases applied with
  | rateLimited => simp [Action.part]
  | admitted body r served =>
    simp only [List.forall_mem_cons, List.forall_mem_append]
    refine ⟨nofun, served.reaches, fun c published part own => ?_⟩
    rw [mem_publishCalls published] at own
    cases own

end Reach

end MarginGuard.Source
