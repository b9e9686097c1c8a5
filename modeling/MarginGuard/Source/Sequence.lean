import MarginGuard.Source.Sequential

/-!
# Sequences of commands from any engine

`History` starts from a fresh engine; a `Sequence` leads from one engine to
another, with a condition on every step that may speak of the engines on both
sides of it. `Transition.positions_kept` says what can happen to a position
that stays stored: a funding round settles it, every other command leaves it as
it is.
-/
namespace MarginGuard.Source
open Foundation

/-- Commands applied one after another, each step satisfying `admissible`. -/
inductive Sequence (admissible : RiskEngine → RiskCommand → RiskEngine → Prop)
    (start : RiskEngine) : RiskEngine → Prop
  | refl : Sequence admissible start start
  | apply {engine engine' : RiskEngine} {command : RiskCommand}
      {result : Except CoreError CommandOutcome} (before : Sequence admissible start engine)
      (ran : Executes engine command result engine')
      (admitted : admissible engine command engine') : Sequence admissible start engine'

/-- The invariant rule for sequences. -/
theorem Sequence.invariant {admissible : RiskEngine → RiskCommand → RiskEngine → Prop}
    {I : RiskEngine → Prop} {start engine : RiskEngine} (first : I start)
    (step : ∀ engine command result engine', I engine → admissible engine command engine' →
      Transition engine command result engine' → I engine')
    (run : Sequence admissible start engine) : I engine := by
  induction run with
  | refl => exact first
  | apply before ran admitted ih => exact step _ _ _ _ ih admitted ran.transition

namespace PositionStore
variable {store : PositionStore} {symbol symbol' : Symbol} {account account' : String}
  {pos : Position}

/-- Where a removal leaves something, it leaves what was there. -/
theorem get_remove_of_kept (stored : store.get account symbol = some pos)
    (kept : ((store.remove account' symbol').get account symbol).isSome) :
    (store.remove account' symbol').get account symbol = some pos := by
  rw [get_remove] at kept ⊢
  split at kept
  · cases kept
  · next other => rw [if_neg other, stored]

theorem get_removeAll_of_kept {positions : List Position}
    (stored : store.get account symbol = some pos)
    (kept : ((store.removeAll symbol' positions).get account symbol).isSome) :
    (store.removeAll symbol' positions).get account symbol = some pos := by
  rw [get_removeAll] at kept ⊢
  split at kept
  · cases kept
  · next other => rw [if_neg other, stored]

/-- What a removal leaves was stored. -/
theorem stored_of_get_remove
    (left : (store.remove account' symbol').get account symbol = some pos) :
    store.get account symbol = some pos := by
  rw [get_remove] at left
  split at left
  · cases left
  · exact left

/-- A write under a free key leaves what is stored. -/
theorem get_upsert_of_stored (absent : store.get pos.account.asStr pos.symbol = none)
    {held : Position} (stored : store.get account symbol = some held) :
    (store.upsert pos).get account symbol = some held := by
  rw [get_upsert]
  split
  · next same =>
    obtain ⟨rfl, rfl⟩ := Prod.mk.inj same
    rw [absent] at stored
    cases stored
  · exact stored

end PositionStore

/-- Positions of a market over one command: those that stay stored stay as they
are, unless it is a funding round of the market, which settles each. -/
theorem Transition.positions_kept {engine engine' : RiskEngine} {command : RiskCommand}
    {result : Except CoreError CommandOutcome} (step : Transition engine command result engine')
    (symbol : Symbol) :
    (∀ account pos, engine.store.get account symbol = some pos →
      (engine'.store.get account symbol).isSome → engine'.store.get account symbol = some pos) ∨
    ∃ state, command = .accrueFunding symbol ∧ engine.market symbol = some state ∧
      ∀ account, engine'.store.get account symbol =
        (engine.store.get account symbol).map
          (fundedPosition state.markPrice state.fundingRateBps) := by
  cases step with
  | rateLimited => exact Or.inl fun _ _ stored _ => stored
  | positionExists held present => exact Or.inl fun _ _ stored _ => stored
  | insufficientMargin absent short => exact Or.inl fun _ _ stored _ => stored
  | @opened _ _ _ _ _ _ _ _ pos own absent enough =>
    refine Or.inl fun account held stored _ => ?_
    exact PositionStore.get_upsert_of_stored (by rw [own]; exact absent) stored
  | closeAbsent absent => exact Or.inl fun _ _ stored _ => stored
  | closeUnpriced pos present unpriced =>
    exact Or.inl fun _ _ => PositionStore.get_remove_of_kept
  | closed pos state present priced =>
    exact Or.inl fun _ _ => PositionStore.get_remove_of_kept
  | updated => exact Or.inl fun _ _ stored _ => stored
  | accrueUnpriced unpriced => exact Or.inl fun _ _ stored _ => stored
  | @accrued symbol' state listing priced lists =>
    have settled := lists.get_upsertAll_map
      (f := fundedPosition state.markPrice state.fundingRateBps) fun _ => rfl
    by_cases same : symbol = symbol'
    · subst same
      refine Or.inr ⟨state, rfl, priced, fun account => ?_⟩
      exact (settled account symbol).trans (if_pos rfl)
    · refine Or.inl fun account held stored _ => ?_
      exact ((settled account symbol).trans (if_neg same)).trans stored
  | sweepUnpriced unpriced => exact Or.inl fun _ _ stored _ => stored
  | swept state listing settled priced lists processed waterfall =>
    exact Or.inl fun _ _ => PositionStore.get_removeAll_of_kept

/-- Where a stored position comes from: it was stored, this command opened it over
its initial margin, or this funding round settled it. -/
theorem Transition.origin {engine engine' : RiskEngine} {command : RiskCommand}
    {result : Except CoreError CommandOutcome} (step : Transition engine command result engine')
    {account : String} {symbol : Symbol} {pos : Position}
    (stored : engine'.store.get account symbol = some pos) :
    engine.store.get account symbol = some pos ∨
      (command.opening = some pos ∧ errorOf result = none ∧
        ¬ pos.postedMargin < initialMargin pos pos.entryPrice (engine.riskParams pos.symbol)) ∨
      ∃ state old, command = .accrueFunding symbol ∧ errorOf result = none ∧
        engine.market symbol = some state ∧ engine.store.get account symbol = some old ∧
        pos = fundedPosition state.markPrice state.fundingRateBps old := by
  cases step with
  | @opened _ _ _ _ _ _ _ _ opened own absent enough =>
    change (engine.store.upsert opened).get account symbol = some pos at stored
    rw [PositionStore.get_upsert] at stored
    split at stored
    · obtain rfl := Option.some.inj stored
      subst own
      exact Or.inr (Or.inl ⟨rfl, rfl, enough⟩)
    · exact Or.inl stored
  | closeUnpriced held present unpriced =>
    exact Or.inl (PositionStore.stored_of_get_remove stored)
  | closed held state present priced => exact Or.inl (PositionStore.stored_of_get_remove stored)
  | @accrued symbol' state listing priced lists =>
    have settled := lists.get_upsertAll_map
      (f := fundedPosition state.markPrice state.fundingRateBps) (fun _ => rfl) account symbol
    have after : (engine.store.upsertAll (listing.map
      (fundedPosition state.markPrice state.fundingRateBps))).get account symbol = some pos := stored
    rw [settled] at after
    split at after
    · next same =>
      subst same
      obtain ⟨old, held, rfl⟩ := Option.map_eq_some_iff.mp after
      exact Or.inr (Or.inr ⟨state, old, rfl, rfl, priced, held, rfl⟩)
    · exact Or.inl after
  | swept state listing settled priced lists processed waterfall =>
    rw [RiskEngine.emit_store, RiskEngine.swept_store, PositionStore.get_removeAll] at stored
    split at stored
    · cases stored
    · exact Or.inl stored
  | _ => exact Or.inl stored

/-- A market's state over a command other than its own update. -/
theorem Transition.market_kept {engine engine' : RiskEngine} {command : RiskCommand}
    {result : Except CoreError CommandOutcome} (step : Transition engine command result engine')
    {symbol : Symbol} (quiet : ∀ markPrice indexPrice rateBps,
      command ≠ .updateMarket symbol markPrice indexPrice rateBps) :
    engine'.market symbol = engine.market symbol := by
  cases step with
  | updated symbol' markPrice indexPrice rateBps =>
    have other : symbol.asStr ≠ symbol'.asStr := by
      intro same
      obtain rfl := Symbol.asStr_injective same
      exact quiet _ _ _ rfl
    exact Finmap.lookup_insert_of_ne _ other
  | _ => rfl

/-- Where a market's state comes from: it stood, or this command wrote it. -/
theorem Transition.market_origin {engine engine' : RiskEngine} {command : RiskCommand}
    {result : Except CoreError CommandOutcome} (step : Transition engine command result engine')
    {symbol : Symbol} {state : MarketState} (priced : engine'.market symbol = some state) :
    engine.market symbol = some state ∨
      (command = .updateMarket symbol state.markPrice state.indexPrice state.fundingRateBps ∧
        errorOf result = none) := by
  cases step with
  | updated symbol' markPrice indexPrice rateBps =>
    change (engine.state.markets.insert symbol'.asStr ⟨symbol', markPrice, indexPrice,
      rateBps⟩).lookup symbol.asStr = some state at priced
    by_cases same : symbol.asStr = symbol'.asStr
    · obtain rfl := Symbol.asStr_injective same
      rw [Finmap.lookup_insert] at priced
      obtain rfl := Option.some.inj priced
      exact Or.inr ⟨rfl, rfl⟩
    · rw [Finmap.lookup_insert_of_ne _ same] at priced
      exact Or.inl priced
  | _ => exact Or.inl priced

end MarginGuard.Source
