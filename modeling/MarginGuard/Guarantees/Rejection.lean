import MarginGuard.Source.Script
import MarginGuard.Source.Sequential

/-!
# Rejected commands

Every method but `close` looks before it writes: `open` checks the key and the
margin before `upsert`, funding and sweeps look the market up first. `close`
removes the position and looks the market up afterwards, so a close in a market
without a state answers `MarketNotFound` with the position gone, its counter
still counting it.

* `rejected_commands_atomic`: at every reachable engine, rejection is atomic
  for exactly the commands that are not such a close; in a run without them,
  leaving the rejected commands out leads to the same engine.
* `unpriced_close_loses_position`: a reachable engine where a rejected close
  empties the store.
-/
namespace MarginGuard.Guarantees
open Foundation Source

/-- A rejection of the command leaves positions, markets, fund and statistics
as they were. -/
def RejectsAtomically (engine : RiskEngine) (command : RiskCommand) : Prop :=
  ∀ error engine', Executes engine command (.error error) engine' →
    engine'.store = engine.store ∧ engine'.state = engine.state

/-- Not a close of a stored position in a market without a state. -/
def PricedClose (engine : RiskEngine) : RiskCommand → Prop
  | .closePosition account symbol =>
    (engine.store.get account.asStr symbol).isSome → (engine.market symbol).isSome
  | _ => True

instance (engine : RiskEngine) : (command : RiskCommand) → Decidable (PricedClose engine command)
  | .closePosition _ _ => inferInstanceAs (Decidable (_ → _))
  | .openPosition .. | .updateMarket .. | .accrueFunding _ | .liquidateMarket _ => isTrue trivial

/-- A rejection that is not the one of an unpriced close changes nothing at all. -/
theorem rejected_unchanged {engine engine' : RiskEngine} {command : RiskCommand} {error : CoreError}
    (priced : PricedClose engine command) (ran : Executes engine command (.error error) engine') :
    engine' = engine := by
  cases ran.transition with
  | rateLimited => rfl
  | positionExists held present => rfl
  | insufficientMargin absent short => rfl
  | closeAbsent absent => rfl
  | closeUnpriced pos present unpriced =>
    -- the one error exit that comes after an effect
    have known := priced (by rw [present]; rfl)
    rw [unpriced] at known
    cases known
  | accrueUnpriced unpriced => rfl
  | sweepUnpriced unpriced => rfl

/-- An admitted close in a market without a state removes the position it then
does not report. -/
theorem close_unpriced_executes {engine : RiskEngine} {account : AccountId} {symbol : Symbol}
    {pos : Position} (present : engine.store.get account.asStr symbol = some pos)
    (unpriced : engine.market symbol = none) :
    Executes engine (.closePosition account symbol) (.error .marketNotFound)
      (engine.setStore (engine.store.remove account.asStr symbol)) := by
  refine ⟨[⟨.tryAcquire, true⟩, ⟨.remove account.asStr symbol, .ok (some pos)⟩,
    ⟨.markFor symbol, none⟩], ?_, ?_, rfl⟩
  · exact ⟨true, _, rfl, .ok (some pos), _, rfl, none, _, rfl, rfl, rfl⟩
  · refine ⟨trivial, ?_, ?_, trivial⟩
    · exact congrArg Except.ok present.symm
    · change none = (engine.market symbol).map _
      rw [unpriced]
      rfl

theorem rejectsAtomically_iff (engine : RiskEngine) (command : RiskCommand) :
    RejectsAtomically engine command ↔ PricedClose engine command := by
  constructor
  · intro atomic
    cases command with
    | closePosition account symbol =>
      intro stored
      obtain ⟨pos, present⟩ := Option.isSome_iff_exists.mp stored
      cases unpriced : engine.market symbol with
      | some state => rfl
      | none =>
        have kept := (atomic _ _ (close_unpriced_executes present unpriced)).1
        have gone : (engine.store.remove account.asStr symbol).get account.asStr symbol = none := by
          rw [PositionStore.get_remove, if_pos rfl]
        change engine.store.remove account.asStr symbol = engine.store at kept
        rw [kept, present] at gone
        cases gone
    | openPosition => trivial
    | updateMarket => trivial
    | accrueFunding => trivial
    | liquidateMarket => trivial
  · intro priced error engine' ran
    rw [rejected_unchanged priced ran]
    exact ⟨rfl, rfl⟩

/-- The command of the entry was accepted. -/
def accepted (entry : Entry) : Bool :=
  match entry.result with
  | .ok _ => true
  | .error _ => false

/-- Leaving rejected commands out of a run without unpriced closes changes nothing. -/
theorem history_drop_rejected {seed : Usd} {config : EngineConfig} {entries : List Entry}
    {engine : RiskEngine} (run : History seed config PricedClose entries engine) :
    History seed config PricedClose (entries.filter accepted) engine := by
  induction run with
  | fresh => exact .fresh
  | @apply entries earlier later command result before admitted ran ih =>
    rw [List.filter_append]
    cases result with
    | ok outcome => exact ih.apply admitted ran
    | error error =>
      rw [rejected_unchanged admitted ran]
      simpa [accepted] using ih

/-- Rejection is atomic for exactly the commands that are not a close of a
stored position in a market without a state, at every engine a run reaches; and
a run without such closes is one in which rejected commands leave no trace. -/
theorem rejected_commands_atomic (seed : Usd) (config : EngineConfig) :
    (∀ engine, Reachable seed config engine → ∀ command,
      RejectsAtomically engine command ↔ PricedClose engine command) ∧
    ∀ entries engine, History seed config PricedClose entries engine →
      History seed config PricedClose (entries.filter accepted) engine :=
  ⟨fun engine _ command => rejectsAtomically_iff engine command,
    fun _ _ run => history_drop_rejected run⟩

open Sample in
/-- A fresh engine accepts an open in a market nobody has priced; the close that
follows is rejected and empties the store. -/
theorem unpriced_close_loses_position :
    ¬ ∀ seed config engine, Reachable seed config engine →
      ∀ command, RejectsAtomically engine command := by
  intro atomic
  obtain ⟨entries, engine, run, checked⟩ := exists_history_of_script (dollars 5) standard
    (fun _ _ => True)
    [({}, enter alice .long (contracts 10) (price 100) (dollars 60))]
    (fun _ engine => (engine.store.get "alice" sol).isSome && (engine.market sol).isNone) (by decide)
  rw [Bool.and_eq_true, Option.isNone_iff_eq_none] at checked
  have priced := (rejectsAtomically_iff engine (.closePosition alice sol)).mp
    (atomic _ _ engine ⟨entries, run⟩ _) checked.1
  rw [checked.2] at priced
  cases priced

end MarginGuard.Guarantees
