import MarginGuard.Source.Served

/-!
# Commands applied one at a time

`Transition` lists everything `apply` can do to an engine with nothing else in
flight: the guard that holds, the result and the engine after it. It is derived
from the runs of the commands while the ports are up (`Executes.transition`), so
that facts about sequences of commands need one case for each transition.

A sweep is described by its settlements: the listed positions in breach, each
with what the fund paid for it (`Waterfall`).
-/
namespace MarginGuard.Source
open Foundation

/-! ## Folds over the store -/

namespace PositionStore

/-- The store after the write-backs of a list. -/
def upsertAll (store : PositionStore) (positions : List Position) : PositionStore :=
  positions.foldl upsert store

/-- The store after the removals of a list. -/
def removeAll (store : PositionStore) (symbol : Symbol) (positions : List Position) :
    PositionStore :=
  positions.foldl (fun store pos => store.remove pos.account.asStr symbol) store

theorem get_upsertAll_of_notMem {store : PositionStore} {positions : List Position}
    {account : String} {symbol : Symbol} (other : (account, symbol) ∉ positions.map Position.key) :
    (store.upsertAll positions).get account symbol = store.get account symbol := by
  induction positions generalizing store with
  | nil => rfl
  | cons pos positions ih =>
    rw [List.map_cons, List.mem_cons, not_or] at other
    rw [upsertAll, List.foldl_cons, ← upsertAll, ih other.2, get_upsert, if_neg other.1]

/-- Distinct write-backs do not disturb each other. -/
theorem get_upsertAll_of_mem (store : PositionStore) {positions : List Position} {pos : Position}
    (nodup : (positions.map Position.key).Nodup) (member : pos ∈ positions) :
    (store.upsertAll positions).get pos.account.asStr pos.symbol = some pos := by
  induction positions generalizing store with
  | nil => simp at member
  | cons head positions ih =>
    rw [List.map_cons, List.nodup_cons] at nodup
    rw [upsertAll, List.foldl_cons, ← upsertAll]
    rcases List.mem_cons.mp member with rfl | later
    · have own : (pos.account.asStr, pos.symbol) = pos.key := rfl
      rw [get_upsertAll_of_notMem nodup.1, get_upsert, if_pos own]
    · exact ih (store.upsert head) nodup.2 later

/-- Rewriting stored positions keeps their number. -/
theorem count_upsertAll {store : PositionStore} {positions : List Position}
    (stored : ∀ pos ∈ positions, (store.get pos.account.asStr pos.symbol).isSome) :
    (store.upsertAll positions).count = store.count := by
  induction positions generalizing store with
  | nil => rfl
  | cons pos positions ih =>
    obtain ⟨old, present⟩ := Option.isSome_iff_exists.mp (stored pos (by simp))
    rw [upsertAll, List.foldl_cons, ← upsertAll, ih, count_upsert_of_some present]
    intro other member
    rw [get_upsert]
    split
    · rfl
    · exact stored other (by simp [member])

theorem get_removeAll (store : PositionStore) (symbol : Symbol) (positions : List Position)
    (account : String) (symbol' : Symbol) :
    (store.removeAll symbol positions).get account symbol' =
      if symbol' = symbol ∧ account ∈ positions.map (fun pos => pos.account.asStr) then none
      else store.get account symbol' := by
  induction positions generalizing store with
  | nil => simp [removeAll]
  | cons pos positions ih =>
    rw [removeAll, List.foldl_cons, ← removeAll, ih, get_remove]
    by_cases market : symbol' = symbol <;> by_cases own : account = pos.account.asStr <;>
      simp [market, own]

/-- Removing distinct stored positions lowers the count by their number. -/
theorem count_removeAll {store : PositionStore} {symbol : Symbol} {positions : List Position}
    (nodup : (positions.map fun pos => pos.account.asStr).Nodup)
    (stored : ∀ pos ∈ positions, (store.get pos.account.asStr symbol).isSome) :
    (store.removeAll symbol positions).count + positions.length = store.count := by
  induction positions generalizing store with
  | nil => rfl
  | cons pos positions ih =>
    rw [List.map_cons, List.nodup_cons] at nodup
    obtain ⟨old, present⟩ := Option.isSome_iff_exists.mp (stored pos (by simp))
    have rest := @ih (store.remove pos.account.asStr symbol) nodup.2 (by
      intro other member
      have different : ¬ (other.account.asStr, symbol) = (pos.account.asStr, symbol) := by
        intro same
        exact nodup.1 (List.mem_map.mpr ⟨other, member, congrArg Prod.fst same⟩)
      rw [get_remove, if_neg different]
      exact stored other (by simp [member]))
    have removed := count_remove_of_some present
    rw [removeAll, List.foldl_cons, ← removeAll, List.length_cons]
    omega

variable {store : PositionStore} {symbol : Symbol} {listing : List Position}

theorem Lists.ids_nodup (lists : store.Lists symbol listing) :
    (listing.map fun pos => pos.account.asStr).Nodup := by
  have nodup := lists.accounts_nodup.map AccountId.asStr_injective
  rwa [List.map_map] at nodup

/-- A round that rewrites every listed position under its own key rewrites
exactly the market. -/
theorem Lists.get_upsertAll_map (lists : store.Lists symbol listing) {f : Position → Position}
    (keyed : ∀ pos, (f pos).key = pos.key) (account : String) (symbol' : Symbol) :
    (store.upsertAll (listing.map f)).get account symbol' =
      if symbol' = symbol then (store.get account symbol').map f
      else store.get account symbol' := by
  have keys : (listing.map f).map Position.key = listing.map Position.key := by
    rw [List.map_map]
    exact List.map_congr_left fun pos _ => keyed pos
  by_cases listed : (account, symbol') ∈ listing.map Position.key
  · obtain ⟨pos, member, own⟩ := List.mem_map.mp listed
    have stored := (lists.mem_iff pos).mp member
    have market := lists.symbol_eq member
    rw [Position.key, Prod.mk.injEq] at own
    obtain ⟨rfl, rfl⟩ := own
    have rewritten := keyed pos
    rw [Position.key, Position.key, Prod.mk.injEq] at rewritten
    have written := get_upsertAll_of_mem store (keys ▸ lists.nodup)
      (List.mem_map_of_mem member (f := f))
    rw [rewritten.1, rewritten.2] at written
    rw [written, if_pos market, market, stored]
    rfl
  · rw [get_upsertAll_of_notMem (keys ▸ listed)]
    split
    · next market =>
      subst market
      cases stored : store.get account symbol' with
      | none => rfl
      | some pos =>
        have own := key_of_get stored
        have member : pos ∈ listing := by
          rw [lists.mem_iff, account_of_get stored, stored]
        exact absurd (List.mem_map.mpr ⟨pos, member, own⟩) listed
    · rfl

/-- A sweep of the listed positions with a property leaves the others. -/
theorem Lists.get_removeAll_filter (lists : store.Lists symbol listing) (p : Position → Bool)
    (account : String) (symbol' : Symbol) :
    (store.removeAll symbol (listing.filter p)).get account symbol' =
      if symbol' = symbol then (store.get account symbol').filter fun pos => !p pos
      else store.get account symbol' := by
  rw [get_removeAll]
  by_cases market : symbol' = symbol
  · subst market
    rw [if_pos rfl]
    cases stored : store.get account symbol' with
    | none => simp
    | some pos =>
      have own := account_of_get stored
      have member : pos ∈ listing := by rw [lists.mem_iff, own, stored]
      have same : account ∈ (listing.filter p).map (fun pos => pos.account.asStr) ↔ p pos = true := by
        constructor
        · intro listed
          obtain ⟨other, filtered, otherOwn⟩ := List.mem_map.mp listed
          obtain ⟨otherMember, holds⟩ := List.mem_filter.mp filtered
          have otherStored := (lists.mem_iff other).mp otherMember
          rw [otherOwn, stored] at otherStored
          rwa [Option.some.inj otherStored]
        · intro holds
          exact List.mem_map.mpr ⟨pos, List.mem_filter.mpr ⟨member, holds⟩, own⟩
      cases holds : p pos <;> simp [same, holds, Option.filter]
  · rw [if_neg market, if_neg fun both => market both.1]

/-! ## Sums over a market -/

/-- Sum of `f` over the positions of a market. -/
def marketTotal (store : PositionStore) (symbol : Symbol) (f : Position → Int) : Int :=
  FiniteMap.total (fun (k : Key) pos => if k.2 = symbol then f pos else 0) store.byKey

theorem marketTotal_remove {account : String} {pos : Position}
    (stored : store.get account symbol = some pos) (f : Position → Int) :
    f pos + (store.remove account symbol).marketTotal symbol f = store.marketTotal symbol f := by
  have taken := FiniteMap.total_erase_of_some
    (fun (k : Key) pos => if k.2 = symbol then f pos else 0) stored
  rwa [if_pos rfl] at taken

theorem marketTotal_removeAll {positions : List Position}
    (nodup : (positions.map fun pos => pos.account.asStr).Nodup)
    (stored : ∀ pos ∈ positions, store.get pos.account.asStr symbol = some pos)
    (f : Position → Int) :
    (positions.map f).sum + (store.removeAll symbol positions).marketTotal symbol f =
      store.marketTotal symbol f := by
  induction positions generalizing store with
  | nil => exact Int.zero_add _
  | cons pos positions ih =>
    rw [List.map_cons, List.nodup_cons] at nodup
    have head := marketTotal_remove (stored pos (by simp)) f
    have rest := @ih (store.remove pos.account.asStr symbol) nodup.2 (by
      intro other member
      have different : ¬ (other.account.asStr, symbol) = (pos.account.asStr, symbol) := fun same =>
        nodup.1 (List.mem_map.mpr ⟨other, member, congrArg Prod.fst same⟩)
      rw [get_remove, if_neg different]
      exact stored other (by simp [member]))
    rw [List.map_cons, List.sum_cons, removeAll, List.foldl_cons, ← removeAll]
    omega

/-- A listing sums up its market. -/
theorem Lists.sum_eq (lists : store.Lists symbol listing) (f : Position → Int) :
    (listing.map f).sum = store.marketTotal symbol f := by
  have split := marketTotal_removeAll lists.ids_nodup
    (fun pos member => (lists.mem_iff pos).mp member) f
  have rest : (store.removeAll symbol listing).marketTotal symbol f = 0 := by
    apply FiniteMap.total_eq_zero
    intro k pos stored
    split_ifs with market
    · have left : (store.removeAll symbol listing).get k.1 k.2 = some pos := stored
      have gone := lists.get_removeAll_filter (fun _ => true) k.1 k.2
      rw [List.filter_true, left, if_pos market] at gone
      cases held : store.get k.1 k.2 <;> simp [held] at gone
    · rfl
  omega

end PositionStore

/-! ## Engines after a command -/

namespace Settlement

/-- The fund after this settlement. -/
def fundAfter (s : Settlement) (fund : InsuranceFund) : InsuranceFund :=
  if s.bankrupt then (fund.cover s.equity.neg).2 else fund.credit (s.fee.min s.equity)

end Settlement

/-- The fund after the settlements of a sweep. -/
def fundAfterAll (fund : InsuranceFund) (settled : List Settlement) : InsuranceFund :=
  settled.foldl (fun fund s => s.fundAfter fund) fund

/-- Every bankrupt settlement records what the fund, as it stood, answered. -/
def Waterfall : InsuranceFund → List Settlement → Prop
  | _, [] => True
  | fund, s :: settled =>
    (s.bankrupt = true → (s.drawn, s.socialized) = (fund.cover s.equity.neg).1) ∧
      Waterfall (s.fundAfter fund) settled

namespace RiskEngine

/-- The engine after a publish; nothing is published for an empty outcome. -/
def emit (engine : RiskEngine) (events : List RiskEvent) : RiskEngine :=
  { engine with sink := engine.sink ++ events }

/-- The engine after an accepted open. -/
def opened (engine : RiskEngine) (pos : Position) : RiskEngine :=
  (engine.setStore (engine.store.upsert pos)).setStats
    { engine.stats with openPositions := engine.stats.openPositions + 1 }

/-- The engine after a completed close. -/
def closed (engine : RiskEngine) (account : String) (symbol : Symbol) : RiskEngine :=
  (engine.setStore (engine.store.remove account symbol)).setStats
    { engine.stats with openPositions := engine.stats.openPositions - 1 }

/-- The engine after a market update. -/
def withMarket (engine : RiskEngine) (state : MarketState) : RiskEngine :=
  { engine with state :=
    { engine.state with markets := engine.state.markets.insert state.symbol.asStr state } }

/-- The engine after a funding round over a listing. -/
def accrued (engine : RiskEngine) (mark : Price) (rateBps : I64) (listing : List Position) :
    RiskEngine :=
  (engine.setStore (engine.store.upsertAll (listing.map (fundedPosition mark rateBps)))).setStats
    { engine.stats with fundingSettlements := engine.stats.fundingSettlements + listing.length }

/-- The engine after the settlements of a sweep. -/
def settledAll (engine : RiskEngine) (symbol : Symbol) (settled : List Settlement) : RiskEngine where
  store := engine.store.removeAll symbol (settled.map Settlement.position)
  sink := engine.sink
  state :=
    { engine.state with
      insurance := fundAfterAll engine.state.insurance settled
      stats :=
        { engine.stats with
          openPositions := engine.stats.openPositions - settled.length
          liquidations := engine.stats.liquidations + settled.length } }
  config := engine.config

/-- The engine after the last section of a sweep. -/
def countedAdl (engine : RiskEngine) (symbol : Symbol) (total : Usd) : RiskEngine :=
  engine.setStats
    { engine.stats with adlEvents := engine.stats.adlEvents + (adlEvents symbol total).length }

/-- The engine after a sweep: the settlements and, with a socialised loss, the
auto-deleverage counter. -/
def swept (engine : RiskEngine) (symbol : Symbol) (settled : List Settlement) : RiskEngine :=
  (engine.settledAll symbol settled).countedAdl symbol (totalSocialized settled)

@[simp] theorem emit_nil (engine : RiskEngine) : engine.emit [] = engine := by simp [emit]

section Fields
variable (engine : RiskEngine) (symbol : Symbol) (settled : List Settlement)
  (events : List RiskEvent)

@[simp] theorem emit_store : (engine.emit events).store = engine.store := rfl
@[simp] theorem emit_sink : (engine.emit events).sink = engine.sink ++ events := rfl
@[simp] theorem emit_state : (engine.emit events).state = engine.state := rfl
@[simp] theorem emit_config : (engine.emit events).config = engine.config := rfl
@[simp] theorem emit_stats : (engine.emit events).stats = engine.stats := rfl
@[simp] theorem emit_market : (engine.emit events).market symbol = engine.market symbol := rfl
@[simp] theorem emit_riskParams :
    (engine.emit events).riskParams symbol = engine.riskParams symbol := rfl

@[simp] theorem swept_store : (engine.swept symbol settled).store =
    engine.store.removeAll symbol (settled.map Settlement.position) := rfl
@[simp] theorem swept_insurance : (engine.swept symbol settled).state.insurance =
    fundAfterAll engine.state.insurance settled := rfl
@[simp] theorem swept_markets :
    (engine.swept symbol settled).state.markets = engine.state.markets := rfl
@[simp] theorem swept_risk : (engine.swept symbol settled).state.risk = engine.state.risk := rfl
@[simp] theorem swept_config : (engine.swept symbol settled).config = engine.config := rfl
@[simp] theorem swept_sink : (engine.swept symbol settled).sink = engine.sink := rfl
@[simp] theorem swept_market (symbol' : Symbol) :
    (engine.swept symbol settled).market symbol' = engine.market symbol' := rfl
@[simp] theorem swept_riskParams (symbol' : Symbol) :
    (engine.swept symbol settled).riskParams symbol' = engine.riskParams symbol' := rfl
theorem swept_stats : (engine.swept symbol settled).stats =
    { engine.stats with
      openPositions := engine.stats.openPositions - settled.length
      liquidations := engine.stats.liquidations + settled.length
      adlEvents := engine.stats.adlEvents +
        (adlEvents symbol (totalSocialized settled)).length } := rfl

/-- A sweep that settles nothing changes nothing. -/
theorem swept_nil : engine.swept symbol [] = engine := rfl

end Fields

end RiskEngine

theorem after_fundingCalls (engine : RiskEngine) (mark : Price) (rateBps : I64)
    (listing : List Position) :
    portsUp.after engine (listing.map (fundingCall mark rateBps)) =
      engine.setStore (engine.store.upsertAll (listing.map (fundedPosition mark rateBps))) := by
  induction listing generalizing engine with
  | nil => rfl
  | cons pos listing ih =>
    rw [List.map_cons, Machine.after_cons, ih]
    rfl

theorem after_accrue (engine : RiskEngine) (mark : Price) (rateBps : I64) (listing : List Position) :
    portsUp.after engine (listing.map (fundingCall mark rateBps) ++ fundingCount listing) =
      engine.accrued mark rateBps listing := by
  rw [Machine.after_append, after_fundingCalls]
  cases listing with
  | nil => rfl
  | cons pos listing => rfl

theorem after_settlement (engine : RiskEngine) (symbol : Symbol) (s : Settlement) :
    portsUp.after engine (s.calls symbol) = engine.settledAll symbol [s] := by
  have fund : portsUp.effect (engine.setStore (engine.store.remove s.position.account.asStr symbol))
        s.fundCall.op s.fundCall.ans =
      (engine.setStore (engine.store.remove s.position.account.asStr symbol)).setInsurance
        (s.fundAfter engine.state.insurance) := by
    cases short : s.bankrupt with
    | true =>
      rw [Settlement.fundCall_of_bankrupt short, Settlement.fundAfter, if_pos short]
      rfl
    | false =>
      rw [Settlement.fundCall_of_solvent short, Settlement.fundAfter, if_neg (by simp [short])]
      rfl
  change portsUp.effect (portsUp.effect
    (engine.setStore (engine.store.remove s.position.account.asStr symbol))
    s.fundCall.op s.fundCall.ans) .countLiquidated () = _
  rw [fund]
  rfl

theorem after_settlements (engine : RiskEngine) (symbol : Symbol) (settled : List Settlement) :
    portsUp.after engine (settled.flatMap (Settlement.calls symbol)) =
      engine.settledAll symbol settled := by
  induction settled generalizing engine with
  | nil => rfl
  | cons s settled ih =>
    rw [List.flatMap_cons, Machine.after_append, after_settlement, ih]
    have fewer : engine.stats.openPositions - 1 - settled.length =
        engine.stats.openPositions - (settled.length + 1) := by omega
    have more : engine.stats.liquidations + 1 + settled.length =
        engine.stats.liquidations + (settled.length + 1) := by omega
    ext1
    · rfl
    · rfl
    · ext1
      · rfl
      · rfl
      · rfl
      · ext1
        · exact fewer
        · exact more
        · rfl
        · rfl
    · rfl

theorem RiskEngine.settledAll_append (engine : RiskEngine) (symbol : Symbol)
    (front back : List Settlement) :
    engine.settledAll symbol (front ++ back) =
      (engine.settledAll symbol front).settledAll symbol back := by
  rw [← after_settlements, List.flatMap_append, Machine.after_append, after_settlements,
    after_settlements]

theorem after_adlCalls (engine : RiskEngine) (symbol : Symbol) (total : Usd) :
    portsUp.after engine (adlCalls total) = engine.countedAdl symbol total := by
  unfold adlCalls RiskEngine.countedAdl adlEvents
  split
  · rfl
  · rfl

theorem waterfall_of_legal {engine : RiskEngine} {symbol : Symbol} {settled : List Settlement}
    (legal : portsUp.Legal engine (settled.flatMap (Settlement.calls symbol))) :
    Waterfall engine.state.insurance settled := by
  induction settled generalizing engine with
  | nil => trivial
  | cons s settled ih =>
    rw [List.flatMap_cons, Machine.legal_append, after_settlement] at legal
    obtain ⟨head, rest⟩ := legal
    refine ⟨fun short => ?_, ih rest⟩
    have answered := head.2.1
    rw [Settlement.fundCall_of_bankrupt short] at answered
    exact answered

/-! ## Transitions -/

/-- Everything `apply` can do to an engine with nothing else in flight. -/
inductive Transition (engine : RiskEngine) :
    RiskCommand → Except CoreError CommandOutcome → RiskEngine → Prop
  | rateLimited (command : RiskCommand) :
      Transition engine command (.error .rateLimited) engine
  | positionExists {account : AccountId} {symbol : Symbol} {side : Side} {marginMode : MarginMode}
      {size : Size} {entryPrice : Price} {leverage : Leverage} {margin : Usd} (held : Position)
      (present : engine.store.get account.asStr symbol = some held) :
      Transition engine
        (.openPosition account symbol side marginMode size entryPrice leverage margin)
        (.error .positionExists) engine
  | insufficientMargin {account : AccountId} {symbol : Symbol} {side : Side}
      {marginMode : MarginMode} {size : Size} {entryPrice : Price} {leverage : Leverage}
      {margin : Usd} (absent : engine.store.get account.asStr symbol = none)
      (short : margin < initialMargin
        (openedPosition account symbol side marginMode size entryPrice leverage margin) entryPrice
        (engine.riskParams symbol)) :
      Transition engine
        (.openPosition account symbol side marginMode size entryPrice leverage margin)
        (.error .insufficientMargin) engine
  | opened {account : AccountId} {symbol : Symbol} {side : Side} {marginMode : MarginMode}
      {size : Size} {entryPrice : Price} {leverage : Leverage} {margin : Usd} {pos : Position}
      (own : pos = openedPosition account symbol side marginMode size entryPrice leverage margin)
      (absent : engine.store.get account.asStr symbol = none)
      (enough : ¬ margin < initialMargin pos entryPrice (engine.riskParams symbol)) :
      Transition engine
        (.openPosition account symbol side marginMode size entryPrice leverage margin)
        (.ok ⟨[openedEvent pos]⟩) ((engine.opened pos).emit [openedEvent pos])
  | closeAbsent {account : AccountId} {symbol : Symbol}
      (absent : engine.store.get account.asStr symbol = none) :
      Transition engine (.closePosition account symbol) (.error .positionNotFound) engine
  | closeUnpriced {account : AccountId} {symbol : Symbol} (pos : Position)
      (present : engine.store.get account.asStr symbol = some pos)
      (unpriced : engine.market symbol = none) :
      Transition engine (.closePosition account symbol) (.error .marketNotFound)
        (engine.setStore (engine.store.remove account.asStr symbol))
  | closed {account : AccountId} {symbol : Symbol} (pos : Position) (state : MarketState)
      (present : engine.store.get account.asStr symbol = some pos)
      (priced : engine.market symbol = some state) :
      Transition engine (.closePosition account symbol)
        (.ok ⟨[closedEvent symbol pos state.markPrice]⟩)
        ((engine.closed account.asStr symbol).emit [closedEvent symbol pos state.markPrice])
  | updated (symbol : Symbol) (markPrice indexPrice : Price) (fundingRateBps : I64) :
      Transition engine (.updateMarket symbol markPrice indexPrice fundingRateBps)
        (.ok ⟨[.marketUpdated symbol markPrice.micros fundingRateBps]⟩)
        ((engine.withMarket { symbol, markPrice, indexPrice, fundingRateBps }).emit
          [.marketUpdated symbol markPrice.micros fundingRateBps])
  | accrueUnpriced {symbol : Symbol} (unpriced : engine.market symbol = none) :
      Transition engine (.accrueFunding symbol) (.error .marketNotFound) engine
  | accrued {symbol : Symbol} (state : MarketState) (listing : List Position)
      (priced : engine.market symbol = some state) (lists : engine.store.Lists symbol listing) :
      Transition engine (.accrueFunding symbol)
        (.ok ⟨listing.map (fundingEvent symbol state.markPrice state.fundingRateBps)⟩)
        ((engine.accrued state.markPrice state.fundingRateBps listing).emit
          (listing.map (fundingEvent symbol state.markPrice state.fundingRateBps)))
  | sweepUnpriced {symbol : Symbol} (unpriced : engine.market symbol = none) :
      Transition engine (.liquidateMarket symbol) (.error .marketNotFound) engine
  | swept {symbol : Symbol} (state : MarketState) (listing : List Position)
      (settled : List Settlement) (priced : engine.market symbol = some state)
      (lists : engine.store.Lists symbol listing)
      (processed : Processed state.markPrice (engine.riskParams symbol) listing settled)
      (waterfall : Waterfall engine.state.insurance settled) :
      Transition engine (.liquidateMarket symbol)
        (.ok ⟨sweepEvents symbol settled⟩)
        ((engine.swept symbol settled).emit (sweepEvents symbol settled))

/-- Everything a command emitted is published, in order. -/
theorem Transition.sink {engine engine' : RiskEngine} {command : RiskCommand}
    {result : Except CoreError CommandOutcome} (step : Transition engine command result engine') :
    engine'.sink = engine.sink ++ eventsOf result := by
  cases step <;> first | exact (List.append_nil _).symm | rfl

/-- The error of a result. -/
def errorOf : Except CoreError CommandOutcome → Option CoreError
  | .ok _ => none
  | .error e => some e

/-- The error an admitted command is rejected with. -/
def RiskEngine.rejection (engine : RiskEngine) : RiskCommand → Option CoreError
  | .openPosition account symbol side marginMode size entryPrice leverage margin =>
    if (engine.store.get account.asStr symbol).isSome then some .positionExists
    else if margin < initialMargin
        (openedPosition account symbol side marginMode size entryPrice leverage margin) entryPrice
        (engine.riskParams symbol) then some .insufficientMargin
    else none
  | .closePosition account symbol =>
    if (engine.store.get account.asStr symbol).isNone then some .positionNotFound
    else if (engine.market symbol).isNone then some .marketNotFound
    else none
  | .updateMarket _ _ _ _ => none
  | .accrueFunding symbol => if (engine.market symbol).isNone then some .marketNotFound else none
  | .liquidateMarket symbol => if (engine.market symbol).isNone then some .marketNotFound else none

/-- Whether and why an admitted command is rejected is decided by the engine it meets. -/
theorem Transition.errorOf_eq {engine engine' : RiskEngine} {command : RiskCommand}
    {result : Except CoreError CommandOutcome} (step : Transition engine command result engine')
    (admitted : result ≠ .error .rateLimited) : errorOf result = engine.rejection command := by
  cases step with
  | rateLimited => exact absurd rfl admitted
  | positionExists held present => simp [errorOf, RiskEngine.rejection, present]
  | insufficientMargin absent short => simp [errorOf, RiskEngine.rejection, absent, short]
  | opened own absent enough =>
    subst own
    simp [errorOf, RiskEngine.rejection, absent, enough]
  | closeAbsent absent => simp [errorOf, RiskEngine.rejection, absent]
  | closeUnpriced pos present unpriced =>
    simp [errorOf, RiskEngine.rejection, present, unpriced]
  | closed pos state present priced => simp [errorOf, RiskEngine.rejection, present, priced]
  | updated => rfl
  | accrueUnpriced unpriced => simp [errorOf, RiskEngine.rejection, unpriced]
  | accrued state listing priced lists => simp [errorOf, RiskEngine.rejection, priced]
  | sweepUnpriced unpriced => simp [errorOf, RiskEngine.rejection, unpriced]
  | swept state listing settled priced lists processed waterfall =>
    simp [errorOf, RiskEngine.rejection, priced]

/-- A rejection publishes nothing. -/
theorem Transition.unpublished {engine engine' : RiskEngine} {command : RiskCommand} {e : CoreError}
    (step : Transition engine command (.error e) engine') :
    Transition engine command (.error e) (engine'.emit (eventsOf (.error e))) := by
  rw [eventsOf, RiskEngine.emit_nil]
  exact step

/-- Removing nothing changes nothing. -/
theorem after_removeAbsent {engine : RiskEngine} {account : String} {symbol : Symbol}
    (absent : engine.store.get account symbol = none) :
    portsUp.after engine [⟨.remove account symbol, .ok none⟩] = engine := by
  change engine.setStore (engine.store.remove account symbol) = engine
  rw [PositionStore.remove_of_get_none absent]
  rfl

theorem transition_accrued {engine : RiskEngine} {symbol : Symbol} {mark : Price} {rateBps : I64}
    {listing : List Position}
    (legal : portsUp.Legal engine (⟨.fundingTerms symbol, some (mark, rateBps)⟩ ::
      ⟨.byMarket symbol, .ok listing⟩ ::
        (listing.map (fundingCall mark rateBps) ++ fundingCount listing))) :
    Transition engine (.accrueFunding symbol)
      (.ok ⟨listing.map (fundingEvent symbol mark rateBps)⟩)
      ((portsUp.after engine (listing.map (fundingCall mark rateBps) ++ fundingCount listing)).emit
        (listing.map (fundingEvent symbol mark rateBps))) := by
  obtain ⟨priced, lists, _⟩ := legal
  obtain ⟨state, known, rfl, rfl⟩ := fundingTerms_read priced
  rw [after_accrue]
  exact .accrued state listing known lists

/-- A completed sweep, taken apart. -/
theorem swept_of_legal {engine : RiskEngine} {symbol : Symbol} {mark : Price} {params : RiskParams}
    {listing : List Position} {settled : List Settlement}
    (legal : portsUp.Legal engine (⟨.sweepTerms symbol, some (mark, params)⟩ ::
      ⟨.byMarket symbol, .ok listing⟩ :: (settled.flatMap (Settlement.calls symbol) ++
        adlCalls (totalSocialized settled)))) :
    ∃ state, engine.market symbol = some state ∧ mark = state.markPrice ∧
      params = engine.riskParams symbol ∧ engine.store.Lists symbol listing ∧
      Waterfall engine.state.insurance settled ∧
      portsUp.after engine (⟨.sweepTerms symbol, some (mark, params)⟩ ::
        ⟨.byMarket symbol, .ok listing⟩ :: (settled.flatMap (Settlement.calls symbol) ++
          adlCalls (totalSocialized settled))) = engine.swept symbol settled := by
  obtain ⟨priced, lists, body⟩ := legal
  obtain ⟨state, known, sameMark, sameParams⟩ := sweepTerms_read priced
  refine ⟨state, known, sameMark, sameParams, lists,
    waterfall_of_legal ((Machine.legal_append _ _ _).mp body).1, ?_⟩
  change portsUp.after engine (settled.flatMap (Settlement.calls symbol) ++
    adlCalls (totalSocialized settled)) = _
  rw [Machine.after_append, after_settlements, after_adlCalls _ symbol]
  rfl

/-- With nothing else in flight, what a command is served is a transition. -/
theorem Served.transition {engine : RiskEngine} {command : RiskCommand} {body : List EngineCall}
    {r : Except CoreError CommandOutcome} (served : Served command body r)
    (legal : portsUp.Legal engine body) :
    Transition engine command r ((portsUp.after engine body).emit (eventsOf r)) := by
  cases served with
  | positionExists opens held =>
    obtain ⟨_, _, _, _, _, _, _, _, rfl, rfl⟩ := opening_eq_some opens
    exact .unpublished (.positionExists held (Except.ok.inj legal.1).symm)
  | insufficientMargin opens params short =>
    obtain ⟨_, _, _, _, _, _, _, _, rfl, rfl⟩ := opening_eq_some opens
    obtain ⟨absent, rfl, _⟩ := legal
    exact .unpublished (.insufficientMargin (Except.ok.inj absent).symm short)
  | opened opens params enough =>
    obtain ⟨_, _, _, _, _, _, _, _, rfl, rfl⟩ := opening_eq_some opens
    obtain ⟨absent, rfl, _⟩ := legal
    exact .opened rfl (Except.ok.inj absent).symm enough
  | closeAbsent account symbol =>
    have absent := (Except.ok.inj legal.1).symm
    rw [after_removeAbsent absent]
    exact .unpublished (.closeAbsent absent)
  | closeUnpriced account symbol pos =>
    obtain ⟨present, unpriced, _⟩ := legal
    exact .unpublished (.closeUnpriced pos (Except.ok.inj present).symm
      (Option.map_eq_none_iff.mp unpriced.symm))
  | closed account symbol pos mark own =>
    obtain ⟨present, priced, _⟩ := legal
    obtain ⟨state, known, rfl⟩ := Option.map_eq_some_iff.mp priced.symm
    exact .closed pos state (Except.ok.inj present).symm known
  | updated symbol markPrice indexPrice rateBps =>
    exact .updated symbol markPrice indexPrice rateBps
  | accrueUnpriced symbol =>
    exact .unpublished (.accrueUnpriced (Option.map_eq_none_iff.mp legal.1.symm))
  | accrued symbol mark rateBps listing lists => exact transition_accrued legal
  | sweepUnpriced symbol =>
    exact .unpublished (.sweepUnpriced (Option.map_eq_none_iff.mp legal.1.symm))
  | swept symbol mark params listing settled processed lists =>
    obtain ⟨state, priced, rfl, rfl, lists, waterfall, final⟩ := swept_of_legal legal
    rw [final]
    exact .swept state listing settled priced lists processed waterfall

theorem legal_publish (engine : RiskEngine) (events : List RiskEvent) :
    portsUp.Legal engine (publishCalls events) := by
  unfold publishCalls
  split
  · trivial
  · exact ⟨rfl, trivial⟩

theorem after_publish (engine : RiskEngine) (events : List RiskEvent) :
    portsUp.after engine (publishCalls events) = engine.emit events := by
  cases events with
  | nil => exact (RiskEngine.emit_nil engine).symm
  | cons event events => rfl

/-- An application is a transition. -/
theorem Executes.transition {engine engine' : RiskEngine} {command : RiskCommand}
    {result : Except CoreError CommandOutcome} (ran : Executes engine command result engine') :
    Transition engine command result engine' := by
  obtain ⟨calls, run, legal, rfl⟩ := ran
  cases applied_of_returns run (possible_of_legal legal) with
  | rateLimited => exact .rateLimited command
  | admitted body r served =>
    rw [Machine.after_cons, Machine.after_append, after_publish]
    exact served.transition ((Machine.legal_append _ _ _).mp legal.2).1

end MarginGuard.Source
