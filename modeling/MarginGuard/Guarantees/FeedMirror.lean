import MarginGuard.Guarantees.LiveFeed
import MarginGuard.Guarantees.MarketIsolation
import MarginGuard.Guarantees.MarketStream
import MarginGuard.Guarantees.EventLog

/-!
# A client that follows the feed

A client asks for the open positions, the quotes and the statistics, subscribes,
and from then on knows by its stream alone which positions are open, the quotes, the
statistics and what was published. `Continues` says how the events of a stretch of
commands lead from what was known to what is the case; each command does
(`continues_of_transition`) and stretches compose. With a subscriber that keeps up,
the client is right whenever the stream runs dry (`live_feed_mirrors_engine`).
-/
namespace MarginGuard.Guarantees
open Foundation Source

/-- The position of a key is open after the events, if it was before. -/
def openAfter (k : Key) (before : Bool) (events : List RiskEvent) : Bool :=
  ((events.filterMap (lifecycle k)).getLast?).getD before

/-- The events tell what has become of the engine. -/
structure Continues (engine : RiskEngine) (events : List RiskEvent) (engine' : RiskEngine) : Prop where
  positions : ∀ k, (engine'.held k).isSome = openAfter k (engine.held k).isSome events
  quotes : ∀ symbol, (engine'.market symbol).map marketQuote =
    (lastQuote symbol events).or ((engine.market symbol).map marketQuote)
  openPositions : engine'.stats.openPositions + events.countP isEnded =
    engine.stats.openPositions + events.countP isOpened
  liquidations : engine'.stats.liquidations = engine.stats.liquidations + events.countP isLiquidated
  adlEvents : engine'.stats.adlEvents = engine.stats.adlEvents + events.countP isDeleveraged
  fundingSettlements : engine'.stats.fundingSettlements =
    engine.stats.fundingSettlements + events.countP isFunding
  published : engine'.sink = engine.sink ++ events

theorem openAfter_append (k : Key) (before : Bool) (first second : List RiskEvent) :
    openAfter k before (first ++ second) = openAfter k (openAfter k before first) second := by
  unfold openAfter
  rw [List.filterMap_append, List.getLast?_append]
  cases (second.filterMap (lifecycle k)).getLast? <;> rfl

theorem openAfter_quiet {k : Key} {before : Bool} {events : List RiskEvent}
    (quiet : ∀ event ∈ events, lifecycle k event = none) : openAfter k before events = before := by
  rw [openAfter, List.filterMap_eq_nil_iff.mpr quiet]
  rfl

namespace Continues
variable {engine middle engine' : RiskEngine} {first second : List RiskEvent}

theorem refl (engine : RiskEngine) : Continues engine [] engine :=
  ⟨fun _ => rfl, fun _ => rfl, rfl, rfl, rfl, rfl, (List.append_nil _).symm⟩

theorem trans (before : Continues engine first middle) (after : Continues middle second engine') :
    Continues engine (first ++ second) engine' where
  positions k := by rw [after.positions, before.positions, openAfter_append]
  quotes symbol := by rw [after.quotes, before.quotes, lastQuote_append, Option.or_assoc]
  openPositions := by
    have early := before.openPositions
    have late := after.openPositions
    rw [List.countP_append, List.countP_append]
    omega
  liquidations := by rw [after.liquidations, before.liquidations, List.countP_append, Nat.add_assoc]
  adlEvents := by rw [after.adlEvents, before.adlEvents, List.countP_append, Nat.add_assoc]
  fundingSettlements := by
    rw [after.fundingSettlements, before.fundingSettlements, List.countP_append, Nat.add_assoc]
  published := by rw [after.published, before.published, List.append_assoc]

end Continues

/-! ## One command -/

/-- Closes are of positions in a priced market. -/
def ClosesPriced (engine : RiskEngine) : RiskCommand → Prop
  | .closePosition _ symbol => (engine.market symbol).isSome
  | _ => True

instance (engine : RiskEngine) : (command : RiskCommand) → Decidable (ClosesPriced engine command)
  | .closePosition _ symbol => inferInstanceAs (Decidable ((engine.market symbol).isSome = true))
  | .openPosition .. => .isTrue trivial
  | .updateMarket .. => .isTrue trivial
  | .accrueFunding _ => .isTrue trivial
  | .liquidateMarket _ => .isTrue trivial

section Step
variable {engine engine' : RiskEngine} {command : RiskCommand}
  {result : Except CoreError CommandOutcome}

/-- A sweep ends the positions it settles and no other. -/
theorem held_swept {symbol : Symbol} {settled : List Settlement} (k : Key) :
    ((engine.swept symbol settled).held k).isSome =
      openAfter k (engine.held k).isSome (sweepEvents symbol settled) := by
  obtain ⟨account, market⟩ := k
  have quietEnd : ∀ event ∈ adlEvents symbol (totalSocialized settled),
      lifecycle (account, market) event = none := by
    intro event member
    rw [mem_adlEvents member]
    rfl
  rw [sweepEvents, openAfter_append, openAfter_quiet quietEnd, RiskEngine.held,
    RiskEngine.swept_store, PositionStore.get_removeAll]
  have ends : ∀ s : Settlement, lifecycle (account, market) (s.event symbol) =
      if (s.position.account.asStr, symbol) = (account, market) then some false else none :=
    fun s => rfl
  by_cases taken : ∃ s ∈ settled, (s.position.account.asStr, symbol) = (account, market)
  · obtain ⟨s, member, own⟩ := taken
    obtain ⟨rfl, rfl⟩ := Prod.mk.inj own
    rw [if_pos ⟨rfl, List.mem_map_of_mem (List.mem_map_of_mem member)⟩]
    -- whichever of its events is the last, each of them ends the position
    have last : ∀ b ∈ (settled.map (Settlement.event symbol)).filterMap
        (lifecycle (s.position.account.asStr, symbol)), b = false := by
      intro b listed
      obtain ⟨event, occurs, told⟩ := List.mem_filterMap.mp listed
      obtain ⟨t, -, rfl⟩ := List.mem_map.mp occurs
      rw [ends t] at told
      split at told
      · exact (Option.some.inj told).symm
      · cases told
    have nonempty : (settled.map (Settlement.event symbol)).filterMap
        (lifecycle (s.position.account.asStr, symbol)) ≠ [] := by
      refine List.ne_nil_of_mem (a := false) (List.mem_filterMap.mpr ⟨s.event symbol, ?_, ?_⟩)
      · exact List.mem_map_of_mem member
      · rw [ends s, if_pos rfl]
    rw [openAfter, List.getLast?_eq_some_getLast nonempty, Option.getD_some,
      last _ (List.getLast_mem nonempty)]
    rfl
  · have others : ¬ (market = symbol ∧
        account ∈ (settled.map Settlement.position).map fun pos => pos.account.asStr) := by
      rintro ⟨rfl, listed⟩
      obtain ⟨pos, posMember, own⟩ := List.mem_map.mp listed
      obtain ⟨s, member, rfl⟩ := List.mem_map.mp posMember
      exact taken ⟨s, member, by rw [own]⟩
    rw [if_neg others, openAfter_quiet]
    · rfl
    · intro event occurs
      obtain ⟨s, member, rfl⟩ := List.mem_map.mp occurs
      rw [ends s, if_neg fun own => taken ⟨s, member, own⟩]

theorem held_of_transition (priced : ClosesPriced engine command)
    (step : Transition engine command result engine') (k : Key) :
    (engine'.held k).isSome = openAfter k (engine.held k).isSome (eventsOf result) := by
  obtain ⟨account, market⟩ := k
  cases step with
  | @opened _ _ _ _ _ _ _ _ pos own absent enough =>
    change ((engine.store.upsert pos).get account market).isSome = _
    rw [PositionStore.get_upsert]
    by_cases same : (account, market) = pos.key
    · rw [if_pos same]
      simp [openAfter, eventsOf, openedEvent, lifecycle, same, Position.key]
    · rw [if_neg same, openAfter_quiet]
      · rfl
      · simpa [eventsOf, openedEvent, lifecycle, Position.key, eq_comm] using same
  | closeUnpriced pos present unpriced =>
    rw [ClosesPriced, unpriced] at priced
    cases priced
  | @closed owner symbol pos state present known =>
    change ((engine.store.remove owner.asStr symbol).get account market).isSome = _
    have key := PositionStore.account_of_get present
    rw [PositionStore.get_remove]
    by_cases same : (account, market) = (owner.asStr, symbol)
    · rw [if_pos same]
      simp [openAfter, eventsOf, closedEvent, lifecycle, same, key]
    · rw [if_neg same, openAfter_quiet]
      · rfl
      · simpa [eventsOf, closedEvent, lifecycle, key, eq_comm] using same
  | updated => rfl
  | @accrued symbol state listing known lists =>
    have settled := lists.get_upsertAll_map
      (f := fundedPosition state.markPrice state.fundingRateBps) (fun _ => rfl) account market
    change ((engine.store.upsertAll _).get account market).isSome = _
    rw [settled, openAfter_quiet]
    · split
      · exact Option.isSome_map
      · rfl
    · intro event occurs
      obtain ⟨pos, -, rfl⟩ := List.mem_map.mp occurs
      rfl
  | swept state listing settled known lists processed waterfall =>
    exact held_swept (account, market)
  | _ => rfl

theorem quote_of_transition (step : Transition engine command result engine') (symbol : Symbol) :
    (engine'.market symbol).map marketQuote =
      (lastQuote symbol (eventsOf result)).or ((engine.market symbol).map marketQuote) := by
  cases step with
  | updated symbol' markPrice indexPrice rateBps =>
    have market : ((engine.withMarket ⟨symbol', markPrice, indexPrice, rateBps⟩).emit
        [.marketUpdated symbol' markPrice.micros rateBps]).market symbol =
        if symbol' = symbol then some ⟨symbol', markPrice, indexPrice, rateBps⟩
        else engine.market symbol := market_effect engine
      ⟨.insertMarket ⟨symbol', markPrice, indexPrice, rateBps⟩, ()⟩ symbol
    rw [market]
    by_cases own : symbol' = symbol <;> simp [own, eventsOf, lastQuote, quoteOf, marketQuote]
  | accrued =>
    rw [eventsOf, lastQuote_of_quiet quoteOf_accrue]
    rfl
  | swept =>
    rw [eventsOf, lastQuote_of_quiet quoteOf_sweep]
    rfl
  | _ => rfl

theorem continues_of_transition {config : EngineConfig} (sound : Sound config engine)
    (priced : ClosesPriced engine command) (step : Transition engine command result engine') :
    Continues engine (eventsOf result) engine' := by
  have counted := counted_of_transition sound step
  exact ⟨held_of_transition priced step, quote_of_transition step, counted.openPositions,
    counted.liquidations, counted.adlEvents, counted.fundingSettlements, step.sink⟩

end Step

/-! ## Commands since the subscription -/

/-- Commands applied one after another from `start`, none of them a close in a
market without a price. -/
inductive Session (start : RiskEngine) : List Entry → RiskEngine → Prop
  | opened : Session start [] start
  | apply {entries : List Entry} {engine engine' : RiskEngine} {command : RiskCommand}
      {result : Except CoreError CommandOutcome} (before : Session start entries engine)
      (priced : ClosesPriced engine command) (ran : Executes engine command result engine') :
      Session start (entries ++ [⟨command, result⟩]) engine'

/-- Over a session the engine stays reached, and its events tell what becomes of
it. -/
theorem Session.continues {seed : Usd} {config : EngineConfig} {start engine : RiskEngine}
    {entries : List Entry} (reached : Reachable seed config start)
    (session : Session start entries engine) :
    Reachable seed config engine ∧
      Continues start (entries.flatMap fun entry => eventsOf entry.result) engine := by
  induction session with
  | opened => exact ⟨reached, .refl start⟩
  | apply before priced ran ih =>
    obtain ⟨⟨earlier, history⟩, told⟩ := ih
    have sound := Reachable.sound ⟨earlier, history⟩
    refine ⟨⟨_, history.apply trivial ran⟩, ?_⟩
    rw [List.flatMap_append, List.flatMap_singleton]
    exact told.trans (continues_of_transition sound priced ran.transition)

/-- An alert is a liquidation or an auto-deleverage. -/
theorem isAlert_eq (event : RiskEvent) : isAlert event = (isLiquidated event || isDeleveraged event) := by
  cases event <;> rfl

theorem length_alerts (events : List RiskEvent) :
    (events.filter isAlert).length = events.countP isLiquidated + events.countP isDeleveraged := by
  rw [← List.countP_eq_length_filter]
  induction events with
  | nil => rfl
  | cons event events ih =>
    rw [List.countP_cons, List.countP_cons, List.countP_cons, ih, isAlert_eq]
    cases event <;> simp [isLiquidated, isDeleveraged] <;> omega

/-- A history without closes in unpriced markets is a session from the fresh engine. -/
theorem session_of_history {seed : Usd} {config : EngineConfig} {entries : List Entry}
    {engine : RiskEngine} (run : History seed config ClosesPriced entries engine) :
    Session (.fromParts seed config) entries engine := by
  induction run with
  | fresh => exact .opened
  | apply before priced ran ih => exact ih.apply priced ran

end MarginGuard.Guarantees
