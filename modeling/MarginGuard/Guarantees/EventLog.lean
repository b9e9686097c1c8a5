import Mathlib.Data.List.Nodup
import MarginGuard.Source.Invariants
import MarginGuard.Source.Script

/-!
# The event stream determines the state

`replay` is a read model: it folds the emitted events, in order, into the live
positions with the funding settled on them, the last quote of each market and
five counters. It reads the command behind an event only for the fields a
`PositionOpened` does not carry. `replay_agrees` shows that the engine never
departs from it: after any sequence of commands, whatever each returned, the
fold of the log is the engine's state.

Two kinds of command are excluded, both in `Orderly`: a close in a market
without a state, which drops a position without an event, and a funding round
in which a `funding_paid` saturates.
-/
namespace MarginGuard.Guarantees
open Foundation Source

/-! ## The read model -/

/-- An open position as the log tells it: as its `OpenPosition` described it,
and the funding settled on it since. -/
structure Standing where
  opened : Position
  funding : Int

/-- What the log says so far. -/
structure Journal where
  live : Key → Option Standing
  quote : Symbol → Option (Int × I64)
  opened : Nat
  closed : Nat
  liquidated : Nat
  settled : Nat
  deleveraged : Nat

namespace Journal

def empty : Journal where
  live _ := none
  quote _ := none
  opened := 0
  closed := 0
  liquidated := 0
  settled := 0
  deleveraged := 0

def setLive (journal : Journal) (k : Key) (standing : Option Standing) : Journal :=
  { journal with live := Function.update journal.live k standing }

/-- Read one event that the command emitted. -/
def record (command : RiskCommand) (journal : Journal) : RiskEvent → Journal
  | .positionOpened account symbol _ _ =>
    { journal.setLive (account.asStr, symbol) (command.opening.map (⟨·, 0⟩)) with
      opened := journal.opened + 1 }
  | .positionClosed account symbol _ =>
    { journal.setLive (account.asStr, symbol) none with closed := journal.closed + 1 }
  | .liquidated l =>
    { journal.setLive (l.account.asStr, l.symbol) none with liquidated := journal.liquidated + 1 }
  | .fundingSettled account symbol amount =>
    { journal.setLive (account.asStr, symbol)
        ((journal.live (account.asStr, symbol)).map fun standing =>
          { standing with funding := standing.funding + amount.toInt }) with
      settled := journal.settled + 1 }
  | .marketUpdated symbol markPrice fundingRateBps =>
    { journal with quote := Function.update journal.quote symbol (some (markPrice, fundingRateBps)) }
  | .autoDeleveraged _ _ => { journal with deleveraged := journal.deleveraged + 1 }

/-- Read the events of one command. -/
def enter (journal : Journal) (entry : Entry) : Journal :=
  (eventsOf entry.result).foldl (record entry.command) journal

end Journal

/-- Read a whole log. -/
def replay (entries : List Entry) : Journal := entries.foldl Journal.enter .empty

/-! ## Events about different keys do not meet -/

/-- The position an event is about. -/
def eventKey : RiskEvent → Option Key
  | .positionOpened account symbol _ _ => some (account.asStr, symbol)
  | .positionClosed account symbol _ => some (account.asStr, symbol)
  | .liquidated l => some (l.account.asStr, l.symbol)
  | .fundingSettled account symbol _ => some (account.asStr, symbol)
  | .marketUpdated _ _ _ => none
  | .autoDeleveraged _ _ => none

section Folds
variable {command : RiskCommand} {journal : Journal}

theorem live_record_other {event : RiskEvent} {k : Key} (other : eventKey event ≠ some k) :
    (journal.record command event).live k = journal.live k := by
  have apart : ∀ k', eventKey event = some k' → k ≠ k' := by
    rintro k' own rfl
    exact other own
  cases event with
  | marketUpdated => rfl
  | autoDeleveraged => rfl
  | positionOpened => exact Function.update_of_ne (apart _ rfl) _ _
  | positionClosed => exact Function.update_of_ne (apart _ rfl) _ _
  | liquidated => exact Function.update_of_ne (apart _ rfl) _ _
  | fundingSettled => exact Function.update_of_ne (apart _ rfl) _ _

/-- What no event of a list touches, reading the list leaves as it was. -/
theorem foldl_kept {τ : Type} (observe : Journal → τ) {events : List RiskEvent}
    (kept : ∀ event ∈ events, ∀ journal, observe (journal.record command event) = observe journal) :
    observe (events.foldl (Journal.record command) journal) = observe journal := by
  induction events generalizing journal with
  | nil => rfl
  | cons event events ih =>
    rw [List.foldl_cons, ih fun event' member => kept event' (by simp [member]),
      kept event (by simp)]

/-- What every event of a list counts up, reading the list counts up by its length. -/
theorem foldl_counted (observe : Journal → Nat) {events : List RiskEvent}
    (counted : ∀ event ∈ events, ∀ journal,
      observe (journal.record command event) = observe journal + 1) :
    observe (events.foldl (Journal.record command) journal) = observe journal + events.length := by
  induction events generalizing journal with
  | nil => rfl
  | cons event events ih =>
    rw [List.foldl_cons, ih fun event' member => counted event' (by simp [member]),
      counted event (by simp), List.length_cons]
    omega

theorem live_foldl_other {events : List RiskEvent} {k : Key}
    (other : ∀ event ∈ events, eventKey event ≠ some k) :
    (events.foldl (Journal.record command) journal).live k = journal.live k :=
  foldl_kept (fun journal => journal.live k) fun event member _ =>
    live_record_other (other event member)

/-- What an event makes of a key depends on the journal at that key only. -/
theorem live_record_congr {journal' : Journal} {event : RiskEvent} {k : Key}
    (same : journal.live k = journal'.live k) :
    (journal.record command event).live k = (journal'.record command event).live k := by
  by_cases own : eventKey event = some k
  · cases event with
    | marketUpdated => cases own
    | autoDeleveraged => cases own
    | positionOpened => simp [Journal.record, Journal.setLive, Option.some.inj own]
    | positionClosed => simp [Journal.record, Journal.setLive, Option.some.inj own]
    | liquidated => simp [Journal.record, Journal.setLive, Option.some.inj own]
    | fundingSettled => simp [Journal.record, Journal.setLive, Option.some.inj own, same]
  · rw [live_record_other own, live_record_other own, same]

/-- Among events about distinct keys, each key sees its own event only. -/
theorem live_foldl_own {events : List RiskEvent} {event : RiskEvent} {k : Key}
    (nodup : (events.map eventKey).Nodup) (member : event ∈ events)
    (own : eventKey event = some k) :
    (events.foldl (Journal.record command) journal).live k =
      (journal.record command event).live k := by
  obtain ⟨front, back, rfl⟩ := List.append_of_mem member
  rw [List.map_append, List.map_cons, List.nodup_append] at nodup
  obtain ⟨_, backNodup, apart⟩ := nodup
  rw [List.nodup_cons] at backNodup
  rw [List.foldl_append, List.foldl_cons]
  rw [live_foldl_other fun event' later same =>
    backNodup.1 (List.mem_map.mpr ⟨event', later, same.trans own.symm⟩)]
  refine live_record_congr (live_foldl_other fun event' earlier same => ?_)
  exact apart _ (List.mem_map_of_mem earlier) _ List.mem_cons_self (same.trans own.symm)

/-- The settlements of a sweep are counted as liquidations and nothing else. -/
theorem foldl_liquidated (command : RiskCommand) (journal : Journal) (symbol : Symbol)
    (settled : List Settlement) :
    let after := (settled.map (Settlement.event symbol)).foldl (Journal.record command) journal
    after.quote = journal.quote ∧ after.opened = journal.opened ∧ after.closed = journal.closed ∧
      after.liquidated = journal.liquidated + settled.length ∧ after.settled = journal.settled ∧
      after.deleveraged = journal.deleveraged := by
  have more := @foldl_counted command journal Journal.liquidated
    (settled.map (Settlement.event symbol)) (List.forall_mem_map.mpr fun _ _ _ => rfl)
  rw [List.length_map] at more
  refine ⟨foldl_kept Journal.quote ?_, foldl_kept Journal.opened ?_, foldl_kept Journal.closed ?_,
    more, foldl_kept Journal.settled ?_, foldl_kept Journal.deleveraged ?_⟩
  all_goals exact List.forall_mem_map.mpr fun _ _ _ => rfl

/-- The events of a funding round are counted as settlements and nothing else. -/
theorem foldl_fundingSettled (command : RiskCommand) (journal : Journal) (symbol : Symbol)
    (mark : Price) (rateBps : I64) (listing : List Position) :
    let after := (listing.map (fundingEvent symbol mark rateBps)).foldl (Journal.record command)
      journal
    after.quote = journal.quote ∧ after.opened = journal.opened ∧ after.closed = journal.closed ∧
      after.liquidated = journal.liquidated ∧ after.settled = journal.settled + listing.length ∧
      after.deleveraged = journal.deleveraged := by
  have more := @foldl_counted command journal Journal.settled
    (listing.map (fundingEvent symbol mark rateBps)) (List.forall_mem_map.mpr fun _ _ _ => rfl)
  rw [List.length_map] at more
  refine ⟨foldl_kept Journal.quote ?_, foldl_kept Journal.opened ?_, foldl_kept Journal.closed ?_,
    foldl_kept Journal.liquidated ?_, more, foldl_kept Journal.deleveraged ?_⟩
  all_goals exact List.forall_mem_map.mpr fun _ _ _ => rfl

theorem foldl_adl (symbol : Symbol) (total : Usd) :
    (adlEvents symbol total).foldl (Journal.record command) journal =
      { journal with deleveraged := journal.deleveraged + (adlEvents symbol total).length } := by
  unfold adlEvents
  split
  · rfl
  · rfl

end Folds

/-! ## The last event about a position -/

/-- Whether an event opens (`true`) or ends (`false`) the position of a key. -/
def lifecycle (k : Key) : RiskEvent → Option Bool
  | .positionOpened account symbol _ _ => if (account.asStr, symbol) = k then some true else none
  | .positionClosed account symbol _ => if (account.asStr, symbol) = k then some false else none
  | .liquidated l => if (l.account.asStr, l.symbol) = k then some false else none
  | _ => none

/-- The last of a key's open, close and liquidation events is an open. -/
def LastOpened (k : Key) (events : List RiskEvent) : Prop :=
  (events.filterMap (lifecycle k)).getLast? = some true

/-- An open event comes from a command that describes a position. -/
def Describes (command : RiskCommand) (event : RiskEvent) : Prop :=
  ∀ account symbol side notional, event = .positionOpened account symbol side notional →
    command.opening.isSome

theorem live_record_iff {command : RiskCommand} {journal : Journal} {log : List RiskEvent}
    {event : RiskEvent} {k : Key} (described : Describes command event)
    (before : (journal.live k).isSome ↔ LastOpened k log) :
    ((journal.record command event).live k).isSome ↔ LastOpened k (log ++ [event]) := by
  rw [LastOpened, List.filterMap_append]
  by_cases own : eventKey event = some k
  · cases event with
    | marketUpdated => cases own
    | autoDeleveraged => cases own
    | positionOpened account symbol side notional =>
      have told := described _ _ _ _ rfl
      simp [Journal.record, Journal.setLive, lifecycle, Option.some.inj own, told]
    | positionClosed => simp [Journal.record, Journal.setLive, lifecycle, Option.some.inj own]
    | liquidated => simp [Journal.record, Journal.setLive, lifecycle, Option.some.inj own]
    | fundingSettled account symbol amount =>
      rw [LastOpened] at before
      simpa [Journal.record, Journal.setLive, lifecycle, Option.some.inj own] using before
  · have silent : [event].filterMap (lifecycle k) = [] := by
      cases event with
      | marketUpdated => rfl
      | autoDeleveraged => rfl
      | fundingSettled => rfl
      | positionOpened => simpa [lifecycle, eventKey] using own
      | positionClosed => simpa [lifecycle, eventKey] using own
      | liquidated => simpa [lifecycle, eventKey] using own
    rw [live_record_other own, silent, List.append_nil]
    exact before

theorem live_foldl_iff {command : RiskCommand} {journal : Journal} {log events : List RiskEvent}
    {k : Key} (described : ∀ event ∈ events, Describes command event)
    (before : (journal.live k).isSome ↔ LastOpened k log) :
    ((events.foldl (Journal.record command) journal).live k).isSome ↔
      LastOpened k (log ++ events) := by
  induction events generalizing journal log with
  | nil => rwa [List.append_nil]
  | cons event events ih =>
    have first := live_record_iff (described event (by simp)) before
    rw [List.foldl_cons, ih (fun event' member => described event' (by simp [member])) first,
      List.append_assoc, List.singleton_append]

/-- Only an accepted `OpenPosition` emits an open event. -/
theorem Transition.describes {engine engine' : RiskEngine} {command : RiskCommand}
    {result : Except CoreError CommandOutcome} (step : Transition engine command result engine') :
    ∀ event ∈ eventsOf result, Describes command event := by
  intro event member account symbol side notional same
  subst same
  cases step with
  | opened own absent enough => rfl
  | closed pos state present priced => simp [eventsOf, closedEvent] at member
  | updated => simp [eventsOf] at member
  | accrued state listing priced lists => simp [eventsOf, fundingEvent] at member
  | swept state listing settled priced lists processed waterfall =>
    rcases List.mem_append.mp member with settlement | adl
    · simp [Settlement.event] at settlement
    · cases mem_adlEvents adl
  | _ => simp [eventsOf] at member

/-! ## Agreement -/

/-- What the log says about a key and what the store holds. -/
inductive Tells (config : EngineConfig) : Option Standing → Option Position → Prop
  | absent : Tells config none none
  | present (standing : Standing) (pos : Position)
      (fields : pos = { standing.opened with fundingPaid := pos.fundingPaid })
      (funding : pos.fundingPaid.toInt = standing.funding)
      (margin : initialMargin standing.opened standing.opened.entryPrice config.defaultRisk ≤
        standing.opened.postedMargin) :
      Tells config (some standing) (some pos)

/-- A settlement that fits is told. -/
theorem Tells.funded {config : EngineConfig} {standing : Option Standing} {pos : Position}
    {mark : Price} {rateBps : I64} (tells : Tells config standing (some pos))
    (fits : Fits 128 (pos.fundingPaid.toInt + (fundingPayment pos mark rateBps).toInt)) :
    Tells config
      (standing.map fun standing =>
        { standing with funding := standing.funding + (fundingPayment pos mark rateBps).toInt })
      (some (fundedPosition mark rateBps pos)) := by
  cases tells with
  | present standing _ fields funding margin =>
    refine .present _ _ ?_ ?_ margin
    · rw [fundedPosition, fields]
    · change (pos.fundingPaid.saturatingAdd _).toInt = standing.funding + _
      rw [Usd.toInt_saturatingAdd_of_fits fits, funding]

/-- The engine is what the log says. -/
structure Agrees (config : EngineConfig) (journal : Journal) (engine : RiskEngine) : Prop where
  positions : ∀ account symbol,
    Tells config (journal.live (account, symbol)) (engine.store.get account symbol)
  quotes : ∀ symbol, journal.quote symbol =
    (engine.market symbol).map fun m => (m.markPrice.micros, m.fundingRateBps)
  opened : engine.stats.openPositions + journal.closed + journal.liquidated = journal.opened
  count : engine.store.count = engine.stats.openPositions
  liquidations : engine.stats.liquidations = journal.liquidated
  fundingSettlements : engine.stats.fundingSettlements = journal.settled
  adlEvents : engine.stats.adlEvents = journal.deleveraged

/-- No close in a market without a state, no funding round that saturates. -/
def Orderly (engine : RiskEngine) : RiskCommand → Prop
  | .closePosition _ symbol => (engine.market symbol).isSome
  | .accrueFunding symbol => ∀ state ∈ engine.market symbol, ∀ k ∈ engine.store.byKey.keys,
    k.2 = symbol → ∀ pos ∈ engine.store.get k.1 symbol,
      Fits 128 (pos.fundingPaid.toInt +
        (fundingPayment pos state.markPrice state.fundingRateBps).toInt)
  | _ => True

namespace Agrees
variable {config : EngineConfig} {journal : Journal} {engine : RiskEngine}

theorem fresh (seed : Usd) (config : EngineConfig) :
    Agrees config .empty (.fromParts seed config) := by
  refine ⟨fun account symbol => .absent, fun symbol => rfl, rfl, rfl, rfl, rfl, rfl⟩

theorem after_open (agrees : Agrees config journal engine) {account : AccountId} {symbol : Symbol}
    {side : Side} {marginMode : MarginMode} {size : Size} {entryPrice : Price}
    {leverage : Leverage} {margin : Usd} {pos : Position}
    (own : pos = openedPosition account symbol side marginMode size entryPrice leverage margin)
    (absent : engine.store.get account.asStr symbol = none)
    (enough : ¬ margin < initialMargin pos entryPrice config.defaultRisk) :
    Agrees config
      (journal.record
        (.openPosition account symbol side marginMode size entryPrice leverage margin)
        (openedEvent pos))
      ((engine.opened pos).emit [openedEvent pos]) := by
  have identity : pos.key = (account.asStr, symbol) := by rw [own]; rfl
  have described : RiskCommand.opening
      (.openPosition account symbol side marginMode size entryPrice leverage margin) = some pos := by
    rw [own]; rfl
  refine ⟨fun account' symbol' => ?_, agrees.quotes, ?_, ?_, agrees.liquidations,
    agrees.fundingSettlements, agrees.adlEvents⟩
  · change Tells config (Function.update journal.live pos.key _ (account', symbol'))
      ((engine.store.upsert pos).get account' symbol')
    rw [PositionStore.get_upsert, described]
    by_cases same : (account', symbol') = pos.key
    · rw [if_pos same, same, Function.update_self]
      refine .present ⟨pos, 0⟩ pos rfl ?_ ?_
      · rw [own]; rfl
      · rw [Usd.lt_iff, not_lt, own] at enough
        rw [own]
        exact enough
    · rw [if_neg same, Function.update_of_ne same]
      exact agrees.positions account' symbol'
  · have before := agrees.opened
    change engine.stats.openPositions + 1 + journal.closed + journal.liquidated = journal.opened + 1
    omega
  · have more : (engine.store.upsert pos).count = engine.store.count + 1 :=
      PositionStore.count_upsert_of_none (by rw [own]; exact absent)
    have before := agrees.count
    change (engine.store.upsert pos).count = engine.stats.openPositions + 1
    omega

theorem after_close (agrees : Agrees config journal engine) {account : AccountId} {symbol : Symbol}
    {pos : Position} (present : engine.store.get account.asStr symbol = some pos) (mark : Price) :
    Agrees config (journal.record (.closePosition account symbol) (closedEvent symbol pos mark))
      ((engine.closed account.asStr symbol).emit [closedEvent symbol pos mark]) := by
  have own : pos.account.asStr = account.asStr := PositionStore.account_of_get present
  have fewer := PositionStore.count_remove_of_some present
  have counted := agrees.count
  refine ⟨fun account' symbol' => ?_, agrees.quotes, ?_, ?_, agrees.liquidations,
    agrees.fundingSettlements, agrees.adlEvents⟩
  · change Tells config
      (Function.update journal.live (pos.account.asStr, symbol) none (account', symbol'))
      ((engine.store.remove account.asStr symbol).get account' symbol')
    rw [PositionStore.get_remove, own]
    by_cases same : (account', symbol') = (account.asStr, symbol)
    · rw [if_pos same, same, Function.update_self]
      exact .absent
    · rw [if_neg same, Function.update_of_ne same]
      exact agrees.positions account' symbol'
  · have before := agrees.opened
    change engine.stats.openPositions - 1 + (journal.closed + 1) + journal.liquidated =
      journal.opened
    omega
  · change (engine.store.remove account.asStr symbol).count = engine.stats.openPositions - 1
    omega

theorem after_update (agrees : Agrees config journal engine) (symbol : Symbol)
    (markPrice indexPrice : Price) (rateBps : I64) :
    Agrees config
      (journal.record (.updateMarket symbol markPrice indexPrice rateBps)
        (.marketUpdated symbol markPrice.micros rateBps))
      ((engine.withMarket ⟨symbol, markPrice, indexPrice, rateBps⟩).emit
        [.marketUpdated symbol markPrice.micros rateBps]) := by
  refine ⟨agrees.positions, fun symbol' => ?_, agrees.opened, agrees.count, agrees.liquidations,
    agrees.fundingSettlements, agrees.adlEvents⟩
  change Function.update journal.quote symbol _ symbol' =
    ((engine.state.markets.insert symbol.asStr _).lookup symbol'.asStr).map _
  rw [FiniteMap.lookup_insert_eq]
  by_cases same : symbol' = symbol
  · subst same
    rw [Function.update_self, if_pos rfl]
    rfl
  · rw [Function.update_of_ne same, if_neg fun text => same (Symbol.asStr_injective text)]
    exact agrees.quotes symbol'

/-- A funding round settles every listed position and no other. -/
theorem positions_accrued (agrees : Agrees config journal engine) {symbol : Symbol}
    {listing : List Position} (lists : engine.store.Lists symbol listing) {mark : Price}
    {rateBps : I64} (command : RiskCommand)
    (exactly : ∀ pos ∈ listing,
      Fits 128 (pos.fundingPaid.toInt + (fundingPayment pos mark rateBps).toInt))
    (account' : String) (symbol' : Symbol) :
    Tells config
      (((listing.map (fundingEvent symbol mark rateBps)).foldl (Journal.record command) journal).live
        (account', symbol'))
      ((engine.accrued mark rateBps listing).store.get account' symbol') := by
  change Tells config _
    ((engine.store.upsertAll (listing.map (fundedPosition mark rateBps))).get account' symbol')
  rw [lists.get_upsertAll_map (f := fundedPosition mark rateBps) (fun _ => rfl)]
  have before := agrees.positions account' symbol'
  by_cases listed : ∃ pos ∈ listing, (pos.account.asStr, symbol) = (account', symbol')
  · obtain ⟨pos, member, own⟩ := listed
    obtain ⟨rfl, rfl⟩ := Prod.mk.inj own
    have stored := (lists.mem_iff pos).mp member
    have nodup : ((listing.map (fundingEvent symbol mark rateBps)).map eventKey).Nodup := by
      have ids := lists.ids_nodup.map (f := fun id => some (id, symbol))
        (fun _ _ same => congrArg Prod.fst (Option.some.inj same))
      rwa [List.map_map] at ids ⊢
    rw [if_pos rfl, live_foldl_own nodup (List.mem_map_of_mem member) rfl]
    change Tells config (Function.update journal.live (pos.account.asStr, symbol) _ _) _
    rw [stored] at before ⊢
    rw [Function.update_self]
    exact before.funded (exactly pos member)
  · rw [live_foldl_other fun event member same => by
      obtain ⟨pos, posMember, rfl⟩ := List.mem_map.mp member
      exact listed ⟨pos, posMember, Option.some.inj same⟩]
    split
    · next same =>
      subst same
      cases stored : engine.store.get account' symbol' with
      | none =>
        rw [stored] at before
        exact before
      | some pos =>
        have own := PositionStore.account_of_get stored
        exact absurd ⟨pos, (lists.mem_iff pos).mpr (by rw [own]; exact stored), by rw [own]⟩ listed
    · exact before

theorem after_accrue (agrees : Agrees config journal engine) {symbol : Symbol}
    {listing : List Position} (lists : engine.store.Lists symbol listing) (mark : Price)
    (rateBps : I64) (command : RiskCommand)
    (exactly : ∀ pos ∈ listing,
      Fits 128 (pos.fundingPaid.toInt + (fundingPayment pos mark rateBps).toInt)) :
    Agrees config
      ((listing.map (fundingEvent symbol mark rateBps)).foldl (Journal.record command) journal)
      ((engine.accrued mark rateBps listing).emit
        (listing.map (fundingEvent symbol mark rateBps))) := by
  obtain ⟨quote, opened, closed, liquidated, settled, deleveraged⟩ :=
    foldl_fundingSettled command journal symbol mark rateBps listing
  refine ⟨agrees.positions_accrued lists command exactly, fun symbol' => ?_, ?_, ?_, ?_, ?_, ?_⟩
  · rw [quote]
    exact agrees.quotes symbol'
  · rw [opened, closed, liquidated]
    exact agrees.opened
  · exact (count_accrued lists mark rateBps).trans agrees.count
  · rw [liquidated]
    exact agrees.liquidations
  · have before := agrees.fundingSettlements
    rw [settled]
    change engine.stats.fundingSettlements + listing.length = _
    omega
  · rw [deleveraged]
    exact agrees.adlEvents

/-- A sweep ends the positions it settled and no other. -/
theorem positions_swept (agrees : Agrees config journal engine) {symbol : Symbol} {mark : Price}
    {params : RiskParams} {listing : List Position} {settled : List Settlement}
    (lists : engine.store.Lists symbol listing) (processed : Processed mark params listing settled)
    (command : RiskCommand) (account' : String) (symbol' : Symbol) :
    Tells config
      (((settled.map (Settlement.event symbol)).foldl (Journal.record command) journal).live
        (account', symbol'))
      ((engine.swept symbol settled).store.get account' symbol') := by
  rw [RiskEngine.swept_store, PositionStore.get_removeAll]
  by_cases taken : ∃ s ∈ settled, (s.position.account.asStr, symbol) = (account', symbol')
  · obtain ⟨s, member, own⟩ := taken
    obtain ⟨rfl, rfl⟩ := Prod.mk.inj own
    have nodup : ((settled.map (Settlement.event symbol)).map eventKey).Nodup := by
      have ids := (processed.ids_nodup lists).map (f := fun id => some (id, symbol))
        (fun _ _ same => congrArg Prod.fst (Option.some.inj same))
      rw [List.map_map, List.map_map] at ids
      rwa [List.map_map]
    have present : s.position.account.asStr ∈
        (settled.map Settlement.position).map fun pos => pos.account.asStr :=
      List.mem_map_of_mem (List.mem_map_of_mem member)
    rw [live_foldl_own (k := (s.position.account.asStr, symbol)) nodup
      (List.mem_map_of_mem member) rfl, if_pos ⟨rfl, present⟩]
    change Tells config (Function.update journal.live (s.position.account.asStr, symbol) none _) _
    rw [Function.update_self]
    exact .absent
  · have others : ¬ (symbol' = symbol ∧
        account' ∈ (settled.map Settlement.position).map fun pos => pos.account.asStr) := by
      rintro ⟨rfl, listed⟩
      obtain ⟨pos, posMember, own⟩ := List.mem_map.mp listed
      obtain ⟨s, member, rfl⟩ := List.mem_map.mp posMember
      exact taken ⟨s, member, by rw [own]⟩
    rw [if_neg others, live_foldl_other fun event member same => by
      obtain ⟨s, settledMember, rfl⟩ := List.mem_map.mp member
      exact taken ⟨s, settledMember, Option.some.inj same⟩]
    exact agrees.positions account' symbol'

theorem after_sweep (agrees : Agrees config journal engine) {symbol : Symbol} {mark : Price}
    {params : RiskParams} {listing : List Position} {settled : List Settlement}
    (lists : engine.store.Lists symbol listing) (processed : Processed mark params listing settled)
    (command : RiskCommand) :
    Agrees config ((sweepEvents symbol settled).foldl (Journal.record command) journal)
      ((engine.swept symbol settled).emit (sweepEvents symbol settled)) := by
  obtain ⟨quote, opened, closed, liquidated, fundings, deleveraged⟩ :=
    foldl_liquidated command journal symbol settled
  have fewer := processed.count_removeAll lists
  have counted := agrees.count
  rw [sweepEvents, List.foldl_append, foldl_adl]
  refine ⟨agrees.positions_swept lists processed command, fun symbol' => ?_, ?_, ?_, ?_, ?_, ?_⟩
  · change ((settled.map (Settlement.event symbol)).foldl (Journal.record command) journal).quote
      symbol' = _
    rw [quote]
    exact agrees.quotes symbol'
  · have before := agrees.opened
    change engine.stats.openPositions - settled.length + Journal.closed _ + Journal.liquidated _ =
      Journal.opened _
    rw [opened, closed, liquidated]
    omega
  · change (engine.store.removeAll symbol (settled.map Settlement.position)).count =
      engine.stats.openPositions - settled.length
    omega
  · have before := agrees.liquidations
    change engine.stats.liquidations + settled.length = Journal.liquidated _
    rw [liquidated]
    omega
  · change engine.stats.fundingSettlements = Journal.settled _
    rw [fundings]
    exact agrees.fundingSettlements
  · have before := agrees.adlEvents
    change engine.stats.adlEvents + _ = Journal.deleveraged _ + _
    rw [deleveraged]
    omega

/-- One command keeps the agreement, whatever it returns. -/
theorem after_transition (agrees : Agrees config journal engine) (sound : Sound config engine)
    {engine' : RiskEngine} {command : RiskCommand} {result : Except CoreError CommandOutcome}
    (orderly : Orderly engine command) (step : Transition engine command result engine') :
    Agrees config (journal.enter ⟨command, result⟩) engine' := by
  cases step with
  | rateLimited => exact agrees
  | positionExists held present => exact agrees
  | insufficientMargin absent short => exact agrees
  | opened own absent enough =>
    rw [sound.riskParams] at enough
    exact agrees.after_open own absent enough
  | closeAbsent absent => exact agrees
  | closeUnpriced pos present unpriced =>
    rw [Orderly, unpriced] at orderly
    cases orderly
  | closed pos state present priced => exact agrees.after_close present state.markPrice
  | updated symbol markPrice indexPrice rateBps =>
    exact agrees.after_update symbol markPrice indexPrice rateBps
  | accrueUnpriced unpriced => exact agrees
  | accrued state listing priced lists =>
    refine agrees.after_accrue lists _ _ _ fun pos member => ?_
    have stored := (lists.mem_iff pos).mp member
    exact orderly state priced _ (Finmap.mem_keys.mpr (Finmap.mem_of_lookup_eq_some stored)) rfl
      pos stored
  | sweepUnpriced unpriced => exact agrees
  | swept state listing settled priced lists processed waterfall =>
    exact agrees.after_sweep lists processed _

end Agrees

instance (engine : RiskEngine) : (command : RiskCommand) → Decidable (Orderly engine command)
  | .closePosition _ symbol => inferInstanceAs (Decidable ((engine.market symbol).isSome = true))
  | .accrueFunding symbol => inferInstanceAs (Decidable (∀ state ∈ engine.market symbol, _))
  | .openPosition .. | .updateMarket .. | .liquidateMarket _ => isTrue trivial

/-- A position is stored exactly when the last event about it is an open. -/
theorem stored_iff_lastOpened {seed : Usd} {config : EngineConfig} {entries : List Entry}
    {engine : RiskEngine} (run : History seed config Orderly entries engine)
    (agrees : Agrees config (replay entries) engine) (account : String) (symbol : Symbol) :
    (engine.store.get account symbol).isSome ↔
      LastOpened (account, symbol) (entries.flatMap fun entry => eventsOf entry.result) := by
  have told : ((replay entries).live (account, symbol)).isSome ↔
      LastOpened (account, symbol) (entries.flatMap fun entry => eventsOf entry.result) := by
    clear agrees
    induction run with
    | fresh => simp [replay, Journal.empty, LastOpened]
    | apply before admitted ran ih =>
      rw [replay, List.foldl_append, List.flatMap_append, List.flatMap_singleton]
      exact live_foldl_iff (Transition.describes ran.transition) ih
  rw [← told]
  have both := agrees.positions account symbol
  generalize (replay entries).live (account, symbol) = standing at both ⊢
  generalize engine.store.get account symbol = stored at both ⊢
  cases both <;> rfl

/-- After any orderly sequence of commands the published events are those the
commands returned, and their fold is the engine's state. -/
theorem replay_agrees {seed : Usd} {config : EngineConfig} {entries : List Entry}
    {engine : RiskEngine} (run : History seed config Orderly entries engine) :
    engine.sink = entries.flatMap (fun entry => eventsOf entry.result) ∧
      Agrees config (replay entries) engine ∧
      ∀ account symbol, (engine.store.get account symbol).isSome ↔
        LastOpened (account, symbol) (entries.flatMap fun entry => eventsOf entry.result) := by
  have both : engine.sink = entries.flatMap (fun entry => eventsOf entry.result) ∧
      Agrees config (replay entries) engine := by
    induction run with
    | fresh => exact ⟨rfl, .fresh seed config⟩
    | apply before admitted ran ih =>
      obtain ⟨published, agrees⟩ := ih
      refine ⟨?_, ?_⟩
      · rw [Transition.sink ran.transition, published, List.flatMap_append,
          List.flatMap_singleton]
      · rw [replay, List.foldl_append]
        exact agrees.after_transition before.reachable.sound admitted ran.transition
  exact ⟨both.1, both.2, stored_iff_lastOpened run both.2⟩

open Sample in
/-- The log of a run with an open, a funding round, a close and a sweep. -/
theorem replay_agrees_after_liquidation :
    ∃ entries engine, History (dollars 5) standard Orderly entries engine ∧
      engine.stats = ⟨0, 1, 2, 1⟩ ∧ Agrees standard (replay entries) engine := by
  let long := openedPosition alice sol .long .cross (contracts 10) (price 100) tenfold (dollars 60)
  let short := openedPosition bob sol .short .cross (contracts 10) (price 100) tenfold (dollars 60)
  let funded := fundedPosition (price 100) (rate 10) long
  obtain ⟨entries, engine, run, checked⟩ := exists_history_of_script (dollars 5) standard Orderly
    [({}, mark (price 100) (rate 10)), ({}, enter alice .long (contracts 10) (price 100) (dollars 60)),
      ({}, enter bob .short (contracts 10) (price 100) (dollars 60)),
      ({ listing := [short, long] }, .accrueFunding sol), ({}, .closePosition bob sol),
      ({}, mark (price 90) (rate 10)), ({ listing := [funded] }, .liquidateMarket sol)]
    (fun _ engine => engine.stats = ⟨0, 1, 2, 1⟩) (by decide)
  exact ⟨entries, engine, run, of_decide_eq_true checked, (replay_agrees run).2.1⟩

end MarginGuard.Guarantees
