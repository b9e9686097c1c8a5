import MarginGuard.Source.Concurrent
import MarginGuard.Source.Invariants
import MarginGuard.Source.Script

/-!
# Does the event stream end with the engine's state?

`update_market` writes the registry under the lock and publishes afterwards. The
last `MarketUpdated` of a market carries its state as long as no update is
published after the one that wrote the market last (`stream_ends_with_market`).
Two updates that write in one order and publish in the other leave a subscriber
with the older quote (`crossed_updates_end_stale`).
-/
namespace MarginGuard.Guarantees
open Foundation Source

variable {ι : Type}

/-- The quote an event carries for a market: mark price and funding rate. -/
def quoteOf (symbol : Symbol) : RiskEvent → Option (Int × I64)
  | .marketUpdated symbol' markPrice fundingRateBps =>
    if symbol' = symbol then some (markPrice, fundingRateBps) else none
  | _ => none

/-- The last quote of a market in a stream. -/
def lastQuote (symbol : Symbol) (events : List RiskEvent) : Option (Int × I64) :=
  (events.filterMap (quoteOf symbol)).getLast?

/-- Mark price and funding rate of a market state. -/
def marketQuote (state : MarketState) : Int × I64 :=
  (state.markPrice.micros, state.fundingRateBps)

/-- Who follows the stream of the market ends with what `market` reports. -/
def StreamAgrees (symbol : Symbol) (engine : RiskEngine) : Prop :=
  lastQuote symbol engine.sink = (engine.market symbol).map marketQuote

/-- The market state a step writes for the symbol, with the command that does. -/
def writeOf (symbol : Symbol) (a : EngineAct ι) : Option (ι × MarketState) :=
  match a.call.op with
  | .insertMarket state => if state.symbol = symbol then some (a.thread, state) else none
  | _ => none

/-- The last write of a market in a trace. -/
def lastWrite (symbol : Symbol) (trace : List (EngineAct ι)) : Option (ι × MarketState) :=
  (trace.filterMap (writeOf symbol)).getLast?

/-- The command has published. -/
def Published [DecidableEq ι] (i : ι) (front : List (EngineAct ι)) : Prop :=
  ∃ c ∈ callsOf i front, c.op.isPublish = true

/-- No quote of the market is published behind that of its last write. -/
def PublishesInTime [DecidableEq ι] (symbol : Symbol) (_ : RiskEngine)
    (front : List (EngineAct ι)) (a : EngineAct ι) : Prop :=
  match a.call.op with
  | .publish events => (lastQuote symbol events).isSome →
      ∀ write ∈ lastWrite symbol front, write.1 = a.thread ∨ ¬ Published write.1 front
  | _ => True

instance (symbol : Symbol) (engine : RiskEngine) : Decidable (StreamAgrees symbol engine) :=
  inferInstanceAs (Decidable (_ = _))

instance [DecidableEq ι] (i : ι) (front : List (EngineAct ι)) : Decidable (Published i front) :=
  inferInstanceAs (Decidable (∃ c ∈ _, _ = true))

instance [DecidableEq ι] (symbol : Symbol) (engine : RiskEngine) (front : List (EngineAct ι)) :
    (a : EngineAct ι) → Decidable (PublishesInTime symbol engine front a)
  | ⟨i, ⟨.publish events, _⟩⟩ => inferInstanceAs (Decidable ((lastQuote symbol events).isSome →
      ∀ write ∈ lastWrite symbol front, write.1 = i ∨ ¬ Published write.1 front))
  | ⟨_, ⟨.tryAcquire, _⟩⟩ | ⟨_, ⟨.get .., _⟩⟩ | ⟨_, ⟨.upsert _, _⟩⟩ | ⟨_, ⟨.remove .., _⟩⟩
  | ⟨_, ⟨.byMarket _, _⟩⟩ | ⟨_, ⟨.riskParams _, _⟩⟩ | ⟨_, ⟨.markFor _, _⟩⟩
  | ⟨_, ⟨.fundingTerms _, _⟩⟩ | ⟨_, ⟨.sweepTerms _, _⟩⟩ | ⟨_, ⟨.countOpened, _⟩⟩
  | ⟨_, ⟨.countClosed, _⟩⟩ | ⟨_, ⟨.insertMarket _, _⟩⟩ | ⟨_, ⟨.countFunding _, _⟩⟩
  | ⟨_, ⟨.cover .., _⟩⟩ | ⟨_, ⟨.credit .., _⟩⟩ | ⟨_, ⟨.countLiquidated, _⟩⟩
  | ⟨_, ⟨.countAdl, _⟩⟩ => isTrue trivial

/-! ## Streams and traces that grow -/

theorem lastQuote_append (symbol : Symbol) (front back : List RiskEvent) :
    lastQuote symbol (front ++ back) = (lastQuote symbol back).or (lastQuote symbol front) := by
  rw [lastQuote, List.filterMap_append, List.getLast?_append]
  rfl

theorem lastWrite_concat (symbol : Symbol) (front : List (EngineAct ι)) (a : EngineAct ι) :
    lastWrite symbol (front ++ [a]) = (writeOf symbol a).or (lastWrite symbol front) := by
  rw [lastWrite, List.filterMap_append, List.getLast?_append]
  cases written : writeOf symbol a <;> simp [lastWrite, written]

/-- Events that quote nothing leave the last quote. -/
theorem lastQuote_of_quiet {symbol : Symbol} {events : List RiskEvent}
    (quiet : ∀ e ∈ events, quoteOf symbol e = none) : lastQuote symbol events = none := by
  rw [lastQuote, List.filterMap_eq_nil_iff.mpr quiet]
  rfl

/-! ## One command after another -/

theorem quoteOf_sweep {symbol symbol' : Symbol} {settled : List Settlement} :
    ∀ e ∈ sweepEvents symbol' settled, quoteOf symbol e = none := by
  intro e member
  rcases List.mem_append.mp member with liquidated | adl
  · obtain ⟨s, -, rfl⟩ := List.mem_map.mp liquidated
    rfl
  · rw [mem_adlEvents adl]
    rfl

theorem quoteOf_accrue {symbol symbol' : Symbol} {mark : Price} {rateBps : I64}
    {listing : List Position} :
    ∀ e ∈ listing.map (fundingEvent symbol' mark rateBps), quoteOf symbol e = none := by
  intro e member
  obtain ⟨pos, -, rfl⟩ := List.mem_map.mp member
  rfl

/-- A command that neither quotes nor writes the market keeps the agreement. -/
theorem StreamAgrees.kept {symbol : Symbol} {engine engine' : RiskEngine} {events : List RiskEvent}
    (agrees : StreamAgrees symbol engine) (sink : engine'.sink = engine.sink ++ events)
    (quiet : ∀ e ∈ events, quoteOf symbol e = none)
    (market : engine'.market symbol = engine.market symbol) : StreamAgrees symbol engine' := by
  rw [StreamAgrees, sink, lastQuote_append, lastQuote_of_quiet quiet, Option.none_or, market]
  exact agrees

theorem streamAgrees_of_transition {symbol : Symbol} {engine engine' : RiskEngine}
    {command : RiskCommand} {result : Except CoreError CommandOutcome}
    (agrees : StreamAgrees symbol engine) (step : Transition engine command result engine') :
    StreamAgrees symbol engine' := by
  have sink := step.sink
  cases step with
  | updated symbol' markPrice indexPrice rateBps =>
    have market : ((engine.withMarket ⟨symbol', markPrice, indexPrice, rateBps⟩).emit
        [.marketUpdated symbol' markPrice.micros rateBps]).market symbol =
        if symbol' = symbol then some ⟨symbol', markPrice, indexPrice, rateBps⟩
        else engine.market symbol := market_effect engine
      ⟨.insertMarket ⟨symbol', markPrice, indexPrice, rateBps⟩, ()⟩ symbol
    by_cases own : symbol' = symbol
    · rw [StreamAgrees, sink, market, if_pos own, own]
      simp [lastQuote, quoteOf, eventsOf, marketQuote]
    · refine agrees.kept sink (by simp [eventsOf, quoteOf, own]) ?_
      rw [market, if_neg own]
  | accrued => exact agrees.kept sink quoteOf_accrue rfl
  | swept => exact agrees.kept sink quoteOf_sweep rfl
  | opened => exact agrees.kept sink (by simp [eventsOf, openedEvent, quoteOf]) rfl
  | closed => exact agrees.kept sink (by simp [eventsOf, closedEvent, quoteOf]) rfl
  | closeUnpriced => exact agrees
  | _ => exact agrees

theorem Reachable.streamAgrees {seed : Usd} {config : EngineConfig} {engine : RiskEngine}
    (reachable : Reachable seed config engine) (symbol : Symbol) : StreamAgrees symbol engine := by
  obtain ⟨entries, run⟩ := reachable
  exact run.invariant (I := StreamAgrees symbol) rfl fun _ _ _ _ agrees _ step =>
    streamAgrees_of_transition agrees step

/-! ## Updates in flight together -/

/-- The calls of an admitted update. -/
def updateCalls (state : MarketState) : List EngineCall :=
  [⟨.tryAcquire, true⟩, ⟨.insertMarket state, ()⟩,
    ⟨.publish [.marketUpdated state.symbol state.markPrice.micros state.fundingRateBps], .ok ()⟩]

/-- A command that writes a market state is an update and does nothing else. -/
theorem updateCalls_of_write {command : RiskCommand} {calls : List EngineCall}
    {r : Except CoreError CommandOutcome} (applied : Applied command calls r) {state : MarketState}
    (writes : ⟨.insertMarket state, ()⟩ ∈ calls) : calls = updateCalls state := by
  obtain ⟨_, markPrice, indexPrice, rateBps, rfl⟩ := applied.justified.mem writes
  cases applied with
  | rateLimited => simp at writes
  | admitted body r served =>
    cases served with
    | positionExists opens => cases opens
    | insufficientMargin opens => cases opens
    | opened opens => cases opens
    | updated symbol markPrice indexPrice rateBps =>
      have same : state = ⟨state.symbol, markPrice, indexPrice, rateBps⟩ := by
        simpa [publishCalls, eventsOf] using writes
      rw [same]
      rfl

/-- A command that publishes a quote of the market is an update of it. -/
theorem updateCalls_of_quote {command : RiskCommand} {calls : List EngineCall}
    {r : Except CoreError CommandOutcome} (applied : Applied command calls r) {symbol : Symbol}
    {events : List RiskEvent} {answer : Except PortError Unit}
    (publishes : ⟨.publish events, answer⟩ ∈ calls) (quotes : lastQuote symbol events ≠ none) :
    ∃ state, state.symbol = symbol ∧ calls = updateCalls state := by
  cases applied with
  | rateLimited => simp at publishes
  | admitted body r served =>
    obtain rfl : events = eventsOf r := by
      rcases List.mem_append.mp (List.mem_of_ne_of_mem (by simp) publishes) with inside | published
      · exact absurd inside served.publish_notMem
      · cases mem_publishCalls published
        rfl
    cases served with
    | updated symbol' markPrice indexPrice rateBps =>
      by_cases own : symbol' = symbol
      · exact ⟨⟨symbol', markPrice, indexPrice, rateBps⟩, own, rfl⟩
      · exact absurd (lastQuote_of_quiet (by simp [eventsOf, quoteOf, own])) quotes
    | accrued => exact absurd (lastQuote_of_quiet quoteOf_accrue) quotes
    | swept => exact absurd (lastQuote_of_quiet quoteOf_sweep) quotes
    | _ =>
      refine absurd (lastQuote_of_quiet ?_) quotes
      simp [eventsOf, openedEvent, closedEvent, quoteOf]

section Run
variable [DecidableEq ι] {commands : ι → RiskCommand} {symbol : Symbol}
  {engine engine' : RiskEngine} {trace : List (EngineAct ι)} {threads : ι → Thread}

/-- Where the market has not been written since the start, stream and state
agree; where it has, the registry holds the last write, and once its command
has published so does the stream. -/
def FollowsWrites (symbol : Symbol) (front : List (EngineAct ι)) (now : RiskEngine) : Prop :=
  match lastWrite symbol front with
  | none => StreamAgrees symbol now
  | some (i, state) => now.market symbol = some state ∧
      (Published i front → lastQuote symbol now.sink = some (marketQuote state))

theorem lastWrite_ne_none {i : ι} {state : MarketState}
    (wrote : ⟨.insertMarket state, ()⟩ ∈ callsOf i trace) (own : state.symbol = symbol) :
    lastWrite symbol trace ≠ none := by
  obtain ⟨a, member, rfl, same⟩ := mem_callsOf.mp wrote
  intro unwritten
  have silent := List.filterMap_eq_nil_iff.mp (List.getLast?_eq_none_iff.mp unwritten) a member
  rw [writeOf, same] at silent
  simp [own] at silent

theorem mem_of_lastWrite {i : ι} {state : MarketState}
    (last : lastWrite symbol trace = some (i, state)) :
    ⟨.insertMarket state, ()⟩ ∈ callsOf i trace ∧ state.symbol = symbol := by
  obtain ⟨⟨j, op, ans⟩, member, writes⟩ := List.mem_filterMap.mp (List.mem_of_getLast? last)
  cases op <;> simp only [writeOf, reduceCtorEq] at writes
  split at writes
  · next own =>
    cases writes
    exact ⟨mem_callsOf.mpr ⟨_, member, rfl, rfl⟩, own⟩
  · cases writes

/-- The command of a step, with all the calls it will have made. -/
theorem exists_calls (run : Concurrent commands engine trace engine' threads)
    {front back : List (EngineAct ι)} {a : EngineAct ι} (split : trace = front ++ a :: back) :
    ∃ later r, Applied (commands a.thread)
      (callsOf a.thread front ++ a.call :: later) r := by
  obtain ⟨later, r, applied⟩ := run.exists_applied a.thread
  rw [split, callsOf_append, callsOf_cons, if_pos rfl, List.append_assoc] at applied
  exact ⟨_, r, applied⟩

/-- An update has not published when it writes. -/
theorem unpublished_at_write {front : List EngineCall} {later : List EngineCall}
    {state : MarketState}
    (made : front ++ ⟨.insertMarket state, ()⟩ :: later = updateCalls state) {c : EngineCall}
    (member : c ∈ front) : c.op.isPublish = false := by
  match front, made with
  | [_], made =>
    obtain ⟨rfl, -⟩ := List.cons.inj made
    rw [List.mem_singleton.mp member]
    rfl
  | [_, _], made => simp [updateCalls] at made
  | _ :: _ :: _ :: _, made => simp [updateCalls] at made

/-- An update has written when it publishes. -/
theorem written_at_publish {front : List EngineCall} {later : List EngineCall}
    {state : MarketState} {events : List RiskEvent} {answer : Except PortError Unit}
    (made : front ++ ⟨.publish events, answer⟩ :: later = updateCalls state) :
    ⟨.insertMarket state, ()⟩ ∈ front := by
  match front, made with
  | [], made => simp [updateCalls] at made
  | [_], made => simp [updateCalls] at made
  | [_, _], made =>
    obtain ⟨-, second⟩ := List.cons.inj made
    obtain ⟨rfl, -⟩ := List.cons.inj second
    simp
  | _ :: _ :: _ :: _, made => simp [updateCalls] at made

theorem published_concat {i : ι} {front : List (EngineAct ι)} {a : EngineAct ι}
    (published : Published i (front ++ [a])) :
    Published i front ∨ a.thread = i ∧ a.call.op.isPublish = true := by
  obtain ⟨c, member, publishes⟩ := published
  rw [callsOf_append, callsOf_cons, callsOf_nil, List.mem_append] at member
  rcases member with earlier | last
  · exact Or.inl ⟨c, earlier, publishes⟩
  · split at last
    · next own =>
      obtain rfl := List.mem_singleton.mp last
      exact Or.inr ⟨own, publishes⟩
    · cases last

section Step
variable {now : RiskEngine} {front : List (EngineAct ι)} {a : EngineAct ι} {command : RiskCommand}
  {later : List EngineCall} {r : Except CoreError CommandOutcome}

/-- After a write of the market the registry holds it, and its command has
nothing published yet. -/
theorem followsWrites_write {state : MarketState}
    (applied : Applied command (callsOf a.thread front ++ a.call :: later) r)
    (writes : a.call = ⟨.insertMarket state, ()⟩) (own : state.symbol = symbol) :
    FollowsWrites symbol (front ++ [a]) (portsUp.effect now a.call.op a.call.ans) := by
  have written : writeOf symbol a = some (a.thread, state) := by
    rw [writeOf, writes]
    exact if_pos own
  have last : lastWrite symbol (front ++ [a]) = some (a.thread, state) := by
    rw [lastWrite_concat, written, Option.some_or]
  have member : (⟨.insertMarket state, ()⟩ : EngineCall) ∈
      callsOf a.thread front ++ a.call :: later := by simp [writes]
  have made := updateCalls_of_write applied member
  rw [writes] at made
  simp only [FollowsWrites, last]
  refine ⟨?_, fun published => ?_⟩
  · rw [market_effect, writes]
    exact if_pos own
  · rcases published_concat published with ⟨c, earlier, publishes⟩ | ⟨-, publishes⟩
    · rw [unpublished_at_write made earlier] at publishes
      cases publishes
    · rw [writes] at publishes
      cases publishes

/-- Any other call leaves registry and stream alone. -/
theorem followsWrites_other (allowed : portsUp.answers now a.call.op a.call.ans)
    (unwritten : writeOf symbol a = none)
    (unpublished : a.call.op.isPublish = false) (follows : FollowsWrites symbol front now) :
    FollowsWrites symbol (front ++ [a]) (portsUp.effect now a.call.op a.call.ans) := by
  have market : (portsUp.effect now a.call.op a.call.ans).market symbol = now.market symbol := by
    rw [market_effect]
    obtain ⟨i, op, ans⟩ := a
    cases op <;> simp_all [writeOf]
  have sink : (portsUp.effect now a.call.op a.call.ans).sink = now.sink := by
    rw [sink_effect allowed]
    obtain ⟨i, op, ans⟩ := a
    cases op <;> simp_all [Action.isPublish]
  unfold FollowsWrites StreamAgrees at follows ⊢
  rw [lastWrite_concat, unwritten, Option.none_or, market, sink]
  split at follows
  · exact follows
  · refine ⟨follows.1, fun published => follows.2 ?_⟩
    rcases published_concat published with earlier | ⟨-, publishes⟩
    · exact earlier
    · rw [unpublished] at publishes
      cases publishes

/-- A publish that quotes nothing of the market is not that of its last write;
one that does carries the last write or comes before it. -/
theorem followsWrites_publish {events : List RiskEvent} {answer : Except PortError Unit}
    (allowed : portsUp.answers now a.call.op a.call.ans)
    (applied : Applied command (callsOf a.thread front ++ a.call :: later) r)
    (publishes : a.call = ⟨.publish events, answer⟩) (inTime : PublishesInTime symbol now front a)
    (follows : FollowsWrites symbol front now) :
    FollowsWrites symbol (front ++ [a]) (portsUp.effect now a.call.op a.call.ans) := by
  have market : (portsUp.effect now a.call.op a.call.ans).market symbol = now.market symbol := by
    rw [market_effect, publishes]
  have sink : (portsUp.effect now a.call.op a.call.ans).sink = now.sink ++ events := by
    rw [sink_effect allowed, publishes]
  have unwritten : writeOf symbol a = none := by rw [writeOf, publishes]
  have member : ⟨.publish events, answer⟩ ∈ callsOf a.thread front ++ a.call :: later := by
    simp [publishes]
  -- who wrote the market last and publishes now, publishes that write
  have own : ∀ state, lastWrite symbol front = some (a.thread, state) →
      lastQuote symbol events = some (marketQuote state) := by
    intro state last
    obtain ⟨wrote, rfl⟩ := mem_of_lastWrite last
    have made := updateCalls_of_write applied (List.mem_append_left _ wrote)
    rw [made] at member
    simp only [updateCalls, List.mem_cons, Call.mk.injEq, reduceCtorEq, false_and, false_or,
      Action.publish.injEq, List.not_mem_nil, or_false] at member
    rw [member.1]
    simp [lastQuote, quoteOf, marketQuote]
  unfold FollowsWrites StreamAgrees at follows ⊢
  rw [lastWrite_concat, unwritten, Option.none_or, market, sink, lastQuote_append]
  unfold PublishesInTime at inTime
  rw [publishes] at inTime
  cases last : lastWrite symbol front with
  | none =>
    simp only [last] at follows ⊢
    cases quotes : lastQuote symbol events with
    | none => exact follows
    | some quote =>
      have quoted : lastQuote symbol events ≠ none := by simp [quotes]
      obtain ⟨state, own, made⟩ := updateCalls_of_quote applied member quoted
      rw [publishes] at made
      exact absurd last (lastWrite_ne_none (written_at_publish made) own)
  | some write =>
    obtain ⟨i, state⟩ := write
    simp only [last] at follows ⊢
    refine ⟨follows.1, fun published => ?_⟩
    rcases published_concat published with earlier | ⟨rfl, -⟩
    · cases quotes : lastQuote symbol events with
      | none => exact follows.2 earlier
      | some quote =>
        rcases inTime (by rw [quotes]; rfl) (i, state) last with rfl | waiting
        · rw [← own state last, quotes]
          rfl
        · exact absurd earlier waiting
    · rw [own state last]
      rfl

end Step

/-- Each step follows the writes. -/
theorem followsWrites_step (run : Concurrent commands engine trace engine' threads)
    {front back : List (EngineAct ι)} {a : EngineAct ι} (split : trace = front ++ a :: back)
    (inTime : PublishesInTime symbol (portsUp.after engine (calls front)) front a)
    (follows : FollowsWrites symbol front (portsUp.after engine (calls front))) :
    FollowsWrites symbol (front ++ [a]) (portsUp.after engine (calls (front ++ [a]))) := by
  have allowed := run.allowed front a back split
  obtain ⟨later, r, applied⟩ := exists_calls run split
  rw [after_concat]
  cases written : writeOf symbol a with
  | some write =>
    obtain ⟨i, op, ans⟩ := a
    cases op <;> simp only [writeOf, reduceCtorEq] at written
    split at written
    · next own => exact followsWrites_write applied rfl own
    · cases written
  | none =>
    cases publishes : a.call.op.isPublish with
    | false => exact followsWrites_other allowed written publishes follows
    | true =>
      obtain ⟨events, answer, publishes⟩ : ∃ events answer, a.call = ⟨.publish events, answer⟩ := by
        obtain ⟨i, op, answer⟩ := a
        cases op <;> first | exact ⟨_, answer, rfl⟩ | cases publishes
      exact followsWrites_publish allowed applied publishes inTime follows

end Run

/-- In every run in which no quote of the market is published behind that of its
last write, the stream ends with the market's state once all commands have
finished. -/
theorem stream_ends_with_market [DecidableEq ι] {seed : Usd} {config : EngineConfig}
    {commands : ι → RiskCommand} {symbol : Symbol} {engine engine' : RiskEngine}
    {trace : List (EngineAct ι)} {threads : ι → Thread} (reachable : Reachable seed config engine)
    (run : Concurrent commands engine trace engine' threads)
    (finished : ∀ i, ∃ r, threads i = .done r)
    (inTime : Throughout portsUp (PublishesInTime symbol) engine trace) :
    StreamAgrees symbol engine' := by
  have follows : FollowsWrites symbol trace (portsUp.after engine (calls trace)) := by
    refine Stepwise.induction (I := fun front => FollowsWrites symbol front
      (portsUp.after engine (calls front))) (Reachable.streamAgrees reachable symbol) ?_
    intro front a back split before
    exact followsWrites_step run split (inTime front a back split) before
  rw [← run.after_eq] at follows
  unfold FollowsWrites at follows
  split at follows
  · exact follows
  · next i state last =>
    obtain ⟨r, done⟩ := finished i
    obtain ⟨wrote, -⟩ := mem_of_lastWrite last
    have made := updateCalls_of_write (run.applied done) wrote
    have published : Published i trace := by
      unfold Published
      rw [made]
      exact ⟨_, List.mem_cons_of_mem _ (List.mem_cons_of_mem _ List.mem_cons_self), rfl⟩
    rw [StreamAgrees, follows.1, follows.2 published]
    rfl

open Sample in
/-- Two updates of `sol`: to 100 at ten basis points, and to 90 at none. -/
def twoUpdates : Bool → RiskCommand
  | false => mark (price 100) (rate 10)
  | true => mark (price 90) (rate 0)

open Sample in
/-- Both updates write, and then publish in the order of their writes. -/
theorem stream_ends_with_market_in_turn : ∃ engine trace engine' threads,
    Reachable (dollars 5) standard engine ∧ Concurrent twoUpdates engine trace engine' threads ∧
      (engine'.market sol).map marketQuote = some (90000000, rate 0) ∧ StreamAgrees sol engine' := by
  obtain ⟨engine, trace, engine', threads, reachable, run, finished, market, inTime⟩ :=
    exists_run_after_script (dollars 5) standard [] twoUpdates
      (turns false 2 ++ turns true 2 ++ turns false 1 ++ turns true 1)
      (fun engine trace engine' threads => (∀ i, (threads i).result.isSome) ∧
        (engine'.market sol).map marketQuote = some (90000000, rate 0) ∧
        Throughout portsUp (PublishesInTime sol) engine trace) (by decide)
  simp only [Option.isSome_iff_exists, Program.result_eq_some] at finished
  exact ⟨engine, trace, engine', threads, reachable, run, market,
    stream_ends_with_market reachable run finished inTime⟩

open Sample in
/-- The second update writes and publishes between the write of the first and
its publish: the market is at 90, the stream ends at 100. -/
theorem crossed_updates_end_stale : ∃ engine trace engine' threads,
    Reachable (dollars 5) standard engine ∧ Concurrent twoUpdates engine trace engine' threads ∧
      (∀ i, ∃ r, threads i = .done r) ∧ ¬ StreamAgrees sol engine' := by
  obtain ⟨engine, trace, engine', threads, reachable, run, finished, stale⟩ :=
    exists_run_after_script (dollars 5) standard [] twoUpdates
      (turns false 2 ++ turns true 3 ++ turns false 1)
      (fun _ _ engine' threads => (∀ i, (threads i).result.isSome) ∧ ¬ StreamAgrees sol engine')
      (by decide)
  simp only [Option.isSome_iff_exists, Program.result_eq_some] at finished
  exact ⟨engine, trace, engine', threads, reachable, run, finished, stale⟩

end MarginGuard.Guarantees
