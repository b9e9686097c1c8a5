import Mathlib.Tactic.FinCases
import MarginGuard.Foundation.Serialization
import MarginGuard.Guarantees.Counters
import MarginGuard.Guarantees.MarketIsolation

/-!
# Commands in flight on different markets

Commands that are in flight together, each on a market of its own and at most one
of them a sweep, are serializable while the ports are up: however their calls are
interleaved, in every order running them one after another can give the same
results, books, quotes, fund and statistics (`markets_serializable`). The limiter,
one for all markets, and the listings of the store answer there as they did in
flight. What is proved of histories holds of such runs.

Markets and the fund are parts of the engine (`engineParts`), so this is an
instance of `Partition.serializable`. The counters are shared. The order of the
sections does not matter to them, but for the saturating subtraction of
`open_positions`; that never saturates here, since the positions that end were
all open at the start (`enough_open`).
-/
namespace MarginGuard.Guarantees
open Foundation Source

/-! ## One after another -/

/-- Commands applied one after another, with what they returned. -/
def Serial : RiskEngine → List Entry → RiskEngine → Prop
  | engine, [], final => final = engine
  | engine, entry :: entries, final =>
    ∃ mid, Executes engine entry.command entry.result mid ∧ Serial mid entries final

theorem Serial.history {seed : Usd} {config : EngineConfig} {entries more : List Entry}
    {engine final : RiskEngine} (before : History seed config (fun _ _ => True) entries engine)
    (serial : Serial engine more final) :
    History seed config (fun _ _ => True) (entries ++ more) final := by
  induction more generalizing engine entries with
  | nil =>
    obtain rfl : final = engine := serial
    rw [List.append_nil]
    exact before
  | cons entry more ih =>
    obtain ⟨mid, ran, rest⟩ := serial
    have next := ih (before.apply trivial ran) rest
    rwa [List.append_assoc] at next

/-- Commands that end positions. -/
def ends : RiskCommand → Bool
  | .closePosition _ _ => true
  | .liquidateMarket _ => true
  | _ => false

section Ends
variable {engine engine' : RiskEngine} {command : RiskCommand}
  {result : Except CoreError CommandOutcome}

theorem countP_ended (events : List RiskEvent) : events.countP isEnded =
    events.countP Tally.closed.reports + events.countP Tally.liquidated.reports := by
  induction events with
  | nil => rfl
  | cons event events ih =>
    simp only [List.countP_cons, ih]
    cases event <;> simp [isEnded, Tally.reports]
    · omega
    · omega

/-- They open none. -/
theorem opened_of_ends (step : Transition engine command result engine')
    (ending : ends command = true) : (eventsOf result).countP isOpened = 0 := by
  cases step with
  | opened own absent enough => cases ending
  | accrued state listing priced lists => cases ending
  | swept state listing settled priced lists processed waterfall =>
    change (sweepEvents _ settled).countP isOpened = 0
    rw [countP_sweepEvents (fun _ _ => rfl), countP_none fun _ => rfl]
  | _ => rfl

/-- Others end none. -/
theorem ended_of_not_ends (step : Transition engine command result engine')
    (other : ends command = false) : (eventsOf result).countP isEnded = 0 := by
  cases step with
  | closed pos state present priced => cases other
  | swept state listing settled priced lists processed waterfall => cases other
  | accrued state listing priced lists => exact countP_none (fun _ => rfl) listing
  | _ => rfl

/-- Commands that end positions find them open. -/
theorem ended_le {config : EngineConfig} {final : RiskEngine} {entries : List Entry}
    (sound : Sound config engine) (serial : Serial engine entries final)
    (kind : ∀ entry ∈ entries, ends entry.command = true) :
    (entries.map fun entry => (eventsOf entry.result).countP isEnded).sum ≤
      engine.stats.openPositions := by
  induction entries generalizing engine with
  | nil => exact Nat.zero_le _
  | cons entry entries ih =>
    obtain ⟨mid, ran, rest⟩ := serial
    rw [List.forall_mem_cons] at kind
    have step := ran.transition
    have counted := (counted_of_transition sound step).openPositions
    rw [opened_of_ends step kind.1] at counted
    have later := ih (step.sound sound) rest kind.2
    rw [List.map_cons, List.sum_cons]
    omega

end Ends

/-! ## The counters -/

/-- Where enough positions are open, every decrement counts. -/
theorem unsubtracted_eq_zero {engine : RiskEngine} {made : List EngineCall}
    (enough : Tally.closed.total made + Tally.liquidated.total made ≤ engine.stats.openPositions) :
    unsubtracted engine made = 0 := by
  induction made generalizing engine with
  | nil => rfl
  | cons c made ih =>
    obtain ⟨-, -, -, gauge⟩ := stats_effect engine c
    have split : ∀ tally : Tally, tally.total (c :: made) = tally.adds c + tally.total made :=
      fun _ => rfl
    simp only [split] at enough
    have now : (if engine.stats.openPositions = 0 then Tally.closed.adds c + Tally.liquidated.adds c
        else 0) = 0 := by
      split <;> omega
    rw [now] at gauge
    rw [unsubtracted, now, ih (by omega)]

theorem total_perm (tally : Tally) {made others : List EngineCall} (same : made.Perm others) :
    tally.total made = tally.total others := (same.map tally.adds).sum_eq

/-- Where every decrement counts, the order of the sections does not matter. -/
theorem stats_eq_of_perm {engine : RiskEngine} {made others : List EngineCall}
    (same : made.Perm others)
    (enough : Tally.closed.total made + Tally.liquidated.total made ≤ engine.stats.openPositions) :
    (portsUp.after engine made).stats = (portsUp.after engine others).stats := by
  obtain ⟨liquidations, funding, adl, gauge⟩ := stats_after engine made
  obtain ⟨liquidations', funding', adl', gauge'⟩ := stats_after engine others
  rw [unsubtracted_eq_zero enough] at gauge
  simp only [total_perm _ same] at enough liquidations funding adl gauge
  rw [unsubtracted_eq_zero enough] at gauge'
  ext1
  · omega
  · exact liquidations.trans liquidations'.symm
  · exact funding.trans funding'.symm
  · exact adl.trans adl'.symm

/-! ## The sink -/

/-- The events a call publishes. -/
def publishedBy (c : EngineCall) : List RiskEvent :=
  match c.op with
  | .publish events => events
  | _ => []

theorem sink_after {engine : RiskEngine} {made : List EngineCall}
    (legal : portsUp.Legal engine made) :
    (portsUp.after engine made).sink = engine.sink ++ made.flatMap publishedBy := by
  induction made generalizing engine with
  | nil => exact (List.append_nil _).symm
  | cons c made ih =>
    obtain ⟨allowed, rest⟩ := legal
    have now : (portsUp.effect engine c.op c.ans).sink = engine.sink ++ publishedBy c := by
      rw [sink_effect allowed]
      obtain ⟨op, ans⟩ := c
      cases op <;> first | rfl | exact (List.append_nil _).symm
    rw [Machine.after_cons, ih rest, now, List.flatMap_cons, List.append_assoc]

/-! ## Any order -/

section Serializable
variable {ι : Type} [DecidableEq ι] {seed : Usd} {config : EngineConfig}
  {commands : ι → RiskCommand} {result : ι → Except CoreError CommandOutcome}
  {engine engine' : RiskEngine} {trace : List (EngineAct ι)} {threads : ι → Thread}
  {order : List ι}

/-- Each on its market, and one sweep at most. -/
structure Separate (commands : ι → RiskCommand) : Prop where
  markets : ∀ i j, (commands i).symbol = (commands j).symbol → i = j
  sweeps : ∀ i j symbol symbol', commands i = .liquidateMarket symbol →
    commands j = .liquidateMarket symbol' → i = j

theorem Separate.apart (separate : Separate commands) (i j : ι) (part : Part)
    (own : (commands i).Reaches part) (common : (commands j).Reaches part) : i = j := by
  by_contra other
  have different : (commands i).symbol ≠ (commands j).symbol := fun same =>
    other (separate.markets i j same)
  refine apart_of_reaches different ?_ own common
  rintro ⟨⟨symbol, sweep⟩, symbol', sweep'⟩
  exact other (separate.sweeps i j symbol symbol' sweep sweep')

/-- What a command in flight touches. -/
theorem reaches_within (run : Concurrent commands engine trace engine' threads) :
    ∀ a ∈ trace, ∀ part, engineParts.Touches a.call part → (commands a.thread).Reaches part := by
  intro a made part touched
  obtain ⟨back, r, applied⟩ := run.exists_applied a.thread
  have own : a.call ∈ callsOf a.thread trace := mem_callsOf.mpr ⟨a, made, rfl, rfl⟩
  exact applied.reaches a.call (List.mem_append_left back own) part touched

/-- Finished commands arranged one after another are applied so. -/
theorem serial_of_finished (run : Concurrent commands engine trace engine' threads)
    (finished : ∀ i, threads i = .done (result i)) {start : RiskEngine}
    (legal : portsUp.Legal start (arranged order trace)) :
    Serial start (order.map fun i => ⟨commands i, result i⟩)
      (portsUp.after start (arranged order trace)) := by
  induction order generalizing start with
  | nil => rfl
  | cons i order ih =>
    have split : arranged (i :: order) trace = callsOf i trace ++ arranged order trace := rfl
    rw [split, Machine.legal_append] at legal
    rw [split, Machine.after_append]
    exact ⟨_, ⟨_, run.returns (finished i), legal.1, rfl⟩, ih legal.2⟩

/-- The positions that finished commands end, arranged. -/
theorem ended_arranged (run : Concurrent commands engine trace engine' threads)
    (finished : ∀ i, threads i = .done (result i)) (order : List ι) :
    Tally.closed.total (arranged order trace) + Tally.liquidated.total (arranged order trace) =
      (order.map fun i => (eventsOf (result i)).countP isEnded).sum := by
  induction order with
  | nil => rfl
  | cons i order ih =>
    have split : arranged (i :: order) trace = callsOf i trace ++ arranged order trace := rfl
    have applied := run.applied (finished i)
    rw [split, Tally.total_append, Tally.total_append, Applied.tally applied, Applied.tally applied,
      List.map_cons, List.sum_cons, countP_ended, ← ih]
    omega

/-- The positions that end were open at the start: the commands that end positions
can go first. -/
theorem enough_open (sound : Sound config engine)
    (run : Concurrent commands engine trace engine' threads)
    (finished : ∀ i, threads i = .done (result i)) (separate : Separate commands)
    (once : order.Nodup) (each : ∀ i, i ∈ order) :
    Tally.closed.total (calls trace) + Tally.liquidated.total (calls trace) ≤
      engine.stats.openPositions := by
  let ending := order.filter fun i => ends (commands i)
  let others := order.filter fun i => !ends (commands i)
  have regrouped : (ending ++ others).Perm order := List.filter_append_perm _ order
  have once' : (ending ++ others).Nodup := regrouped.nodup_iff.mpr once
  have each' (i : ι) : i ∈ ending ++ others := regrouped.mem_iff.mpr (each i)
  have within := reaches_within run
  have same : (arranged (ending ++ others) trace).Perm (calls trace) :=
    arranged_perm once' fun a _ => each' a.thread
  have split : arranged (ending ++ others) trace = arranged ending trace ++ arranged others trace :=
    List.flatMap_append
  obtain ⟨legal, -⟩ := engineParts.serializable separate.apart within run.legal once' each'
  rw [split, Machine.legal_append] at legal
  have first : (ending.map fun i => (eventsOf (result i)).countP isEnded).sum ≤
      engine.stats.openPositions := by
    have serial := serial_of_finished run finished legal.1
    have ended := ended_le sound serial fun entry member => by
      obtain ⟨i, among, rfl⟩ := List.mem_map.mp member
      exact (List.mem_filter.mp among).2
    rwa [List.map_map] at ended
  have rest : (others.map fun i => (eventsOf (result i)).countP isEnded).sum = 0 := by
    refine List.sum_eq_zero fun n counted => ?_
    obtain ⟨i, among, rfl⟩ := List.mem_map.mp counted
    obtain ⟨alone, -⟩ := engineParts.alone separate.apart within run.legal i fun part _ =>
      Part.agree_equivalence part |>.refl engine
    have ran : Executes engine (commands i) (result i) _ :=
      ⟨_, run.returns (finished i), alone, rfl⟩
    exact ended_of_not_ends ran.transition (by simpa using (List.mem_filter.mp among).2)
  have ended := ended_arranged run finished ending
  have ended' := ended_arranged run finished others
  rw [← total_perm _ same, ← total_perm _ same, split, Tally.total_append, Tally.total_append]
  omega

/-- Commands in flight together, each on a market of its own and at most one of
them a sweep, end as they can when applied one after another, in any order: the
same results, books, quotes, fund and statistics, and the same events published,
if not in the same order. -/
theorem markets_serializable {entries : List Entry}
    (before : History seed config (fun _ _ => True) entries engine)
    (run : Concurrent commands engine trace engine' threads)
    (finished : ∀ i, threads i = .done (result i)) (separate : Separate commands)
    (once : order.Nodup) (each : ∀ i, i ∈ order) :
    ∃ final, History seed config (fun _ _ => True)
        (entries ++ order.map fun i => ⟨commands i, result i⟩) final ∧
      final.store = engine'.store ∧ final.state.markets = engine'.state.markets ∧
      final.insuranceBalance = engine'.insuranceBalance ∧ final.stats = engine'.stats ∧
      final.sink.Perm engine'.sink := by
  have same : (arranged order trace).Perm (calls trace) := arranged_perm once fun a _ => each a.thread
  obtain ⟨legal, agree⟩ := engineParts.serializable separate.apart (reaches_within run) run.legal
    once each
  obtain ⟨stores, markets, funds⟩ := eq_of_agree agree
  have sound : Sound config engine := Reachable.sound ⟨entries, before⟩
  have enough := enough_open sound run finished separate once each
  refine ⟨_, (serial_of_finished run finished legal).history before, ?_, ?_, ?_, ?_, ?_⟩
  · rw [run.after_eq, stores]
  · rw [run.after_eq, markets]
  · rw [run.after_eq]
    exact congrArg InsuranceFund.balance funds.symm
  · rw [run.after_eq, stats_eq_of_perm same.symm enough]
  · rw [run.after_eq, sink_after legal, sink_after run.legal]
    exact List.Perm.append_left _ (same.flatMap_right _)

end Serializable

section Books
open Sample

def eth : Symbol := ⟨"ETH-PERP", by decide, by decide⟩

/-- A sweep, an opening and a quote, on three markets. -/
def threeMarkets : Fin 3 → RiskCommand
  | 0 => .liquidateMarket sol
  | 1 => bobEnters
  | 2 => .updateMarket eth (price 50) (price 50) (rate 0)

theorem threeMarkets_sweep {i : Fin 3} {symbol : Symbol}
    (sweep : threeMarkets i = .liquidateMarket symbol) : i = 0 := by
  fin_cases i
  · rfl
  · cases sweep
  · cases sweep

theorem threeMarkets_separate : Separate threeMarkets where
  markets := by decide
  sweeps _ _ _ _ sweep sweep' := (threeMarkets_sweep sweep).trans (threeMarkets_sweep sweep').symm

/-- With their calls interleaved, the three end as the quote, the sweep and the
opening would one after another. -/
theorem markets_serializable_three : ∃ engine trace engine' threads entries final,
    Concurrent threeMarkets engine trace engine' threads ∧ engine'.stats.liquidations = 1 ∧
      engine'.stats.openPositions = 1 ∧
      History (dollars 50) standard (fun _ _ => True) entries final ∧
      final.store = engine'.store ∧ final.stats = engine'.stats := by
  let long := openedPosition alice sol .long .cross (contracts 10) (price 100) tenfold (dollars 60)
  obtain ⟨engine, trace, engine', threads, ⟨entries, before⟩, run, done, liquidated, opened⟩ :=
    exists_run_after_script (dollars 50) standard
      [({}, enter alice .long (contracts 10) (price 100) (dollars 60)),
        ({}, mark (price 90) (rate 0))] threeMarkets
      (turns 0 3 ⟨true, [long]⟩ ++ turns 1 4 ++ turns 2 1 ++ turns 0 2 ++ turns 1 1 ++ turns 2 2 ++
        turns 0 4 ++ turns 1 3)
      (fun _ _ engine' threads => (∀ i, (threads i).result.isSome) ∧
        engine'.stats.liquidations = 1 ∧ engine'.stats.openPositions = 1) (by decide +kernel)
  choose result returned using fun i => Option.isSome_iff_exists.mp (done i)
  have once : ([2, 0, 1] : List (Fin 3)).Nodup := by decide
  obtain ⟨final, after, stores, -, -, stats, -⟩ := markets_serializable before run
    (fun i => Program.result_eq_some.mp (returned i)) threeMarkets_separate once (by decide)
  exact ⟨engine, trace, engine', threads, _, final, run, liquidated, opened, after, stores, stats⟩

end Books
end MarginGuard.Guarantees
