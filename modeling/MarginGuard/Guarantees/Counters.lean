import MarginGuard.Source.Concurrent
import MarginGuard.Source.Script

/-!
# The statistics of commands in flight together

A finished command has counted exactly what it reports (`Applied.tally`), and
each counter adds up the sections that move it (`Machine.after` of the calls, in
whatever order). So three of the counters are the numbers of events returned.
`open_positions` is lowered by a saturating subtraction: a close that counts
before the open it ends has counted finds nothing to subtract, and the count
stays too high by one for good. `unsubtracted` counts these
(`statistics_settle`). The store and the sink are up throughout: an accrual whose
events cannot be published has counted them and returns none.
-/
namespace MarginGuard.Guarantees
open Foundation Source

/-- What a counter counts. -/
inductive Tally where
  | opened
  | closed
  | liquidated
  | funded
  | deleveraged

namespace Tally

/-- The events of that kind. -/
def reports : Tally → RiskEvent → Bool
  | .opened, .positionOpened .. => true
  | .closed, .positionClosed .. => true
  | .liquidated, .liquidated _ => true
  | .funded, .fundingSettled .. => true
  | .deleveraged, .autoDeleveraged .. => true
  | _, _ => false

/-- By how much a section counts them. -/
def adds : Tally → EngineCall → Nat
  | .opened, ⟨.countOpened, _⟩ => 1
  | .closed, ⟨.countClosed, _⟩ => 1
  | .liquidated, ⟨.countLiquidated, _⟩ => 1
  | .funded, ⟨.countFunding settled, _⟩ => settled
  | .deleveraged, ⟨.countAdl, _⟩ => 1
  | _, _ => 0

/-- What some calls count together. -/
def total (tally : Tally) (made : List EngineCall) : Nat := (made.map tally.adds).sum

theorem total_append (tally : Tally) (front back : List EngineCall) :
    tally.total (front ++ back) = tally.total front + tally.total back := by
  simp [total]

theorem total_publishCalls (tally : Tally) (events : List RiskEvent) :
    tally.total (publishCalls events) = 0 := by
  unfold publishCalls
  split
  · rfl
  · cases tally <;> rfl

/-- Calls none of which counts. -/
theorem total_eq_zero (tally : Tally) {made : List EngineCall}
    (silent : ∀ c ∈ made, tally.adds c = 0) : tally.total made = 0 := by
  apply List.sum_eq_zero
  intro n counted
  obtain ⟨c, member, rfl⟩ := List.mem_map.mp counted
  exact silent c member

/-- A round of funding counts its settlements. -/
theorem total_round (tally : Tally) (symbol : Symbol) (mark : Price) (rateBps : I64)
    (listing : List Position) :
    tally.total (listing.map (fundingCall mark rateBps) ++ fundingCount listing) =
      (listing.map (fundingEvent symbol mark rateBps)).countP tally.reports := by
  have writes : tally.total (listing.map (fundingCall mark rateBps)) = 0 := by
    apply total_eq_zero
    intro c member
    obtain ⟨pos, -, rfl⟩ := List.mem_map.mp member
    cases tally <;> rfl
  have counted : tally.total (fundingCount listing) = tally.adds ⟨.countFunding listing.length, ()⟩ := by
    unfold fundingCount
    split
    · next noEvents =>
      rw [List.isEmpty_iff.mp noEvents]
      cases tally <;> rfl
    · simp [total]
  rw [total_append, writes, counted, List.countP_map, Nat.zero_add]
  cases tally
  case funded => exact (congrFun List.countP_true listing).symm
  all_goals exact (congrFun List.countP_false listing).symm

/-- A sweep counts its liquidations and whether it socialised a loss. -/
theorem total_sweep (tally : Tally) (symbol : Symbol) (settled : List Settlement) :
    tally.total (settled.flatMap (Settlement.calls symbol) ++ adlCalls (totalSocialized settled)) =
      (sweepEvents symbol settled).countP tally.reports := by
  have adl : ∀ loss, tally.total (adlCalls loss) = (adlEvents symbol loss).countP tally.reports := by
    intro loss
    unfold adlCalls adlEvents
    split
    · rfl
    · cases tally <;> rfl
  have each : tally.total (settled.flatMap (Settlement.calls symbol)) =
      (settled.map (Settlement.event symbol)).countP tally.reports := by
    induction settled with
    | nil => rfl
    | cons s settled ih =>
      have one : tally.total (s.calls symbol) = [s.event symbol].countP tally.reports := by
        cases short : s.bankrupt with
        | true =>
          rw [Settlement.calls_of_bankrupt short]
          cases tally <;> rfl
        | false =>
          rw [Settlement.calls_of_solvent short]
          cases tally <;> rfl
      rw [List.flatMap_cons, total_append, ih, one, List.map_cons, ← List.countP_append]
      rfl
  rw [total_append, each, adl, sweepEvents, List.countP_append]

end Tally

/-- A finished command has counted what it reports. -/
theorem Applied.tally {command : RiskCommand} {made : List EngineCall}
    {r : Except CoreError CommandOutcome} (applied : Applied command made r) (tally : Tally) :
    tally.total made = (eventsOf r).countP tally.reports := by
  cases applied with
  | rateLimited => cases tally <;> rfl
  | admitted body r served =>
    have within : tally.total body = (eventsOf r).countP tally.reports := by
      cases served with
      | accrued symbol mark rateBps listing lists =>
        have read : tally.total [⟨.fundingTerms symbol, some (mark, rateBps)⟩,
            ⟨.byMarket symbol, .ok listing⟩] = 0 := by cases tally <;> rfl
        have round := tally.total_append [⟨.fundingTerms symbol, some (mark, rateBps)⟩,
          ⟨.byMarket symbol, .ok listing⟩]
          (listing.map (fundingCall mark rateBps) ++ fundingCount listing)
        rw [read, tally.total_round symbol, Nat.zero_add] at round
        exact round
      | swept symbol mark params listing settled processed lists =>
        have read : tally.total [⟨.sweepTerms symbol, some (mark, params)⟩,
            ⟨.byMarket symbol, .ok listing⟩] = 0 := by cases tally <;> rfl
        have sweep := tally.total_append [⟨.sweepTerms symbol, some (mark, params)⟩,
          ⟨.byMarket symbol, .ok listing⟩]
          (settled.flatMap (Settlement.calls symbol) ++ adlCalls (totalSocialized settled))
        rw [read, tally.total_sweep symbol, Nat.zero_add] at sweep
        exact sweep
      | _ => cases tally <;> rfl
    have asked : tally.total [⟨.tryAcquire, true⟩] = 0 := by cases tally <;> rfl
    rw [← List.singleton_append, Tally.total_append, Tally.total_append, asked, within,
      Tally.total_publishCalls, Nat.zero_add, Nat.add_zero]

/-! ## The counters -/

/-- The sections that lower `open_positions` and find it at zero. -/
def unsubtracted : RiskEngine → List EngineCall → Nat
  | _, [] => 0
  | engine, c :: made =>
    (if engine.stats.openPositions = 0 then Tally.closed.adds c + Tally.liquidated.adds c else 0) +
      unsubtracted (portsUp.effect engine c.op c.ans) made

/-- What a section does to the counters. -/
theorem stats_effect (engine : RiskEngine) (c : EngineCall) :
    let after := (portsUp.effect engine c.op c.ans).stats
    after.liquidations = engine.stats.liquidations + Tally.liquidated.adds c ∧
    after.fundingSettlements = engine.stats.fundingSettlements + Tally.funded.adds c ∧
    after.adlEvents = engine.stats.adlEvents + Tally.deleveraged.adds c ∧
    after.openPositions + Tally.closed.adds c + Tally.liquidated.adds c =
      engine.stats.openPositions + Tally.opened.adds c +
        (if engine.stats.openPositions = 0 then Tally.closed.adds c + Tally.liquidated.adds c
          else 0) := by
  have lowered : ∀ n : Nat, n - 1 + 1 = n + if n = 0 then 1 else 0 := by
    intro n
    split <;> omega
  have kept : ∀ n : Nat, n = n + if n = 0 then 0 else 0 := by simp
  have raised : ∀ n : Nat, n + 1 = n + 1 + if n = 0 then 0 else 0 := by simp
  obtain ⟨op, ans⟩ := c
  cases op
  case countClosed => exact ⟨rfl, rfl, rfl, lowered _⟩
  case countLiquidated => exact ⟨rfl, rfl, rfl, lowered _⟩
  case upsert pos => cases ans <;> exact ⟨rfl, rfl, rfl, kept _⟩
  case remove account symbol => cases ans <;> exact ⟨rfl, rfl, rfl, kept _⟩
  case publish events => cases ans <;> exact ⟨rfl, rfl, rfl, kept _⟩
  case countOpened => exact ⟨rfl, rfl, rfl, raised _⟩
  all_goals exact ⟨rfl, rfl, rfl, kept _⟩

/-- What a list of sections does to them. -/
theorem stats_after (engine : RiskEngine) (made : List EngineCall) :
    let after := (portsUp.after engine made).stats
    after.liquidations = engine.stats.liquidations + Tally.liquidated.total made ∧
    after.fundingSettlements = engine.stats.fundingSettlements + Tally.funded.total made ∧
    after.adlEvents = engine.stats.adlEvents + Tally.deleveraged.total made ∧
    after.openPositions + Tally.closed.total made + Tally.liquidated.total made =
      engine.stats.openPositions + Tally.opened.total made + unsubtracted engine made := by
  induction made generalizing engine with
  | nil => exact ⟨rfl, rfl, rfl, rfl⟩
  | cons c made ih =>
    obtain ⟨liquidations, funding, adl, gauge⟩ := stats_effect engine c
    obtain ⟨liquidations', funding', adl', gauge'⟩ := ih (portsUp.effect engine c.op c.ans)
    have split : ∀ tally : Tally, tally.total (c :: made) = tally.adds c + tally.total made :=
      fun _ => rfl
    simp only [Machine.after_cons, split, unsubtracted]
    dsimp only at *
    omega

/-! ## Runs -/

section Run
variable {ι : Type} [DecidableEq ι] [Fintype ι] {commands : ι → RiskCommand}
  {engine engine' : RiskEngine} {trace : List (EngineAct ι)} {threads : ι → Thread}

/-- The events of a kind that the commands have returned. -/
def Tally.returned (tally : Tally) (threads : ι → Thread) : Nat :=
  ∑ i, (returnedEvents (threads i)).countP tally.reports

/-- When all commands have finished, what was counted is what was returned. -/
theorem total_calls (run : Concurrent commands engine trace engine' threads)
    (finished : ∀ i, ∃ r, threads i = .done r) (tally : Tally) :
    tally.total (calls trace) = tally.returned threads := by
  rw [Tally.total, sum_calls_by_thread, Tally.returned]
  refine Finset.sum_congr rfl fun i _ => ?_
  obtain ⟨r, done⟩ := finished i
  rw [done, returnedEvents_done]
  exact Applied.tally (run.applied done) tally

/-- Once all commands have finished, whatever the interleaving, three counters
have grown by the events returned. `open_positions` and the positions reported
ended make up the opens, but for the sections that had nothing to subtract. -/
theorem statistics_settle (run : Concurrent commands engine trace engine' threads)
    (finished : ∀ i, ∃ r, threads i = .done r) :
    engine'.stats.liquidations =
      engine.stats.liquidations + Tally.liquidated.returned threads ∧
    engine'.stats.fundingSettlements =
      engine.stats.fundingSettlements + Tally.funded.returned threads ∧
    engine'.stats.adlEvents = engine.stats.adlEvents + Tally.deleveraged.returned threads ∧
    engine'.stats.openPositions + Tally.closed.returned threads +
        Tally.liquidated.returned threads =
      engine.stats.openPositions + Tally.opened.returned threads +
        unsubtracted engine (calls trace) := by
  have settled := stats_after engine (calls trace)
  simp only [total_calls run finished, ← run.after_eq] at settled
  exact settled

end Run

open Sample in
/-- An open, and a close of what it opens. -/
def openAndClose : Bool → RiskCommand
  | false => enter alice .long (contracts 10) (price 100) (dollars 150)
  | true => .closePosition alice sol

open Sample in
/-- The close counts before the open has counted: both succeed, the store is
empty, and one position is counted open. -/
theorem statistics_settle_early_close : ∃ engine trace engine' threads,
    Concurrent openAndClose engine trace engine' threads ∧
      engine.stats.openPositions = 0 ∧ engine'.store.count = 0 ∧
      engine'.stats.openPositions = 1 ∧ unsubtracted engine (calls trace) = 1 ∧
      engine'.stats.openPositions + Tally.closed.returned threads +
          Tally.liquidated.returned threads =
        engine.stats.openPositions + Tally.opened.returned threads +
          unsubtracted engine (calls trace) := by
  obtain ⟨engine, trace, engine', threads, -, run, fresh, empty, one, missed, done⟩ :=
    exists_run_after_script (dollars 5) standard
      [({}, .updateMarket sol (price 100) (price 100) (rate 5))] openAndClose
      (turns false 4 ++ turns true 5 ++ turns false 2)
      (fun engine trace engine' threads => engine.stats.openPositions = 0 ∧
        engine'.store.count = 0 ∧ engine'.stats.openPositions = 1 ∧
        unsubtracted engine (calls trace) = 1 ∧ ∀ i, (threads i).result.isSome) (by decide +kernel)
  refine ⟨engine, trace, engine', threads, run, fresh, empty, one, missed, ?_⟩
  refine (statistics_settle run fun i => ?_).2.2.2
  obtain ⟨r, finished⟩ := Option.isSome_iff_exists.mp (done i)
  exact ⟨r, Program.result_eq_some.mp finished⟩

end MarginGuard.Guarantees
