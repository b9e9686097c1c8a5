import MarginGuard.Source.Concurrent
import MarginGuard.Source.Script
import MarginGuard.Source.Waterfall

/-!
# The insurance ledger over interleaved commands

Every movement of the fund is one locked section, so the waterfall survives any
interleaving of any commands. From a non-negative seed, at a non-negative fee
rate and without saturation (`insurance_ledger`):

* the fund is never negative;
* a bankrupt position's draw and socialised loss add up to its shortfall, and a
  loss is socialised only by a draw that empties the fund;
* once all commands have finished, the balance is the seed plus the fees of the
  maintenance breaches minus the draws reported;
* a sweep ends with one `AutoDeleveraged` carrying the sum of its socialised
  losses if that is positive, and with none otherwise.
-/
namespace MarginGuard.Guarantees
open Foundation Source

variable {ι : Type} [DecidableEq ι]

/-! ## Movements of the fund -/

/-- What a call adds to the fund. -/
def fundChange : EngineCall → Int
  | ⟨.credit _ amount, _⟩ => amount.toInt
  | ⟨.cover _ _, paid⟩ => -paid.1.toInt
  | _ => 0

/-- The loss a call leaves to be socialised. -/
def lossLeft : EngineCall → Int
  | ⟨.cover _ _, paid⟩ => paid.2.toInt
  | _ => 0

/-- The amount a call credits. -/
def creditedAmount (c : EngineCall) : Option Usd :=
  match c.op with
  | .credit _ amount => some amount
  | _ => none

/-- The marks a command has read for a sweep. -/
def marksRead (front : List EngineCall) : List Price :=
  front.filterMap fun
    | ⟨.sweepTerms _, some (mark, _)⟩ => some mark
    | _ => none

/-- Nothing saturates: a credit fits the fund, a shortfall can be negated, and
the command's socialised losses fit their total. -/
structure Unsaturated (engine : RiskEngine) (front : List (EngineAct ι)) (a : EngineAct ι) :
    Prop where
  credit : ∀ amount ∈ creditedAmount a.call,
    Fits 128 (engine.insuranceBalance.toInt + amount.toInt)
  shortfall : ∀ pos ∈ settledPosition a.call, ∀ mark ∈ marksRead (callsOf a.thread front),
    (positionEquity pos mark).toInt ≠ minInt 128
  total : Fits 128 (((callsOf a.thread front).map lossLeft).sum + lossLeft a.call)

instance (engine : RiskEngine) (front : List (EngineAct ι)) (a : EngineAct ι) :
    Decidable (Unsaturated engine front a) :=
  decidable_of_iff ((∀ amount ∈ creditedAmount a.call,
        Fits 128 (engine.insuranceBalance.toInt + amount.toInt)) ∧
      (∀ pos ∈ settledPosition a.call, ∀ mark ∈ marksRead (callsOf a.thread front),
        (positionEquity pos mark).toInt ≠ minInt 128) ∧
      Fits 128 (((callsOf a.thread front).map lossLeft).sum + lossLeft a.call))
    ⟨fun ⟨credit, shortfall, total⟩ => ⟨credit, shortfall, total⟩,
      fun each => ⟨each.credit, each.shortfall, each.total⟩⟩

/-- A bankrupt position's shortfall at `mark`, split into what the fund paid and
what was socialised; `left` is the fund right after the draw. -/
structure CoversShortfall (pos : Position) (mark : Price) (drawn socialized left : Usd) : Prop where
  bankrupt : (positionEquity pos mark).toInt < 0
  whole : drawn.toInt + socialized.toInt = -(positionEquity pos mark).toInt
  drawn_nonneg : 0 ≤ drawn.toInt
  socialized_nonneg : 0 ≤ socialized.toInt
  exhausted : 0 < socialized.toInt → left.toInt = 0

/-- The settlements a finished command reports: its liquidations are theirs, and
it has made their calls, at the terms and from the listing it read. -/
structure Reports (command : RiskCommand) (calls : List EngineCall) (events : List RiskEvent)
    (settled : List Settlement) : Prop where
  liquidations : liquidationsOf events = settled.map (Settlement.liquidation command.symbol)
  performed : ∀ s ∈ settled, s.calls command.symbol ⊆ calls
  terms : ∀ s ∈ settled, ⟨.sweepTerms command.symbol, some (s.mark, s.params)⟩ ∈ calls
  listed : ∀ s ∈ settled, ∃ listing, ⟨.byMarket command.symbol, .ok listing⟩ ∈ calls ∧
    s.position ∈ listing

/-- What a maintenance breach brings the fund: its fee, capped by its equity. -/
def breachCredit (symbol : Symbol) (s : Settlement) : Int :=
  if (s.liquidation symbol).reason = .maintenanceBreach then min s.fee.toInt s.equity.toInt else 0

/-- The draws among reported events. -/
def totalDrawn (events : List RiskEvent) : Int :=
  ((liquidationsOf events).map fun l => l.insuranceDraw.toInt).sum

/-- A sweep's events: its liquidations, then the auto-deleverage that their
socialised losses call for. -/
def EndsWithAdl (symbol : Symbol) (events : List RiskEvent) : Prop :=
  ∃ tail, events = (liquidationsOf events).map RiskEvent.liquidated ++ tail ∧
    let total := ((liquidationsOf events).map fun l => l.socializedLoss.toInt).sum
    (0 < total → ∃ loss, tail = [.autoDeleveraged symbol loss] ∧ loss.toInt = total) ∧
      (total ≤ 0 → tail = [])

/-- The ledger of a run from a fresh engine. -/
structure Ledger [Fintype ι] (seed : Usd) (config : EngineConfig) (commands : ι → RiskCommand)
    (trace : List (EngineAct ι)) (engine : RiskEngine) (threads : ι → Thread) : Prop where
  solvent : 0 ≤ engine.insuranceBalance.toInt
  draws : ∀ front i pos shortfall paid back,
    trace = front ++ ⟨i, ⟨.cover pos shortfall, paid⟩⟩ :: back →
    ∃ mark params, Sweeps (commands i) (callsOf i front) mark params pos ∧
      CoversShortfall pos mark paid.1 paid.2 (portsUp.after (.fromParts seed config)
        (calls (front ++ [⟨i, ⟨.cover pos shortfall, paid⟩⟩]))).insuranceBalance
  reported : ∀ i, ∀ l ∈ liquidationsOf (returnedEvents (threads i)), l.reason = .bankruptcy →
    ∃ pos shortfall, pos.account = l.account ∧ pos.symbol = l.symbol ∧
      ⟨.cover pos shortfall, (l.insuranceDraw, l.socializedLoss)⟩ ∈ callsOf i trace
  balance : (∀ i, ∃ r, threads i = .done r) → ∃ settled : ι → List Settlement,
    (∀ i, Reports (commands i) (callsOf i trace) (returnedEvents (threads i)) (settled i)) ∧
      engine.insuranceBalance.toInt =
        seed.toInt + ∑ i, ((settled i).map (breachCredit (commands i).symbol)).sum -
          ∑ i, totalDrawn (returnedEvents (threads i))
  adl : ∀ i symbol outcome, commands i = .liquidateMarket symbol →
    threads i = .done (.ok outcome) → EndsWithAdl symbol outcome.events

/-! ## What one command does to the fund -/

theorem fundChange_of_unsettled {c : EngineCall} (unsettled : settledPosition c = none) :
    fundChange c = 0 ∧ lossLeft c = 0 := by
  obtain ⟨op, ans⟩ := c
  cases op <;> simp_all [settledPosition, fundChange, lossLeft]

theorem sums_of_unsettled {body : List EngineCall}
    (unsettled : ∀ c ∈ body, settledPosition c = none) :
    (body.map fundChange).sum = 0 ∧ (body.map lossLeft).sum = 0 := by
  constructor <;> apply List.sum_eq_zero <;> intro amount member <;>
    obtain ⟨c, performed, rfl⟩ := List.mem_map.mp member
  · exact (fundChange_of_unsettled (unsettled c performed)).1
  · exact (fundChange_of_unsettled (unsettled c performed)).2

/-- Only sweeps move the fund. -/
theorem unsettled_of_command {command : RiskCommand} {calls : List EngineCall}
    {r : Except CoreError CommandOutcome} (applied : Applied command calls r)
    (other : ∀ symbol, command ≠ .liquidateMarket symbol) :
    ∀ c ∈ calls, settledPosition c = none := by
  intro c performed
  cases settles : settledPosition c with
  | none => rfl
  | some pos =>
    obtain ⟨front, justified⟩ := applied.justified.mem performed
    obtain ⟨mark, params, before, held, later, sweeps, -⟩ := justified.settlement settles
    exact absurd sweeps.sweep (other _)

theorem unsettled_publishCalls (events : List RiskEvent) :
    ∀ c ∈ publishCalls events, settledPosition c = none := by
  intro c member
  rw [mem_publishCalls member]
  rfl

theorem unsettled_adlCalls (total : Usd) : ∀ c ∈ adlCalls total, settledPosition c = none := by
  intro c member
  rw [mem_adlCalls member]
  rfl

theorem fundChange_settlement (symbol : Symbol) (s : Settlement) :
    ((s.calls symbol).map fundChange).sum = breachCredit symbol s - s.drawn.toInt := by
  cases short : s.bankrupt with
  | true =>
    rw [Settlement.calls_of_bankrupt short]
    simp [fundChange, breachCredit, Settlement.liquidation, short]
  | false =>
    rw [Settlement.calls_of_solvent short]
    simp [fundChange, breachCredit, Settlement.liquidation, short, Usd.toInt_min,
      (s.solvent (Settlement.equity_nonneg short)).1]

theorem lossLeft_settlement (symbol : Symbol) (s : Settlement) :
    ((s.calls symbol).map lossLeft).sum = s.socialized.toInt := by
  cases short : s.bankrupt with
  | true =>
    rw [Settlement.calls_of_bankrupt short]
    simp [lossLeft]
  | false =>
    rw [Settlement.calls_of_solvent short]
    simp [lossLeft, (s.solvent (Settlement.equity_nonneg short)).2]

theorem sum_settlements {f : EngineCall → Int} {g : Settlement → Int} {symbol : Symbol}
    (each : ∀ s : Settlement, ((s.calls symbol).map f).sum = g s) (settled : List Settlement) :
    ((settled.flatMap (Settlement.calls symbol)).map f).sum = (settled.map g).sum := by
  induction settled with
  | nil => rfl
  | cons s settled ih =>
    rw [List.flatMap_cons, List.map_append, List.sum_append, each, ih, List.map_cons, List.sum_cons]

theorem sum_credits_sub_draws (symbol : Symbol) (settled : List Settlement) :
    (settled.map fun s => breachCredit symbol s - s.drawn.toInt).sum =
      (settled.map (breachCredit symbol)).sum - (settled.map fun s => s.drawn.toInt).sum := by
  induction settled with
  | nil => rfl
  | cons s settled ih =>
    simp only [List.map_cons, List.sum_cons, ih]
    omega

theorem Reports.covered {command : RiskCommand} {calls : List EngineCall} {events : List RiskEvent}
    {settled : List Settlement} (reports : Reports command calls events settled) {s : Settlement}
    (member : s ∈ settled) (short : s.bankrupt = true) :
    ⟨.cover s.position s.equity.neg, (s.drawn, s.socialized)⟩ ∈ calls := by
  apply reports.performed s member
  simp [Settlement.calls_of_bankrupt short]

/-- A finished sweep of a market with a state, as the ledger sees it. -/
structure SweepBooks (symbol : Symbol) (calls : List EngineCall) (events : List RiskEvent)
    (settled : List Settlement) : Prop where
  reports : Reports (.liquidateMarket symbol) calls events settled
  change : (calls.map fundChange).sum =
    (settled.map (breachCredit symbol)).sum - totalDrawn events
  losses : (calls.map lossLeft).sum = (settled.map fun s => s.socialized.toInt).sum
  events_eq : events = sweepEvents symbol settled

theorem sweepBooks_of_swept {symbol : Symbol} {mark : Price} {params : RiskParams}
    {listing : List Position} {settled : List Settlement}
    (processed : Processed mark params listing settled) :
    SweepBooks symbol
      (⟨.tryAcquire, true⟩ :: ((⟨.sweepTerms symbol, some (mark, params)⟩ ::
        ⟨.byMarket symbol, .ok listing⟩ :: (settled.flatMap (Settlement.calls symbol) ++
          adlCalls (totalSocialized settled))) ++ publishCalls (sweepEvents symbol settled)))
      (sweepEvents symbol settled) settled := by
  have adl := sums_of_unsettled (unsettled_adlCalls (totalSocialized settled))
  have published := sums_of_unsettled (unsettled_publishCalls (sweepEvents symbol settled))
  refine ⟨⟨liquidationsOf_sweep symbol settled, ?_, ?_, ?_⟩, ?_, ?_, rfl⟩
  · intro s member c performed
    simp only [List.mem_cons, List.mem_append, List.mem_flatMap]
    exact Or.inr (Or.inl (Or.inr (Or.inr (Or.inl ⟨s, member, performed⟩))))
  · intro s member
    obtain ⟨rfl, rfl⟩ := processed.terms s member
    simp [RiskCommand.symbol]
  · intro s member
    exact ⟨listing, by simp [RiskCommand.symbol], (processed.mem_listing member).1⟩
  · simp only [List.map_cons, List.map_append, List.cons_append, List.sum_cons, List.sum_append,
      adl.1, published.1, sum_settlements (fundChange_settlement symbol), totalDrawn,
      liquidationsOf_sweep, List.map_map, sum_credits_sub_draws]
    simp [fundChange, Settlement.liquidation, Function.comp_def]
  · simp only [List.map_cons, List.map_append, List.cons_append, List.sum_cons, List.sum_append,
      adl.2, published.2, sum_settlements (lossLeft_settlement symbol)]
    simp [lossLeft]

/-- A finished command either was a sweep with its settlements, or has left the
fund alone and reports no liquidation. -/
theorem books_of_applied {command : RiskCommand} {calls : List EngineCall}
    {r : Except CoreError CommandOutcome} (applied : Applied command calls r) :
    (∃ symbol settled, command = .liquidateMarket symbol ∧
      SweepBooks symbol calls (eventsOf r) settled) ∨
    ((calls.map fundChange).sum = 0 ∧ liquidationsOf (eventsOf r) = [] ∧
      ∀ symbol outcome, command = .liquidateMarket symbol → r ≠ .ok outcome) := by
  by_cases sweep : ∃ symbol, command = .liquidateMarket symbol
  · obtain ⟨symbol, rfl⟩ := sweep
    cases applied with
    | rateLimited => exact Or.inr ⟨rfl, rfl, fun _ _ _ => nofun⟩
    | admitted body r served =>
      cases served with
      | positionExists opens => cases opens
      | insufficientMargin opens => cases opens
      | opened opens => cases opens
      | sweepUnpriced => exact Or.inr ⟨rfl, rfl, fun _ _ _ => nofun⟩
      | swept _ mark params listing settled processed lists =>
        exact Or.inl ⟨symbol, settled, rfl, sweepBooks_of_swept processed⟩
  · have other : ∀ symbol, command ≠ .liquidateMarket symbol := fun symbol same =>
      sweep ⟨symbol, same⟩
    refine Or.inr ⟨(sums_of_unsettled (unsettled_of_command applied other)).1, ?_,
      fun symbol _ same => absurd same (other symbol)⟩
    cases applied with
    | rateLimited => rfl
    | admitted body r served =>
      cases served with
      | accrued symbol mark rateBps listing lists =>
        exact liquidationsOf_funding symbol mark rateBps listing
      | swept symbol => exact absurd rfl (other symbol)
      | _ => rfl

/-! ## The run -/

section Run
variable {seed : Usd} {config : EngineConfig} {commands : ι → RiskCommand} {engine : RiskEngine}
  {trace : List (EngineAct ι)} {threads : ι → Thread}

/-- No command changes the risk tiers: every sweep reads the default. -/
theorem params_read (run : Concurrent commands (.fromParts seed config) trace engine threads) {i : ι}
    {symbol : Symbol} {mark : Price} {params : RiskParams}
    (read : ⟨.sweepTerms symbol, some (mark, params)⟩ ∈ callsOf i trace) :
    params = config.defaultRisk := by
  obtain ⟨front, back, -, allowed⟩ := run.answered read
  obtain ⟨state, -, -, rfl⟩ := sweepTerms_read allowed
  obtain ⟨risk, same⟩ := after_tiers (.fromParts seed config) (calls front)
  unfold RiskEngine.riskParams
  rw [risk, same]
  rfl

theorem mem_marksRead {front : List EngineCall} {symbol : Symbol} {mark : Price}
    {params : RiskParams} (read : ⟨.sweepTerms symbol, some (mark, params)⟩ ∈ front) :
    mark ∈ marksRead front := List.mem_filterMap.mpr ⟨_, read, rfl⟩

/-- A draw splits the shortfall into what the fund pays and what is socialised. -/
theorem cover_step {now : RiskEngine} {front : List (EngineAct ι)} {i : ι} {pos : Position}
    {shortfall : Usd} {paid : Usd × Usd}
    (allowed : portsUp.answers now (.cover pos shortfall) paid)
    (justified : Justified (commands i) (callsOf i front) ⟨.cover pos shortfall, paid⟩)
    (exactly : Unsaturated now front ⟨i, ⟨.cover pos shortfall, paid⟩⟩)
    (solvent : 0 ≤ now.insuranceBalance.toInt) :
    let left := (portsUp.effect now (.cover pos shortfall) paid).insuranceBalance
    left.toInt = now.insuranceBalance.toInt - paid.1.toInt ∧ 0 ≤ left.toInt ∧
      ∃ mark params, Sweeps (commands i) (callsOf i front) mark params pos ∧
        CoversShortfall pos mark paid.1 paid.2 left := by
  obtain rfl : paid = (now.state.insurance.cover shortfall).1 := allowed
  obtain ⟨mark, params, removed, bankrupt, rfl⟩ := justified
  have unsaturated := exactly.shortfall pos rfl mark (mem_marksRead removed.sweeps.terms)
  have positive := Usd.neg_pos bankrupt
  have negated := Usd.toInt_neg unsaturated
  have drawn := now.state.insurance.drawn_cover positive
  have socialized := now.state.insurance.socialized_cover positive
  have left : (portsUp.effect now (.cover pos (positionEquity pos mark).neg)
      (now.state.insurance.cover (positionEquity pos mark).neg).1).insuranceBalance.toInt = _ :=
    now.state.insurance.balance_cover positive
  change 0 ≤ now.state.insurance.balance.toInt at solvent
  change _ = now.state.insurance.balance.toInt - _ ∧ _
  refine ⟨by omega, by omega, mark, params, removed.sweeps, bankrupt, by omega, by omega, by omega,
    ?_⟩
  intro lost
  omega

theorem credit_step {now : RiskEngine} {front : List (EngineAct ι)} {i : ι} {pos : Position}
    {amount : Usd} {params : RiskParams} {mark : Price}
    (fee : 0 ≤ params.liquidationFeeBps.toInt) (equity : 0 ≤ (positionEquity pos mark).toInt)
    (capped : amount =
      ((pos.notional mark).mulBps params.liquidationFeeBps).min (positionEquity pos mark))
    (exactly : Unsaturated now front ⟨i, ⟨.credit pos amount, ()⟩⟩)
    (solvent : 0 ≤ now.insuranceBalance.toInt) :
    let left := (portsUp.effect now (.credit pos amount) ()).insuranceBalance
    left.toInt = now.insuranceBalance.toInt + amount.toInt ∧ 0 ≤ left.toInt := by
  have gain : 0 ≤ amount.toInt := by
    rw [capped, Usd.toInt_min]
    exact le_min (Usd.mulBps_nonneg (pos.notional_nonneg mark) fee) equity
  have left : (portsUp.effect now (.credit pos amount) ()).insuranceBalance.toInt =
      now.insuranceBalance.toInt + amount.toInt :=
    Usd.toInt_saturatingAdd_of_fits (exactly.credit amount rfl)
  exact ⟨left, by omega⟩

/-- Every call moves the fund by its change, and never below zero. -/
theorem balance_step (run : Concurrent commands (.fromParts seed config) trace engine threads)
    (fee : 0 ≤ config.defaultRisk.liquidationFeeBps.toInt) {front back : List (EngineAct ι)}
    {a : EngineAct ι} (split : trace = front ++ a :: back)
    (exactly : Unsaturated (portsUp.after (.fromParts seed config) (calls front)) front a)
    (solvent : 0 ≤ (portsUp.after (.fromParts seed config) (calls front)).insuranceBalance.toInt) :
    let now := portsUp.after (.fromParts seed config) (calls front)
    let left := (portsUp.effect now a.call.op a.call.ans).insuranceBalance
    left.toInt = now.insuranceBalance.toInt + fundChange a.call ∧ 0 ≤ left.toInt := by
  have allowed := run.allowed front a back split
  have justified := run.justified front a back split
  obtain ⟨i, op, ans⟩ := a
  cases op
  case cover pos shortfall =>
    have step := cover_step allowed justified exactly solvent
    exact ⟨step.1.trans (sub_eq_add_neg _ _), step.2.1⟩
  case credit pos amount =>
    obtain ⟨mark, params, removed, equity, capped⟩ := justified
    have read : ⟨.sweepTerms pos.symbol, some (mark, params)⟩ ∈ callsOf i trace := by
      rw [split, callsOf_append]
      exact List.mem_append_left _ removed.sweeps.terms
    obtain rfl := params_read run read
    exact credit_step fee equity capped exactly solvent
  case upsert pos => cases ans <;> exact ⟨(Int.add_zero _).symm, solvent⟩
  case remove account symbol => cases ans <;> exact ⟨(Int.add_zero _).symm, solvent⟩
  case publish events => cases ans <;> exact ⟨(Int.add_zero _).symm, solvent⟩
  all_goals exact ⟨(Int.add_zero _).symm, solvent⟩

/-- At every point of the run the fund is the seed plus the changes so far, and
it is not negative. -/
theorem balance_run (run : Concurrent commands (.fromParts seed config) trace engine threads)
    (fee : 0 ≤ config.defaultRisk.liquidationFeeBps.toInt) (seeded : 0 ≤ seed.toInt)
    (exactly : Throughout portsUp Unsaturated (.fromParts seed config) trace)
    {front back : List (EngineAct ι)} (split : trace = front ++ back) :
    let now := portsUp.after (.fromParts seed config) (calls front)
    now.insuranceBalance.toInt = seed.toInt + ((calls front).map fundChange).sum ∧
      0 ≤ now.insuranceBalance.toInt := by
  refine Stepwise.induction (I := fun front =>
    (portsUp.after (.fromParts seed config) (calls front)).insuranceBalance.toInt =
        seed.toInt + ((calls front).map fundChange).sum ∧
      0 ≤ (portsUp.after (.fromParts seed config) (calls front)).insuranceBalance.toInt)
    ⟨(Int.add_zero _).symm, seeded⟩ ?_
  rintro start a rest rfl ⟨balance, solvent⟩
  have place : trace = start ++ a :: (rest ++ back) := by simp [split]
  have step := balance_step run fee place (exactly start a _ place) solvent
  rw [after_concat, sum_calls_concat, step.1, balance]
  exact ⟨by omega, by rw [← balance, ← step.1]; exact step.2⟩

/-- The losses a command leaves fit the total its sweep keeps. -/
theorem losses_fit (exactly : Throughout portsUp Unsaturated (.fromParts seed config) trace) (i : ι) :
    Fits 128 ((callsOf i trace).map lossLeft).sum := by
  refine Stepwise.induction (I := fun front => Fits 128 ((callsOf i front).map lossLeft).sum)
    (⟨by decide, by decide⟩ : Fits 128 0) ?_
  intro front a back split before
  have total := (exactly front a back split).total
  rw [callsOf_append, callsOf_cons, callsOf_nil]
  split
  · next own =>
    subst own
    simpa using total
  · simpa using before

/-- The end of a sweep whose losses are non-negative and fit. -/
theorem endsWithAdl_of_sweep (symbol : Symbol) {settled : List Settlement}
    (losses : ∀ s ∈ settled, 0 ≤ s.socialized.toInt)
    (fits : (settled.map fun s => s.socialized.toInt).sum ≤ maxInt 128) :
    EndsWithAdl symbol (sweepEvents symbol settled) := by
  have kept : (totalSocialized settled).toInt = (settled.map fun s => s.socialized.toInt).sum := by
    rw [toInt_totalSocialized losses]
    omega
  refine ⟨adlEvents symbol (totalSocialized settled), ?_, ?_⟩
  · rw [liquidationsOf_sweep, List.map_map]
    rfl
  · simp only [liquidationsOf_sweep, List.map_map, Function.comp_def, Settlement.liquidation, ← kept]
    unfold adlEvents
    constructor
    · intro positive
      exact ⟨totalSocialized settled, if_neg (by omega), rfl⟩
    · intro covered
      refine if_pos ?_
      have sum := sum_socialized_nonneg losses
      omega

theorem reports_of_applied {command : RiskCommand} {calls : List EngineCall}
    {r : Except CoreError CommandOutcome} (applied : Applied command calls r) :
    ∃ settled, Reports command calls (eventsOf r) settled ∧ (calls.map fundChange).sum =
      (settled.map (breachCredit command.symbol)).sum - totalDrawn (eventsOf r) := by
  obtain ⟨symbol, settled, rfl, books⟩ | ⟨still, quiet, -⟩ := books_of_applied applied
  · exact ⟨settled, books.reports, books.change⟩
  · exact ⟨[], ⟨quiet, by simp, by simp, by simp⟩, by rw [still, totalDrawn, quiet]; rfl⟩

/-- Every draw of the run covers the shortfall of the position it was made for. -/
theorem draws_cover (run : Concurrent commands (.fromParts seed config) trace engine threads)
    (fee : 0 ≤ config.defaultRisk.liquidationFeeBps.toInt) (seeded : 0 ≤ seed.toInt)
    (exactly : Throughout portsUp Unsaturated (.fromParts seed config) trace)
    {front back : List (EngineAct ι)} {i : ι} {pos : Position} {shortfall : Usd} {paid : Usd × Usd}
    (split : trace = front ++ ⟨i, ⟨.cover pos shortfall, paid⟩⟩ :: back) :
    ∃ mark params, Sweeps (commands i) (callsOf i front) mark params pos ∧
      CoversShortfall pos mark paid.1 paid.2 (portsUp.after (.fromParts seed config)
        (calls (front ++ [⟨i, ⟨.cover pos shortfall, paid⟩⟩]))).insuranceBalance := by
  have solvent := (balance_run run fee seeded exactly split).2
  rw [after_concat]
  exact (cover_step (run.allowed front _ back split) (run.justified front _ back split)
    (exactly front _ back split) solvent).2.2

/-- A reported bankruptcy is a draw of the command that reports it. -/
theorem draw_of_bankruptcy (run : Concurrent commands (.fromParts seed config) trace engine threads)
    {i : ι} {l : Liquidation} (reported : l ∈ liquidationsOf (returnedEvents (threads i)))
    (bankrupt : l.reason = .bankruptcy) :
    ∃ pos shortfall, pos.account = l.account ∧ pos.symbol = l.symbol ∧
      ⟨.cover pos shortfall, (l.insuranceDraw, l.socializedLoss)⟩ ∈ callsOf i trace := by
  cases finished : threads i with
  | step op next => simp [finished, returnedEvents, Program.result, liquidationsOf] at reported
  | done r =>
    rw [finished, returnedEvents_done] at reported
    obtain ⟨symbol, settled, sweep, books⟩ | ⟨-, quiet, -⟩ :=
      books_of_applied (run.applied finished)
    · rw [books.reports.liquidations] at reported
      obtain ⟨s, member, rfl⟩ := List.mem_map.mp reported
      have short : s.bankrupt = true := by
        cases kind : s.bankrupt with
        | true => rfl
        | false => simp [Settlement.liquidation, kind] at bankrupt
      have performed := books.reports.covered member short
      refine ⟨s.position, s.equity.neg, rfl, ?_, performed⟩
      obtain ⟨_, mark, params, removed, -⟩ := (run.applied finished).justified.mem performed
      have market := removed.sweeps.sweep
      rw [sweep] at market
      exact (RiskCommand.liquidateMarket.inj market).symm
    · rw [quiet] at reported
      cases reported

/-- A finished sweep socialises non-negative losses that fit its total. -/
theorem sweep_losses (run : Concurrent commands (.fromParts seed config) trace engine threads)
    (fee : 0 ≤ config.defaultRisk.liquidationFeeBps.toInt) (seeded : 0 ≤ seed.toInt)
    (exactly : Throughout portsUp Unsaturated (.fromParts seed config) trace) {i : ι}
    {symbol : Symbol} {events : List RiskEvent} {settled : List Settlement}
    (books : SweepBooks symbol (callsOf i trace) events settled) :
    (∀ s ∈ settled, 0 ≤ s.socialized.toInt) ∧
      (settled.map fun s => s.socialized.toInt).sum ≤ maxInt 128 := by
  refine ⟨fun s member => ?_, books.losses ▸ (losses_fit exactly i).2⟩
  cases short : s.bankrupt with
  | false =>
    rw [(s.solvent (Settlement.equity_nonneg short)).2]
    exact le_rfl
  | true =>
    obtain ⟨front, back, split, -⟩ := run.answered (books.reports.covered member short)
    obtain ⟨mark, params, -, covers⟩ := draws_cover run fee seeded exactly split
    exact covers.socialized_nonneg

end Run

/-- From a non-negative seed, at a non-negative liquidation fee and without
saturation, the ledger holds in every interleaving of any commands. -/
theorem insurance_ledger [Fintype ι] {seed : Usd} {config : EngineConfig} {commands : ι → RiskCommand}
    {trace : List (EngineAct ι)} {engine : RiskEngine} {threads : ι → Thread}
    (seeded : 0 ≤ seed.toInt) (fee : 0 ≤ config.defaultRisk.liquidationFeeBps.toInt)
    (run : Concurrent commands (.fromParts seed config) trace engine threads)
    (exactly : Throughout portsUp Unsaturated (.fromParts seed config) trace) :
    Ledger seed config commands trace engine threads := by
  have books := balance_run run fee seeded exactly (List.append_nil trace).symm
  rw [← run.after_eq] at books
  refine ⟨books.2, ?_, ?_, ?_, ?_⟩
  · intro front i pos shortfall paid back split
    exact draws_cover run fee seeded exactly split
  · intro i l reported bankrupt
    exact draw_of_bankruptcy run reported bankrupt
  · intro finished
    have each : ∀ i, ∃ settled,
        Reports (commands i) (callsOf i trace) (returnedEvents (threads i)) settled ∧
        ((callsOf i trace).map fundChange).sum =
          (settled.map (breachCredit (commands i).symbol)).sum -
            totalDrawn (returnedEvents (threads i)) := by
      intro i
      obtain ⟨r, done⟩ := finished i
      rw [done, returnedEvents_done]
      exact reports_of_applied (run.applied done)
    choose settled reports changes using each
    refine ⟨settled, reports, ?_⟩
    rw [books.1, sum_calls_by_thread, Finset.sum_congr rfl fun i _ => changes i,
      Finset.sum_sub_distrib, Int.add_sub_assoc]
  · intro i symbol outcome sweep done
    obtain ⟨symbol', settled, same, books⟩ | ⟨-, -, refused⟩ := books_of_applied (run.applied done)
    · rw [sweep] at same
      obtain rfl := RiskCommand.liquidateMarket.inj same
      obtain ⟨losses, fits⟩ := sweep_losses run fee seeded exactly books
      have ends := endsWithAdl_of_sweep symbol losses fits
      rw [← books.events_eq] at ends
      exact ends
    · exact absurd rfl (refused symbol outcome sweep)

open Sample in
/-- Two opens, a market update and a sweep. -/
def fourCommands : Fin 4 → RiskCommand
  | 0 => enter alice .long (contracts 10) (price 100) (dollars 60)
  | 1 => enter bob .long (contracts 10) (price 100) (dollars 110)
  | 2 => mark (price 90) (rate 0)
  | 3 => .liquidateMarket sol

open Sample in
/-- Alice's shortfall of 40 takes the seed of 5, her other 35 are socialised,
and bob's fee of 9 is all that is left in the fund. -/
theorem insurance_ledger_four_commands : ∃ trace engine threads,
    Concurrent fourCommands (.fromParts (dollars 5) standard) trace engine threads ∧
      (∀ i, ∃ r, threads i = .done r) ∧ engine.insuranceBalance = dollars 9 ∧
      Ledger (dollars 5) standard fourCommands trace engine threads := by
  obtain ⟨trace, engine, threads, run, finished, balance, exactly⟩ := exists_run_of_schedule
    (.fromParts (dollars 5) standard) fourCommands
    (turns 0 3 ++ turns 1 6 ++ turns 2 1 ++ turns 0 3 ++ turns 3 1 ++ turns 2 2 ++
      turns 3 10 ⟨true, [openedPosition alice sol .long .cross (contracts 10) (price 100) tenfold
          (dollars 60),
        openedPosition bob sol .long .cross (contracts 10) (price 100) tenfold (dollars 110)]⟩)
    (fun trace engine threads => (∀ i, (threads i).result.isSome) ∧
      engine.insuranceBalance = dollars 9 ∧
      Throughout portsUp Unsaturated (.fromParts (dollars 5) standard) trace) (by decide)
  simp only [Option.isSome_iff_exists, Program.result_eq_some] at finished
  exact ⟨trace, engine, threads, run, finished, balance,
    insurance_ledger (by decide) (by decide) run exactly⟩

end MarginGuard.Guarantees
