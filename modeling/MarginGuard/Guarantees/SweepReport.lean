import MarginGuard.Guarantees.InsuranceLedger
import MarginGuard.Guarantees.PortFailure

/-!
# Which liquidations are reported

A sweep removes positions and moves the fund at once, but gathers its events and
the socialised total in local variables and publishes at its end. With a sink
that never fails and a store that fails anywhere, what is lost is therefore
exactly (`liquidations_reported_iff`):

* everything a sweep has settled before one of its removals fails;
* the part of a socialised total that exceeds its `i128`.
-/
namespace MarginGuard.Guarantees
open Foundation Source

/-! ## What was done and what was reported -/

/-- The position a removal took out of the store. -/
def takenOut : EngineCall → Option Position
  | ⟨.remove _ _, .ok held⟩ => held
  | _ => none

/-- What the fund paid in a call. -/
def drawnIn : EngineCall → Int
  | ⟨.cover _ _, paid⟩ => paid.1.toInt
  | _ => 0

/-- The events passed to the sink in a call. -/
def publishedIn (c : EngineCall) : List RiskEvent :=
  match c.op with
  | .publish events => events
  | _ => []

/-- The loss an event says was socialised. -/
def deleveragedLoss : RiskEvent → Int
  | .autoDeleveraged _ loss => loss.toInt
  | _ => 0

def totalDeleveraged (events : List RiskEvent) : Int := (events.map deleveragedLoss).sum

/-- The positions removed by the application, if it is a sweep. -/
def sweptPositions (a : Attempt) : List Position :=
  match a.command with
  | .liquidateMarket _ => a.calls.filterMap takenOut
  | _ => []

def publishedEvents (a : Attempt) : List RiskEvent := a.calls.flatMap publishedIn

def drawnTotal (a : Attempt) : Int := (a.calls.map drawnIn).sum

def lossTotal (a : Attempt) : Int := (a.calls.map lossLeft).sum

def positionOwner (pos : Position) : AccountId × Symbol := (pos.account, pos.symbol)

def liquidationOwner (l : Liquidation) : AccountId × Symbol := (l.account, l.symbol)

/-- Every liquidation has its event, in order, and the amounts add up. -/
structure Reported (attempts : List Attempt) : Prop where
  liquidations : (attempts.flatMap sweptPositions).map positionOwner =
    (liquidationsOf (attempts.flatMap publishedEvents)).map liquidationOwner
  draws : (attempts.map drawnTotal).sum = totalDrawn (attempts.flatMap publishedEvents)
  losses : (attempts.map lossTotal).sum = totalDeleveraged (attempts.flatMap publishedEvents)

/-- A sweep whose report will be complete: if one of its removals fails, it is
the first, and what the fund cannot pay for the positions in breach fits the
socialised total. -/
structure Accountable (a : Attempt) : Prop where
  firstRemoval : ∀ symbol, a.command = .liquidateMarket symbol → HarmlessFailure a
  fits : ∀ symbol state, a.command = .liquidateMarket symbol → ¬ a.PortFailed →
    a.engine.market symbol = some state →
    Reserve.uncovered (minInt 128) (maxInt 128) a.engine.insuranceBalance.toInt
      (sweepFlows state.markPrice (a.engine.riskParams symbol) (listedIn a.calls)) ≤ maxInt 128

/-! ## One application -/

/-- What one application leaves unreported, and when that is nothing. -/
structure Accounted (a : Attempt) : Prop where
  fewer : (liquidationsOf (publishedEvents a)).length ≤ (sweptPositions a).length
  less : totalDeleveraged (publishedEvents a) ≤ lossTotal a
  same : (liquidationsOf (publishedEvents a)).length = (sweptPositions a).length →
    (sweptPositions a).map positionOwner =
        (liquidationsOf (publishedEvents a)).map liquidationOwner ∧
      drawnTotal a = totalDrawn (publishedEvents a)
  accountable : Accountable a ↔
    (liquidationsOf (publishedEvents a)).length = (sweptPositions a).length ∧
      totalDeleveraged (publishedEvents a) = lossTotal a

/-- An application that liquidated nothing and reports nothing. -/
structure Quiet (a : Attempt) : Prop where
  swept : sweptPositions a = []
  drawn : drawnTotal a = 0
  loss : lossTotal a = 0
  liquidations : liquidationsOf (publishedEvents a) = []
  deleveraged : totalDeleveraged (publishedEvents a) = 0

theorem Quiet.accounted {a : Attempt} (quiet : Quiet a) (accountable : Accountable a) :
    Accounted a where
  fewer := by simp [quiet.liquidations, quiet.swept]
  less := by simp [quiet.deleveraged, quiet.loss]
  same _ := by
    rw [quiet.swept, quiet.liquidations, quiet.drawn, totalDrawn, quiet.liquidations]
    exact ⟨rfl, rfl⟩
  accountable := by
    rw [quiet.liquidations, quiet.swept, quiet.deleveraged, quiet.loss]
    exact ⟨fun _ => ⟨rfl, rfl⟩, fun _ => accountable⟩

/-- A call that neither moves the fund nor publishes. -/
def Inert (c : EngineCall) : Prop := drawnIn c = 0 ∧ lossLeft c = 0 ∧ publishedIn c = []

/-- Only the fund and the sink make a difference. -/
theorem inert_of_op {c : EngineCall} (fund : ∀ pos shortfall, c.op ≠ .cover pos shortfall)
    (sink : ∀ events, c.op ≠ .publish events) : Inert c := by
  obtain ⟨op, ans⟩ := c
  cases op with
  | cover pos shortfall => exact absurd rfl (fund pos shortfall)
  | publish events => exact absurd rfl (sink events)
  | _ => exact ⟨rfl, rfl, rfl⟩

section Inert
variable {calls : List EngineCall} {mark : Price} {params : RiskParams} {symbol : Symbol}

theorem sum_drawnIn_of_inert (inert : ∀ c ∈ calls, Inert c) : (calls.map drawnIn).sum = 0 :=
  List.sum_eq_zero fun amount member => by
    obtain ⟨c, performed, rfl⟩ := List.mem_map.mp member
    exact (inert c performed).1

theorem sum_lossLeft_of_inert (inert : ∀ c ∈ calls, Inert c) : (calls.map lossLeft).sum = 0 :=
  List.sum_eq_zero fun amount member => by
    obtain ⟨c, performed, rfl⟩ := List.mem_map.mp member
    exact (inert c performed).2.1

theorem published_of_inert (inert : ∀ c ∈ calls, Inert c) : calls.flatMap publishedIn = [] :=
  List.flatMap_eq_nil_iff.mpr fun c performed => (inert c performed).2.2

theorem published_publishCalls (events : List RiskEvent) :
    (publishCalls events).flatMap publishedIn = events := by
  unfold publishCalls
  split
  · next noEvents => simp [List.isEmpty_iff.mp noEvents]
  · simp [publishedIn]

end Inert

theorem inert_fundingCalls (mark : Price) (rateBps : I64) (listing : List Position) :
    ∀ c ∈ listing.map (fundingCall mark rateBps), Inert c := by
  intro c member
  obtain ⟨pos, -, rfl⟩ := List.mem_map.mp member
  exact ⟨rfl, rfl, rfl⟩

theorem quiet_fundingEvents (symbol : Symbol) (mark : Price) (rateBps : I64)
    (listing : List Position) :
    let events := listing.map (fundingEvent symbol mark rateBps)
    liquidationsOf events = [] ∧ totalDeleveraged events = 0 := by
  refine ⟨liquidationsOf_funding symbol mark rateBps listing, ?_⟩
  refine List.sum_eq_zero fun amount member => ?_
  obtain ⟨e, reported, rfl⟩ := List.mem_map.mp member
  obtain ⟨pos, -, rfl⟩ := List.mem_map.mp reported
  rfl

/-- What a command that is no sweep does and returns. -/
theorem quiet_of_dispatch {command : RiskCommand} {body : List EngineCall}
    {r : Except CoreError CommandOutcome}
    (run : Program.Returns (RiskEngine.dispatch command) body r)
    (other : ∀ symbol, command ≠ .liquidateMarket symbol) :
    (∀ c ∈ body, Inert c) ∧ liquidationsOf (eventsOf r) = [] ∧ totalDeleveraged (eventsOf r) = 0 := by
  cases command with
  | openPosition account symbol side marginMode size entryPrice leverage margin =>
    cases returns_openPosition run <;> exact ⟨by simp [inert_of_op], rfl, rfl⟩
  | closePosition account symbol =>
    cases returns_close run <;> exact ⟨by simp [inert_of_op], rfl, rfl⟩
  | updateMarket symbol markPrice indexPrice rateBps =>
    obtain ⟨rfl, rfl⟩ := returns_updateMarket run
    exact ⟨by simp [inert_of_op], rfl, rfl⟩
  | accrueFunding symbol =>
    cases returns_accrueFunding run with
    | noMarket => exact ⟨by simp [inert_of_op], rfl, rfl⟩
    | listingFailed mark rateBps e => exact ⟨by simp [inert_of_op], rfl, rfl⟩
    | cut mark rateBps done pos rest e =>
      simp only [List.forall_mem_cons, List.forall_mem_append]
      refine ⟨⟨⟨rfl, rfl, rfl⟩, ⟨rfl, rfl, rfl⟩, inert_fundingCalls mark rateBps done,
        ⟨rfl, rfl, rfl⟩, by simp⟩, rfl, rfl⟩
    | accrued mark rateBps listing =>
      simp only [List.forall_mem_cons, List.forall_mem_append]
      refine ⟨⟨⟨rfl, rfl, rfl⟩, ⟨rfl, rfl, rfl⟩, inert_fundingCalls mark rateBps listing, ?_⟩,
        quiet_fundingEvents symbol mark rateBps listing⟩
      intro c member
      rw [mem_fundingCount member]
      exact ⟨rfl, rfl, rfl⟩
  | liquidateMarket symbol => exact absurd rfl (other symbol)

/-! ## Sweeps -/

section Settlements
variable {symbol : Symbol} {settled : List Settlement}

theorem drawnIn_settlement (symbol : Symbol) (s : Settlement) :
    ((s.calls symbol).map drawnIn).sum = s.drawn.toInt := by
  cases short : s.bankrupt with
  | true =>
    rw [Settlement.calls_of_bankrupt short]
    simp [drawnIn]
  | false =>
    rw [Settlement.calls_of_solvent short]
    simp [drawnIn, (s.solvent (Settlement.equity_nonneg short)).1]

theorem takenOut_settlement (symbol : Symbol) (s : Settlement) :
    (s.calls symbol).filterMap takenOut = s.removed.toList := by
  cases short : s.bankrupt with
  | true =>
    rw [Settlement.calls_of_bankrupt short]
    cases s.removed <;> simp [takenOut]
  | false =>
    rw [Settlement.calls_of_solvent short]
    cases s.removed <;> simp [takenOut]

theorem takenOut_settlements (removed : ∀ s ∈ settled, s.removed = some s.position) :
    (settled.flatMap (Settlement.calls symbol)).filterMap takenOut =
      settled.map Settlement.position := by
  induction settled with
  | nil => rfl
  | cons s settled ih =>
    rw [List.forall_mem_cons] at removed
    rw [List.flatMap_cons, List.filterMap_append, takenOut_settlement, removed.1, ih removed.2]
    rfl

theorem published_settlements :
    (settled.flatMap (Settlement.calls symbol)).flatMap publishedIn = [] := by
  refine List.flatMap_eq_nil_iff.mpr fun c member => ?_
  obtain ⟨s, -, rfl | rfl | rfl | rfl⟩ := Settlement.mem_settlements member <;> rfl

theorem totalDeleveraged_sweepEvents (symbol : Symbol) (settled : List Settlement) :
    totalDeleveraged (sweepEvents symbol settled) = (totalSocialized settled).toInt := by
  have quiet : totalDeleveraged (settled.map (Settlement.event symbol)) = 0 := by
    refine List.sum_eq_zero fun amount member => ?_
    obtain ⟨e, reported, rfl⟩ := List.mem_map.mp member
    obtain ⟨s, -, rfl⟩ := List.mem_map.mp reported
    rfl
  unfold totalDeleveraged at quiet ⊢
  unfold sweepEvents adlEvents
  rw [List.map_append, List.sum_append, quiet]
  split
  · next covered => rw [covered]; rfl
  · simp [deleveragedLoss]

end Settlements

/-! ## Admitted applications -/

/-- An admitted application whose publish, if it came to one, succeeded. -/
def admittedAttempt (engine : RiskEngine) (command : RiskCommand) (body : List EngineCall)
    (r : Except CoreError CommandOutcome) : Attempt where
  engine := engine
  command := command
  calls := ⟨.tryAcquire, true⟩ :: (body ++ publishCalls (eventsOf r))
  result := r

section Admitted
variable {engine : RiskEngine} {command : RiskCommand} {body : List EngineCall}
  {r : Except CoreError CommandOutcome} {symbol : Symbol}

theorem sum_publishCalls {f : EngineCall → Int} (inert : ∀ events, f ⟨.publish events, .ok ()⟩ = 0)
    (events : List RiskEvent) : ((publishCalls events).map f).sum = 0 :=
  List.sum_eq_zero fun amount member => by
    obtain ⟨c, performed, rfl⟩ := List.mem_map.mp member
    rw [mem_publishCalls performed]
    exact inert events

theorem publishedEvents_admitted : publishedEvents (admittedAttempt engine command body r) =
    body.flatMap publishedIn ++ eventsOf r := by
  change [] ++ (body ++ publishCalls (eventsOf r)).flatMap publishedIn = _
  rw [List.nil_append, List.flatMap_append, published_publishCalls]

theorem drawnTotal_admitted :
    drawnTotal (admittedAttempt engine command body r) = (body.map drawnIn).sum := by
  change 0 + ((body ++ publishCalls (eventsOf r)).map drawnIn).sum = _
  rw [List.map_append, List.sum_append, sum_publishCalls fun _ => rfl]
  omega

theorem lossTotal_admitted :
    lossTotal (admittedAttempt engine command body r) = (body.map lossLeft).sum := by
  change 0 + ((body ++ publishCalls (eventsOf r)).map lossLeft).sum = _
  rw [List.map_append, List.sum_append, sum_publishCalls fun _ => rfl]
  omega

theorem sweptPositions_admitted :
    sweptPositions (admittedAttempt engine (.liquidateMarket symbol) body r) =
      body.filterMap takenOut := by
  change (body ++ publishCalls (eventsOf r)).filterMap takenOut = _
  rw [List.filterMap_append, publishCalls_inert fun _ => rfl, List.append_nil]

theorem listedIn_admitted (body : List EngineCall) (events : List RiskEvent) :
    listedIn (⟨.tryAcquire, true⟩ :: (body ++ publishCalls events)) = listedIn body := by
  have quiet : listedIn (publishCalls events) = [] :=
    List.flatMap_eq_nil_iff.mpr fun c member => by
      rw [mem_publishCalls member]
  change listedIn (body ++ publishCalls events) = _
  rw [listedIn_append, quiet, List.append_nil]

theorem failingCall_admitted {e : CoreError} (front : List EngineCall) (c : EngineCall) :
    failingCall (admittedAttempt engine command (front ++ [c]) (.error e)).calls = some c.op := by
  change failingCall (⟨.tryAcquire, true⟩ :: (front ++ [c] ++ [])) = _
  rw [List.append_nil, ← List.cons_append, failingCall_concat]

/-- An application over a failing store and a sink that is up. -/
theorem admitted_or_refused {calls : List EngineCall}
    (run : Program.Returns (RiskEngine.apply command) calls r)
    (legal : (portsMayFail Action.isStoreCall).Legal engine calls) :
    (r = .error .rateLimited ∧ calls = [⟨.tryAcquire, false⟩]) ∨
      ∃ body, Program.Returns (RiskEngine.dispatch command) body r ∧
        (portsMayFail Action.isStoreCall).Legal engine body ∧
        (⟨engine, command, calls, r⟩ : Attempt) = admittedAttempt engine command body r := by
  cases returns_apply run with
  | rateLimited => exact Or.inl ⟨rfl, rfl⟩
  | failed body e dispatched =>
    refine Or.inr ⟨body, dispatched, legal.2, ?_⟩
    simp [admittedAttempt, eventsOf, publishCalls]
  | unpublished body outcome e dispatched nonempty =>
    have answered := ((Machine.legal_append _ _ _).mp legal.2).2.1
    rcases answered with up | ⟨down, -⟩
    · cases up
    · cases down
  | published body outcome dispatched =>
    exact Or.inr ⟨body, dispatched, ((Machine.legal_append _ _ _).mp legal.2).1, rfl⟩

theorem quiet_of_refused : Quiet ⟨engine, command, [⟨.tryAcquire, false⟩], .error .rateLimited⟩ where
  swept := by cases command <;> rfl
  drawn := rfl
  loss := rfl
  liquidations := rfl
  deleveraged := rfl

theorem quiet_of_other (run : Program.Returns (RiskEngine.dispatch command) body r)
    (other : ∀ symbol, command ≠ .liquidateMarket symbol) :
    Quiet (admittedAttempt engine command body r) := by
  obtain ⟨inert, quiet, still⟩ := quiet_of_dispatch run other
  refine ⟨?_, ?_, ?_, ?_, ?_⟩
  · cases command <;> first | rfl | exact absurd rfl (other _)
  · rw [drawnTotal_admitted, sum_drawnIn_of_inert inert]
  · rw [lossTotal_admitted, sum_lossLeft_of_inert inert]
  · rw [publishedEvents_admitted, published_of_inert inert]
    exact quiet
  · rw [publishedEvents_admitted, published_of_inert inert]
    exact still

theorem accountable_of_other {a : Attempt} (other : ∀ symbol, a.command ≠ .liquidateMarket symbol) :
    Accountable a :=
  ⟨fun symbol same => absurd same (other symbol), fun symbol _ same => absurd same (other symbol)⟩

/-- A sweep that listed nothing has nothing to report. -/
theorem accountable_of_unlisted {a : Attempt} (harmless : HarmlessFailure a)
    (empty : listedIn a.calls = []) : Accountable a := by
  refine ⟨fun _ _ => harmless, fun symbol state _ _ _ => ?_⟩
  rw [empty]
  change (0 : Int) ≤ maxInt 128
  decide

section Sweep
variable {a : Attempt} {mark : Price} {params : RiskParams} {settled : List Settlement}
  {events : List RiskEvent} {listing : List Position}

/-- A sweep with these settlements, which published these events. -/
structure Settles (a : Attempt) (settled : List Settlement) (events : List RiskEvent) : Prop where
  swept : sweptPositions a = settled.map Settlement.position
  drawn : drawnTotal a = (settled.map fun s => s.drawn.toInt).sum
  loss : lossTotal a = (settled.map fun s => s.socialized.toInt).sum
  events : publishedEvents a = events

/-- What a sweep does is what its settlements do. -/
theorem settles_of_idle (engine : RiskEngine) (r : Except CoreError CommandOutcome)
    {front tail : List EngineCall} (idle : ∀ c ∈ front ++ tail, Inert c ∧ takenOut c = none)
    (removed : ∀ s ∈ settled, s.removed = some s.position) :
    Settles (admittedAttempt engine (.liquidateMarket symbol)
      (front ++ (settled.flatMap (Settlement.calls symbol) ++ tail)) r) settled (eventsOf r) := by
  rw [List.forall_mem_append] at idle
  have frontInert : ∀ c ∈ front, Inert c := fun c member => (idle.1 c member).1
  have tailInert : ∀ c ∈ tail, Inert c := fun c member => (idle.2 c member).1
  have frontKept : front.filterMap takenOut = [] :=
    List.filterMap_eq_nil_iff.mpr fun c member => (idle.1 c member).2
  have tailKept : tail.filterMap takenOut = [] :=
    List.filterMap_eq_nil_iff.mpr fun c member => (idle.2 c member).2
  constructor
  · rw [sweptPositions_admitted, List.filterMap_append, List.filterMap_append, frontKept, tailKept,
      takenOut_settlements removed, List.nil_append, List.append_nil]
  · rw [drawnTotal_admitted, List.map_append, List.map_append, List.sum_append, List.sum_append,
      sum_drawnIn_of_inert frontInert, sum_drawnIn_of_inert tailInert,
      sum_settlements (drawnIn_settlement symbol)]
    omega
  · rw [lossTotal_admitted, List.map_append, List.map_append, List.sum_append, List.sum_append,
      sum_lossLeft_of_inert frontInert, sum_lossLeft_of_inert tailInert,
      sum_settlements (lossLeft_settlement symbol)]
    omega
  · rw [publishedEvents_admitted, List.flatMap_append, List.flatMap_append,
      published_of_inert frontInert, published_of_inert tailInert, published_settlements]
    rfl

/-- A finished sweep reports its liquidations and, up to the limit, its losses. -/
theorem Settles.accounted_swept (settles : Settles a settled (sweepEvents symbol settled))
    (market : ∀ s ∈ settled, s.position.symbol = symbol)
    (losses : ∀ s ∈ settled, 0 ≤ s.socialized.toInt)
    (accountable : Accountable a ↔
      (settled.map fun s => s.socialized.toInt).sum ≤ maxInt 128) : Accounted a := by
  obtain ⟨swept, drawn, loss, events⟩ := settles
  have reported := liquidationsOf_sweep symbol settled
  have total := toInt_totalSocialized losses
  rw [← totalDeleveraged_sweepEvents symbol] at total
  constructor
  · simp [events, reported, swept]
  · rw [events, loss]
    omega
  · intro _
    rw [events, totalDrawn, reported, swept, drawn, List.map_map, List.map_map, List.map_map]
    refine ⟨List.map_congr_left fun s member => ?_, rfl⟩
    exact Prod.ext rfl (market s member)
  · rw [accountable, events, reported, swept, loss]
    simp only [List.length_map, true_and]
    omega

/-- A sweep cut short reports nothing. -/
theorem Settles.accounted_cut (settles : Settles a settled [])
    (losses : ∀ s ∈ settled, 0 ≤ s.socialized.toInt)
    (accountable : Accountable a ↔ settled = []) : Accounted a := by
  obtain ⟨swept, drawn, loss, events⟩ := settles
  have unreported : (liquidationsOf (publishedEvents a)).length = 0 := by rw [events]; rfl
  have undisclosed : totalDeleveraged (publishedEvents a) = 0 := by rw [events]; rfl
  constructor
  · omega
  · rw [undisclosed, loss]
    exact sum_socialized_nonneg losses
  · rw [unreported, swept, List.length_map]
    intro same
    obtain rfl := List.eq_nil_of_length_eq_zero same.symm
    rw [drawn, totalDrawn, events]
    exact ⟨rfl, rfl⟩
  · rw [accountable, unreported, undisclosed, swept, loss, List.length_map]
    constructor
    · rintro rfl
      exact ⟨rfl, rfl⟩
    · rintro ⟨same, -⟩
      exact List.eq_nil_of_length_eq_zero same.symm

theorem listedIn_swept (symbol : Symbol) (terms : Option (Price × RiskParams))
    (listing : List Position) (settled : List Settlement) :
    listedIn (⟨.sweepTerms symbol, terms⟩ :: ⟨.byMarket symbol, .ok listing⟩ ::
      (settled.flatMap (Settlement.calls symbol) ++ adlCalls (totalSocialized settled))) =
        listing := by
  refine listedIn_round rfl ?_
  rw [listedIn_append, listedIn_settlements, List.nil_append]
  exact List.flatMap_eq_nil_iff.mpr fun c member => by rw [mem_adlCalls member]

theorem accountable_finished_iff {state : MarketState}
    (sweep : a.command = .liquidateMarket symbol) (fine : ¬ a.PortFailed)
    (priced : a.engine.market symbol = some state) (listed : listedIn a.calls = listing) :
    Accountable a ↔ Reserve.uncovered (minInt 128) (maxInt 128) a.engine.insuranceBalance.toInt
      (sweepFlows state.markPrice (a.engine.riskParams symbol) listing) ≤ maxInt 128 := by
  subst listed
  constructor
  · intro accountable
    exact accountable.fits symbol state sweep fine priced
  · intro fits
    refine ⟨fun _ _ failed => absurd failed fine, fun symbol' state' sweep' _ priced' => ?_⟩
    rw [sweep] at sweep'
    obtain rfl := RiskCommand.liquidateMarket.inj sweep'
    rw [priced] at priced'
    obtain rfl := Option.some.inj priced'
    exact fits

/-- A sweep cut short was harmless if it had settled nothing. -/
theorem harmlessFailure_cut_iff {state : MarketState} {done rest : List Position} {pos : Position}
    (sweep : a.command = .liquidateMarket symbol) (failed : a.PortFailed)
    (priced : a.engine.market symbol = some state)
    (lists : a.engine.store.Lists symbol (done ++ pos :: rest))
    (processed : Processed state.markPrice (a.engine.riskParams symbol) done settled)
    (listed : listedIn a.calls = done ++ pos :: rest)
    (last : failingCall a.calls = some (.remove pos.account.asStr symbol)) :
    HarmlessFailure a ↔ settled = [] := by
  have harmless := harmless_sweep_iff priced lists
  rw [← List.map_eq_nil_iff, processed.positions_eq, List.filter_eq_nil_iff]
  simp only [Bool.not_eq_true]
  unfold HarmlessFailure
  rw [listed, last, sweep, ← harmless]
  exact ⟨fun each => each failed _ rfl, fun whole _ _ same => Option.some.inj same ▸ whole⟩

theorem accountable_cut_iff (sweep : a.command = .liquidateMarket symbol) (failed : a.PortFailed) :
    Accountable a ↔ HarmlessFailure a :=
  ⟨fun accountable => accountable.firstRemoval symbol sweep,
    fun harmless => ⟨fun _ _ => harmless, fun _ _ _ fine => absurd failed fine⟩⟩

theorem accounted_of_swept (processed : Processed mark params listing settled)
    (legal : (portsMayFail Action.isStoreCall).Legal engine
      (⟨.sweepTerms symbol, some (mark, params)⟩ :: ⟨.byMarket symbol, .ok listing⟩ ::
        (settled.flatMap (Settlement.calls symbol) ++ adlCalls (totalSocialized settled)))) :
    Accounted (admittedAttempt engine (.liquidateMarket symbol)
      (⟨.sweepTerms symbol, some (mark, params)⟩ :: ⟨.byMarket symbol, .ok listing⟩ ::
        (settled.flatMap (Settlement.calls symbol) ++ adlCalls (totalSocialized settled)))
      (.ok ⟨sweepEvents symbol settled⟩)) := by
  obtain ⟨state, priced, rfl, rfl, lists, rest⟩ := sweep_read legal
  have up := legal_up ((Machine.legal_append _ _ _).mp rest).1 fun _ => settlements_up
  have whole : engine.store.Lists symbol (listing ++ []) := by rwa [List.append_nil]
  have waterfall := waterfall_of_legal up
  have adl : ∀ c ∈ adlCalls (totalSocialized settled), (Inert c ∧ takenOut c = none) := by
    intro c member
    rw [mem_adlCalls member]
    exact ⟨⟨rfl, rfl, rfl⟩, rfl⟩
  have idle : ∀ c ∈ [⟨.sweepTerms symbol, some (state.markPrice, engine.riskParams symbol)⟩,
      ⟨.byMarket symbol, .ok listing⟩] ++ adlCalls (totalSocialized settled),
      Inert c ∧ takenOut c = none := by
    simp only [List.cons_append, List.nil_append, List.forall_mem_cons]
    exact ⟨⟨⟨rfl, rfl, rfl⟩, rfl⟩, ⟨⟨rfl, rfl, rfl⟩, rfl⟩, adl⟩
  refine (settles_of_idle engine _ idle (processed.removed whole up)).accounted_swept
    (fun s => processed.symbol_eq lists) waterfall.socialized_nonneg ?_
  rw [socialized_sum waterfall, processed.flows_eq]
  refine accountable_finished_iff rfl (by rintro ⟨e, same⟩; cases same) priced ?_
  exact (listedIn_admitted _ _).trans (listedIn_swept _ _ _ _)

theorem accounted_of_cut {done rest : List Position} {pos : Position} {e : PortError}
    (processed : Processed mark params done settled)
    (legal : (portsMayFail Action.isStoreCall).Legal engine
      (⟨.sweepTerms symbol, some (mark, params)⟩ ::
        ⟨.byMarket symbol, .ok (done ++ pos :: rest)⟩ ::
          (settled.flatMap (Settlement.calls symbol) ++
            [⟨.remove pos.account.asStr symbol, .error e⟩]))) :
    Accounted (admittedAttempt engine (.liquidateMarket symbol)
      (⟨.sweepTerms symbol, some (mark, params)⟩ ::
        ⟨.byMarket symbol, .ok (done ++ pos :: rest)⟩ ::
          (settled.flatMap (Settlement.calls symbol) ++
            [⟨.remove pos.account.asStr symbol, .error e⟩]))
      (.error (.port e))) := by
  obtain ⟨state, priced, rfl, rfl, lists, later⟩ := sweep_read legal
  have up := legal_up ((Machine.legal_append _ _ _).mp later).1 fun _ => settlements_up
  have waterfall := waterfall_of_legal up
  have idle : ∀ c ∈ [⟨.sweepTerms symbol, some (state.markPrice, engine.riskParams symbol)⟩,
      ⟨.byMarket symbol, .ok (done ++ pos :: rest)⟩] ++
        [⟨.remove pos.account.asStr symbol, .error e⟩], Inert c ∧ takenOut c = none := by
    simp [Inert, drawnIn, lossLeft, publishedIn, takenOut]
  refine (settles_of_idle engine _ idle (processed.removed lists up)).accounted_cut
    waterfall.socialized_nonneg ?_
  rw [accountable_cut_iff rfl ⟨e, rfl⟩]
  refine harmlessFailure_cut_iff rfl ⟨e, rfl⟩ priced lists processed ?_ ?_
  · refine (listedIn_admitted _ _).trans (listedIn_round rfl ?_)
    rw [listedIn_append, listedIn_settlements]
    rfl
  · exact failingCall_admitted (⟨.sweepTerms symbol, _⟩ :: ⟨.byMarket symbol, _⟩ :: _) _

/-- Every application is accounted for. -/
theorem accounted {calls : List EngineCall}
    (run : Program.Returns (RiskEngine.apply command) calls r)
    (legal : (portsMayFail Action.isStoreCall).Legal engine calls) :
    Accounted ⟨engine, command, calls, r⟩ := by
  obtain ⟨rfl, rfl⟩ | ⟨body, dispatched, legal, same⟩ := admitted_or_refused run legal
  · refine quiet_of_refused.accounted (accountable_of_unlisted ?_ rfl)
    rintro ⟨e, same⟩
    cases same
  rw [same]
  by_cases sweep : ∃ symbol, command = .liquidateMarket symbol
  · obtain ⟨symbol, rfl⟩ := sweep
    cases returns_liquidateMarket dispatched with
    | noMarket =>
      refine Quiet.accounted ⟨rfl, rfl, rfl, rfl, rfl⟩ (accountable_of_unlisted ?_ rfl)
      rintro ⟨e, same⟩
      cases same
    | listingFailed mark params e =>
      refine Quiet.accounted ⟨rfl, rfl, rfl, rfl, rfl⟩ (accountable_of_unlisted ?_ rfl)
      rintro - failed last
      cases last
      exact ⟨rfl, fun _ _ _ member => (List.not_mem_nil member).elim⟩
    | cut mark params settled done pos rest e processed breach =>
      exact accounted_of_cut processed legal
    | swept mark params listing settled processed => exact accounted_of_swept processed legal
  · have other : ∀ symbol, command ≠ .liquidateMarket symbol := fun symbol same =>
      sweep ⟨symbol, same⟩
    exact (quiet_of_other dispatched other).accounted (accountable_of_other other)

end Sweep

end Admitted

/-! ## Runs -/

section Totals
variable {attempts : List Attempt}

theorem totalDrawn_flatMap (f : Attempt → List RiskEvent) :
    totalDrawn (attempts.flatMap f) = (attempts.map fun a => totalDrawn (f a)).sum := by
  induction attempts with
  | nil => rfl
  | cons a attempts ih =>
    unfold totalDrawn liquidationsOf at ih ⊢
    simp only [List.flatMap_cons, List.filterMap_append, List.map_append, List.sum_append,
      List.map_cons, List.sum_cons, ih]

theorem totalDeleveraged_flatMap (f : Attempt → List RiskEvent) :
    totalDeleveraged (attempts.flatMap f) = (attempts.map fun a => totalDeleveraged (f a)).sum := by
  induction attempts with
  | nil => rfl
  | cons a attempts ih =>
    unfold totalDeleveraged at ih ⊢
    simp only [List.flatMap_cons, List.map_append, List.sum_append, List.map_cons, List.sum_cons, ih]

theorem liquidationsOf_flatMap (f : Attempt → List RiskEvent) :
    liquidationsOf (attempts.flatMap f) = attempts.flatMap fun a => liquidationsOf (f a) :=
  List.filterMap_flatMap

end Totals

/-- Sums of which each part is at most its counterpart are equal exactly when
all parts are. -/
theorem sum_eq_sum_iff_of_le {α M : Type} [AddCommMonoid M] [PartialOrder M]
    [IsOrderedCancelAddMonoid M] {l : List α} {f g : α → M} (le : ∀ a ∈ l, f a ≤ g a) :
    (l.map f).sum = (l.map g).sum ↔ ∀ a ∈ l, f a = g a := by
  induction l with
  | nil => simp
  | cons a l ih =>
    rw [List.forall_mem_cons] at le ⊢
    rw [List.map_cons, List.map_cons, List.sum_cons, List.sum_cons, ← ih le.2]
    exact add_eq_add_iff_eq_and_eq le.1 (List.sum_le_sum le.2)

section Run
variable {seed : Usd} {config : EngineConfig} {engine : RiskEngine} {attempts : List Attempt}

theorem accounted_of_mem (run : FaultyHistory Action.isStoreCall seed config attempts engine)
    {a : Attempt} (member : a ∈ attempts) : Accounted a :=
  accounted (run.attempt member).1 (run.attempt member).2

/-- Totals that agree leave no application with something unreported. -/
theorem accountable_of_reported
    (run : FaultyHistory Action.isStoreCall seed config attempts engine)
    (reported : Reported attempts) : ∀ a ∈ attempts, Accountable a := by
  intro a member
  have lengths := congrArg List.length reported.liquidations
  rw [List.length_map, List.length_map, liquidationsOf_flatMap, List.length_flatMap,
    List.length_flatMap] at lengths
  have losses := reported.losses
  rw [totalDeleveraged_flatMap] at losses
  have counted := (sum_eq_sum_iff_of_le fun a member =>
    (accounted_of_mem run member).fewer).mp lengths.symm
  have kept := (sum_eq_sum_iff_of_le fun a member =>
    (accounted_of_mem run member).less).mp losses.symm
  exact (accounted_of_mem run member).accountable.mpr ⟨counted a member, kept a member⟩

theorem reported_of_accountable
    (run : FaultyHistory Action.isStoreCall seed config attempts engine)
    (accountable : ∀ a ∈ attempts, Accountable a) : Reported attempts := by
  have fine := fun a member => (accounted_of_mem run member).accountable.mp (accountable a member)
  have same := fun a member => (accounted_of_mem run member).same (fine a member).1
  refine ⟨?_, ?_, ?_⟩
  · rw [liquidationsOf_flatMap, List.map_flatMap, List.map_flatMap]
    exact List.flatMap_congr fun a member => (same a member).1
  · rw [totalDrawn_flatMap]
    exact congrArg List.sum (List.map_congr_left fun a member => (same a member).2)
  · rw [totalDeleveraged_flatMap]
    exact congrArg List.sum (List.map_congr_left fun a member => (fine a member).2.symm)

end Run

/-- In a run whose sink never fails and whose store may fail at any call, every
liquidation, draw and socialised loss is reported exactly when each sweep that
fails has settled nothing yet and each one that does not has losses that fit
its total. -/
theorem liquidations_reported_iff {seed : Usd} {config : EngineConfig} {engine : RiskEngine}
    {attempts : List Attempt}
    (run : FaultyHistory Action.isStoreCall seed config attempts engine) :
    Reported attempts ↔ ∀ a ∈ attempts, Accountable a :=
  ⟨accountable_of_reported run, reported_of_accountable run⟩

section Books
open Sample

/-- Ten contracts at 100, bankrupt at 90. -/
def thinLong (account : AccountId) : Position :=
  openedPosition account sol .long .cross (contracts 10) (price 100) tenfold (dollars 60)

/-- Two bankrupt longs. -/
def twoThinLongs : List (Environment × RiskCommand) :=
  [({}, enter alice .long (contracts 10) (price 100) (dollars 60)),
    ({}, enter bob .long (contracts 10) (price 100) (dollars 60)), ({}, mark (price 90) (rate 0))]

/-- A finished sweep was given what its environment decided to list. -/
theorem listedIn_of_decides {symbol : Symbol} {env : Environment} {calls : List EngineCall}
    {outcome : CommandOutcome}
    (run : Program.Returns (RiskEngine.apply (.liquidateMarket symbol)) calls (.ok outcome))
    (decides : env.Decides calls) : listedIn calls = env.listing := by
  cases returns_apply run with
  | published body outcome dispatched =>
    cases returns_liquidateMarket dispatched with
    | swept mark params listing settled processed =>
      rw [listedIn_admitted, listedIn_swept]
      exact Except.ok.inj (decides.2 symbol (.ok listing) (by simp))

/-- A sweep of two bankrupt longs, and an open that meets a store outage. -/
theorem liquidations_reported_two_longs : ∃ attempts engine,
    FaultyHistory Action.isStoreCall (dollars 5) standard attempts engine ∧
      (∃ a ∈ attempts, a.result = .error (.port .timeout)) ∧ engine.stats.liquidations = 2 ∧
      Reported attempts := by
  obtain ⟨attempts, before, calls, result, commands, run, decides, accepted, fits, two⟩ :=
    exists_attempt_after_script Action.isStoreCall (fun _ => false) (dollars 5) standard twoThinLongs
      { listing := [thinLong alice, thinLong bob] } (.liquidateMarket sol)
      (fun before result after => result.isOk = true ∧
        (∀ state ∈ before.market sol,
          Reserve.uncovered (minInt 128) (maxInt 128) before.insuranceBalance.toInt
            (sweepFlows state.markPrice (before.riskParams sol) [thinLong alice, thinLong bob]) ≤
              maxInt 128) ∧
        after.stats.liquidations = 2)
      (by decide)
  obtain ⟨outcome, rfl⟩ : ∃ outcome, result = .ok outcome := by
    cases result with
    | ok outcome => exact ⟨outcome, rfl⟩
    | error e => cases accepted
  have listed := listedIn_of_decides (run.attempt List.mem_concat_self).1 (decides fun _ => rfl)
  let send := enter carol .long (contracts 10) (price 100) (dollars 60)
  let outage : List EngineCall := [⟨.tryAcquire, true⟩, ⟨.get "carol" sol, .error .timeout⟩]
  have failing : Program.Returns (RiskEngine.apply send) outage (.error (.port .timeout)) :=
    ⟨true, _, rfl, .error .timeout, _, rfl, rfl, rfl⟩
  have whole := run.apply failing ⟨Or.inl trivial, Or.inr ⟨rfl, trivial⟩, trivial⟩
  have accountable : ∀ a ∈ attempts ++ [⟨before, .liquidateMarket sol, calls, .ok outcome⟩] ++
      [⟨portsUp.after before calls, send, outage, .error (.port .timeout)⟩], Accountable a := by
    simp only [List.forall_mem_append, List.forall_mem_cons]
    refine ⟨⟨fun a member => ?_, ?_, by simp⟩, accountable_of_other nofun, by simp⟩
    · have own := List.mem_map_of_mem member (f := Attempt.command)
      rw [commands] at own
      refine accountable_of_other fun symbol same => ?_
      rw [same] at own
      simp [twoThinLongs, enter, mark] at own
    · refine ⟨fun _ _ failed => ?_, fun symbol state same _ priced => ?_⟩
      · obtain ⟨e, same⟩ := failed
        cases same
      · obtain rfl := RiskCommand.liquidateMarket.inj same
        rw [listed]
        exact fits state priced
  exact ⟨_, _, whole, ⟨_, List.mem_concat_self, rfl⟩, two,
    (liquidations_reported_iff whole).mpr accountable⟩

/-- The removal of the second bankrupt long fails. Alice is gone and the fund
is empty, and nothing is ever published about it. -/
theorem cut_sweep_unreported : ∃ attempts engine,
    FaultyHistory Action.isStoreCall (dollars 5) standard attempts engine ∧
      engine.stats.liquidations = 1 ∧ engine.insuranceBalance = .ZERO ∧
      liquidationsOf engine.sink = [] ∧ ¬ Reported attempts := by
  obtain ⟨attempts, before, calls, result, -, run, -, rfl, unliquidated, one, empty, silent⟩ :=
    exists_attempt_after_script Action.isStoreCall (fun action => action = .remove "bob" sol)
      (dollars 5) standard twoThinLongs
      { listing := [thinLong alice, thinLong bob] } (.liquidateMarket sol)
      (fun before result after => result = .error (.port .timeout) ∧
        before.stats.liquidations = 0 ∧ after.stats.liquidations = 1 ∧
        after.insuranceBalance = .ZERO ∧ liquidationsOf after.sink = [])
      (by decide)
  refine ⟨_, _, run, one, empty, silent, fun reported => ?_⟩
  have last := accountable_of_reported run reported _ List.mem_concat_self
  obtain ⟨ran, legal⟩ := run.attempt List.mem_concat_self
  have atomic := (atomicFailure_iff ran legal).mpr (last.firstRemoval sol rfl) ⟨.timeout, rfl⟩
  have kept := congrArg RiskStats.liquidations atomic.stats
  change (portsUp.after before calls).stats.liquidations = before.stats.liquidations at kept
  omega

end Books
end MarginGuard.Guarantees
