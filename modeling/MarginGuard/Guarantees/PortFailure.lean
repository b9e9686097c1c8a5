import MarginGuard.Source.Faults
import MarginGuard.Source.Script

/-!
# Which port failures are atomic

A command that a port ends with an error has kept everything it did before the
failing call. So the books are as before only when nothing was done
(`untouched_iff_harmless`):

* `open` and `close` check first and touch the store last, so only the publish
  that follows can fail too late;
* `update_market` has written the quote when its publish fails, which shows
  unless the quote was there already;
* a funding round has charged the positions it reached, a sweep has settled
  them, and both have counted everything by the time they publish.

In a run all of whose port failures are harmless, resending is safe: the engine
is the one of the commands that did not fail (`port_failures_atomic_iff`).
-/
namespace MarginGuard.Guarantees
open Foundation Source

/-- Positions, markets, fund and statistics are as they were. -/
structure Untouched (engine engine' : RiskEngine) : Prop where
  store : engine'.store = engine.store
  markets : engine'.state.markets = engine.state.markets
  insurance : engine'.insuranceBalance = engine.insuranceBalance
  stats : engine'.stats = engine.stats

theorem Untouched.refl (engine : RiskEngine) : Untouched engine engine := ⟨rfl, rfl, rfl, rfl⟩

/-- When the call that fails is `failed` and the market was listed as `listing`,
the command has changed nothing yet: `publish` comes after everything, and the
loops have reached the positions that stand before the failing one. -/
def Harmless (engine : RiskEngine) (command : RiskCommand) (listing : List Position)
    (failed : Action) : Prop :=
  match command with
  | .openPosition _ _ _ _ _ _ _ _ => failed.isPublish = false
  | .closePosition _ _ => failed.isPublish = false
  | .updateMarket symbol markPrice indexPrice fundingRateBps =>
    engine.market symbol = some { symbol, markPrice, indexPrice, fundingRateBps }
  | .accrueFunding symbol =>
    failed.isPublish = false ∧ ∀ state ∈ engine.market symbol,
      ∀ pos ∈ listing.takeWhile fun pos =>
          .upsert (fundedPosition state.markPrice state.fundingRateBps pos) ≠ failed,
        fundedPosition state.markPrice state.fundingRateBps pos = pos
  | .liquidateMarket symbol =>
    failed.isPublish = false ∧ ∀ state ∈ engine.market symbol,
      ∀ pos ∈ listing.takeWhile fun pos => .remove pos.account.asStr symbol ≠ failed,
        isLiquidatable pos state.markPrice (engine.riskParams symbol) = false

section Step
variable {engine engine' : RiskEngine} {command : RiskCommand} {listing : List Position}
  {failed : Action} {symbol : Symbol}

/-- The positions before the failing one. -/
theorem takeWhile_before {α β : Type} [DecidableEq β] (f : α → β) {done : List α} {a : α}
    (rest : List α) (fresh : ∀ b ∈ done, f b ≠ f a) :
    (done ++ a :: rest).takeWhile (fun b => f b ≠ f a) = done := by
  rw [List.takeWhile_append_of_pos fun b member => decide_eq_true (fresh b member),
    List.takeWhile_cons_of_neg (by simp), List.append_nil]

theorem upsertAll_of_stored {store : PositionStore} {positions : List Position}
    (stored : ∀ pos ∈ positions, store.get pos.account.asStr pos.symbol = some pos) :
    store.upsertAll positions = store := by
  induction positions with
  | nil => rfl
  | cons pos positions ih =>
    have same : store.upsert pos = store := by
      apply PositionStore.ext
      intro account symbol
      rw [PositionStore.get_upsert]
      split
      · next own =>
        obtain ⟨rfl, rfl⟩ := Prod.mk.inj own
        exact (stored pos List.mem_cons_self).symm
      · rfl
    unfold PositionStore.upsertAll at ih ⊢
    rw [List.foldl_cons, same]
    exact ih fun other member => stored other (List.mem_cons_of_mem _ member)

/-- Writing back a stretch of a listing shows unless no position changed. -/
theorem upsertAll_map_eq_iff {store : PositionStore} {done rest : List Position}
    {f : Position → Position} (keyed : ∀ pos, (f pos).key = pos.key)
    (lists : store.Lists symbol (done ++ rest)) :
    store.upsertAll (done.map f) = store ↔ ∀ pos ∈ done, f pos = pos := by
  have stored : ∀ pos ∈ done, store.get pos.account.asStr pos.symbol = some pos := by
    intro pos member
    have listed := List.mem_append_left rest member
    rw [lists.symbol_eq listed]
    exact (lists.mem_iff pos).mp listed
  have keys : (done.map f).map Position.key = done.map Position.key := by
    rw [List.map_map]
    exact List.map_congr_left fun pos _ => keyed pos
  have nodup : ((done.map f).map Position.key).Nodup := by
    have whole := lists.nodup
    rw [List.map_append] at whole
    rw [keys]
    exact whole.of_append_left
  constructor
  · intro same pos member
    have written := PositionStore.get_upsertAll_of_mem store nodup (List.mem_map_of_mem member)
    have keys := Prod.mk.inj (keyed pos)
    rw [same, keys.1, keys.2, stored pos member] at written
    exact (Option.some.inj written).symm
  · intro fixed
    rw [List.map_congr_left fixed, List.map_id']
    exact upsertAll_of_stored stored

/-- A command that has done everything but publish has changed something,
unless it wrote the quote that was there. -/
theorem unpublished_touches {outcome : CommandOutcome} (nonempty : outcome.events ≠ [])
    (step : Transition engine command (.ok outcome) (engine'.emit outcome.events)) :
    Untouched engine engine' ↔ Harmless engine command listing (.publish outcome.events) := by
  generalize done : (.ok outcome : Except CoreError CommandOutcome) = result at step
  generalize final : engine'.emit outcome.events = published at step
  have store : engine'.store = published.store := final ▸ rfl
  have state : engine'.state = published.state := final ▸ rfl
  have stats : engine'.stats = published.stats := congrArg EngineState.stats state
  cases step with
  | opened own absent enough =>
    refine ⟨fun same => ?_, nofun⟩
    have counted := congrArg RiskStats.openPositions (stats.symm.trans same.stats)
    change engine.stats.openPositions + 1 = _ at counted
    omega
  | closed pos quote present priced =>
    refine ⟨fun same => ?_, nofun⟩
    have kept : engine.store.remove _ _ = engine.store := store.symm.trans same.store
    rw [← kept, PositionStore.get_remove, if_pos rfl] at present
    cases present
  | updated symbol markPrice indexPrice fundingRateBps =>
    have quote := FiniteMap.insert_eq_self_iff (m := engine.state.markets) (k := symbol.asStr)
      (v := { symbol, markPrice, indexPrice, fundingRateBps })
    constructor
    · intro same
      exact quote.mp ((congrArg EngineState.markets state).symm.trans same.markets)
    · intro known
      exact ⟨store, (congrArg EngineState.markets state).trans (quote.mpr known),
        congrArg (fun state => state.insurance.balance) state, stats⟩
  | accrued quote listing priced lists =>
    refine ⟨fun same => ?_, fun harmless => absurd harmless.1 (by simp [Action.isPublish])⟩
    have counted := congrArg RiskStats.fundingSettlements (stats.symm.trans same.stats)
    change engine.stats.fundingSettlements + listing.length = _ at counted
    cases done
    cases listing with
    | nil => exact absurd rfl nonempty
    | cons pos listing =>
      rw [List.length_cons] at counted
      omega
  | swept quote listing settled priced lists processed waterfall =>
    refine ⟨fun same => ?_, fun harmless => absurd harmless.1 (by simp [Action.isPublish])⟩
    have counted := congrArg RiskStats.liquidations (stats.symm.trans same.stats)
    change engine.stats.liquidations + settled.length = _ at counted
    cases done
    cases settled with
    | nil => exact absurd rfl nonempty
    | cons s settled =>
      rw [List.length_cons] at counted
      omega
  | _ => cases done

section Cut
variable {state : MarketState} {done rest : List Position} {pos : Position}

theorem id_of_before (lists : engine.store.Lists symbol (done ++ pos :: rest)) {other : Position}
    (member : other ∈ done) : other.account.asStr ≠ pos.account.asStr := by
  have nodup := lists.ids_nodup
  rw [List.map_append, List.nodup_append] at nodup
  exact nodup.2.2 _ (List.mem_map_of_mem member) _ (by simp)

theorem harmless_funding_iff (priced : engine.market symbol = some state)
    (lists : engine.store.Lists symbol (done ++ pos :: rest)) :
    Harmless engine (.accrueFunding symbol) (done ++ pos :: rest)
        (.upsert (fundedPosition state.markPrice state.fundingRateBps pos)) ↔
      ∀ other ∈ done, fundedPosition state.markPrice state.fundingRateBps other = other := by
  have reached := takeWhile_before (a := pos)
    (fun pos => Action.upsert (fundedPosition state.markPrice state.fundingRateBps pos)) rest
    fun other member same => id_of_before lists member
      (congrArg (fun pos => pos.account.asStr) (Action.upsert.inj same))
  unfold Harmless
  constructor
  · rintro ⟨-, fixed⟩
    exact reached ▸ fixed state priced
  · intro fixed
    refine ⟨rfl, fun quote known => ?_⟩
    obtain rfl : quote = state := Option.some.inj (known.symm.trans priced)
    exact reached.symm ▸ fixed

theorem harmless_sweep_iff (priced : engine.market symbol = some state)
    (lists : engine.store.Lists symbol (done ++ pos :: rest)) :
    Harmless engine (.liquidateMarket symbol) (done ++ pos :: rest)
        (.remove pos.account.asStr symbol) ↔
      ∀ other ∈ done, isLiquidatable other state.markPrice (engine.riskParams symbol) = false := by
  have reached := takeWhile_before (a := pos)
    (fun pos => Action.remove pos.account.asStr symbol) rest
    fun other member same => id_of_before lists member (Action.remove.inj same).1
  unfold Harmless
  constructor
  · rintro ⟨-, healthy⟩
    exact reached ▸ healthy state priced
  · intro healthy
    refine ⟨rfl, fun quote known => ?_⟩
    obtain rfl : quote = state := Option.some.inj (known.symm.trans priced)
    exact reached.symm ▸ healthy

/-- A sweep that settled something has counted it. -/
theorem settledAll_untouched_iff {settled : List Settlement} :
    Untouched engine (engine.settledAll symbol settled) ↔ settled = [] := by
  constructor
  · intro same
    have counted := congrArg RiskStats.liquidations same.stats
    change engine.stats.liquidations + settled.length = _ at counted
    exact List.eq_nil_of_length_eq_zero (by omega)
  · rintro rfl
    exact .refl engine

end Cut

/-- The books are as before exactly when the failure came before any effect. -/
theorem untouched_iff_harmless (stopped : Stopped engine command listing failed engine') :
    Untouched engine engine' ↔ Harmless engine command listing failed := by
  cases stopped with
  | untouched gated quiet =>
    refine ⟨fun _ => ?_, fun _ => .refl engine⟩
    cases command with
    | openPosition => exact quiet
    | closePosition => exact quiet
    | updateMarket symbol markPrice indexPrice rateBps => exact absurd rfl (gated _ _ _ _)
    | accrueFunding symbol => exact ⟨quiet, by simp⟩
    | liquidateMarket symbol => exact ⟨quiet, by simp⟩
  | funding state done pos rest priced lists =>
    rw [harmless_funding_iff priced lists, ← upsertAll_map_eq_iff
      (f := fundedPosition state.markPrice state.fundingRateBps) (fun _ => rfl) lists]
    exact ⟨fun same => same.store, fun same => ⟨same, rfl, rfl, rfl⟩⟩
  | sweep state settled done pos rest priced lists processed waterfall =>
    rw [harmless_sweep_iff priced lists, settledAll_untouched_iff, ← List.map_eq_nil_iff,
      processed.positions_eq, List.filter_eq_nil_iff]
    simp only [Bool.not_eq_true]
  | unpublished outcome nonempty step => exact unpublished_touches nonempty step

/-- What a failed command did stays unpublished. -/
theorem stopped_sink (stopped : Stopped engine command listing failed engine') :
    engine'.sink = engine.sink := by
  cases stopped with
  | untouched => rfl
  | funding => rfl
  | sweep => rfl
  | unpublished outcome nonempty step => exact List.append_cancel_right step.sink

end Step

/-! ## Runs -/

/-- If a port ended it, the application has left the books as they were. -/
def AtomicFailure (a : Attempt) : Prop := a.PortFailed → Untouched a.engine a.after

/-- If a port ended it, the failure was harmless. -/
def HarmlessFailure (a : Attempt) : Prop :=
  a.PortFailed → ∀ failed ∈ failingCall a.calls,
    Harmless a.engine a.command (listedIn a.calls) failed

/-- An application that no port ended, as an entry of a history. -/
def entry (a : Attempt) : Option Entry :=
  match a.result with
  | .error (.port _) => none
  | result => some ⟨a.command, result⟩

/-- The applications that no port ended. -/
def completed (attempts : List Attempt) : List Entry := attempts.filterMap entry

section Run
variable {seed : Usd} {config : EngineConfig} {engine : RiskEngine} {attempts : List Attempt}

theorem atomicFailure_iff {may : Action → Bool} {a : Attempt}
    (run : Program.Returns (RiskEngine.apply a.command) a.calls a.result)
    (legal : (portsMayFail may).Legal a.engine a.calls) :
    AtomicFailure a ↔ HarmlessFailure a := by
  unfold AtomicFailure HarmlessFailure
  refine forall_congr' fun ended => ?_
  obtain ⟨e, same⟩ := ended
  obtain ⟨failed, last, stopped⟩ := stopped_of_returns (same ▸ run) legal
  rw [Attempt.after, untouched_iff_harmless stopped, last]
  simp

/-- A command whose failure was harmless might as well not have been sent. -/
theorem after_eq_of_untouched {command : RiskCommand} {calls : List EngineCall} {e : PortError}
    (run : Program.Returns (RiskEngine.apply command) calls (.error (.port e)))
    (legal : (portsMayFail fun _ => true).Legal engine calls)
    (same : Untouched engine (portsUp.after engine calls)) :
    portsUp.after engine calls = engine := by
  obtain ⟨failed, -, stopped⟩ := stopped_of_returns run legal
  obtain ⟨risk, config⟩ := after_tiers engine calls
  refine RiskEngine.ext same.store (stopped_sink stopped) ?_ config
  exact EngineState.ext same.markets risk (InsuranceFund.ext same.insurance) same.stats

theorem entry_of_not_portFailed {a : Attempt} (fine : ¬ a.PortFailed) :
    entry a = some ⟨a.command, a.result⟩ := by
  unfold entry
  split
  · next e same => exact absurd ⟨e, same⟩ fine
  · rfl

/-- Without its harmless failures, a run is one over ports that are up. -/
theorem history_of_harmless (run : FaultyHistory (fun _ => true) seed config attempts engine)
    (harmless : ∀ a ∈ attempts, HarmlessFailure a) :
    History seed config (fun _ _ => True) (completed attempts) engine := by
  induction run with
  | fresh => exact .fresh
  | @apply attempts engine command calls result before run legal ih =>
    have earlier := ih fun a member => harmless a (List.mem_append_left _ member)
    have now := harmless ⟨engine, command, calls, result⟩ (by simp)
    rw [completed, List.filterMap_append, after_mayFail]
    by_cases ended : ∃ e, result = .error (.port e)
    · obtain ⟨e, rfl⟩ := ended
      have same := (atomicFailure_iff run legal).mpr now ⟨e, rfl⟩
      have still : portsUp.after engine calls = engine := after_eq_of_untouched run legal same
      rw [still]
      rw [List.filterMap_cons_none rfl, List.filterMap_nil, List.append_nil]
      exact earlier
    · have fine : ∀ e, result ≠ .error (.port e) := fun e same => ended ⟨e, same⟩
      have ran : Executes engine command result (portsUp.after engine calls) :=
        ⟨calls, run, legal_up_of_result run fine legal, rfl⟩
      have kept := entry_of_not_portFailed (a := ⟨engine, command, calls, result⟩) ended
      rw [List.filterMap_cons_some kept, List.filterMap_nil]
      exact earlier.apply trivial ran

end Run

/-- In a run over ports that fail at any calls, a command that a port ended has
left the books as they were exactly when this failure was harmless. If all were,
the engine is the one of the other commands alone: what was sent again after a
failure has happened once. -/
theorem port_failures_atomic_iff {seed : Usd} {config : EngineConfig} {engine : RiskEngine}
    {attempts : List Attempt} (run : FaultyHistory (fun _ => true) seed config attempts engine) :
    (∀ a ∈ attempts, AtomicFailure a ↔ HarmlessFailure a) ∧
      ((∀ a ∈ attempts, HarmlessFailure a) →
        History seed config (fun _ _ => True) (completed attempts) engine) := by
  refine ⟨fun a member => ?_, history_of_harmless run⟩
  obtain ⟨ran, legal⟩ := run.attempt member
  exact atomicFailure_iff ran legal

section Books
open Sample

/-- Ten contracts of alice at 100. -/
def aliceLong : Position :=
  openedPosition alice sol .long .cross (contracts 10) (price 100) tenfold (dollars 110)

/-- What alice has paid in funding. -/
def alicePaid (engine : RiskEngine) : Option Usd :=
  (engine.store.get "alice" sol).map Position.fundingPaid

/-- An open that meets a store outage and is sent again: it has happened once. -/
theorem port_failures_atomic_open : ∃ attempts engine,
    FaultyHistory (fun _ => true) (dollars 5) standard attempts engine ∧
      (∃ a ∈ attempts, a.result = .error (.port .timeout)) ∧
      (∀ a ∈ attempts, AtomicFailure a) ∧ engine.stats.openPositions = 1 ∧
      History (dollars 5) standard (fun _ _ => True) (completed attempts) engine := by
  let send := enter alice .long (contracts 10) (price 100) (dollars 110)
  let outage : List EngineCall := [⟨.tryAcquire, true⟩, ⟨.get "alice" sol, .error .timeout⟩]
  have failing : Program.Returns (RiskEngine.apply send) outage (.error (.port .timeout)) :=
    ⟨true, _, rfl, .error .timeout, _, rfl, rfl, rfl⟩
  have first : FaultyHistory (fun _ => true) (dollars 5) standard
      ([] ++ [⟨.fromParts (dollars 5) standard, send, outage, .error (.port .timeout)⟩])
      (.fromParts (dollars 5) standard) :=
    .apply .fresh failing ⟨Or.inl trivial, Or.inr ⟨rfl, trivial⟩, trivial⟩
  have accepted : (execute {} (.fromParts (dollars 5) standard) send).any
      (fun ran : Except CoreError CommandOutcome × RiskEngine =>
        decide (ran.2.stats.openPositions = 1)) = true := by decide
  obtain ⟨⟨result, engine⟩, ⟨calls, again, legal, final⟩, opened⟩ := executes_of_any accepted
  have run := first.apply again (legal_mayFail legal)
  obtain ⟨atomic, kept⟩ := port_failures_atomic_iff run
  have harmless : ∀ a ∈ [⟨.fromParts (dollars 5) standard, send, outage, .error (.port .timeout)⟩,
      ⟨.fromParts (dollars 5) standard, send, calls, result⟩], HarmlessFailure a := by
    simp only [List.forall_mem_cons, List.not_mem_nil, false_imp_iff, implies_true, and_true]
    refine ⟨fun _ failed last => ?_, fun ended => ?_⟩
    · cases last
      rfl
    · obtain ⟨e, rfl⟩ := ended
      exact absurd ⟨calls, again, legal, final⟩ Executes.not_port
  refine ⟨_, _, run, ⟨_, List.mem_cons_self, rfl⟩, fun a member => ?_, ?_, kept harmless⟩
  · exact (atomic a member).mpr (harmless a member)
  · exact final ▸ of_decide_eq_true opened

/-- A funding round whose publish times out, and is sent again as the error
allows: alice is charged one dollar, and then another. -/
theorem failed_publish_charges_twice : ∃ attempts failed resent outcome,
    FaultyHistory (fun _ => true) (dollars 5) standard attempts failed ∧
      (∃ a ∈ attempts, a.command = .accrueFunding sol ∧ a.result = .error (.port .timeout) ∧
        ¬ AtomicFailure a) ∧
      PortError.timeout.isRetryable = true ∧
      Executes failed (.accrueFunding sol) outcome resent ∧
      alicePaid failed = some (dollars 1) ∧ alicePaid resent = some (dollars 2) := by
  obtain ⟨attempts, before, calls, result, -, run, -, rfl, free, charged, again⟩ :=
    exists_attempt_after_script (fun _ => true) Action.isPublish (dollars 5) standard
      [({}, enter alice .long (contracts 10) (price 100) (dollars 110)),
        ({}, mark (price 100) (rate 10))]
      { listing := [aliceLong] } (.accrueFunding sol)
      (fun before result after => result = .error (.port .timeout) ∧
        alicePaid before = some .ZERO ∧ alicePaid after = some (dollars 1) ∧
        (execute { listing := [fundedPosition (price 100) (rate 10) aliceLong] } after
          (.accrueFunding sol)).any (fun ran => alicePaid ran.2 = some (dollars 2)) = true)
      (by decide)
  obtain ⟨⟨result, resent⟩, executed, twice⟩ := executes_of_any again
  refine ⟨_, _, resent, result, run, ⟨_, List.mem_concat_self, rfl, rfl, fun atomic => ?_⟩, rfl,
    executed, charged, of_decide_eq_true twice⟩
  have same : (portsUp.after before calls).store = before.store := (atomic ⟨.timeout, rfl⟩).store
  unfold alicePaid at free charged
  rw [same, free] at charged
  cases charged

end Books
end MarginGuard.Guarantees
