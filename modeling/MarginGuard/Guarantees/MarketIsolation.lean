import MarginGuard.Source.Decisions
import MarginGuard.Source.Parts
import MarginGuard.Source.Script

/-!
# Markets are isolated

Two commands on different markets, at most one of them a sweep, can be applied
in either order: each returns the same, and positions, markets, fund and
statistics end up the same (`markets_isolated`). The calls of the two commands
touch separate parts of the engine, so they commute; the counters are sums over
the results. The decrements of `open_positions` saturate at zero, but never do:
the counter is at least the number of stored positions.
-/
namespace MarginGuard.Guarantees
open Foundation Source

/-! ## Listings that depend on the market's own history -/

/-- What has been done to a market. -/
def marketHistory (symbol : Symbol) (entries : List Entry) : List Entry :=
  entries.filter fun entry => entry.command.symbol = symbol

/-- The environment of a command that the limiter admits, where `by_market`
lists a market in an order that the market's own history decides. -/
def enumerating (order : Symbol → List Entry → List Position) (entries : List Entry)
    (command : RiskCommand) : Environment where
  listing := order command.symbol (marketHistory command.symbol entries)

/-- A command on another market does not change the listing. -/
theorem enumerating_concat {order : Symbol → List Entry → List Position} {entries : List Entry}
    {entry : Entry} {command : RiskCommand} (other : entry.command.symbol ≠ command.symbol) :
    enumerating order (entries ++ [entry]) command = enumerating order entries command := by
  unfold enumerating marketHistory
  rw [List.filter_append, List.filter_cons_of_neg (by simp [other])]
  simp

/-! ## Counters -/

def isOpened : RiskEvent → Bool
  | .positionOpened _ _ _ _ => true
  | _ => false

def isEnded : RiskEvent → Bool
  | .positionClosed _ _ _ => true
  | .liquidated _ => true
  | _ => false

def isLiquidated : RiskEvent → Bool
  | .liquidated _ => true
  | _ => false

def isFunding : RiskEvent → Bool
  | .fundingSettled _ _ _ => true
  | _ => false

def isDeleveraged : RiskEvent → Bool
  | .autoDeleveraged _ _ => true
  | _ => false

/-- The statistics move by the events of the command. -/
structure Counted (engine : RiskEngine) (result : Except CoreError CommandOutcome)
    (engine' : RiskEngine) : Prop where
  openPositions : engine'.stats.openPositions + (eventsOf result).countP isEnded =
    engine.stats.openPositions + (eventsOf result).countP isOpened
  liquidations : engine'.stats.liquidations =
    engine.stats.liquidations + (eventsOf result).countP isLiquidated
  adlEvents : engine'.stats.adlEvents =
    engine.stats.adlEvents + (eventsOf result).countP isDeleveraged
  fundingSettlements : engine'.stats.fundingSettlements =
    engine.stats.fundingSettlements + (eventsOf result).countP isFunding

section Counts
variable {p : RiskEvent → Bool} {α : Type} {event : α → RiskEvent}

theorem countP_all (all : ∀ a, p (event a) = true) (l : List α) :
    (l.map event).countP p = l.length := by
  rw [List.countP_map, List.countP_eq_length]
  exact fun a _ => all a

theorem countP_none (never : ∀ a, p (event a) = false) (l : List α) :
    (l.map event).countP p = 0 := by
  rw [List.countP_map, List.countP_eq_zero]
  intro a _ counted
  rw [Function.comp_apply, never a] at counted
  cases counted

end Counts

theorem countP_adlEvents_isDeleveraged (symbol : Symbol) (total : Usd) :
    (adlEvents symbol total).countP isDeleveraged = (adlEvents symbol total).length := by
  unfold adlEvents
  split
  · rfl
  · rfl

theorem countP_adlEvents {p : RiskEvent → Bool}
    (other : ∀ symbol total, p (.autoDeleveraged symbol total) = false) (symbol : Symbol)
    (total : Usd) : (adlEvents symbol total).countP p = 0 := by
  unfold adlEvents
  split
  · rfl
  · simp [other]

/-- Of a sweep's events, an auto-deleverage aside, only the liquidations count. -/
theorem countP_sweepEvents {p : RiskEvent → Bool}
    (other : ∀ symbol total, p (.autoDeleveraged symbol total) = false) (symbol : Symbol)
    (settled : List Settlement) : (sweepEvents symbol settled).countP p =
      (settled.map (Settlement.event symbol)).countP p := by
  rw [sweepEvents, List.countP_append, countP_adlEvents other, Nat.add_zero]

/-- A command that closes positions closes stored ones, so no decrement
saturates. -/
theorem counted_of_transition {config : EngineConfig} {engine engine' : RiskEngine}
    {command : RiskCommand} {result : Except CoreError CommandOutcome}
    (sound : Sound config engine) (step : Transition engine command result engine') :
    Counted engine result engine' := by
  cases step with
  | opened own absent enough => exact ⟨rfl, rfl, rfl, rfl⟩
  | closed pos state present priced =>
    have held := PositionStore.count_remove_of_some present
    have enough := sound.counted
    refine ⟨?_, rfl, rfl, rfl⟩
    change engine.stats.openPositions - 1 + 1 = engine.stats.openPositions
    omega
  | updated => exact ⟨rfl, rfl, rfl, rfl⟩
  | @accrued symbol state listing priced lists =>
    let events := listing.map (fundingEvent symbol state.markPrice state.fundingRateBps)
    have opened : events.countP isOpened = 0 := countP_none (fun _ => rfl) listing
    have ended : events.countP isEnded = 0 := countP_none (fun _ => rfl) listing
    have liquidated : events.countP isLiquidated = 0 := countP_none (fun _ => rfl) listing
    have deleveraged : events.countP isDeleveraged = 0 := countP_none (fun _ => rfl) listing
    have funding : events.countP isFunding = listing.length := countP_all (fun _ => rfl) listing
    refine ⟨?_, congrArg (engine.stats.liquidations + ·) liquidated.symm,
      congrArg (engine.stats.adlEvents + ·) deleveraged.symm,
      congrArg (engine.stats.fundingSettlements + ·) funding.symm⟩
    change engine.stats.openPositions + events.countP isEnded =
      engine.stats.openPositions + events.countP isOpened
    omega
  | @swept symbol state listing settled priced lists processed waterfall =>
    have removed := processed.count_removeAll lists
    have enough := sound.counted
    let events := sweepEvents symbol settled
    have ended : events.countP isEnded = settled.length := by
      rw [countP_sweepEvents fun _ _ => rfl, countP_all fun _ => rfl]
    have opened : events.countP isOpened = 0 := by
      rw [countP_sweepEvents fun _ _ => rfl, countP_none fun _ => rfl]
    have liquidated : events.countP isLiquidated = settled.length := by
      rw [countP_sweepEvents fun _ _ => rfl, countP_all fun _ => rfl]
    have funding : events.countP isFunding = 0 := by
      rw [countP_sweepEvents fun _ _ => rfl, countP_none fun _ => rfl]
    have deleveraged : events.countP isDeleveraged =
        (adlEvents symbol (totalSocialized settled)).length := by
      change (settled.map (Settlement.event symbol) ++
        adlEvents symbol (totalSocialized settled)).countP isDeleveraged = _
      rw [List.countP_append, countP_none fun _ => rfl, countP_adlEvents_isDeleveraged,
        Nat.zero_add]
    refine ⟨?_, congrArg (engine.stats.liquidations + ·) liquidated.symm,
      congrArg (engine.stats.adlEvents + ·) deleveraged.symm,
      congrArg (engine.stats.fundingSettlements + ·) funding.symm⟩
    change engine.stats.openPositions - settled.length + events.countP isEnded =
      engine.stats.openPositions + events.countP isOpened
    omega
  | _ => exact ⟨rfl, rfl, rfl, rfl⟩

/-! ## Either order -/

/-- Commands on different markets reach no common part, unless both are sweeps. -/
theorem apart_of_reaches {first second : RiskCommand} (different : first.symbol ≠ second.symbol)
    (oneSweep : ¬ ((∃ symbol, first = .liquidateMarket symbol) ∧
      ∃ symbol, second = .liquidateMarket symbol)) {part : Part} (own : first.Reaches part) :
    ¬ second.Reaches part := by
  intro common
  rcases own with rfl | ⟨rfl, sweeps⟩
  · rcases common with same | ⟨same, -⟩
    · exact different (Symbol.asStr_injective (Part.market.inj same))
    · cases same
  · rcases common with same | ⟨-, sweeps'⟩
    · cases same
    · exact oneSweep ⟨sweeps, sweeps'⟩

/-- The statistics after two commands do not depend on their order. -/
theorem Counted.stats_eq {engine mid final mid' final' : RiskEngine}
    {r₁ r₂ : Except CoreError CommandOutcome} (first : Counted engine r₁ mid)
    (second : Counted mid r₂ final) (early : Counted engine r₂ mid')
    (late : Counted mid' r₁ final') : final.stats = final'.stats := by
  obtain ⟨a₁, b₁, c₁, d₁⟩ := first
  obtain ⟨a₂, b₂, c₂, d₂⟩ := second
  obtain ⟨a₃, b₃, c₃, d₃⟩ := early
  obtain ⟨a₄, b₄, c₄, d₄⟩ := late
  ext1
  · omega
  · omega
  · omega
  · omega

section Order
variable {seed : Usd} {config : EngineConfig} {entries : List Entry}
  {engine mid final : RiskEngine} {c₁ c₂ : RiskCommand} {r₁ r₂ : Except CoreError CommandOutcome}

/-- Commands on different markets, at most one of them a sweep, in either order. -/
theorem markets_isolated {order : Symbol → List Entry → List Position}
    (run : History seed config (fun _ _ => True) entries engine)
    (different : c₁.symbol ≠ c₂.symbol)
    (oneSweep : ¬ ((∃ symbol, c₁ = .liquidateMarket symbol) ∧
      ∃ symbol, c₂ = .liquidateMarket symbol))
    (first : execute (enumerating order entries c₁) engine c₁ = some (r₁, mid))
    (second : execute (enumerating order (entries ++ [⟨c₁, r₁⟩]) c₂) mid c₂ = some (r₂, final)) :
    ∃ mid' final',
      execute (enumerating order entries c₂) engine c₂ = some (r₂, mid') ∧
      execute (enumerating order (entries ++ [⟨c₂, r₂⟩]) c₁) mid' c₁ = some (r₁, final') ∧
      final'.store = final.store ∧ final'.state.markets = final.state.markets ∧
      final'.insuranceBalance = final.insuranceBalance ∧ final'.stats = final.stats := by
  have sound : Sound config engine := Reachable.sound ⟨entries, run⟩
  rw [enumerating_concat different] at second
  obtain ⟨calls₁, run₁, legal₁, rfl, decides₁⟩ := execute_iff.mp first
  obtain ⟨calls₂, run₂, legal₂, rfl, decides₂⟩ := execute_iff.mp second
  have reaches₁ := (applied_of_returns run₁ (possible_of_legal legal₁)).reaches
  have reaches₂ := (applied_of_returns run₂ (possible_of_legal legal₂)).reaches
  have both : portsUp.Legal engine (calls₁ ++ calls₂) :=
    (Machine.legal_append _ _ _).mpr ⟨legal₁, legal₂⟩
  obtain ⟨swapped, agree⟩ := engineParts.swap (fun c member d member' part own own' =>
    apart_of_reaches different oneSweep (reaches₁ c member part own)
      (reaches₂ d member' part own')) both
  obtain ⟨early, late⟩ := (Machine.legal_append _ _ _).mp swapped
  rw [Machine.after_append, Machine.after_append] at agree
  obtain ⟨stores, markets, funds⟩ := eq_of_agree agree
  have first' : execute (enumerating order entries c₂) engine c₂ =
      some (r₂, portsUp.after engine calls₂) :=
    execute_iff.mpr ⟨calls₂, run₂, early, rfl, decides₂⟩
  have second' : execute (enumerating order entries c₁) (portsUp.after engine calls₂) c₁ =
      some (r₁, portsUp.after (portsUp.after engine calls₂) calls₁) :=
    execute_iff.mpr ⟨calls₁, run₁, late, rfl, decides₁⟩
  refine ⟨_, _, first', ?_, stores.symm, markets.symm, ?_, ?_⟩
  · rw [enumerating_concat different.symm]
    exact second'
  · exact congrArg InsuranceFund.balance funds.symm
  · have step₁ := (execute_executes first).transition
    have step₂ := (execute_executes second).transition
    have step₁' := (execute_executes first').transition
    have step₂' := (execute_executes second').transition
    exact (counted_of_transition sound step₁').stats_eq
      (counted_of_transition (step₁'.sound sound) step₂') (counted_of_transition sound step₁)
      (counted_of_transition (step₁.sound sound) step₂)

end Order

section Books
open Sample

def btc : Symbol := ⟨"BTC-PERP", by decide, by decide⟩

def bobEnters : RiskCommand :=
  .openPosition bob btc .long .cross (contracts 1) (price 100) tenfold (dollars 60)

/-- A sweep of one market and an opening in another. In either order the position
in breach is gone and the new one counted. -/
theorem markets_isolated_sweep_and_open :
    ∃ (engine mid final mid' final' : RiskEngine) (r₁ r₂ : Except CoreError CommandOutcome),
      Reachable (dollars 50) standard engine ∧
      Executes engine (.liquidateMarket sol) r₁ mid ∧ Executes mid bobEnters r₂ final ∧
      Executes engine bobEnters r₂ mid' ∧ Executes mid' (.liquidateMarket sol) r₁ final' ∧
      final'.stats.liquidations = 1 ∧ final'.stats.openPositions = 1 ∧
      final'.store = final.store := by
  let long := openedPosition alice sol .long .cross (contracts 10) (price 100) tenfold (dollars 60)
  let order : Symbol → List Entry → List Position := fun symbol _ =>
    if symbol = sol then [long] else []
  let sweep := RiskCommand.liquidateMarket sol
  obtain ⟨entries, engine, run, checked⟩ := exists_history_of_script (dollars 50) standard
    (fun _ _ => True)
    [({}, enter alice .long (contracts 10) (price 100) (dollars 60)),
      ({}, mark (price 90) (rate 0))]
    (fun entries engine =>
      (execute (enumerating order entries sweep) engine sweep).any
        fun first : Except CoreError CommandOutcome × RiskEngine =>
          (execute (enumerating order (entries ++ [⟨sweep, first.1⟩]) bobEnters) first.2
            bobEnters).any fun second : Except CoreError CommandOutcome × RiskEngine =>
              decide (second.2.stats.liquidations = 1) &&
                decide (second.2.stats.openPositions = 1))
    (by decide)
  simp only [Bool.and_eq_true, decide_eq_true_eq, Option.any_eq_true] at checked
  obtain ⟨⟨r₁, mid⟩, first, ⟨r₂, final⟩, second, settled, counted⟩ := checked
  have oneSweep : ¬ ((∃ symbol, sweep = .liquidateMarket symbol) ∧
      ∃ symbol, bobEnters = .liquidateMarket symbol) := by simp [bobEnters]
  obtain ⟨mid', final', early, late, store, -, -, stats⟩ :=
    markets_isolated run (by decide) oneSweep first second
  refine ⟨engine, mid, final, mid', final', r₁, r₂, run.reachable, execute_executes first,
    execute_executes second, execute_executes early, execute_executes late, ?_, ?_, store⟩
  · rw [stats]
    exact settled
  · rw [stats]
    exact counted

end Books
end MarginGuard.Guarantees
