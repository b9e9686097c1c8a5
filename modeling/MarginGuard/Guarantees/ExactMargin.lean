import Mathlib.Tactic.Linarith
import MarginGuard.Source.Invariants
import MarginGuard.Source.Script
import MarginGuard.Source.Sequence

/-!
# When margin arithmetic is exact

Prices and sizes are bounded, so notional, PnL and the standard maintenance never
clip (`priced_exactly`). Posted margins, funding rates and the number of funding
rounds are not, and equity clips for a margin near the bound of `i128`, funding
for a rate near that of `i64` (`margin_arithmetic_saturates`).

Funding paid grows by at most `roundCap` with each round (`Accumulated.step`), so a
run with capped margins and rates is exact as long as the rounds so far leave room
(`margin_arithmetic_exact`).
-/
namespace MarginGuard.Guarantees
open Foundation Source Sample

/-- The amounts that depend on price and size alone are the integer ones. -/
structure PricedExactly (pos : Position) (mark : Price) : Prop where
  notional : (pos.notional mark).toInt = (mark.micros * pos.size.micros).tdiv SCALE
  unrealized_pnl : (pos.unrealizedPnl mark).toInt =
    pos.side.sign * ((mark.micros - pos.entryPrice.micros) * pos.size.micros).tdiv SCALE
  maintenance_margin : (maintenanceMargin pos mark .standard).toInt =
    ((pos.notional mark).toInt * 250).tdiv 10000

/-- The amounts that depend on margin and funding are the integer ones: the payment
of a round at a rate, what it is added to, the equity and what a close realises. -/
structure SettledExactly (pos : Position) (mark : Price) (rateBps : I64) : Prop where
  funding_payment : (fundingPayment pos mark rateBps).toInt =
    pos.side.sign * ((pos.notional mark).toInt * rateBps.toInt).tdiv 10000
  funding_paid : (fundedPosition mark rateBps pos).fundingPaid.toInt =
    pos.fundingPaid.toInt + (fundingPayment pos mark rateBps).toInt
  position_equity : (positionEquity pos mark).toInt =
    pos.postedMargin.toInt + (pos.unrealizedPnl mark).toInt - pos.fundingPaid.toInt
  realized_pnl : ((positionEquity pos mark).saturatingSub pos.postedMargin).toInt =
    (pos.unrealizedPnl mark).toInt - pos.fundingPaid.toInt

theorem priced_exactly (pos : Position) (mark : Price) : PricedExactly pos mark where
  notional := pos.toInt_notional mark
  unrealized_pnl := pos.toInt_unrealizedPnl mark
  maintenance_margin := toInt_notional_mulBps pos mark (by decide) (by decide)

/-! ## How funding accumulates -/

/-- The most a position can pay or receive in one round at a capped rate. -/
def roundCap (rateCap : Int) : Int := (MAX_NOTIONAL * rateCap).tdiv 10000

/-- A command that posts at most `marginCap` or sets a rate of at most `rateCap`. -/
def WithinCaps (marginCap rateCap : Int) : RiskCommand → Prop
  | .openPosition _ _ _ _ _ _ _ margin => margin.toInt ≤ marginCap
  | .updateMarket _ _ _ rateBps => -rateCap ≤ rateBps.toInt ∧ rateBps.toInt ≤ rateCap
  | _ => True

instance (marginCap rateCap : Int) : (command : RiskCommand) →
    Decidable (WithinCaps marginCap rateCap command)
  | .openPosition _ _ _ _ _ _ _ margin => inferInstanceAs (Decidable (margin.toInt ≤ marginCap))
  | .updateMarket _ _ _ rateBps =>
    inferInstanceAs (Decidable (-rateCap ≤ rateBps.toInt ∧ rateBps.toInt ≤ rateCap))
  | .closePosition _ _ => .isTrue trivial
  | .accrueFunding _ => .isTrue trivial
  | .liquidateMarket _ => .isTrue trivial

/-- An accepted funding round. -/
def isRound (entry : Entry) : Bool :=
  (entry.command matches .accrueFunding _) && (errorOf entry.result).isNone

/-- The accepted funding rounds of a history. -/
def rounds (entries : List Entry) : Nat := entries.countP isRound

/-- What is stored after a number of rounds. -/
structure Accumulated (marginCap rateCap : Int) (count : Nat) (engine : RiskEngine) : Prop where
  margin : ∀ account symbol pos, engine.store.get account symbol = some pos →
    0 ≤ pos.postedMargin.toInt ∧ pos.postedMargin.toInt ≤ marginCap
  funding : ∀ account symbol pos, engine.store.get account symbol = some pos →
    -(count * roundCap rateCap) ≤ pos.fundingPaid.toInt ∧
      pos.fundingPaid.toInt ≤ count * roundCap rateCap
  rates : ∀ symbol state, engine.market symbol = some state →
    -rateCap ≤ state.fundingRateBps.toInt ∧ state.fundingRateBps.toInt ≤ rateCap

section Caps
variable {marginCap rateCap : Int}

theorem roundCap_nonneg (rate : 0 ≤ rateCap) : 0 ≤ roundCap rateCap :=
  Int.tdiv_nonneg (mul_nonneg (by decide) rate) (by decide)

/-- What one more round allows. -/
theorem roundCap_succ (rateCap : Int) (count : Nat) :
    ((count + 1 : Nat) : Int) * roundCap rateCap = count * roundCap rateCap + roundCap rateCap := by
  rw [Nat.cast_add, Nat.cast_one, Int.add_mul, Int.one_mul]

/-- The product of a notional and a capped rate. -/
theorem notional_rate_bounds (pos : Position) (mark : Price) {rateBps : I64}
    (low : -rateCap ≤ rateBps.toInt) (high : rateBps.toInt ≤ rateCap) :
    -(MAX_NOTIONAL * rateCap) ≤ (pos.notional mark).toInt * rateBps.toInt ∧
      (pos.notional mark).toInt * rateBps.toInt ≤ MAX_NOTIONAL * rateCap := by
  have nonneg := pos.notional_nonneg mark
  have bounded := pos.notional_le mark
  have rate : 0 ≤ rateCap := by omega
  have whole : (pos.notional mark).toInt * rateCap ≤ MAX_NOTIONAL * rateCap :=
    mul_le_mul_of_nonneg_right bounded rate
  have upper : (pos.notional mark).toInt * rateBps.toInt ≤ (pos.notional mark).toInt * rateCap :=
    mul_le_mul_of_nonneg_left high nonneg
  have lower : (pos.notional mark).toInt * -rateCap ≤ (pos.notional mark).toInt * rateBps.toInt :=
    mul_le_mul_of_nonneg_left low nonneg
  rw [Int.mul_neg] at lower
  omega

/-- No payment exceeds the cap of a round. -/
theorem fundingPayment_bounds (pos : Position) (mark : Price) {rateBps : I64}
    (low : -rateCap ≤ rateBps.toInt) (high : rateBps.toInt ≤ rateCap) :
    -roundCap rateCap ≤ (fundingPayment pos mark rateBps).toInt ∧
      (fundingPayment pos mark rateBps).toInt ≤ roundCap rateCap := by
  obtain ⟨below, above⟩ := notional_rate_bounds pos mark low high
  obtain ⟨lower, upper⟩ := SignedInt.clamp_within (w := 128) below above
  have least := Int.tdiv_le_tdiv (c := 10000) (by decide) lower
  have most := Int.tdiv_le_tdiv (c := 10000) (by decide) upper
  rw [Int.neg_tdiv] at least
  rw [toInt_fundingPayment, Usd.toInt_mulBps_eq]
  unfold roundCap
  cases pos.side <;> simp only [Side.sign] <;> omega

/-- A round moves what a position has paid by at most the cap, clipped or not. -/
theorem fundedPosition_bounds {pos : Position} (mark : Price) {rateBps : I64} {count : Nat}
    (low : -rateCap ≤ rateBps.toInt) (high : rateBps.toInt ≤ rateCap)
    (below : -(count * roundCap rateCap) ≤ pos.fundingPaid.toInt)
    (above : pos.fundingPaid.toInt ≤ count * roundCap rateCap) :
    -((count + 1 : Nat) * roundCap rateCap) ≤ (fundedPosition mark rateBps pos).fundingPaid.toInt ∧
      (fundedPosition mark rateBps pos).fundingPaid.toInt ≤
        (count + 1 : Nat) * roundCap rateCap := by
  obtain ⟨least, most⟩ := fundingPayment_bounds pos mark low high
  rw [roundCap_succ]
  exact SignedInt.clamp_within (n := pos.fundingPaid.toInt + (fundingPayment pos mark rateBps).toInt)
    (by omega) (by omega)

/-- What more rounds allow. -/
theorem roundCap_mono (rate : 0 ≤ rateCap) {count count' : Nat} (le : count ≤ count') :
    (count : Int) * roundCap rateCap ≤ count' * roundCap rateCap :=
  mul_le_mul_of_nonneg_right (by omega) (roundCap_nonneg rate)

/-- One command keeps the account, with one more round if it is one. -/
theorem Accumulated.step {engine engine' : RiskEngine} {command : RiskCommand}
    {result : Except CoreError CommandOutcome} {count : Nat} (rate : 0 ≤ rateCap)
    (before : Accumulated marginCap rateCap count engine)
    (tier : ∀ symbol, engine.riskParams symbol = .standard)
    (within : errorOf result = none → WithinCaps marginCap rateCap command)
    (step : Transition engine command result engine') :
    Accumulated marginCap rateCap (count + if isRound ⟨command, result⟩ then 1 else 0) engine' where
  margin := by
    intro account symbol pos stored
    rcases step.origin stored with kept | ⟨opens, accepted, enough⟩ | ⟨state, old, -, -, -, held, rfl⟩
    · exact before.margin account symbol pos kept
    · have required : 0 ≤ (initialMargin pos pos.entryPrice (engine.riskParams pos.symbol)).toInt :=
        Usd.mulBps_nonneg (pos.notional_nonneg _) (by rw [tier]; decide)
      obtain ⟨_, _, _, _, _, _, _, margin, rfl, rfl⟩ := opening_eq_some opens
      exact ⟨required.trans (Int.not_lt.mp enough), within accepted⟩
    · exact before.margin account symbol old held
  funding := by
    intro account symbol pos stored
    have more := roundCap_mono rate
      (Nat.le_add_right count (if isRound ⟨command, result⟩ then 1 else 0))
    rcases step.origin stored with kept | ⟨opens, -, -⟩ | ⟨state, old, rfl, accepted, priced, held, rfl⟩
    · obtain ⟨below, above⟩ := before.funding account symbol pos kept
      omega
    · obtain ⟨_, _, _, _, _, _, _, _, -, rfl⟩ := opening_eq_some opens
      have nonneg : 0 ≤ (count : Int) * roundCap rateCap :=
        mul_nonneg (by omega) (roundCap_nonneg rate)
      simp only [openedPosition, Usd.toInt_ZERO]
      omega
    · obtain ⟨low, high⟩ := before.rates symbol state priced
      obtain ⟨below, above⟩ := before.funding account symbol old held
      have counted : isRound ⟨.accrueFunding symbol, result⟩ = true := by simp [isRound, accepted]
      rw [counted, if_pos rfl]
      exact fundedPosition_bounds state.markPrice low high below above
  rates := by
    intro symbol state priced
    rcases step.market_origin priced with stood | ⟨rfl, accepted⟩
    · exact before.rates symbol state stood
    · exact within accepted

/-- After a run whose accepted commands keep to the caps. -/
theorem accumulated_of_history {seed : Usd} {entries : List Entry} {engine : RiskEngine}
    (rate : 0 ≤ rateCap) (run : History seed standard (fun _ _ => True) entries engine)
    (within : ∀ entry ∈ entries, errorOf entry.result = none →
      WithinCaps marginCap rateCap entry.command) :
    Accumulated marginCap rateCap (rounds entries) engine := by
  induction run with
  | fresh =>
    refine ⟨?_, ?_, ?_⟩
    · intro account symbol pos stored
      cases stored
    · intro account symbol pos stored
      cases stored
    · intro symbol state priced
      cases priced
  | @apply entries engine engine' command result before admitted ran ih =>
    have earlier := ih fun entry member => within entry (by simp [member])
    have counted : rounds (entries ++ [⟨command, result⟩]) =
        rounds entries + if isRound ⟨command, result⟩ then 1 else 0 := by
      simp [rounds, List.countP_append, List.countP_cons]
    rw [counted]
    exact earlier.step rate (Reachable.sound ⟨entries, before⟩).riskParams
      (within ⟨command, result⟩ (by simp)) ran.transition

/-! ## The guarantee -/

/-- With room for one more round nothing clips. -/
theorem settled_exactly {pos : Position} {mark : Price} {rateBps : I64} {count : Nat}
    (product : MAX_NOTIONAL * rateCap ≤ maxInt 128)
    (room : marginCap + MAX_NOTIONAL + (count + 1 : Nat) * roundCap rateCap ≤ maxInt 128)
    (margin : 0 ≤ pos.postedMargin.toInt ∧ pos.postedMargin.toInt ≤ marginCap)
    (funding : -(count * roundCap rateCap) ≤ pos.fundingPaid.toInt ∧
      pos.fundingPaid.toInt ≤ count * roundCap rateCap)
    (rate : -rateCap ≤ rateBps.toInt ∧ rateBps.toInt ≤ rateCap) :
    SettledExactly pos mark rateBps := by
  obtain ⟨below, above⟩ := notional_rate_bounds pos mark rate.1 rate.2
  obtain ⟨least, most⟩ := fundingPayment_bounds pos mark rate.1 rate.2
  obtain ⟨loss, gain⟩ := pos.unrealizedPnl_bounds mark
  have cap : 0 ≤ roundCap rateCap := roundCap_nonneg (by omega)
  have edge := minInt_eq 128
  have nonneg : 0 ≤ (count : Int) * roundCap rateCap := mul_nonneg (by omega) cap
  have largest : 0 < MAX_NOTIONAL := by decide
  rw [roundCap_succ] at room
  have equity : EquityFits pos mark := ⟨⟨by omega, by omega⟩, by omega, by omega⟩
  refine ⟨?_, ?_, toInt_positionEquity equity, ?_⟩
  · rw [toInt_fundingPayment, Usd.toInt_mulBps ⟨by omega, by omega⟩]
  · exact Usd.toInt_saturatingAdd_of_fits ⟨by omega, by omega⟩
  · exact toInt_realized equity ⟨by omega, by omega⟩

/-- Price and size alone never make anything clip. In a run under the standard
parameters whose accepted commands post at most `marginCap` and set rates of at most
`rateCap`, nothing clips as long as margin, one notional and the rounds so far, with
one to come, leave room in an `i128`. -/
theorem margin_arithmetic_exact :
    (∀ pos mark, PricedExactly pos mark) ∧
    (∀ (marginCap rateCap : Int) (seed : Usd) (entries : List Entry) (engine : RiskEngine),
      0 ≤ rateCap → MAX_NOTIONAL * rateCap ≤ maxInt 128 →
      marginCap + MAX_NOTIONAL + (rounds entries + 1 : Nat) * roundCap rateCap ≤ maxInt 128 →
      History seed standard (fun _ _ => True) entries engine →
      (∀ entry ∈ entries, errorOf entry.result = none →
        WithinCaps marginCap rateCap entry.command) →
      ∀ account symbol pos state mark, engine.store.get account symbol = some pos →
        engine.market symbol = some state → SettledExactly pos mark state.fundingRateBps) := by
  refine ⟨priced_exactly, ?_⟩
  intro marginCap rateCap seed entries engine rate product room run within account symbol pos state
    mark stored priced
  have accumulated := accumulated_of_history rate run within
  exact settled_exactly product room (accumulated.margin account symbol pos stored)
    (accumulated.funding account symbol pos stored) (accumulated.rates symbol state priced)

end Caps

/-- A position opened with twenty dollars, after one round at ten basis points. -/
theorem margin_arithmetic_exact_after_round : ∃ entries engine,
    History (dollars 5) standard (fun _ _ => True) entries engine ∧ rounds entries = 1 ∧
      SettledExactly (held .long 2000000 100000000 20000000 200000) (price 90) (rate 10) := by
  let pos := { held .long 2000000 100000000 20000000 200000 with marginMode := .cross }
  let state : MarketState := ⟨sol, price 100, price 100, rate 10⟩
  obtain ⟨entries, engine, run, checked⟩ := exists_history_of_script (dollars 5) standard
    (fun _ _ => True)
    [({}, mark (price 100) (rate 10)),
      ({}, enter alice .long (contracts 2) (price 100) (dollars 20)),
      ({ listing := [{ pos with fundingPaid := .ZERO }] }, .accrueFunding sol)]
    (fun entries engine => decide (rounds entries = 1 ∧
      (∀ entry ∈ entries, errorOf entry.result = none →
        WithinCaps (10 ^ 9) (10 ^ 6) entry.command) ∧
      engine.store.get alice.asStr sol = some pos ∧ engine.market sol = some state))
    (by decide +kernel)
  obtain ⟨counted, within, stored, priced⟩ := of_decide_eq_true checked
  have settled := margin_arithmetic_exact.2 (10 ^ 9) (10 ^ 6) _ entries engine (by decide)
    (by decide) (by rw [counted]; decide) run within _ _ pos state (price 90) stored priced
  exact ⟨entries, engine, run, counted, settled.funding_payment, settled.funding_paid,
    settled.position_equity, settled.realized_pnl⟩

/-- A margin of `i128::MAX` clips the equity of a long that gains, and a rate of
`i64::MAX` the payment of the largest position. -/
theorem margin_arithmetic_saturates :
    (¬ ∀ seed engine, Reachable seed standard engine → ∀ account symbol pos state mark,
      engine.store.get account symbol = some pos → engine.market symbol = some state →
        (positionEquity pos mark).toInt =
          pos.postedMargin.toInt + (pos.unrealizedPnl mark).toInt - pos.fundingPaid.toInt) ∧
    (¬ ∀ seed engine, Reachable seed standard engine → ∀ account symbol pos state mark,
      engine.store.get account symbol = some pos → engine.market symbol = some state →
        (fundingPayment pos mark state.fundingRateBps).toInt =
          pos.side.sign *
            ((pos.notional mark).toInt * state.fundingRateBps.toInt).tdiv 10000) := by
  constructor
  · intro exactly
    let pos := openedPosition alice sol .long .cross (contracts 1) (price 100) tenfold
      (usd (maxInt 128))
    obtain ⟨entries, engine, run, checked⟩ := exists_history_of_script (dollars 5) standard
      (fun _ _ => True)
      [({}, mark (price 100) (rate 0)),
        ({}, enter alice .long (contracts 1) (price 100) (usd (maxInt 128)))]
      (fun _ engine => decide (engine.store.get alice.asStr sol = some pos ∧
        engine.market sol = some (quoted (price 100)))) (by decide +kernel)
    obtain ⟨stored, priced⟩ := of_decide_eq_true checked
    have clipped := exactly _ engine run.reachable _ _ pos _ (price 200) stored priced
    revert clipped
    decide +kernel
  · intro exactly
    let pos := openedPosition alice sol .long .cross (microSize MAX_SIZE) (microPrice MAX_PRICE)
      tenfold (usd (5 * 10 ^ 18))
    let state : MarketState := ⟨sol, price 100, price 100, rate (maxInt 64)⟩
    obtain ⟨entries, engine, run, checked⟩ := exists_history_of_script (dollars 5) standard
      (fun _ _ => True)
      [({}, mark (price 100) (rate (maxInt 64))),
        ({}, enter alice .long (microSize MAX_SIZE) (microPrice MAX_PRICE) (usd (5 * 10 ^ 18)))]
      (fun _ engine => decide (engine.store.get alice.asStr sol = some pos ∧
        engine.market sol = some state)) (by decide +kernel)
    obtain ⟨stored, priced⟩ := of_decide_eq_true checked
    have clipped := exactly _ engine run.reachable _ _ pos _ (microPrice MAX_PRICE) stored priced
    revert clipped
    decide +kernel

end MarginGuard.Guarantees
