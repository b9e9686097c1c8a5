import MarginGuard.Source.Script
import MarginGuard.Source.Sequence

/-!
# A matched pair over its life

A long and a short of one size and entry price mirror each other: every funding
payment of one is the exact negative of the other's, and so is its unrealised
PnL, truncations included. `Mirrors` is the invariant; it holds from the second
open on as long as both stay open, and makes the two realised amounts of their
closes cancel (`matched_pair_zero_sum`).
-/
namespace MarginGuard.Guarantees
open Foundation Source

def oppositeSide : Side → Side
  | .long => .short
  | .short => .long

/-- An accepted `OpenPosition` with these terms. -/
def Opens (engine : RiskEngine) (account : AccountId) (symbol : Symbol) (side : Side) (size : Size)
    (entryPrice : Price) (engine' : RiskEngine) : Prop :=
  ∃ marginMode leverage margin outcome, Executes engine
    (.openPosition account symbol side marginMode size entryPrice leverage margin) (.ok outcome)
    engine'

/-- An accepted `ClosePosition` that realises this amount. -/
def Closes (engine : RiskEngine) (account : AccountId) (symbol : Symbol) (realized : Usd)
    (engine' : RiskEngine) : Prop :=
  Executes engine (.closePosition account symbol) (.ok ⟨[.positionClosed account symbol realized]⟩)
    engine'

def IsOpen (engine : RiskEngine) (account : AccountId) (symbol : Symbol) : Prop :=
  (engine.store.get account.asStr symbol).isSome

/-- A funding round of the market adds to this position's funding without saturating. -/
def FundsExactly (engine : RiskEngine) (account : AccountId) (symbol : Symbol) : Prop :=
  ∀ pos ∈ engine.store.get account.asStr symbol, ∀ state ∈ engine.market symbol,
    Fits 128 (pos.fundingPaid.toInt +
      (fundingPayment pos state.markPrice state.fundingRateBps).toInt)

/-- Closing this position saturates nowhere. -/
def RealizesExactly (engine : RiskEngine) (account : AccountId) (symbol : Symbol) : Prop :=
  ∀ pos ∈ engine.store.get account.asStr symbol, ∀ state ∈ engine.market symbol,
    let pnl := (pos.unrealizedPnl state.markPrice).toInt
    Fits 128 (pos.postedMargin.toInt + pnl) ∧
      Fits 128 (pos.postedMargin.toInt + pnl - pos.fundingPaid.toInt) ∧
      Fits 128 (pnl - pos.fundingPaid.toInt)

/-- Between the opens: the first position stays open and its market accrues no
funding. -/
def KeepsUnfunded (account : AccountId) (symbol : Symbol) (_ : RiskEngine) (command : RiskCommand)
    (engine' : RiskEngine) : Prop :=
  IsOpen engine' account symbol ∧ command ≠ .accrueFunding symbol

/-- After the opens: both stay open and no funding saturates. -/
def KeepsBoth (first second : AccountId) (symbol : Symbol) (engine : RiskEngine)
    (command : RiskCommand) (engine' : RiskEngine) : Prop :=
  IsOpen engine' first symbol ∧ IsOpen engine' second symbol ∧
    (command = .accrueFunding symbol →
      FundsExactly engine first symbol ∧ FundsExactly engine second symbol)

/-- Between the closes: the remaining position stays open and its market sees
neither an update nor funding. -/
def KeepsQuiet (account : AccountId) (symbol : Symbol) (_ : RiskEngine) (command : RiskCommand)
    (engine' : RiskEngine) : Prop :=
  IsOpen engine' account symbol ∧ command ≠ .accrueFunding symbol ∧
    ∀ markPrice indexPrice rateBps, command ≠ .updateMarket symbol markPrice indexPrice rateBps

/-- Both positions are closed, one and then the other, with a quiet market in between. -/
def ClosesBoth (engine : RiskEngine) (account account' : AccountId) (symbol : Symbol)
    (realized realized' : Usd) : Prop :=
  ∃ engine₁ engine₂ engine₃, RealizesExactly engine account symbol ∧
    Closes engine account symbol realized engine₁ ∧
    Sequence (KeepsQuiet account' symbol) engine₁ engine₂ ∧
    RealizesExactly engine₂ account' symbol ∧ Closes engine₂ account' symbol realized' engine₃

/-! ## Mirrored positions -/

/-- The two positions are of one size and entry price, on opposite sides, with
opposite funding. -/
structure Mirrors (pos other : Position) : Prop where
  size_eq : pos.size = other.size
  entry_eq : pos.entryPrice = other.entryPrice
  side_eq : pos.side.sign = -other.side.sign
  funding_eq : pos.fundingPaid.toInt = -other.fundingPaid.toInt

theorem sign_oppositeSide (side : Side) : side.sign = -(oppositeSide side).sign := by
  cases side <;> rfl

namespace Mirrors
variable {pos other : Position}

theorem symm (mirrors : Mirrors pos other) : Mirrors other pos where
  size_eq := mirrors.size_eq.symm
  entry_eq := mirrors.entry_eq.symm
  side_eq := by
    have opposite := mirrors.side_eq
    omega
  funding_eq := by
    have opposite := mirrors.funding_eq
    omega

theorem pnl (mirrors : Mirrors pos other) (mark : Price) :
    (pos.unrealizedPnl mark).toInt = -(other.unrealizedPnl mark).toInt := by
  rw [Position.toInt_unrealizedPnl, Position.toInt_unrealizedPnl, mirrors.size_eq, mirrors.entry_eq,
    mirrors.side_eq, Int.neg_mul]

theorem payment (mirrors : Mirrors pos other) (mark : Price) (rateBps : I64) :
    (fundingPayment pos mark rateBps).toInt = -(fundingPayment other mark rateBps).toInt := by
  have notional : pos.notional mark = other.notional mark := by
    rw [Position.notional, Position.notional, mirrors.size_eq]
  rw [toInt_fundingPayment, toInt_fundingPayment, notional, mirrors.side_eq, Int.neg_mul]

/-- A funding round that saturates for neither keeps them mirrored. -/
theorem funded (mirrors : Mirrors pos other) {mark : Price} {rateBps : I64}
    (fit : Fits 128 (pos.fundingPaid.toInt + (fundingPayment pos mark rateBps).toInt))
    (fit' : Fits 128 (other.fundingPaid.toInt + (fundingPayment other mark rateBps).toInt)) :
    Mirrors (fundedPosition mark rateBps pos) (fundedPosition mark rateBps other) where
  size_eq := mirrors.size_eq
  entry_eq := mirrors.entry_eq
  side_eq := mirrors.side_eq
  funding_eq := by
    have opposite := mirrors.funding_eq
    have payments := mirrors.payment mark rateBps
    change (pos.fundingPaid.saturatingAdd _).toInt = -(other.fundingPaid.saturatingAdd _).toInt
    rw [Usd.toInt_saturatingAdd_of_fits fit, Usd.toInt_saturatingAdd_of_fits fit']
    omega

end Mirrors

/-! ## Realised amounts -/

/-- What an accepted close realises; it touches neither the market nor the
positions of other accounts. -/
theorem Closes.realized {engine engine' : RiskEngine} {account : AccountId} {symbol : Symbol}
    {realized : Usd} (closes : Closes engine account symbol realized engine')
    (exactly : RealizesExactly engine account symbol) :
    ∃ pos state, engine.store.get account.asStr symbol = some pos ∧
      engine.market symbol = some state ∧
      realized.toInt = (pos.unrealizedPnl state.markPrice).toInt - pos.fundingPaid.toInt ∧
      engine'.market symbol = some state ∧ ∀ other, other ≠ account.asStr →
        engine'.store.get other symbol = engine.store.get other symbol := by
  have step := Executes.transition closes
  generalize told : (.ok ⟨[.positionClosed account symbol realized]⟩ :
    Except CoreError CommandOutcome) = result at step
  cases step with
  | closed pos state present priced =>
    obtain ⟨added, equity, net⟩ := exactly pos present state priced
    simp only [closedEvent, Except.ok.injEq, CommandOutcome.mk.injEq, List.cons.injEq,
      RiskEvent.positionClosed.injEq, and_true, true_and] at told
    refine ⟨pos, state, present, priced, ?_, priced, fun other differs => ?_⟩
    · rw [told.2, toInt_realized ⟨added, equity⟩ net]
    · change (engine.store.remove account.asStr symbol).get other symbol = _
      rw [PositionStore.get_remove, if_neg fun same => differs (congrArg Prod.fst same)]
  | _ => cases told

/-- An accepted open stores a position with these terms and no funding, under a
key that was free. -/
theorem Opens.stored {engine engine' : RiskEngine} {account : AccountId} {symbol : Symbol}
    {side : Side} {size : Size} {entryPrice : Price}
    (opens : Opens engine account symbol side size entryPrice engine') :
    engine.store.get account.asStr symbol = none ∧
      (∃ pos, engine'.store.get account.asStr symbol = some pos ∧ pos.side = side ∧
        pos.size = size ∧ pos.entryPrice = entryPrice ∧ pos.fundingPaid = .ZERO) ∧
      ∀ other held, engine.store.get other symbol = some held →
        engine'.store.get other symbol = some held := by
  obtain ⟨marginMode, leverage, margin, outcome, ran⟩ := opens
  cases ran.transition with
  | @opened _ _ _ _ _ _ _ _ pos own absent enough =>
    have free : engine.store.get pos.account.asStr pos.symbol = none := by rw [own]; exact absent
    refine ⟨absent, ⟨pos, ?_, ?_⟩, fun other held stored => ?_⟩
    · change (engine.store.upsert pos).get account.asStr symbol = some pos
      rw [PositionStore.get_upsert, if_pos (by rw [own]; rfl)]
    · rw [own]
      exact ⟨rfl, rfl, rfl, rfl⟩
    · exact PositionStore.get_upsert_of_stored free stored

/-! ## The pair over its life -/

/-- Both positions are stored, mirrored. -/
def PairMirrors (first second : AccountId) (symbol : Symbol) (engine : RiskEngine) : Prop :=
  ∃ pos other, engine.store.get first.asStr symbol = some pos ∧
    engine.store.get second.asStr symbol = some other ∧ Mirrors pos other

section Pair
variable {first second : AccountId} {symbol : Symbol} {engine engine' : RiskEngine}

theorem PairMirrors.symm (mirrors : PairMirrors first second symbol engine) :
    PairMirrors second first symbol engine := by
  obtain ⟨pos, other, stored, stored', mirrored⟩ := mirrors
  exact ⟨other, pos, stored', stored, mirrored.symm⟩

/-- The two accounts differ: no position mirrors itself. -/
theorem PairMirrors.distinct (mirrors : PairMirrors first second symbol engine) :
    second.asStr ≠ first.asStr := by
  obtain ⟨pos, other, stored, stored', mirrored⟩ := mirrors
  intro same
  rw [same, stored] at stored'
  obtain rfl := Option.some.inj stored'
  have opposite := mirrored.side_eq
  cases side : pos.side <;> simp [side, Side.sign] at opposite

/-- Between the opens the first position stays as it was opened. -/
theorem kept_unfunded {pos : Position} (stored : engine.store.get first.asStr symbol = some pos)
    (run : Sequence (KeepsUnfunded first symbol) engine engine') :
    engine'.store.get first.asStr symbol = some pos := by
  refine run.invariant (I := fun e => e.store.get first.asStr symbol = some pos) stored ?_
  intro before command result after held kept step
  rcases step.positions_kept symbol with same | ⟨state, round, -⟩
  · exact same _ _ held kept.1
  · exact absurd round kept.2

/-- The second open completes a mirrored pair. -/
theorem pairMirrors_of_opens {engine₀ engine₁ engine₂ : RiskEngine} {side : Side} {size : Size}
    {entryPrice : Price} (opens : Opens engine₀ first symbol side size entryPrice engine₁)
    (between : Sequence (KeepsUnfunded first symbol) engine₁ engine₂)
    (opens' : Opens engine₂ second symbol (oppositeSide side) size entryPrice engine) :
    PairMirrors first second symbol engine := by
  obtain ⟨-, ⟨pos, stored, sideEq, sizeEq, entryEq, unfunded⟩, -⟩ := opens.stored
  obtain ⟨-, ⟨other, stored', sideEq', sizeEq', entryEq', unfunded'⟩, others⟩ := opens'.stored
  refine ⟨pos, other, others _ _ (kept_unfunded stored between), stored', ?_⟩
  exact {
    size_eq := sizeEq.trans sizeEq'.symm
    entry_eq := entryEq.trans entryEq'.symm
    side_eq := by rw [sideEq, sideEq', sign_oppositeSide]
    funding_eq := by rw [unfunded, unfunded']; rfl }

/-- One command that keeps both open keeps them mirrored. -/
theorem PairMirrors.step {command : RiskCommand} {result : Except CoreError CommandOutcome}
    (mirrors : PairMirrors first second symbol engine)
    (kept : KeepsBoth first second symbol engine command engine')
    (step : Transition engine command result engine') :
    PairMirrors first second symbol engine' := by
  obtain ⟨pos, other, stored, stored', mirrored⟩ := mirrors
  obtain ⟨firstOpen, secondOpen, unsaturated⟩ := kept
  rcases step.positions_kept symbol with same | ⟨state, round, priced, settled⟩
  · exact ⟨pos, other, same _ _ stored firstOpen, same _ _ stored' secondOpen, mirrored⟩
  · obtain ⟨fit, fit'⟩ := unsaturated round
    refine ⟨_, _, ?_, ?_,
      mirrored.funded (fit pos stored state priced) (fit' other stored' state priced)⟩
    · rw [settled, stored]
      rfl
    · rw [settled, stored']
      rfl

/-- Closing a mirrored pair, in either order, realises two opposite amounts. -/
theorem PairMirrors.closes {realized realized' : Usd}
    (mirrors : PairMirrors first second symbol engine)
    (closed : ClosesBoth engine first second symbol realized realized') :
    realized.toInt + realized'.toInt = 0 := by
  have distinct := mirrors.distinct
  obtain ⟨pos, other, stored, stored', mirrored⟩ := mirrors
  obtain ⟨engine₁, engine₂, engine₃, exactly, closesFirst, quiet, exactly', closesSecond⟩ := closed
  obtain ⟨held, state, present, priced, amount, priced₁, others⟩ := closesFirst.realized exactly
  obtain rfl := Option.some.inj (present.symm.trans stored)
  have between : engine₂.store.get second.asStr symbol = some other ∧
      engine₂.market symbol = some state := by
    refine quiet.invariant (I := fun e => e.store.get second.asStr symbol = some other ∧
      e.market symbol = some state) ⟨(others _ distinct).trans stored', priced₁⟩ ?_
    rintro before command result after ⟨here, known⟩ ⟨staysOpen, unfunded, unquoted⟩ step
    refine ⟨?_, (step.market_kept unquoted).trans known⟩
    rcases step.positions_kept symbol with same | ⟨state, round, -⟩
    · exact same _ _ here staysOpen
    · exact absurd round unfunded
  obtain ⟨held', state', present', priced', amount', -⟩ := closesSecond.realized exactly'
  obtain rfl := Option.some.inj (present'.symm.trans between.1)
  obtain rfl := Option.some.inj (priced'.symm.trans between.2)
  have pnl := mirrored.pnl state'.markPrice
  have funding := mirrored.funding_eq
  omega

end Pair

/-- A long and a short opened with one size and entry price and no funding in
between have opposite funding at every later moment, as long as both stay open;
closed one after the other in a quiet market, in either order, they realise
amounts that sum to zero. -/
theorem matched_pair_zero_sum {first second : AccountId} {symbol : Symbol} {side : Side}
    {size : Size} {entryPrice : Price} {engine₀ engine₁ engine₂ engine₃ engine : RiskEngine}
    (opens : Opens engine₀ first symbol side size entryPrice engine₁)
    (between : Sequence (KeepsUnfunded first symbol) engine₁ engine₂)
    (opens' : Opens engine₂ second symbol (oppositeSide side) size entryPrice engine₃)
    (life : Sequence (KeepsBoth first second symbol) engine₃ engine) :
    (∃ pos other, engine.store.get first.asStr symbol = some pos ∧
      engine.store.get second.asStr symbol = some other ∧
      pos.fundingPaid.toInt = -other.fundingPaid.toInt) ∧
    ∀ realized realized', ClosesBoth engine first second symbol realized realized' ∨
        ClosesBoth engine second first symbol realized realized' →
      realized.toInt + realized'.toInt = 0 := by
  have mirrors : PairMirrors first second symbol engine :=
    life.invariant (pairMirrors_of_opens opens between opens')
      fun _ _ _ _ before kept step => before.step kept step
  refine ⟨?_, fun realized realized' closed => ?_⟩
  · obtain ⟨pos, other, stored, stored', mirrored⟩ := mirrors
    exact ⟨pos, other, stored, stored', mirrored.funding_eq⟩
  · rcases closed with inOrder | reversed
    · exact mirrors.closes inOrder
    · exact mirrors.symm.closes reversed

section Books
open Sample

instance (engine : RiskEngine) (account : AccountId) (symbol : Symbol) :
    Decidable (IsOpen engine account symbol) := inferInstanceAs (Decidable (_ = true))

instance (engine : RiskEngine) (account : AccountId) (symbol : Symbol) :
    Decidable (FundsExactly engine account symbol) :=
  inferInstanceAs (Decidable (∀ pos ∈ _, ∀ state ∈ _, _))

instance (engine : RiskEngine) (account : AccountId) (symbol : Symbol) :
    Decidable (RealizesExactly engine account symbol) :=
  inferInstanceAs (Decidable (∀ pos ∈ _, ∀ state ∈ _, _ ∧ _ ∧ _))

/-- Ten contracts long and short from 100. The mark moves to 103 between the
opens, funding is accrued once at seven basis points, the short closes first and
carol opens before the long does. -/
theorem matched_pair_zero_sum_one_round : ∃ engine, ∃ realized realized' : Usd,
    ClosesBoth engine bob alice sol realized realized' ∧ realized.toInt = -29279000 ∧
      realized.toInt + realized'.toInt = 0 := by
  let opened := fun account side =>
    openedPosition account sol side .cross (contracts 10) (price 100) tenfold (dollars 60)
  let long := opened alice .long
  let short := opened bob .short
  -- the checks of each step, from the last one back to the first
  let closed := fun ran : Except CoreError CommandOutcome × RiskEngine =>
    decide (ran.1 = .ok ⟨[.positionClosed alice sol (usd 29279000)]⟩)
  let joined := fun ran : Except CoreError CommandOutcome × RiskEngine =>
    decide (IsOpen ran.2 alice sol ∧ RealizesExactly ran.2 alice sol ∧
      (execute {} ran.2 (.closePosition alice sol)).any closed)
  let closedFirst := fun ran : Except CoreError CommandOutcome × RiskEngine =>
    decide (ran.1 = .ok ⟨[.positionClosed bob sol (usd (-29279000))]⟩ ∧
      (execute {} ran.2 (enter carol .long (contracts 1) (price 103) (dollars 60))).any joined)
  let accrued := fun ran : Except CoreError CommandOutcome × RiskEngine =>
    decide (IsOpen ran.2 alice sol ∧ IsOpen ran.2 bob sol ∧ RealizesExactly ran.2 bob sol ∧
      (execute {} ran.2 (.closePosition bob sol)).any closedFirst)
  let matched := fun ran : Except CoreError CommandOutcome × RiskEngine =>
    decide (ran.1 = .ok ⟨[openedEvent short]⟩ ∧ FundsExactly ran.2 alice sol ∧
      FundsExactly ran.2 bob sol ∧
      (execute { listing := [long, short] } ran.2 (.accrueFunding sol)).any accrued)
  let marked := fun ran : Except CoreError CommandOutcome × RiskEngine =>
    decide (IsOpen ran.2 alice sol ∧
      (execute {} ran.2 (enter bob .short (contracts 10) (price 100) (dollars 60))).any matched)
  let openedFirst := fun ran : Except CoreError CommandOutcome × RiskEngine =>
    decide (ran.1 = .ok ⟨[openedEvent long]⟩ ∧
      (execute {} ran.2 (mark (price 103) (rate 7))).any marked)
  have ran : (execute {} (.fromParts (dollars 5) standard)
    (enter alice .long (contracts 10) (price 100) (dollars 60))).any openedFirst = true := by decide
  obtain ⟨⟨_, engine₁⟩, open₁, checked⟩ := executes_of_any ran
  obtain ⟨rfl, ran⟩ := of_decide_eq_true checked
  obtain ⟨⟨_, engine₂⟩, update, checked⟩ := executes_of_any ran
  obtain ⟨kept, ran⟩ := of_decide_eq_true checked
  obtain ⟨⟨_, engine₃⟩, open₂, checked⟩ := executes_of_any ran
  obtain ⟨rfl, funds, funds', ran⟩ := of_decide_eq_true checked
  obtain ⟨⟨_, engine₄⟩, accrue, checked⟩ := executes_of_any ran
  obtain ⟨keptLong, keptShort, exactly, ran⟩ := of_decide_eq_true checked
  obtain ⟨⟨_, engine₅⟩, close₁, checked⟩ := executes_of_any ran
  obtain ⟨rfl, ran⟩ := of_decide_eq_true checked
  obtain ⟨⟨_, engine₆⟩, join, checked⟩ := executes_of_any ran
  obtain ⟨quiet, exactly', ran⟩ := of_decide_eq_true checked
  obtain ⟨⟨_, engine₇⟩, close₂, checked⟩ := executes_of_any ran
  obtain rfl := of_decide_eq_true checked
  have between : Sequence (KeepsUnfunded alice sol) engine₁ engine₂ :=
    .apply .refl update ⟨kept, nofun⟩
  have life : Sequence (KeepsBoth alice bob sol) engine₃ engine₄ :=
    .apply .refl accrue ⟨keptLong, keptShort, fun _ => ⟨funds, funds'⟩⟩
  have rest : Sequence (KeepsQuiet alice sol) engine₅ engine₆ :=
    .apply .refl join ⟨quiet, by simp [enter], by simp [enter]⟩
  have both : ClosesBoth engine₄ bob alice sol (usd (-29279000)) (usd 29279000) :=
    ⟨engine₅, engine₆, engine₇, exactly, close₁, rest, exactly', close₂⟩
  exact ⟨engine₄, _, _, both, rfl, (matched_pair_zero_sum ⟨_, _, _, _, open₁⟩ between
    ⟨_, _, _, _, open₂⟩ life).2 _ _ (Or.inr both)⟩

end Books
end MarginGuard.Guarantees
