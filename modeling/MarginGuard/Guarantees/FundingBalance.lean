import Mathlib.Tactic.LinearCombination
import MarginGuard.Source.Script
import MarginGuard.Source.Sequential

/-!
# Does funding net to zero?

`funding_payment` truncates twice, once for the notional and once for the basis
points, so a position pays its exact share less what the truncations leave out.
In a balanced market the exact shares cancel. The payments then cancel exactly
when longs and shorts leave out the same (`funding_nets_to_zero_iff`): they do
where every long is matched by a short of its size, and need not where one long
faces two smaller shorts.
-/
namespace MarginGuard.Guarantees
open Foundation Source

/-- Sum of `f` over the positions of a market on one side. -/
def sideTotal (store : PositionStore) (symbol : Symbol) (side : Side) (f : Position → Int) : Int :=
  store.marketTotal symbol fun pos => if pos.side = side then f pos else 0

/-- The total size of one side of a market. -/
def openInterest (store : PositionStore) (symbol : Symbol) (side : Side) : Int :=
  sideTotal store symbol side fun pos => pos.size.micros

/-- What `funding_payment` leaves out of `mark * size * rate` for a position of
this size, in the unit of that product: the remainder of the notional, what the
product with the rate loses by saturating, and the remainder of the basis points. -/
def discarded (mark : Price) (rateBps : I64) (size : Size) : Int :=
  let notional := (scaledMul mark.micros size.micros).toInt
  let product := (SignedInt.clamp (notional * rateBps.toInt) : I128).toInt
  (mark.micros * size.micros).tmod SCALE * rateBps.toInt +
    SCALE * (notional * rateBps.toInt - product + product.tmod 10000)

/-- What is left out on one side of a market. -/
def sideDiscarded (store : PositionStore) (symbol : Symbol) (side : Side) (mark : Price)
    (rateBps : I64) : Int :=
  sideTotal store symbol side fun pos => discarded mark rateBps pos.size

/-- The amount an event settles. -/
def fundingAmount : RiskEvent → Option Int
  | .fundingSettled _ _ amount => some amount.toInt
  | _ => none

/-- The sum of the `FundingSettled` amounts among events. -/
def settledSum (events : List RiskEvent) : Int := (events.filterMap fundingAmount).sum

/-! ## One payment -/

/-- The exact share of a position is what it is charged and what is left out. -/
theorem share_eq (mark : Price) (rateBps : I64) (pos : Position) :
    mark.micros * pos.size.micros * rateBps.toInt =
      SCALE * 10000 * ((pos.notional mark).mulBps rateBps).toInt + discarded mark rateBps pos.size := by
  have notional := Int.mul_tdiv_add_tmod (mark.micros * pos.size.micros) SCALE
  rw [← Position.toInt_notional] at notional
  have points := Int.mul_tdiv_add_tmod
    (SignedInt.clamp ((pos.notional mark).toInt * rateBps.toInt) : I128).toInt 10000
  have charged : ((pos.notional mark).mulBps rateBps).toInt =
      (SignedInt.clamp ((pos.notional mark).toInt * rateBps.toInt) : I128).toInt.tdiv 10000 :=
    SignedInt.toInt_div _ (by decide)
  rw [← charged] at points
  have amount : (scaledMul mark.micros pos.size.micros).toInt = (pos.notional mark).toInt := rfl
  simp only [discarded, amount]
  linear_combination (-rateBps.toInt) * notional - SCALE * points

/-! ## A funding round -/

/-- The payments of positions add up to the imbalance of their sizes, less the
imbalance of what is left out. -/
theorem payments_sum (mark : Price) (rateBps : I64) (positions : List Position) :
    SCALE * 10000 * (positions.map fun pos => (fundingPayment pos mark rateBps).toInt).sum =
      mark.micros * rateBps.toInt *
          ((positions.map fun pos => if pos.side = .long then pos.size.micros else 0).sum -
            (positions.map fun pos => if pos.side = .short then pos.size.micros else 0).sum) -
        ((positions.map fun pos => if pos.side = .long then discarded mark rateBps pos.size else 0).sum -
          (positions.map fun pos =>
            if pos.side = .short then discarded mark rateBps pos.size else 0).sum) := by
  induction positions with
  | nil => simp
  | cons pos positions ih =>
    have share := share_eq mark rateBps pos
    have long : Side.sign .long = 1 := rfl
    have short : Side.sign .short = -1 := rfl
    simp only [List.map_cons, List.sum_cons, toInt_fundingPayment]
    simp only [toInt_fundingPayment] at ih
    cases pos.side with
    | long =>
      simp only [if_true, reduceCtorEq, if_false]
      linear_combination
        ih - share + SCALE * 10000 * ((pos.notional mark).mulBps rateBps).toInt * long
    | short =>
      simp only [if_true, reduceCtorEq, if_false]
      linear_combination
        ih + share + SCALE * 10000 * ((pos.notional mark).mulBps rateBps).toInt * short

theorem settledSum_round (symbol : Symbol) (mark : Price) (rateBps : I64)
    (listing : List Position) :
    settledSum (listing.map (fundingEvent symbol mark rateBps)) =
      (listing.map fun pos => (fundingPayment pos mark rateBps).toInt).sum := by
  have amounts : (listing.map (fundingEvent symbol mark rateBps)).filterMap fundingAmount =
      listing.map fun pos => (fundingPayment pos mark rateBps).toInt := by
    rw [List.filterMap_map]
    exact congrFun List.filterMap_eq_map' listing
  rw [settledSum, amounts]

/-- What one `AccrueFunding` settles in all: nothing but rounding in a balanced
market. -/
theorem settledSum_eq {engine engine' : RiskEngine} {symbol : Symbol} {state : MarketState}
    {outcome : CommandOutcome} (priced : engine.market symbol = some state)
    (ran : Executes engine (.accrueFunding symbol) (.ok outcome) engine') :
    SCALE * 10000 * settledSum outcome.events =
      state.markPrice.micros * state.fundingRateBps.toInt *
          (openInterest engine.store symbol .long - openInterest engine.store symbol .short) -
        (sideDiscarded engine.store symbol .long state.markPrice state.fundingRateBps -
          sideDiscarded engine.store symbol .short state.markPrice state.fundingRateBps) := by
  cases ran.transition with
  | accrued state' listing priced' lists =>
    obtain rfl : state' = state := Option.some.inj (priced'.symm.trans priced)
    simp only [settledSum_round, payments_sum, openInterest, sideDiscarded, sideTotal,
      ← lists.sum_eq]

/-- In a balanced market the amounts of one `AccrueFunding` sum to zero exactly
when the truncations leave out as much on the longs as on the shorts. -/
theorem funding_nets_to_zero_iff {engine engine' : RiskEngine} {symbol : Symbol}
    {state : MarketState} {outcome : CommandOutcome} (priced : engine.market symbol = some state)
    (balanced : openInterest engine.store symbol .long = openInterest engine.store symbol .short)
    (ran : Executes engine (.accrueFunding symbol) (.ok outcome) engine') :
    settledSum outcome.events = 0 ↔
      sideDiscarded engine.store symbol .long state.markPrice state.fundingRateBps =
        sideDiscarded engine.store symbol .short state.markPrice state.fundingRateBps := by
  have total := settledSum_eq priced ran
  rw [balanced, Int.sub_self, Int.mul_zero] at total
  have unit : SCALE * 10000 = 10000000000 := rfl
  rw [unit] at total
  omega

/-- The sizes of the listed positions on one side. -/
def sideSizes (listing : List Position) (side : Side) : List Size :=
  (listing.filter fun pos => pos.side = side).map Position.size

theorem sideTotal_of_sizes {store : PositionStore} {symbol : Symbol} {listing : List Position}
    (lists : store.Lists symbol listing) (side : Side) (f : Size → Int) :
    sideTotal store symbol side (fun pos => f pos.size) =
      ((sideSizes listing side).map f).sum := by
  rw [sideTotal, ← lists.sum_eq]
  clear lists
  induction listing with
  | nil => rfl
  | cons pos listing ih =>
    simp only [List.map_cons, List.sum_cons, ih]
    by_cases own : pos.side = side
    · simp [sideSizes, own]
    · simp [sideSizes, own]

/-- Where longs and shorts pair up by size, the amounts sum to zero. -/
theorem funding_nets_of_paired {engine engine' : RiskEngine} {symbol : Symbol}
    {state : MarketState} {listing : List Position} {outcome : CommandOutcome}
    (priced : engine.market symbol = some state) (lists : engine.store.Lists symbol listing)
    (paired : (sideSizes listing .long).Perm (sideSizes listing .short))
    (ran : Executes engine (.accrueFunding symbol) (.ok outcome) engine') :
    settledSum outcome.events = 0 := by
  have same : ∀ f : Size → Int, sideTotal engine.store symbol .long (fun pos => f pos.size) =
      sideTotal engine.store symbol .short (fun pos => f pos.size) := by
    intro f
    rw [sideTotal_of_sizes lists, sideTotal_of_sizes lists, (paired.map f).sum_eq]
  have total := settledSum_eq priced ran
  rw [openInterest, same Size.micros, openInterest, sideDiscarded, same, sideDiscarded] at total
  have unit : SCALE * 10000 = 10000000000 := rfl
  rw [unit] at total
  omega

section Books
open Sample

/-- A size in micro-contracts, brought into range. -/
def microContracts (amount : Int) : Size where
  micros := max 1 (min amount MAX_SIZE)
  positive := by omega
  bounded := max_le (by decide) (min_le_right _ _)

/-- A long of two contracts faces two shorts of one: nothing is truncated. -/
theorem funding_nets_to_zero_whole_contracts : ∃ engine outcome engine',
    Reachable (dollars 5) standard engine ∧
      Executes engine (.accrueFunding sol) (.ok outcome) engine' ∧ outcome.events.length = 3 ∧
      settledSum outcome.events = 0 := by
  let state : MarketState := ⟨sol, price 100, price 100, rate 10⟩
  let short := fun account =>
    openedPosition account sol .short .cross (contracts 1) (price 100) tenfold (dollars 10)
  let long := openedPosition alice sol .long .cross (contracts 2) (price 100) tenfold (dollars 20)
  obtain ⟨engine, result, engine', reachable, ran, priced, balanced, even, length⟩ :=
    exists_executes_after_script (dollars 5) standard
      [({}, enter alice .long (contracts 2) (price 100) (dollars 20)),
        ({}, enter bob .short (contracts 1) (price 100) (dollars 10)),
        ({}, enter carol .short (contracts 1) (price 100) (dollars 10)),
        ({}, mark (price 100) (rate 10))]
      { listing := [long, short bob, short carol] } (.accrueFunding sol)
      (fun engine result _ => engine.market sol = some state ∧
        openInterest engine.store sol .long = openInterest engine.store sol .short ∧
        sideDiscarded engine.store sol .long state.markPrice state.fundingRateBps =
          sideDiscarded engine.store sol .short state.markPrice state.fundingRateBps ∧
        (eventsOf result).length = 3) (by decide)
  cases result with
  | error e => simp [eventsOf] at length
  | ok outcome =>
    exact ⟨engine, outcome, engine', reachable, ran, length,
      (funding_nets_to_zero_iff priced balanced ran).mpr even⟩

/-- A long of 0.015 contracts at one dollar pays a micro-dollar on one basis
point; each of two shorts of 0.0075 receives none. -/
theorem funding_drifts_on_split_shorts :
    ¬ ∀ seed config engine, Reachable seed config engine → ∀ symbol state,
      engine.market symbol = some state →
      openInterest engine.store symbol .long = openInterest engine.store symbol .short →
      ∀ outcome engine', Executes engine (.accrueFunding symbol) (.ok outcome) engine' →
        settledSum outcome.events = 0 := by
  intro nets
  let state : MarketState := ⟨sol, price 1, price 1, rate 1⟩
  let short := fun account => openedPosition account sol .short .cross (microContracts 7500)
    (price 1) tenfold (dollars 1)
  let long := openedPosition alice sol .long .cross (microContracts 15000) (price 1) tenfold
    (dollars 1)
  obtain ⟨engine, result, engine', reachable, ran, priced, balanced, differs⟩ :=
    exists_executes_after_script (dollars 5) standard
      [({}, enter alice .long (microContracts 15000) (price 1) (dollars 1)),
        ({}, enter bob .short (microContracts 7500) (price 1) (dollars 1)),
        ({}, enter carol .short (microContracts 7500) (price 1) (dollars 1)),
        ({}, mark (price 1) (rate 1))]
      { listing := [long, short bob, short carol] } (.accrueFunding sol)
      (fun engine result _ => engine.market sol = some state ∧
        openInterest engine.store sol .long = openInterest engine.store sol .short ∧
        settledSum (eventsOf result) = 1) (by decide)
  cases result with
  | error e => simp [eventsOf, settledSum] at differs
  | ok outcome =>
    have zero := nets _ _ engine reachable sol state priced balanced outcome engine' ran
    change settledSum outcome.events = 1 at differs
    omega

end Books
end MarginGuard.Guarantees
