import MarginGuard.Guarantees.Sweep
import MarginGuard.Source.Waterfall

/-!
# Does the listing order matter to a sweep?

`by_market` iterates a hash set, so the same book may come in any order. The
survivors of a sweep never depend on it. The fund and the socialised total do
as soon as a fee arrives in a fund that cannot pay every shortfall of the sweep:
a credit before a draw is spent on it, a credit after it is kept.

`sweep_order_independent_iff` is the exact condition; `order_changes_the_fund`
is a book with one solvent and one bankrupt position that violates it.
-/
namespace MarginGuard.Guarantees
open Foundation Source

/-- The socialised losses a result reports. -/
def socializedOf (result : Except CoreError CommandOutcome) : Int :=
  ((liquidationsOf (eventsOf result)).map fun l => l.socializedLoss.toInt).sum

/-- Any two sweeps of the market, on any two listings the store may give, leave
the same positions, balance and socialised total. -/
def OrderIndependent (engine : RiskEngine) (symbol : Symbol) : Prop :=
  ∀ listing₁ listing₂ one other engine₁ engine₂, SweepsOn engine symbol listing₁ one engine₁ →
    SweepsOn engine symbol listing₂ other engine₂ →
    engine₁.store = engine₂.store ∧ engine₁.insuranceBalance = engine₂.insuranceBalance ∧
      socializedOf one = socializedOf other

/-- No draw, no effective credit, or enough in the fund for every order. -/
def OrderSafe (balance : Int) (flows : List (Flow Int)) : Prop :=
  (∀ flow ∈ flows, flow.isDraw = false) ∨ (∀ amount, .credit amount ∈ flows → amount = 0) ∨
    Reserve.Covered (maxInt 128) balance flows

theorem orderFree_iff_orderSafe {mark : Price} {params : RiskParams} {listing : List Position}
    (balance : Usd) :
    Reserve.OrderFree (minInt 128) (maxInt 128) balance.toInt (sweepFlows mark params listing) ↔
      OrderSafe balance.toInt (sweepFlows mark params listing) :=
  Reserve.orderFree_iff (minInt_neg 128) (by decide) balance.fits.1 balance.fits.2
    (sweepFlows_oneSign mark params listing) fun _ member => sweepFlows_positive member

section Swept
variable {engine : RiskEngine} {symbol : Symbol} {state : MarketState} {listing : List Position}
  {settled : List Settlement}

theorem swept_balance
    (processed : Processed state.markPrice (engine.riskParams symbol) listing settled) :
    (fundAfterAll engine.state.insurance settled).balance.toInt =
      Reserve.after (minInt 128) (maxInt 128) engine.insuranceBalance.toInt
        (sweepFlows state.markPrice (engine.riskParams symbol) listing) := by
  rw [balance_fundAfterAll, processed.flows_eq]
  rfl

theorem swept_socialized
    (processed : Processed state.markPrice (engine.riskParams symbol) listing settled)
    (waterfall : Waterfall engine.state.insurance settled) :
    socializedOf (.ok ⟨sweepEvents symbol settled⟩) =
      Reserve.uncovered (minInt 128) (maxInt 128) engine.insuranceBalance.toInt
        (sweepFlows state.markPrice (engine.riskParams symbol) listing) := by
  have reported : socializedOf (.ok ⟨sweepEvents symbol settled⟩) =
      (settled.map fun s => s.socialized.toInt).sum := by
    change ((liquidationsOf (sweepEvents symbol settled)).map _).sum = _
    rw [liquidationsOf_sweep, List.map_map]
    rfl
  rw [reported, socialized_sum waterfall, processed.flows_eq]
  rfl

/-- Survivors do not depend on the listing. -/
theorem swept_store_eq {listing' : List Position} {settled' : List Settlement}
    (lists : engine.store.Lists symbol listing) (lists' : engine.store.Lists symbol listing')
    (processed : Processed state.markPrice (engine.riskParams symbol) listing settled)
    (processed' : Processed state.markPrice (engine.riskParams symbol) listing' settled') :
    (engine.swept symbol settled).store = (engine.swept symbol settled').store := by
  apply PositionStore.ext
  intro account symbol'
  rw [RiskEngine.swept_store, RiskEngine.swept_store, processed.get_removeAll lists,
    processed'.get_removeAll lists']

end Swept

theorem orderIndependent_of_orderFree {engine : RiskEngine} {symbol : Symbol} {state : MarketState}
    {listing : List Position} (priced : engine.market symbol = some state)
    (lists : engine.store.Lists symbol listing)
    (free : Reserve.OrderFree (minInt 128) (maxInt 128) engine.insuranceBalance.toInt
      (sweepFlows state.markPrice (engine.riskParams symbol) listing)) :
    OrderIndependent engine symbol := by
  intro listing₁ listing₂ one other engine₁ engine₂ ran₁ ran₂
  obtain ⟨state₁, settled₁, priced₁, lists₁, processed₁, waterfall₁, rfl, rfl⟩ := ran₁.swept
  obtain ⟨state₂, settled₂, priced₂, lists₂, processed₂, waterfall₂, rfl, rfl⟩ := ran₂.swept
  obtain rfl : state₁ = state := Option.some.inj (priced₁.symm.trans priced)
  obtain rfl : state₂ = state₁ := Option.some.inj (priced₂.symm.trans priced)
  have same := free _ _ (sweepFlows_perm _ _ (lists₁.perm lists))
    (sweepFlows_perm _ _ (lists₂.perm lists))
  refine ⟨swept_store_eq lists₁ lists₂ processed₁ processed₂, ?_, ?_⟩
  · apply Usd.toInt_injective
    change (fundAfterAll engine.state.insurance settled₁).balance.toInt =
      (fundAfterAll engine.state.insurance settled₂).balance.toInt
    rw [swept_balance processed₁, swept_balance processed₂, same.1]
  · rw [swept_socialized processed₁ waterfall₁, swept_socialized processed₂ waterfall₂, same.2]

theorem orderFree_of_orderIndependent {engine : RiskEngine} {symbol : Symbol} {state : MarketState}
    {listing : List Position} (priced : engine.market symbol = some state)
    (lists : engine.store.Lists symbol listing) (independent : OrderIndependent engine symbol) :
    Reserve.OrderFree (minInt 128) (maxInt 128) engine.insuranceBalance.toInt
      (sweepFlows state.markPrice (engine.riskParams symbol) listing) := by
  intro one other first second
  -- every order of the flows is the order of some listing the store may give
  obtain ⟨listing₁, reordered₁, rfl⟩ := exists_listing_of_flows first
  obtain ⟨listing₂, reordered₂, rfl⟩ := exists_listing_of_flows second
  obtain ⟨settled₁, processed₁, waterfall₁, ran₁⟩ := exists_sweep priced (lists.reorder reordered₁)
  obtain ⟨settled₂, processed₂, waterfall₂, ran₂⟩ := exists_sweep priced (lists.reorder reordered₂)
  obtain ⟨_, sameBalance, sameLoss⟩ := independent _ _ _ _ _ _ ran₁ ran₂
  have balances := congrArg Usd.toInt sameBalance
  change (fundAfterAll engine.state.insurance settled₁).balance.toInt =
    (fundAfterAll engine.state.insurance settled₂).balance.toInt at balances
  rw [swept_balance processed₁, swept_balance processed₂] at balances
  rw [swept_socialized processed₁ waterfall₁, swept_socialized processed₂ waterfall₂] at sameLoss
  exact ⟨balances, sameLoss⟩

/-- A sweep is independent of the listing order exactly when its flows are order-safe. -/
theorem sweep_order_independent_iff (engine : RiskEngine) (symbol : Symbol) :
    OrderIndependent engine symbol ↔ ∀ state listing, engine.market symbol = some state →
      engine.store.Lists symbol listing →
      OrderSafe engine.insuranceBalance.toInt
        (sweepFlows state.markPrice (engine.riskParams symbol) listing) := by
  constructor
  · intro independent state listing priced lists
    exact (orderFree_iff_orderSafe _).mp (orderFree_of_orderIndependent priced lists independent)
  · intro safe
    cases priced : engine.market symbol with
    | some state =>
      obtain ⟨listing, lists⟩ := engine.store.exists_lists symbol
      exact orderIndependent_of_orderFree priced lists
        ((orderFree_iff_orderSafe _).mpr (safe state listing priced lists))
    | none =>
      intro listing₁ listing₂ one other engine₁ engine₂ ran₁
      obtain ⟨state, _, priced₁, _⟩ := ran₁.swept
      rw [priced] at priced₁
      cases priced₁

open Sample in
/-- An empty fund, a bankrupt long and a solvent one in breach: swept in this
order the fund keeps the fee, in the other it spends it. -/
theorem order_changes_the_fund :
    ¬ ∀ seed config engine, Reachable seed config engine →
      ∀ symbol, OrderIndependent engine symbol := by
  intro independent
  let bankrupt :=
    openedPosition alice sol .long .cross (contracts 10) (price 100) tenfold (dollars 60)
  let solvent :=
    openedPosition bob sol .long .cross (contracts 10) (price 100) tenfold (dollars 110)
  obtain ⟨entries, engine, run, checked⟩ := exists_history_of_script (dollars 0) standard
    (fun _ _ => True)
    [({}, enter alice .long (contracts 10) (price 100) (dollars 60)),
      ({}, enter bob .long (contracts 10) (price 100) (dollars 110)), ({}, mark (price 90) (rate 0))]
    (fun _ engine =>
      (execute { listing := [bankrupt, solvent] } engine (.liquidateMarket sol)).any fun first =>
      (execute { listing := [solvent, bankrupt] } engine (.liquidateMarket sol)).any fun second =>
        eventsOf first.1 ≠ [] ∧ eventsOf second.1 ≠ [] ∧
          first.2.insuranceBalance ≠ second.2.insuranceBalance) (by decide)
  obtain ⟨⟨one, engine₁⟩, ran₁, rest⟩ := (Option.any_eq_true _ _).mp checked
  obtain ⟨⟨other, engine₂⟩, ran₂, differ⟩ := (Option.any_eq_true _ _).mp rest
  obtain ⟨events₁, events₂, balances⟩ := of_decide_eq_true differ
  cases one with
  | error e => exact events₁ rfl
  | ok outcome₁ =>
    cases other with
    | error e => exact events₂ rfl
    | ok outcome₂ =>
      obtain ⟨listing₁, sweep₁⟩ := (execute_executes ran₁).sweepsOn
      obtain ⟨listing₂, sweep₂⟩ := (execute_executes ran₂).sweepsOn
      exact balances (independent _ _ engine ⟨entries, run⟩ sol _ _ _ _ _ _ sweep₁ sweep₂).2.1

end MarginGuard.Guarantees
