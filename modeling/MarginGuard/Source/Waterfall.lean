import Mathlib.Algebra.Order.BigOperators.Group.List
import MarginGuard.Foundation.Reserve
import MarginGuard.Source.Invariants

/-!
# The insurance fund as a reserve

A liquidated position moves the fund by one `Flow`: a solvent one credits its
capped fee, a bankrupt one draws its shortfall. The fund's balance and the
socialised losses of a sweep are then those of a `Foundation.Reserve` over the
`i128` range (`balance_fundAfterAll`, `socialized_sum`), so questions about the
waterfall become questions about a list of flows.

`exists_sweep` shows that a sweep really runs for every listing the store may
give.
-/
namespace MarginGuard.Source
open Foundation

/-- How liquidating the position moves the fund. -/
def fundFlow (mark : Price) (params : RiskParams) (pos : Position) : Flow Int :=
  if (positionEquity pos mark).isNegative then .draw (positionEquity pos mark).neg.toInt
  else
    .credit (((pos.notional mark).mulBps params.liquidationFeeBps).min (positionEquity pos mark)).toInt

/-- The fund movements of a sweep over a listing, in its order. -/
def sweepFlows (mark : Price) (params : RiskParams) (listing : List Position) : List (Flow Int) :=
  (listing.filter fun pos => isLiquidatable pos mark params).map (fundFlow mark params)

def Settlement.flow (s : Settlement) : Flow Int := fundFlow s.mark s.params s.position

theorem flow_of_bankrupt {s : Settlement} (short : s.bankrupt = true) :
    s.flow = .draw s.equity.neg.toInt := if_pos short

theorem flow_of_solvent {s : Settlement} (solvent : s.bankrupt = false) :
    s.flow = .credit (s.fee.min s.equity).toInt := if_neg (by
      rw [Settlement.bankrupt, Settlement.equity] at solvent
      rw [solvent]
      exact Bool.false_ne_true)

theorem shortfall_pos {s : Settlement} (short : s.bankrupt = true) : 0 < s.equity.neg.toInt :=
  Usd.neg_pos (Settlement.equity_neg short)

namespace InsuranceFund

theorem balance_cover (fund : InsuranceFund) {shortfall : Usd} (positive : 0 < shortfall.toInt) :
    (fund.cover shortfall).2.balance.toInt = max (fund.balance.toInt - shortfall.toInt) 0 := by
  unfold cover
  split
  · next enough =>
    rw [Usd.le_iff] at enough
    have low := minInt_neg 128
    have high := fund.balance.fits.2
    change (fund.balance.saturatingSub shortfall).toInt = _
    rw [Usd.toInt_saturatingSub_of_fits ⟨by omega, by omega⟩]
    omega
  · next short =>
    rw [Usd.le_iff] at short
    change (0 : Int) = _
    omega

/-- What the fund cannot pay out of a positive balance is socialised. -/
theorem socialized_cover (fund : InsuranceFund) {shortfall : Usd}
    (positive : 0 < shortfall.toInt) :
    (fund.cover shortfall).1.2.toInt = max (shortfall.toInt - max fund.balance.toInt 0) 0 := by
  unfold cover
  split
  · next enough =>
    rw [Usd.le_iff] at enough
    change (0 : Int) = _
    omega
  · next short =>
    rw [Usd.le_iff] at short
    have low := minInt_neg 128
    have high := shortfall.fits.2
    have drawn : (fund.balance.max .ZERO).toInt = max fund.balance.toInt 0 := Usd.toInt_max _ _
    change (shortfall.saturatingSub (fund.balance.max .ZERO)).toInt = _
    rw [Usd.toInt_saturatingSub_of_fits (by rw [drawn]; exact ⟨by omega, by omega⟩), drawn]
    omega

/-- What the fund pays: the shortfall, or whatever positive balance it has. -/
theorem drawn_cover (fund : InsuranceFund) {shortfall : Usd} (positive : 0 < shortfall.toInt) :
    (fund.cover shortfall).1.1.toInt = min shortfall.toInt (max fund.balance.toInt 0) := by
  unfold cover
  split
  · next enough =>
    rw [Usd.le_iff] at enough
    change shortfall.toInt = _
    omega
  · next short =>
    rw [Usd.le_iff] at short
    have drawn : (fund.balance.max .ZERO).toInt = max fund.balance.toInt 0 := Usd.toInt_max _ _
    change (fund.balance.max .ZERO).toInt = _
    rw [drawn]
    omega

end InsuranceFund

theorem balance_fundAfter (s : Settlement) (fund : InsuranceFund) :
    (s.fundAfter fund).balance.toInt =
      Reserve.step (minInt 128) (maxInt 128) fund.balance.toInt s.flow := by
  cases short : s.bankrupt with
  | true =>
    rw [Settlement.fundAfter, if_pos short, flow_of_bankrupt short,
      InsuranceFund.balance_cover _ (shortfall_pos short), Reserve.step]
  | false =>
    rw [Settlement.fundAfter, if_neg (by simp [short]), flow_of_solvent short]
    exact Usd.toInt_saturatingAdd _ _

theorem balance_fundAfterAll (settled : List Settlement) (fund : InsuranceFund) :
    (fundAfterAll fund settled).balance.toInt =
      Reserve.after (minInt 128) (maxInt 128) fund.balance.toInt (settled.map Settlement.flow) := by
  induction settled generalizing fund with
  | nil => rfl
  | cons s settled ih =>
    have rest := ih (s.fundAfter fund)
    rw [balance_fundAfter] at rest
    exact rest

theorem socialized_of_answered {s : Settlement} {fund : InsuranceFund}
    (answered : s.bankrupt = true → (s.drawn, s.socialized) = (fund.cover s.equity.neg).1) :
    s.socialized.toInt = Reserve.unpaid fund.balance.toInt s.flow := by
  cases short : s.bankrupt with
  | true =>
    have told := congrArg Prod.snd (answered short)
    change s.socialized = _ at told
    rw [told, InsuranceFund.socialized_cover _ (shortfall_pos short), flow_of_bankrupt short,
      Reserve.unpaid]
  | false =>
    rw [(s.solvent (Settlement.equity_nonneg short)).2, flow_of_solvent short]
    rfl

/-- The socialised losses of a sweep are what its draws leave uncovered. -/
theorem socialized_sum {fund : InsuranceFund} {settled : List Settlement}
    (waterfall : Waterfall fund settled) :
    (settled.map fun s => s.socialized.toInt).sum =
      Reserve.uncovered (minInt 128) (maxInt 128) fund.balance.toInt
        (settled.map Settlement.flow) := by
  induction settled generalizing fund with
  | nil => rfl
  | cons s settled ih =>
    rw [List.map_cons, List.sum_cons, List.map_cons, Reserve.uncovered, ih waterfall.2,
      socialized_of_answered waterfall.1, balance_fundAfter]

/-- No settlement socialises a gain. -/
theorem Waterfall.socialized_nonneg {fund : InsuranceFund} {settled : List Settlement}
    (waterfall : Waterfall fund settled) : ∀ s ∈ settled, 0 ≤ s.socialized.toInt := by
  induction settled generalizing fund with
  | nil => simp
  | cons s settled ih =>
    rw [List.forall_mem_cons]
    refine ⟨?_, ih waterfall.2⟩
    rw [socialized_of_answered waterfall.1]
    unfold Reserve.unpaid
    split
    · exact le_rfl
    · exact le_max_right _ _

theorem sum_socialized_nonneg {settled : List Settlement}
    (losses : ∀ s ∈ settled, 0 ≤ s.socialized.toInt) :
    0 ≤ (settled.map fun s => s.socialized.toInt).sum := by
  apply List.sum_nonneg
  intro amount member
  obtain ⟨s, listed, rfl⟩ := List.mem_map.mp member
  exact losses s listed

theorem foldl_addSocialized {settled : List Settlement} (total : Usd) (start : 0 ≤ total.toInt)
    (losses : ∀ s ∈ settled, 0 ≤ s.socialized.toInt) :
    (settled.foldl Settlement.addSocialized total).toInt =
      min (maxInt 128) (total.toInt + (settled.map fun s => s.socialized.toInt).sum) := by
  induction settled generalizing total with
  | nil =>
    have high := total.fits.2
    simp only [List.foldl_nil, List.map_nil, List.sum_nil]
    omega
  | cons s settled ih =>
    rw [List.forall_mem_cons] at losses
    have rest := sum_socialized_nonneg losses.2
    have low := minInt_neg 128
    have added : (s.addSocialized total).toInt = max (minInt 128) (min (maxInt 128)
        (total.toInt + s.socialized.toInt)) := Usd.toInt_saturatingAdd _ _
    have high : 0 ≤ maxInt 128 := by decide
    rw [List.foldl_cons, ih _ (by omega) losses.2, added, List.map_cons, List.sum_cons]
    omega

/-- The socialised total of a sweep is the sum of its losses, up to the limit. -/
theorem toInt_totalSocialized {settled : List Settlement}
    (losses : ∀ s ∈ settled, 0 ≤ s.socialized.toInt) :
    (totalSocialized settled).toInt =
      min (maxInt 128) (settled.map fun s => s.socialized.toInt).sum := by
  have total := foldl_addSocialized .ZERO le_rfl losses
  rwa [Usd.toInt_ZERO, Int.zero_add] at total

theorem Processed.flows_eq {mark : Price} {params : RiskParams} {listing : List Position}
    {settled : List Settlement} (processed : Processed mark params listing settled) :
    settled.map Settlement.flow = sweepFlows mark params listing := by
  rw [sweepFlows, ← processed.positions_eq, List.map_map]
  apply List.map_congr_left
  intro s member
  obtain ⟨sameMark, sameParams⟩ := processed.terms s member
  rw [Settlement.flow, sameMark, sameParams]
  rfl

/-! ## Facts about the flows of one sweep -/

/-- Draws of a sweep are positive. -/
theorem sweepFlows_positive {mark : Price} {params : RiskParams} {listing : List Position}
    {shortfall : Int} (member : .draw shortfall ∈ sweepFlows mark params listing) :
    0 < shortfall := by
  obtain ⟨pos, _, same⟩ := List.mem_map.mp member
  unfold fundFlow at same
  split at same
  · next short =>
    obtain rfl := Flow.draw.inj same
    exact Usd.neg_pos ((Usd.isNegative_iff _).mp short)
  · cases same

/-- A credit of a sweep is the fee of a solvent position, capped by its equity. -/
theorem sweepFlows_credit {mark : Price} {params : RiskParams} {listing : List Position}
    {amount : Int} (member : .credit amount ∈ sweepFlows mark params listing) :
    ∃ pos : Position, 0 ≤ (positionEquity pos mark).toInt ∧
      amount = min ((pos.notional mark).mulBps params.liquidationFeeBps).toInt
        (positionEquity pos mark).toInt := by
  obtain ⟨pos, _, same⟩ := List.mem_map.mp member
  unfold fundFlow at same
  split at same
  · cases same
  · next solvent =>
    rw [Usd.isNegative_iff, not_lt] at solvent
    exact ⟨pos, solvent, by rw [← Flow.credit.inj same, Usd.toInt_min]⟩

/-- A non-negative fee rate credits nothing negative. -/
theorem sweepFlows_gains {mark : Price} {params : RiskParams} {listing : List Position}
    (fee : 0 ≤ params.liquidationFeeBps.toInt) {amount : Int}
    (member : .credit amount ∈ sweepFlows mark params listing) : 0 ≤ amount := by
  obtain ⟨pos, solvent, rfl⟩ := sweepFlows_credit member
  exact le_min (Usd.mulBps_nonneg (pos.notional_nonneg mark) fee) solvent

/-- One fee rate for the market: the fund only gains, or only loses. -/
theorem sweepFlows_oneSign (mark : Price) (params : RiskParams) (listing : List Position) :
    Reserve.OneSign (sweepFlows mark params listing) := by
  rcases le_total 0 params.liquidationFeeBps.toInt with gain | loss
  · exact Or.inl fun amount member => sweepFlows_gains gain member
  · refine Or.inr fun amount member => ?_
    obtain ⟨pos, _, rfl⟩ := sweepFlows_credit member
    exact min_le_of_left_le (Usd.mulBps_nonpos (pos.notional_nonneg mark) loss)

theorem sweepFlows_perm (mark : Price) (params : RiskParams) {listing other : List Position}
    (perm : listing.Perm other) :
    (sweepFlows mark params listing).Perm (sweepFlows mark params other) :=
  (perm.filter _).map _

/-- Reordering the flows reorders the listing. -/
theorem exists_listing_of_flows {mark : Price} {params : RiskParams} {listing : List Position}
    {flows : List (Flow Int)} (perm : flows.Perm (sweepFlows mark params listing)) :
    ∃ other : List Position, other.Perm listing ∧ sweepFlows mark params other = flows := by
  let breach := fun pos => isLiquidatable pos mark params
  have split := congrFun (congrFun (List.eq_map_comp_perm (fundFlow mark params)) flows)
    (listing.filter breach)
  obtain ⟨taken, rfl, reordered⟩ := split.mpr perm
  refine ⟨taken ++ listing.filter fun pos => !breach pos, ?_, ?_⟩
  · exact (reordered.append_right _).trans (List.filter_append_perm _ _)
  · have all : taken.filter breach = taken := List.filter_eq_self.mpr fun pos member =>
      (List.mem_filter.mp (reordered.mem_iff.mp member)).2
    have rest : (listing.filter fun pos => !breach pos).filter breach = [] :=
      List.filter_eq_nil_iff.mpr fun pos member => by
        simpa using (List.mem_filter.mp member).2
    change ((taken ++ listing.filter fun pos => !breach pos).filter breach).map _ = _
    rw [List.filter_append, all, rest, List.append_nil]

/-! ## Sweeps run -/

/-- A sweep in which `by_market` answered with this listing. -/
def SweepsOn (engine : RiskEngine) (symbol : Symbol) (listing : List Position)
    (result : Except CoreError CommandOutcome) (engine' : RiskEngine) : Prop :=
  ∃ calls, Program.Returns (RiskEngine.apply (.liquidateMarket symbol)) calls result ∧
    portsUp.Legal engine calls ∧ engine' = portsUp.after engine calls ∧
    ⟨.byMarket symbol, .ok listing⟩ ∈ calls

/-- An accepted sweep was one over some listing. -/
theorem Executes.sweepsOn {engine engine' : RiskEngine} {symbol : Symbol}
    {outcome : CommandOutcome}
    (ran : Executes engine (.liquidateMarket symbol) (.ok outcome) engine') :
    ∃ listing, SweepsOn engine symbol listing (.ok outcome) engine' := by
  obtain ⟨calls, applied, legal, final⟩ := ran
  cases returns_apply applied with
  | published body outcome run =>
    cases returns_liquidateMarket run with
    | swept mark params listing settled processed =>
      exact ⟨listing, _, applied, legal, final,
        List.mem_cons_of_mem _ (List.mem_cons_of_mem _ List.mem_cons_self)⟩

/-- A settlement does not list the market. -/
theorem byMarket_notMem_settlements {symbol : Symbol} {settled : List Settlement}
    {symbol' : Symbol} {ans : Except PortError (List Position)} :
    (⟨.byMarket symbol', ans⟩ : EngineCall) ∉ settled.flatMap (Settlement.calls symbol) := by
  intro member
  obtain ⟨s, -, same | same | same | same⟩ := Settlement.mem_settlements member <;> cases same

/-- A completed sweep listed the market once. -/
theorem listing_eq_of_mem {symbol : Symbol} {terms : Option (Price × RiskParams)} {total : Usd}
    {settled : List Settlement} {listing listing' : List Position}
    (member : (⟨.byMarket symbol, .ok listing⟩ : EngineCall) ∈
      (⟨.sweepTerms symbol, terms⟩ : EngineCall) :: ⟨.byMarket symbol, .ok listing'⟩ ::
        (settled.flatMap (Settlement.calls symbol) ++ adlCalls total)) : listing = listing' := by
  rcases List.mem_cons.mp member with same | member
  · cases same
  rcases List.mem_cons.mp member with same | member
  · cases same
    rfl
  · rcases List.mem_append.mp member with settlements | adl
    · exact absurd settlements byMarket_notMem_settlements
    · cases mem_adlCalls adl

/-- What a sweep over a listing leaves. -/
theorem SweepsOn.swept {engine engine' : RiskEngine} {symbol : Symbol} {listing : List Position}
    {result : Except CoreError CommandOutcome}
    (ran : SweepsOn engine symbol listing result engine') :
    ∃ state settled, engine.market symbol = some state ∧ engine.store.Lists symbol listing ∧
      Processed state.markPrice (engine.riskParams symbol) listing settled ∧
      Waterfall engine.state.insurance settled ∧ result = .ok ⟨sweepEvents symbol settled⟩ ∧
      engine' = (engine.swept symbol settled).emit (sweepEvents symbol settled) := by
  obtain ⟨calls, run, legal, rfl, member⟩ := ran
  cases applied_of_returns run (possible_of_legal legal) with
  | rateLimited => simp at member
  | admitted body r served =>
    rcases List.mem_cons.mp member with same | member
    · cases same
    have listed : (⟨.byMarket symbol, .ok listing⟩ : EngineCall) ∈ body := by
      rcases List.mem_append.mp member with inside | published
      · exact inside
      · cases mem_publishCalls published
    cases served with
    | positionExists opens => cases opens
    | insufficientMargin opens => cases opens
    | opened opens => cases opens
    | sweepUnpriced => simp at listed
    | swept _ mark params listing' settled processed =>
      obtain rfl := listing_eq_of_mem listed
      obtain ⟨state, priced, rfl, rfl, lists, waterfall, final⟩ :=
        swept_of_legal ((Machine.legal_append _ _ _).mp legal.2).1
      refine ⟨state, settled, priced, lists, processed, waterfall, rfl, ?_⟩
      rw [Machine.after_cons, Machine.after_append, after_publish]
      exact congrArg (RiskEngine.emit · _) final

/-- Whatever listing the store gives, an admitted sweep runs on it. -/
theorem exists_sweep {engine : RiskEngine} {symbol : Symbol} {state : MarketState}
    {listing : List Position} (priced : engine.market symbol = some state)
    (lists : engine.store.Lists symbol listing) :
    ∃ settled, Processed state.markPrice (engine.riskParams symbol) listing settled ∧
      Waterfall engine.state.insurance settled ∧
      SweepsOn engine symbol listing (.ok ⟨sweepEvents symbol settled⟩)
        ((engine.swept symbol settled).emit (sweepEvents symbol settled)) := by
  obtain ⟨rest, path⟩ : ∃ rest, Program.Leads (RiskEngine.liquidateMarket symbol)
      [⟨.sweepTerms symbol, some (state.markPrice, engine.riskParams symbol)⟩,
        ⟨.byMarket symbol, .ok listing⟩] rest := ⟨_, .step (.step (.refl _))⟩
  obtain ⟨r, _, calls, run, legal, _⟩ := Machine.exists_completes portsUp_answers rest engine
  have body := path.returns_append run
  have answers : portsUp.Legal engine
      ([⟨.sweepTerms symbol, some (state.markPrice, engine.riskParams symbol)⟩,
        ⟨.byMarket symbol, .ok listing⟩] ++ calls) := by
    refine ⟨?_, lists, legal⟩
    change some _ = (engine.market symbol).map _
    rw [priced]
    rfl
  cases returns_liquidateMarket body with
  | cut mark params settled done pos rest e processed breach =>
    cases ((Machine.legal_append _ _ _).mp legal).2.1
  | swept mark params listing settled processed =>
    obtain ⟨_, _, _, _, _, waterfall, final⟩ := swept_of_legal answers
    refine ⟨settled, processed, waterfall, _, apply_returns body, ?_, ?_, ?_⟩
    · exact ⟨trivial, (Machine.legal_append _ _ _).mpr ⟨answers, legal_publish _ _⟩⟩
    · rw [Machine.after_cons, Machine.after_append, after_publish]
      exact congrArg (RiskEngine.emit · _) final.symm
    · exact List.mem_cons_of_mem _ (List.mem_cons_of_mem _ List.mem_cons_self)

end MarginGuard.Source
