import MarginGuard.Source.Faults
import MarginGuard.Source.Script

/-!
# A sweep can be resumed

A sweep commits position by position: what it has settled before a removal
fails is removed, paid for and counted, and nothing else is. The next attempt
lists what is left. So any number of attempts cut short, and one that is not,
settle the same positions in the same order as one uninterrupted sweep
(`resumed_sweep_agrees`).
-/
namespace MarginGuard.Guarantees
open Foundation Source

/-- A `LiquidateMarket` over this listing, cut short by a removal that failed. -/
def CutOn (engine : RiskEngine) (symbol : Symbol) (listing : List Position)
    (engine' : RiskEngine) : Prop :=
  ∃ calls e, Program.Returns (RiskEngine.apply (.liquidateMarket symbol)) calls (.error (.port e)) ∧
    (portsMayFail Action.isRemove).Legal engine calls ∧
    engine' = (portsMayFail Action.isRemove).after engine calls ∧
    Environment.Decides { listing } calls

/-- Attempts cut short one after another, each listing the market in the order
of the first listing. -/
inductive CutSweeps (symbol : Symbol) (order : List Position) (start : RiskEngine) :
    RiskEngine → Prop
  | refl : CutSweeps symbol order start start
  | cut {engine engine' : RiskEngine} {listing : List Position}
      (before : CutSweeps symbol order start engine) (inOrder : listing.Sublist order)
      (attempt : CutOn engine symbol listing engine') : CutSweeps symbol order start engine'

/-! ## Sublists of one order -/

/-- Two parts of a duplicate-free list with the same members are equal: both
stand in its order. -/
theorem sublist_eq_of_mem_iff {α : Type} [DecidableEq α] {part part' whole : List α}
    (nodup : whole.Nodup) (sub : part.Sublist whole) (sub' : part'.Sublist whole)
    (same : ∀ a, a ∈ part ↔ a ∈ part') : part = part' := by
  have ordered : whole.Pairwise fun a b => whole.idxOf a < whole.idxOf b := by
    rw [List.pairwise_iff_getElem]
    intro i j first second lt
    rwa [nodup.idxOf_getElem, nodup.idxOf_getElem]
  have perm := (List.perm_ext_iff_of_nodup (sub.nodup nodup) (sub'.nodup nodup)).mpr same
  refine perm.eq_of_pairwise (fun a b _ _ before after => ?_) (ordered.sublist sub)
    (ordered.sublist sub')
  omega

section Remaining
variable {start : RiskEngine} {symbol : Symbol} {mark : Price} {params : RiskParams}
  {order listing : List Position} {settled : List Settlement} {rest : List Position}

/-- A position that settlements of others leave is still stored. -/
theorem get_settledAll (lists : start.store.Lists symbol order)
    (taken : ∀ s ∈ settled, s.position ∈ order) (pos : Position) :
    (start.settledAll symbol settled).store.get pos.account.asStr symbol = some pos ↔
      pos ∈ order ∧ pos ∉ settled.map Settlement.position := by
  have left : (start.settledAll symbol settled).store.get pos.account.asStr symbol =
      if symbol = symbol ∧ pos.account.asStr ∈
        (settled.map Settlement.position).map (fun pos => pos.account.asStr) then none
      else start.store.get pos.account.asStr symbol :=
    PositionStore.get_removeAll _ _ _ _ _
  rw [left, lists.mem_iff]
  constructor
  · intro stored
    split at stored
    · cases stored
    · next other =>
      exact ⟨stored, fun member => other ⟨rfl, List.mem_map_of_mem member⟩⟩
  · rintro ⟨stored, fresh⟩
    rw [if_neg, stored]
    rintro ⟨-, member⟩
    obtain ⟨other, listed, same⟩ := List.mem_map.mp member
    obtain ⟨s, settledMember, rfl⟩ := List.mem_map.mp listed
    have held := (lists.mem_iff _).mp (taken s settledMember)
    rw [same, stored] at held
    exact fresh (Option.some.inj held ▸ listed)

/-- What is left to liquidate after settlements, in the first order. -/
theorem remaining_eq (lists : start.store.Lists symbol order)
    (split : (order.filter fun pos => isLiquidatable pos mark params) =
      settled.map Settlement.position ++ rest)
    (lists' : (start.settledAll symbol settled).store.Lists symbol listing)
    (inOrder : listing.Sublist order) :
    (listing.filter fun pos => isLiquidatable pos mark params) = rest := by
  have nodup : (order.filter fun pos => isLiquidatable pos mark params).Nodup :=
    (List.Nodup.of_map _ lists.nodup).filter _
  have disjoint := List.disjoint_of_nodup_append (split ▸ nodup)
  have member : ∀ pos, pos ∈ order ∧ isLiquidatable pos mark params = true ↔
      pos ∈ settled.map Settlement.position ∨ pos ∈ rest := by
    intro pos
    have both := @List.mem_append _ pos (settled.map Settlement.position) rest
    rwa [← split, List.mem_filter] at both
  have taken : ∀ s ∈ settled, s.position ∈ order := fun s own =>
    ((member _).mpr (Or.inl (List.mem_map_of_mem own))).1
  refine sublist_eq_of_mem_iff nodup (inOrder.filter _)
    (split ▸ List.sublist_append_right _ _) fun pos => ?_
  rw [List.mem_filter, lists'.mem_iff, get_settledAll lists taken]
  constructor
  · rintro ⟨⟨listed, fresh⟩, breach⟩
    exact ((member pos).mp ⟨listed, breach⟩).resolve_left fresh
  · intro left
    obtain ⟨listed, breach⟩ := (member pos).mpr (Or.inr left)
    exact ⟨⟨listed, fun own => disjoint own left⟩, breach⟩

end Remaining

/-! ## The attempts -/

/-- How far attempts have come: the settlements made, in the order of the first
listing, and the positions in breach that are left. -/
structure Progress (start : RiskEngine) (symbol : Symbol) (state : MarketState)
    (order : List Position) (settled : List Settlement) (rest : List Position)
    (engine : RiskEngine) : Prop where
  engine_eq : engine = start.settledAll symbol settled
  terms : ∀ s ∈ settled, s.mark = state.markPrice ∧ s.params = start.riskParams symbol
  split : (order.filter fun pos =>
    isLiquidatable pos state.markPrice (start.riskParams symbol)) =
      settled.map Settlement.position ++ rest

/-- A cut attempt, taken apart. -/
theorem CutOn.settled {engine engine' : RiskEngine} {symbol : Symbol} {listing : List Position}
    (cut : CutOn engine symbol listing engine') :
    ∃ state settled done pos rest, engine.market symbol = some state ∧
      engine.store.Lists symbol listing ∧ listing = done ++ pos :: rest ∧
      Processed state.markPrice (engine.riskParams symbol) done settled ∧
      engine' = engine.settledAll symbol settled := by
  obtain ⟨calls, e, run, legal, rfl, -, listed⟩ := cut
  generalize failed : (.error (.port e) : Except CoreError CommandOutcome) = r at run
  cases returns_apply run with
  | rateLimited => cases failed
  | unpublished body outcome e' dispatched nonempty =>
    -- only removals fail
    have answered := ((Machine.legal_append _ _ _).mp legal.2).2.1
    rcases answered with up | ⟨down, -⟩
    · cases up
    · cases down
  | published body outcome dispatched => cases failed
  | failed body e' dispatched =>
    cases returns_liquidateMarket dispatched with
    | noMarket => cases failed
    | listingFailed mark params e'' => cases listed symbol (.error e'') (by simp)
    | cut mark params settled done pos rest e'' processed breach =>
      have same := Except.ok.inj (listed symbol (.ok (done ++ pos :: rest)) (by simp))
      obtain ⟨state, priced, rfl, rfl, lists, -, final⟩ := cut_of_legal legal.2
      rw [same] at lists
      exact ⟨state, settled, done, pos, rest, priced, lists, same.symm, processed, final⟩

section Resume
variable {start engine engine' : RiskEngine} {symbol : Symbol} {state : MarketState}
  {order listing : List Position} {settled : List Settlement} {rest : List Position}

/-- A cut attempt moves on along the first order. -/
theorem Progress.step (priced : start.market symbol = some state)
    (lists : start.store.Lists symbol order)
    (progress : Progress start symbol state order settled rest engine)
    (inOrder : listing.Sublist order) (attempt : CutOn engine symbol listing engine') :
    ∃ settled' rest', Progress start symbol state order settled' rest' engine' := by
  obtain ⟨rfl, terms, split⟩ := progress
  obtain ⟨state', more, done, pos, tail, priced', lists', rfl, processed, rfl⟩ := attempt.settled
  obtain rfl : state' = state := Option.some.inj (priced'.symm.trans priced)
  have processed : Processed state'.markPrice (start.riskParams symbol) done more := processed
  have left := remaining_eq lists split lists' inOrder
  refine ⟨settled ++ more, (pos :: tail).filter fun pos =>
    isLiquidatable pos state'.markPrice (start.riskParams symbol), ?_, ?_, ?_⟩
  · exact (RiskEngine.settledAll_append _ _ _ _).symm
  · intro s member
    rcases List.mem_append.mp member with before | now
    · exact terms s before
    · exact processed.terms s now
  · rw [split, ← left, List.filter_append, List.map_append, ← processed.positions_eq,
      List.append_assoc]

theorem CutSweeps.progress (priced : start.market symbol = some state)
    (lists : start.store.Lists symbol order) (cuts : CutSweeps symbol order start engine) :
    ∃ settled rest, Progress start symbol state order settled rest engine := by
  induction cuts with
  | refl => exact ⟨[], _, rfl, by simp, rfl⟩
  | cut before inOrder attempt ih =>
    obtain ⟨settled, rest, progress⟩ := ih
    exact progress.step priced lists inOrder attempt

/-- The same positions settled at the same terms leave the same engine. -/
theorem settledAll_congr {mark : Price} {params : RiskParams} {other : List Settlement}
    (positions : settled.map Settlement.position = other.map Settlement.position)
    (terms : ∀ s ∈ settled, s.mark = mark ∧ s.params = params)
    (terms' : ∀ s ∈ other, s.mark = mark ∧ s.params = params) :
    start.settledAll symbol settled = start.settledAll symbol other := by
  have length : settled.length = other.length := by
    rw [← List.length_map Settlement.position, positions, List.length_map]
  have flows : ∀ all : List Settlement, (∀ s ∈ all, s.mark = mark ∧ s.params = params) →
      all.map Settlement.flow = (all.map Settlement.position).map (fundFlow mark params) := by
    intro all own
    rw [List.map_map]
    refine List.map_congr_left fun s member => ?_
    rw [Settlement.flow, (own s member).1, (own s member).2]
    rfl
  have fund : fundAfterAll start.state.insurance settled =
      fundAfterAll start.state.insurance other := by
    apply InsuranceFund.ext
    apply Usd.toInt_injective
    rw [balance_fundAfterAll, balance_fundAfterAll, flows settled terms, flows other terms',
      positions]
  simp only [RiskEngine.settledAll, positions, length, fund]

/-- A market without a state is never swept, not even in part. -/
theorem CutSweeps.unpriced (unpriced : start.market symbol = none)
    (cuts : CutSweeps symbol order start engine) : engine = start := by
  induction cuts with
  | refl => rfl
  | cut before inOrder attempt ih =>
    obtain ⟨state, _, _, _, _, priced, _⟩ := attempt.settled
    rw [ih, unpriced] at priced
    cases priced

end Resume

/-- Any number of sweeps of a market, each cut short by a failing removal, and
one that is not leave the positions, the fund and the counters of one
uninterrupted sweep, when each lists what is left in the order of the first. -/
theorem resumed_sweep_agrees {start engine resumed uninterrupted : RiskEngine} {symbol : Symbol}
    {order listing : List Position} {result result' : Except CoreError CommandOutcome}
    (cuts : CutSweeps symbol order start engine) (inOrder : listing.Sublist order)
    (last : execute { listing } engine (.liquidateMarket symbol) = some (result, resumed))
    (whole : execute { listing := order } start (.liquidateMarket symbol) =
      some (result', uninterrupted)) :
    resumed.store = uninterrupted.store ∧
      resumed.insuranceBalance = uninterrupted.insuranceBalance ∧
      resumed.stats.openPositions = uninterrupted.stats.openPositions ∧
      resumed.stats.liquidations = uninterrupted.stats.liquidations := by
  cases priced : start.market symbol with
  | none =>
    have same := cuts.unpriced priced
    subst same
    rw [execute_unpriced last priced, execute_unpriced whole priced]
    exact ⟨rfl, rfl, rfl, rfl⟩
  | some state =>
    obtain ⟨state₁, all, priced₁, lists, processed, _, _, rfl⟩ :=
      (execute_swept whole rfl priced).swept
    obtain rfl : state₁ = state := Option.some.inj (priced₁.symm.trans priced)
    obtain ⟨settled, rest, rfl, terms, split⟩ := cuts.progress priced lists
    obtain ⟨state₂, more, priced₂, lists', processed', _, _, rfl⟩ :=
      (execute_swept last rfl priced).swept
    obtain rfl : state₂ = state₁ := Option.some.inj (priced₂.symm.trans priced)
    have left := remaining_eq lists split lists' inOrder
    have processed' : Processed state₂.markPrice (start.riskParams symbol) listing more := processed'
    have positions : (settled ++ more).map Settlement.position = all.map Settlement.position := by
      rw [List.map_append, processed'.positions_eq, left, ← split, ← processed.positions_eq]
    have joined : start.settledAll symbol (settled ++ more) = start.settledAll symbol all := by
      refine settledAll_congr positions (fun s member => ?_) processed.terms
      rcases List.mem_append.mp member with before | now
      · exact terms s before
      · exact processed'.terms s now
    rw [RiskEngine.settledAll_append] at joined
    have store := congrArg RiskEngine.store joined
    have fund := congrArg RiskEngine.insuranceBalance joined
    have openPositions := congrArg (fun e => e.stats.openPositions) joined
    have liquidations := congrArg (fun e => e.stats.liquidations) joined
    exact ⟨store, fund, openPositions, liquidations⟩

section Books
open Sample

/-- Three longs in breach. The first attempt fails on the second of them, the
next finishes what is left. -/
theorem resumed_sweep_agrees_one_cut : ∃ start engine resumed uninterrupted : RiskEngine,
    start.store.count = 3 ∧ engine.store.count = 2 ∧ resumed.store = uninterrupted.store ∧
      resumed.insuranceBalance = uninterrupted.insuranceBalance := by
  let long := fun account =>
    openedPosition account sol .long .cross (contracts 10) (price 100) tenfold (dollars 60)
  let order := [long alice, long bob, long carol]
  let down := fun action => decide (action = Action.remove "bob" sol)
  obtain ⟨entries, start, run, checked⟩ := exists_history_of_script (dollars 50) standard
    (fun _ _ => True)
    [({}, enter alice .long (contracts 10) (price 100) (dollars 60)),
      ({}, enter bob .long (contracts 10) (price 100) (dollars 60)),
      ({}, enter carol .long (contracts 10) (price 100) (dollars 60)),
      ({}, mark (price 90) (rate 0))]
    (fun _ start => decide (start.store.count = 3) &&
      ((execute { listing := order } start (.liquidateMarket sol)).isSome &&
      (executeDown Action.isRemove down { listing := order } start (.liquidateMarket sol)).any
        fun cut : Except CoreError CommandOutcome × RiskEngine =>
          decide (cut.1 = .error (CoreError.port .timeout)) && (decide (cut.2.store.count = 2) &&
            (execute { listing := [long bob, long carol] } cut.2 (.liquidateMarket sol)).isSome)))
    (by decide)
  simp only [Bool.and_eq_true, decide_eq_true_eq, Option.any_eq_true,
    Option.isSome_iff_exists] at checked
  obtain ⟨three, ⟨⟨result', uninterrupted⟩, whole⟩, ⟨failed, engine⟩, cut, rfl, two,
    ⟨result, resumed⟩, last⟩ := checked
  obtain ⟨calls, ran, legal, final, decides⟩ := executeDown_calls cut
  have cuts : CutSweeps sol order start engine :=
    .cut .refl (List.Sublist.refl order)
      ⟨calls, _, ran, legal, final, decides fun _ => decide_eq_false nofun⟩
  obtain ⟨store, fund, -⟩ := resumed_sweep_agrees cuts (by simp [order]) last whole
  exact ⟨start, engine, resumed, uninterrupted, three, two, store, fund⟩

end Books
end MarginGuard.Guarantees
