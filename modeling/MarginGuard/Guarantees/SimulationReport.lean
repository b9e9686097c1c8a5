import Mathlib.Data.Nat.ModEq
import MarginGuard.Guarantees.OracleWalk
import MarginGuard.Source.Script
import MarginGuard.Source.Simulate

/-!
# What a simulation reports

Whatever the limiter says and in whatever order markets are listed, the figures
of a finished simulation account for every position that was opened
(`simulation_accounts`). How a simulation ends is decided by its arguments: only
a refusal of the limiter can end it otherwise (`simulation_ends`).

The invariant of the opening loop is `Opened`, that of the walk `Walked`; the
commands keep the engine's part of the latter, `Books`, one lemma for each.
-/
namespace MarginGuard.Guarantees
open Foundation Source Fallible

/-! ## The calls of the simulator -/

/-- The limiter refused a command. -/
def LimiterRefused (given : List Environment) (e : SimError) : Prop :=
  e = .core .rateLimited ∧ ∃ env ∈ given, env.admitted = false

section Rules
variable {given : List Environment} {failed : SimError → Prop}

/-- A check goes on with the value, or ends with its complaint. -/
theorem ensures_check {α β : Type} {x : Except InvalidInput α} {next : α → Sim β}
    {before : Guided RiskEngine Environment → Prop}
    {after : β → Guided RiskEngine Environment → Prop}
    (ok : ∀ a, x = .ok a → Ensures before (next a) after failed)
    (err : ∀ e, x = .error e → failed (.invalid e)) :
    Ensures before (Sim.check x >>= next) after failed := by
  cases x with
  | ok a =>
    rw [Sim.check, pure_bind]
    exact ok a rfl
  | error e =>
    intro s start r ran
    obtain rfl : .error (.invalid e) = r := Option.some.inj ran
    exact err e rfl

/-- A command is applied with nothing else in flight. -/
theorem ensures_apply {command : RiskCommand} {P : RiskEngine → Prop}
    {after : RiskEngine → Prop}
    (ok : ∀ engine outcome engine', P engine → Transition engine command (.ok outcome) engine' →
      after engine')
    (err : ∀ engine e engine', P engine → Transition engine command (.error e) engine' →
      e ≠ .rateLimited → failed (.core e))
    (refused : ∀ e, LimiterRefused given e → failed e) :
    Ensures (Amid given P) (Sim.apply command) (fun _ => Amid given after) failed := by
  refine .guided fun env known engine holds r ran => ?_
  obtain ⟨⟨result, engine'⟩, executed, same⟩ := Option.map_eq_some_iff.mp ran
  have step := (execute_executes executed).transition
  cases result with
  | ok outcome =>
    obtain rfl := same
    exact ok _ _ _ holds step
  | error e =>
    obtain rfl := same
    by_cases limited : e = .rateLimited
    · subst limited
      exact refused _ ⟨rfl, env, known, (execute_rateLimited_iff executed).mp rfl⟩
    · exact err _ _ _ holds step limited

theorem ensures_positionsIn {symbol : Symbol} {P : RiskEngine → Prop} :
    Ensures (Amid given P) (Sim.positionsIn symbol)
      (fun listing => Amid given fun engine => P engine ∧ engine.store.Lists symbol listing)
      failed := by
  refine .guided fun env known engine holds r ran => ?_
  split at ran
  · next lists =>
    obtain rfl := Option.some.inj ran
    exact ⟨holds, lists⟩
  · cases ran

end Rules

/-! ## Names and amounts -/

theorem utf8ByteSize_ofList {l : List Char} (narrow : ∀ c ∈ l, c.utf8Size = 1) :
    (String.ofList l).utf8ByteSize = l.length := by
  induction l with
  | nil => rfl
  | cons c l ih =>
    rw [List.forall_mem_cons] at narrow
    rw [String.ofList_cons, String.utf8ByteSize_append, String.utf8ByteSize_singleton, narrow.1,
      ih narrow.2, List.length_cons, Nat.add_comm]

theorem narrow_of_isDigit {c : Char} (digit : c.isDigit = true) : c.utf8Size = 1 := by
  rw [Char.isDigit, Bool.and_eq_true, decide_eq_true_eq, decide_eq_true_eq] at digit
  have low : c.val ≤ 0x7f := Nat.le_trans digit.2 (by decide)
  exact if_pos low

theorem length_accountName {i : Nat} (small : i < 2 ^ 64) :
    0 < (accountName i).utf8ByteSize ∧ (accountName i).utf8ByteSize ≤ MAX_ACCOUNT_LEN := by
  have digits : Decimal.render (i : Int) = Nat.toDigits 10 i := by
    rw [Decimal.render, if_neg (by omega), Int.natAbs_natCast]
  have short : (Decimal.render (i : Int)).length ≤ 20 := by
    rw [digits, Nat.length_toDigits_le_iff (by decide) (by decide)]
    exact Nat.lt_of_lt_of_le small (by norm_num)
  have plain : ∀ c ∈ "acct-".toList, c.utf8Size = 1 := by simp [Char.utf8Size]
  have narrow : ∀ c ∈ "acct-".toList ++ Decimal.render i, c.utf8Size = 1 := by
    intro c member
    rcases List.mem_append.mp member with front | back
    · exact plain c front
    · rw [digits] at back
      exact narrow_of_isDigit (Nat.isDigit_of_mem_toDigits (by decide) (by decide) back)
  have size : (accountName i).utf8ByteSize = 5 + (Decimal.render (i : Int)).length := by
    unfold accountName
    exact (utf8ByteSize_ofList narrow).trans List.length_append
  have limit : MAX_ACCOUNT_LEN = 48 := rfl
  rw [size, limit]
  exact ⟨Nat.add_pos_left (by decide) _, by omega⟩

theorem new_accountName {i : Nat} (small : i < 2 ^ 64) :
    ∃ account, AccountId.new (accountName i) = .ok account ∧ account.asStr = accountName i := by
  obtain ⟨nonempty, bounded⟩ := length_accountName small
  exact ⟨⟨accountName i, nonempty, bounded⟩, AccountId.new_eq_ok.mpr rfl, rfl⟩

theorem accountName_injective : Function.Injective accountName := by
  intro i j same
  have digits := List.append_cancel_left (String.ofList_injective same)
  have value := congrArg Decimal.parse digits
  rw [Decimal.parse_render, Decimal.parse_render] at value
  exact Int.ofNat_inj.mp (Option.some.inj value)

/-- A whole price the engine accepts. -/
theorem fromWhole_eq_ok {dollars : I64} {price : Price} (ok : Price.fromWhole dollars = .ok price) :
    price.micros = dollars.toInt * SCALE := by
  have low := dollars.lower
  have high := dollars.upper
  have wide : maxInt 128 = 170141183460469231731687303715884105727 := by decide
  have deep : minInt 128 = -170141183460469231731687303715884105728 := by decide
  rw [minInt_64] at low
  rw [maxInt_64] at high
  rw [Price.fromMicros_eq_ok.mp ok]
  unfold SCALE
  exact SignedInt.toInt_wrap ⟨by omega, by omega⟩ (by decide)

/-- Only at one and at three dollars is 6% of ten contracts, in whole dollars,
less than the initial margin of 5%. -/
theorem margin_short_iff {args : SimulateArgs} {price : Price}
    (ok : Price.fromWhole args.startPrice = .ok price) {pos : Position}
    (size : pos.size.micros = 10 * SCALE) :
    (Usd.fromWhole args.marginWhole < initialMargin pos price RiskParams.standard ↔
      args.startPrice.toInt = 1 ∨ args.startPrice.toInt = 3) := by
  have micros := fromWhole_eq_ok ok
  have positive := price.positive
  have bounded := price.bounded
  have limit : MAX_PRICE = 10000000000000 := by decide
  have high := maxInt_64
  have low := minInt_64
  unfold SCALE at micros size
  rw [micros, limit] at bounded
  rw [micros] at positive
  have notional : (SignedInt.wrap (args.startPrice.toInt * 10) : I64).toInt =
      args.startPrice.toInt * 10 := SignedInt.toInt_wrap ⟨by omega, by omega⟩ (by decide)
  have share : (SignedInt.wrap (args.startPrice.toInt * 10 * 6) : I64).toInt =
      args.startPrice.toInt * 10 * 6 := SignedInt.toInt_wrap ⟨by omega, by omega⟩ (by decide)
  have posted : args.marginWhole.toInt = args.startPrice.toInt * 10 * 6 / 100 := by
    change ((SignedInt.wrap ((SignedInt.wrap (args.startPrice.toInt * 10) : I64).toInt * 6) :
      I64).div 100).toInt = _
    rw [notional, SignedInt.toInt_div _ (by decide), share, Int.tdiv_eq_ediv_of_nonneg (by omega)]
  have required : (initialMargin pos price RiskParams.standard).toInt =
      args.startPrice.toInt * 500000 := by
    have rate : RiskParams.standard.initialMarginBps.toInt = 500 := rfl
    have whole : args.startPrice.toInt * 1000000 * (10 * 1000000) =
        args.startPrice.toInt * 10000000 * 1000000 := by ring
    rw [initialMargin, toInt_notional_mulBps pos price (by decide) (by decide), pos.toInt_notional,
      micros, size, rate, SCALE, whole, Int.mul_tdiv_cancel _ (by decide),
      Int.tdiv_eq_ediv_of_nonneg (by omega)]
    omega
  rw [Usd.lt_iff, required]
  change args.marginWhole.toInt * 1000000 < _ ↔ _
  rw [posted]
  omega

/-! ## The book -/

theorem length_of_lists {store : PositionStore} {symbol : Symbol} {listing : List Position}
    (lists : store.Lists symbol listing)
    (single : ∀ account symbol', (store.get account symbol').isSome → symbol' = symbol) :
    listing.length = store.count := by
  have keys : (listing.map Position.key).toFinset = store.byKey.keys := by
    ext k
    rw [List.mem_toFinset]
    constructor
    · intro listed
      obtain ⟨pos, member, rfl⟩ := List.mem_map.mp listed
      obtain ⟨own, stored⟩ := lists.stored pos member
      rw [← own] at stored
      exact Finmap.mem_keys.mpr (Finmap.mem_of_lookup_eq_some stored)
    · intro filed
      have present : (store.get k.1 k.2).isSome := Finmap.lookup_isSome.mpr (Finmap.mem_keys.mp filed)
      obtain ⟨pos, member, same⟩ := lists.complete k filed (single _ _ present)
      exact List.mem_map.mpr ⟨pos, member, same⟩
  rw [PositionStore.count, FiniteMap.size, ← keys, List.toFinset_card_of_nodup lists.nodup,
    List.length_map]

/-- The engine once some accounts are open. -/
structure Opened (symbol : Symbol) (seed : Usd) (n : Nat) (engine : RiskEngine) : Prop where
  sound : Sound .default engine
  priced : (engine.market symbol).isSome
  unmoved : engine.stats.liquidations = 0 ∧ engine.stats.fundingSettlements = 0 ∧
    engine.stats.adlEvents = 0
  fund : engine.insuranceBalance = seed
  count : engine.store.count = n
  names : ∀ account symbol', (engine.store.get account symbol').isSome →
    symbol' = symbol ∧ ∃ i < n, account = accountName i

theorem opened_of_quote {seed : Usd} {symbol : Symbol} {markPrice indexPrice : Price} {rate : I64}
    {outcome : CommandOutcome} {engine : RiskEngine}
    (step : Transition (.fromParts seed .default)
      (.updateMarket symbol markPrice indexPrice rate) (.ok outcome) engine) :
    Opened symbol seed 0 engine := by
  have sound := step.sound (sound_fromParts seed .default)
  cases step
  refine ⟨sound, ?_, ⟨rfl, rfl, rfl⟩, rfl, rfl, fun account symbol' held => absurd held ?_⟩
  · change ((Finmap.insert _ _ _).lookup _).isSome
    rw [Finmap.lookup_insert]
    rfl
  · exact Bool.false_ne_true

section Opening
variable {symbol : Symbol} {seed : Usd} {n : Nat} {engine engine' : RiskEngine} {account : AccountId}
  {side : Side} {marginMode : MarginMode} {size : Size} {entryPrice : Price} {leverage : Leverage}
  {margin : Usd}

/-- The next account opens, its margin sufficing. -/
theorem Opened.next {outcome : CommandOutcome} (opened : Opened symbol seed n engine)
    (named : account.asStr = accountName n)
    (step : Transition engine
      (.openPosition account symbol side marginMode size entryPrice leverage margin) (.ok outcome)
      engine') :
    ¬ margin < initialMargin
        (openedPosition account symbol side marginMode size entryPrice leverage margin) entryPrice
        RiskParams.standard ∧
      Opened symbol seed (n + 1) engine' := by
  have sound := step.sound opened.sound
  cases step with
  | @opened _ _ _ _ _ _ _ _ pos own absent enough =>
    subst own
    rw [opened.sound.riskParams] at enough
    refine ⟨enough, sound, opened.priced, opened.unmoved, opened.fund, ?_, ?_⟩
    · exact (PositionStore.count_upsert_of_none absent).trans (congrArg (· + 1) opened.count)
    · intro account' symbol' held
      change ((engine.store.upsert _).get account' symbol').isSome at held
      rw [PositionStore.get_upsert] at held
      split at held
      · next same =>
        obtain ⟨rfl, rfl⟩ := Prod.mk.inj same
        exact ⟨rfl, n, Nat.lt_succ_self n, named⟩
      · obtain ⟨own, i, early, same⟩ := opened.names account' symbol' held
        exact ⟨own, i, Nat.lt_succ_of_lt early, same⟩

/-- It can be rejected for its margin only. -/
theorem Opened.short {e : CoreError} (opened : Opened symbol seed n engine)
    (named : account.asStr = accountName n)
    (step : Transition engine
      (.openPosition account symbol side marginMode size entryPrice leverage margin) (.error e)
      engine') (admitted : e ≠ .rateLimited) :
    e = .insufficientMargin ∧ margin < initialMargin
      (openedPosition account symbol side marginMode size entryPrice leverage margin) entryPrice
      RiskParams.standard := by
  cases step with
  | rateLimited => exact absurd rfl admitted
  | positionExists held present =>
    obtain ⟨-, i, early, same⟩ := opened.names account.asStr symbol (by rw [present]; rfl)
    have equal := accountName_injective (named.symm.trans same)
    omega
  | insufficientMargin absent short =>
    rw [opened.sound.riskParams] at short
    exact ⟨rfl, short⟩

end Opening

/-! ## The walk -/

/-- How many of the first `steps` steps accrue funding. -/
def fundingRounds (args : SimulateArgs) (steps : Nat) : Nat :=
  if args.fundingInterval = 0 then 0
  else (steps + args.fundingInterval - 1) / args.fundingInterval

theorem fundingRounds_zero (args : SimulateArgs) : fundingRounds args 0 = 0 := by
  unfold fundingRounds
  split
  · rfl
  · exact Nat.div_eq_of_lt (by omega)

theorem fundingRounds_succ (args : SimulateArgs) (step : Nat) :
    fundingRounds args (step + 1) = fundingRounds args step + (args.accrues step).toNat := by
  unfold fundingRounds SimulateArgs.accrues
  by_cases never : args.fundingInterval = 0
  · simp [never]
  · have shift : step + 1 + args.fundingInterval - 1 = step + args.fundingInterval - 1 + 1 := by omega
    have next : step + args.fundingInterval - 1 + 1 = step + args.fundingInterval := by omega
    have positive : 0 < args.fundingInterval := Nat.pos_of_ne_zero never
    have whole : args.fundingInterval ∣ step + args.fundingInterval ↔
        step % args.fundingInterval = 0 := by
      rw [Nat.dvd_add_self_right, Nat.dvd_iff_mod_eq_zero]
    rw [if_neg never, if_neg never, shift, Nat.succ_div, next]
    by_cases due : step % args.fundingInterval = 0 <;> simp [whole, due, positive]

/-- What a walk keeps: some funding rounds and some sweeps after the book was
opened. -/
structure Books (symbol : Symbol) (accounts rounds sweeps : Nat) (engine : RiskEngine) : Prop where
  sound : Sound .default engine
  priced : (engine.market symbol).isSome
  single : ∀ account symbol', (engine.store.get account symbol').isSome → symbol' = symbol
  accounted : engine.stats.liquidations + engine.store.count = accounts
  adl_sweeps : engine.stats.adlEvents ≤ sweeps
  adl_liquidations : engine.stats.adlEvents ≤ engine.stats.liquidations
  settled_least : engine.store.count * rounds ≤ engine.stats.fundingSettlements
  settled_most : engine.stats.fundingSettlements ≤ accounts * rounds
  fund : 0 ≤ engine.insuranceBalance.toInt

/-- A sweep counts one auto-deleverage at most, and none without a liquidation. -/
theorem length_adlEvents (symbol : Symbol) (settled : List Settlement) :
    (adlEvents symbol (totalSocialized settled)).length ≤ min 1 settled.length := by
  cases settled with
  | nil => exact Nat.le_refl 0
  | cons s settled =>
    unfold adlEvents
    split
    · exact Nat.zero_le _
    · rw [List.length_singleton, List.length_cons]
      omega

section Commands
variable {symbol : Symbol} {accounts turns sweeps : Nat} {engine engine' : RiskEngine}

theorem Opened.books {seed : Usd} (opened : Opened symbol seed accounts engine)
    (solvent : 0 ≤ seed.toInt) : Books symbol accounts 0 0 engine := by
  obtain ⟨liquidations, settlements, adl⟩ := opened.unmoved
  refine ⟨opened.sound, opened.priced, fun account symbol' held => ?_, ?_, ?_, ?_, ?_, ?_, ?_⟩
  · exact (opened.names account symbol' held).1
  · rw [liquidations, opened.count, Nat.zero_add]
  · exact Nat.le_of_eq adl
  · rw [adl]
    exact Nat.zero_le _
  · exact Nat.zero_le _
  · rw [settlements]
    exact Nat.zero_le _
  · rw [opened.fund]
    exact solvent

/-- A command of a priced market is only refused by the limiter. -/
theorem Books.rateLimited {command : RiskCommand} {e : CoreError}
    (books : Books symbol accounts turns sweeps engine)
    (kind : command = .accrueFunding symbol ∨ command = .liquidateMarket symbol ∨
      ∃ markPrice indexPrice rate, command = .updateMarket symbol markPrice indexPrice rate)
    (step : Transition engine command (.error e) engine') : e = .rateLimited := by
  by_contra admitted
  have rejected := step.errorOf_eq fun same => admitted (Except.error.inj same)
  have priced : (engine.market symbol).isNone = false := by
    rw [← Option.not_isSome, books.priced]
    rfl
  rcases kind with rfl | rfl | ⟨_, _, _, rfl⟩
  · simp [errorOf, RiskEngine.rejection, priced] at rejected
  · simp [errorOf, RiskEngine.rejection, priced] at rejected
  · cases rejected

theorem Books.quoted {markPrice indexPrice : Price} {rate : I64} {outcome : CommandOutcome}
    (books : Books symbol accounts turns sweeps engine)
    (step : Transition engine (.updateMarket symbol markPrice indexPrice rate) (.ok outcome)
      engine') : Books symbol accounts turns sweeps engine' := by
  have sound := step.sound books.sound
  cases step
  refine ⟨sound, ?_, books.single, books.accounted, books.adl_sweeps, books.adl_liquidations,
    books.settled_least, books.settled_most, books.fund⟩
  change ((Finmap.insert _ _ _).lookup _).isSome
  rw [Finmap.lookup_insert]
  rfl

theorem Books.accrued {outcome : CommandOutcome} (books : Books symbol accounts turns sweeps engine)
    (step : Transition engine (.accrueFunding symbol) (.ok outcome) engine') :
    Books symbol accounts (turns + 1) sweeps engine' := by
  have sound := step.sound books.sound
  cases step with
  | accrued state listing priced lists =>
    have kept : (engine.accrued state.markPrice state.fundingRateBps listing).store.count =
        engine.store.count := count_accrued lists _ _
    have listed := length_of_lists lists books.single
    have accounted := books.accounted
    have least := books.settled_least
    have most := books.settled_most
    refine ⟨sound, books.priced, fun account symbol' held => ?_, ?_, books.adl_sweeps,
      books.adl_liquidations, ?_, ?_, books.fund⟩
    · have settled := lists.get_upsertAll_map
        (f := fundedPosition state.markPrice state.fundingRateBps) (fun _ => rfl) account symbol'
      by_contra other
      rw [if_neg other] at settled
      refine other (books.single account symbol' ?_)
      rw [← settled]
      exact held
    · rw [RiskEngine.emit_store, kept]
      exact accounted
    · rw [RiskEngine.emit_store, kept, Nat.mul_succ]
      change _ ≤ engine.stats.fundingSettlements + listing.length
      omega
    · change engine.stats.fundingSettlements + listing.length ≤ _
      rw [Nat.mul_succ]
      omega

theorem Books.swept {outcome : CommandOutcome} (books : Books symbol accounts turns sweeps engine)
    (step : Transition engine (.liquidateMarket symbol) (.ok outcome) engine') :
    Books symbol accounts turns (sweeps + 1) engine' := by
  have sound := step.sound books.sound
  cases step with
  | swept state listing settled priced lists processed waterfall =>
    have removed := processed.count_removeAll lists
    have accounted := books.accounted
    have least := books.settled_least
    have adl := length_adlEvents symbol settled
    have adlSweeps := books.adl_sweeps
    have adlLiquidations := books.adl_liquidations
    have fewer : (engine.store.removeAll symbol (settled.map Settlement.position)).count * turns ≤
        engine.store.count * turns := Nat.mul_le_mul_right _ (by omega)
    refine ⟨sound, books.priced, fun account symbol' held => ?_, ?_, ?_, ?_, ?_, books.settled_most,
      ?_⟩
    · have left := processed.get_removeAll lists account symbol'
      by_contra other
      rw [if_neg other] at left
      refine other (books.single account symbol' ?_)
      rw [← left]
      exact held
    · rw [RiskEngine.emit_stats, RiskEngine.swept_stats, RiskEngine.emit_store,
        RiskEngine.swept_store]
      dsimp only
      omega
    · rw [RiskEngine.emit_stats, RiskEngine.swept_stats]
      dsimp only
      omega
    · rw [RiskEngine.emit_stats, RiskEngine.swept_stats]
      dsimp only
      omega
    · rw [RiskEngine.emit_store, RiskEngine.swept_store]
      exact fewer.trans least
    · change 0 ≤ (fundAfterAll engine.state.insurance settled).balance.toInt
      rw [balance_fundAfterAll, processed.flows_eq, books.sound.riskParams]
      exact Reserve.after_nonneg (maxInt_nonneg 128) books.fund
        fun amount member => sweepFlows_gains (by decide) member

end Commands

/-! ## Runs of the simulator -/

/-- What ends a simulation, if the limiter does not. -/
def failure (args : SimulateArgs) : Option SimError :=
  match Price.fromWhole args.startPrice with
  | .error e => some (.invalid e)
  | .ok startPrice =>
    if 0 < args.accounts ∧ (args.startPrice.toInt = 1 ∨ args.startPrice.toInt = 3) then
      some (.core .insufficientMargin)
    else if ∃ step < args.steps, MAX_PRICE < (args.oracle startPrice).price (step + 1) then
      some (.invalid .priceTooLarge)
    else none

/-- How a simulation may fail. -/
def Ends (args : SimulateArgs) (given : List Environment) (e : SimError) : Prop :=
  failure args = some e ∨ LimiterRefused given e

/-- The margin suffices, or no account has been opened. -/
def Covered (args : SimulateArgs) (n : Nat) : Prop :=
  0 < n → ¬ (args.startPrice.toInt = 1 ∨ args.startPrice.toInt = 3)

section Loops
variable {args : SimulateArgs} {given : List Environment} {symbol : Symbol} {startPrice : Price}

/-- One turn of the opening loop. -/
theorem ensures_openAccount (symbol : Symbol) (ok : Price.fromWhole args.startPrice = .ok startPrice) {n : Nat}
    (early : n < args.accounts) :
    Ensures (Amid given fun engine => Covered args n ∧ Opened symbol args.fund n engine)
      (openAccount args symbol startPrice n ())
      (fun _ => Amid given fun engine => Covered args (n + 1) ∧ Opened symbol args.fund (n + 1) engine)
      (Ends args given) := by
  have size : Size.fromWhole (.clamp 10) = .ok ⟨10 * SCALE, by decide, by decide⟩ := by rfl
  have leverage : Leverage.new 10 = .ok ⟨10, by decide, by decide⟩ := rfl
  obtain ⟨account, named, same⟩ := new_accountName (early.trans args.accounts_lt)
  unfold openAccount
  rw [named, size, leverage]
  simp only [Sim.check, pure_bind]
  refine .bind (ensures_apply ?_ ?_ fun e => Or.inr) fun _ => .pure fun _ done => done
  · rintro engine outcome engine' ⟨-, opened⟩ step
    obtain ⟨enough, next⟩ := opened.next same step
    rw [margin_short_iff ok rfl] at enough
    exact ⟨fun _ => enough, next⟩
  · rintro engine e engine' ⟨-, opened⟩ step admitted
    obtain ⟨rfl, short⟩ := opened.short same step admitted
    rw [margin_short_iff ok rfl] at short
    refine Or.inl ?_
    rw [failure, ok]
    exact if_pos ⟨Nat.zero_lt_of_lt early, short⟩

theorem ensures_setMarket {price : Price} {turns sweeps : Nat} :
    Ensures (Amid given (Books symbol args.accounts turns sweeps))
      (Sim.setMarket symbol price args.fundingBps)
      (fun _ => Amid given (Books symbol args.accounts turns sweeps)) (Ends args given) := by
  refine .bind (ensures_apply ?_ ?_ fun e => Or.inr) fun _ => .pure fun _ done => done
  · exact fun engine outcome engine' books step => books.quoted step
  · intro engine e engine' books step admitted
    exact absurd (books.rateLimited (.inr (.inr ⟨_, _, _, rfl⟩)) step) admitted

theorem ensures_accrueIf {due : Bool} {turns sweeps : Nat} :
    Ensures (Amid given (Books symbol args.accounts turns sweeps)) (Sim.accrueIf due symbol)
      (fun _ => Amid given (Books symbol args.accounts (turns + due.toNat) sweeps))
      (Ends args given) := by
  cases due with
  | false => exact .pure fun _ done => done
  | true =>
    refine .bind (ensures_apply ?_ ?_ fun e => Or.inr) fun _ => .pure fun _ done => done
    · exact fun engine outcome engine' books step => books.accrued step
    · intro engine e engine' books step admitted
      exact absurd (books.rateLimited (.inl rfl) step) admitted

theorem ensures_sweep {turns sweeps : Nat} :
    Ensures (Amid given (Books symbol args.accounts turns sweeps))
      (Sim.apply (.liquidateMarket symbol))
      (fun _ => Amid given (Books symbol args.accounts turns (sweeps + 1))) (Ends args given) := by
  refine ensures_apply ?_ ?_ fun e => Or.inr
  · exact fun engine outcome engine' books step => books.swept step
  · intro engine e engine' books step admitted
    exact absurd (books.rateLimited (.inr (.inl rfl)) step) admitted

/-- Where a walk is: the price so far was accepted at every step. -/
def Walked (args : SimulateArgs) (startPrice : Price) (step : Nat) (oracle : SimMarketOracle) :
    Prop :=
  oracle = (args.oracle startPrice).after step ∧
    ∀ earlier < step, (args.oracle startPrice).price (earlier + 1) ≤ MAX_PRICE

/-- A positive price is refused for its size only. -/
theorem fromMicros_error {n : I128} {e : InvalidInput} (positive : 1 ≤ n.toInt)
    (refused : Price.fromMicros n = .error e) : e = .priceTooLarge ∧ MAX_PRICE < n.toInt := by
  unfold Price.fromMicros boundedMicros at refused
  rw [dif_neg (by omega)] at refused
  split at refused
  · next high => exact ⟨(Except.error.inj refused).symm, high⟩
  · cases refused

/-- One turn of the walk. -/
theorem ensures_walkStep (ok : Price.fromWhole args.startPrice = .ok startPrice)
    (covered : Covered args args.accounts) {step : Nat} (early : step < args.steps)
    (oracle : SimMarketOracle) :
    Ensures (fun scene => Walked args startPrice step oracle ∧
        Amid given (Books symbol args.accounts (fundingRounds args step) step) scene)
      (walkStep args symbol step oracle)
      (fun oracle scene => Walked args startPrice (step + 1) oracle ∧
        Amid given (Books symbol args.accounts (fundingRounds args (step + 1)) (step + 1)) scene)
      (Ends args given) := by
  refine .assuming fun walked => ?_
  obtain ⟨rfl, quoted⟩ := walked
  have next : ((args.oracle startPrice).after (step + 1)).priceMicros =
      ((args.oracle startPrice).after step).nextPrice.1 := by
    rw [SimMarketOracle.after_succ]
    exact SimMarketOracle.setPrice_priceMicros _ _
  unfold walkStep
  refine ensures_check (fun price accepted => ?_) fun e refused => ?_
  · have walked : Walked args startPrice (step + 1)
        ((args.oracle startPrice).after step).nextPrice.2 := by
      refine ⟨(SimMarketOracle.after_succ _ _).symm, fun earlier before => ?_⟩
      rcases Nat.lt_succ_iff_lt_or_eq.mp before with before | rfl
      · exact quoted earlier before
      · rw [SimMarketOracle.price, next, ← Price.fromMicros_eq_ok.mp accepted]
        exact price.bounded
    refine .bind ensures_setMarket fun _ => .bind ensures_accrueIf fun _ =>
      .bind ensures_sweep fun _ => .pure fun scene done => ⟨walked, ?_⟩
    rw [fundingRounds_succ]
    exact done
  · refine Or.inl ?_
    have positive := ((args.oracle startPrice).after (step + 1)).price_pos
    rw [next] at positive
    obtain ⟨rfl, high⟩ := fromMicros_error positive refused
    rw [← next] at high
    rw [failure, ok]
    dsimp only
    rw [if_neg fun short => covered short.1 short.2, if_pos ⟨step, early, high⟩]

end Loops

/-- What a finished simulation reports. -/
structure Accounts (args : SimulateArgs) (startPrice : Price) (report : SimReport) : Prop where
  echoed : report.steps = args.steps ∧ report.accounts = args.accounts
  accounted : report.liquidations + report.survivors = args.accounts
  adl : report.adlEvents ≤ min report.liquidations args.steps
  settled_least : report.survivors * fundingRounds args args.steps ≤ report.fundingSettlements
  settled_most : report.fundingSettlements ≤ args.accounts * fundingRounds args args.steps
  insurance : report.insuranceStartMicros = args.fund.toInt ∧ 0 ≤ report.insuranceEndMicros
  prices : report.startPriceMicros = args.startPrice.toInt * SCALE ∧
    report.finalPriceMicros = (args.oracle startPrice).price args.steps

theorem fund_nonneg (args : SimulateArgs) : 0 ≤ args.fund.toInt := by
  have read := SignedInt.toInt_tryFrom_getD_maxValue (w := 64) args.insuranceSeed
  have low := minInt_neg 64
  have high := maxInt_nonneg 64
  rw [if_pos (by omega)] at read
  change 0 ≤ ((SignedInt.tryFrom (args.insuranceSeed : Int)).getD SignedInt.maxValue : I64).toInt * SCALE
  rw [read]
  exact mul_nonneg (le_min (by omega) high) (by decide)

/-- The first quote opens an empty book. -/
theorem ensures_quote (args : SimulateArgs) {given : List Environment} (symbol : Symbol)
    (startPrice : Price) :
    Ensures (Amid given fun engine => engine = args.engine)
      (Sim.setMarket symbol startPrice args.fundingBps)
      (fun _ => Amid given (Opened symbol args.fund 0)) (Ends args given) := by
  refine .bind (ensures_apply ?_ ?_ fun e => Or.inr) fun _ => .pure fun _ done => done
  · rintro engine outcome engine' rfl step
    exact opened_of_quote step
  · intro engine e engine' _ step admitted
    have rejected := step.errorOf_eq fun same => admitted (Except.error.inj same)
    cases rejected

section Run
variable {args : SimulateArgs} {given : List Environment} {symbol : Symbol} {startPrice : Price}

/-- The book is opened, or a margin does not suffice. -/
theorem ensures_book (ok : Price.fromWhole args.startPrice = .ok startPrice) :
    Ensures (Amid given (Opened symbol args.fund 0))
      (Fallible.upto (openAccount args symbol startPrice) args.accounts ())
      (fun _ scene => Covered args args.accounts ∧ Amid given (Books symbol args.accounts 0 0) scene)
      (Ends args given) := by
  have loop := Ensures.upto (fun n (_ : Unit) =>
      Amid given fun engine => Covered args n ∧ Opened symbol args.fund n engine)
    (fun n early _ => ensures_openAccount symbol ok early) ()
  have unopened : Covered args 0 := fun opened => absurd opened (Nat.lt_irrefl 0)
  refine loop.weaken (fun _ => Amid.mono fun _ opened => ⟨unopened, opened⟩) ?_
  · rintro _ scene ⟨⟨covered, opened⟩, known⟩
    exact ⟨covered, opened.books (fund_nonneg args), known⟩

/-- The price walks all its steps, or leaves the range the engine accepts. -/
theorem ensures_walk (ok : Price.fromWhole args.startPrice = .ok startPrice)
    (covered : Covered args args.accounts) :
    Ensures (Amid given (Books symbol args.accounts 0 0))
      (Fallible.upto (walkStep args symbol) args.steps (args.oracle startPrice))
      (fun oracle scene => Walked args startPrice args.steps oracle ∧
        Amid given (Books symbol args.accounts (fundingRounds args args.steps) args.steps) scene)
      (Ends args given) := by
  have loop := Ensures.upto (fun step oracle scene => Walked args startPrice step oracle ∧
      Amid given (Books symbol args.accounts (fundingRounds args step) step) scene)
    (fun step early oracle => ensures_walkStep ok covered early oracle) (args.oracle startPrice)
  refine loop.weaken (fun scene amid => ⟨⟨rfl, fun earlier before => ?_⟩, ?_⟩) fun _ _ done => done
  · exact absurd before (Nat.not_lt_zero earlier)
  · rw [fundingRounds_zero]
    exact amid

/-- A walk that ended was within the range. -/
theorem failure_eq_none (ok : Price.fromWhole args.startPrice = .ok startPrice)
    (covered : Covered args args.accounts) {oracle : SimMarketOracle}
    (walked : Walked args startPrice args.steps oracle) : failure args = none := by
  rw [failure, ok]
  dsimp only
  rw [if_neg fun short => covered short.1 short.2, if_neg]
  rintro ⟨step, early, high⟩
  exact absurd (walked.2 step early) (not_le_of_gt high)

end Run

/-- How every run of the simulator ends. -/
theorem ensures_runSimulation (args : SimulateArgs) (given : List Environment) :
    Ensures (Amid given fun engine => engine = args.engine) (runSimulation args)
      (fun report _ => failure args = none ∧
        ∃ startPrice, Price.fromWhole args.startPrice = .ok startPrice ∧ Accounts args startPrice report)
      (Ends args given) := by
  unfold runSimulation
  refine ensures_check (fun symbol _ => ?_) fun e refused => by cases refused
  refine ensures_check (fun startPrice ok => ?_) fun e refused => Or.inl (by rw [failure, refused])
  refine .bind (ensures_quote args symbol startPrice) fun _ => ?_
  refine .bind .read fun before => .assuming fun opened => ?_
  refine .bind ((ensures_book ok).weaken ?_ fun _ _ done => done) fun _ => ?_
  · exact fun _ => Amid.mono fun _ same => same ▸ opened
  refine .assuming fun covered => ?_
  refine .bind (ensures_walk ok covered) fun oracle => .assuming fun walked => ?_
  refine .bind .read fun now => .assuming fun books => ?_
  refine .bind ensures_positionsIn fun listing => .bind .read fun last => ?_
  refine .assuming fun closing => .pure fun _ _ => ?_
  obtain ⟨rfl, lists⟩ := closing
  have survivors := length_of_lists lists books.single
  refine ⟨failure_eq_none ok covered walked, startPrice, ok, ⟨rfl, rfl⟩, ?_, ?_, ?_,
    books.settled_most, ⟨congrArg Usd.toInt opened.fund, books.fund⟩, fromWhole_eq_ok ok, ?_⟩
  · rw [survivors]
    exact books.accounted
  · exact le_min books.adl_liquidations books.adl_sweeps
  · rw [survivors]
    exact books.settled_least
  · rw [walked.1]
    rfl

/-! ## Some run exists -/

theorem fits_check {α : Type} (x : Except InvalidInput α) :
    Fits (fun env => env.admitted = true) (Sim.check x) := by
  cases x with
  | ok a => exact .pure a
  | error e => exact .throw (SimError.invalid e)

/-- Every command can be admitted, on whatever listing the store then gives. -/
theorem exists_admitted (engine : RiskEngine) (command : RiskCommand) :
    ∃ env : Environment, env.admitted = true ∧ ∃ r, execute env engine command = some r := by
  obtain ⟨rest, path⟩ : ∃ rest, Program.Leads (RiskEngine.apply command) [⟨.tryAcquire, true⟩] rest :=
    ⟨_, .step (.refl _)⟩
  obtain ⟨result, engine', calls, run, legal, final⟩ :=
    Machine.exists_completes portsUp_answers rest engine
  have whole := path.returns_append run
  have admitted : portsUp.Legal engine ([⟨.tryAcquire, true⟩] ++ calls) := ⟨trivial, legal⟩
  have ran : Executes engine command result engine' := ⟨_, whole, admitted, final⟩
  obtain ⟨env, executed⟩ := ran.exists_environment
  refine ⟨env, ?_, _, executed⟩
  by_contra refused
  obtain rfl := (execute_rateLimited_iff executed).mpr (by simpa using refused)
  cases applied_of_returns whole (possible_of_legal admitted) with
  | admitted body r served => cases served

theorem fits_apply (command : RiskCommand) :
    Fits (fun env => env.admitted = true) (Sim.apply command) := by
  refine .guided fun engine => ?_
  obtain ⟨env, admitted, r, executed⟩ := exists_admitted engine command
  exact ⟨env, _, admitted, Option.map_eq_some_iff.mpr ⟨r, executed, rfl⟩⟩

theorem fits_positionsIn (symbol : Symbol) :
    Fits (fun env => env.admitted = true) (Sim.positionsIn symbol) := by
  refine .guided fun engine => ?_
  obtain ⟨listing, lists⟩ := engine.store.exists_lists symbol
  exact ⟨⟨true, listing⟩, _, rfl, if_pos lists⟩

theorem fits_setMarket (symbol : Symbol) (price : Price) (rate : I64) :
    Fits (fun env => env.admitted = true) (Sim.setMarket symbol price rate) :=
  .bind (fits_apply _) fun _ => .pure _

theorem fits_accrueIf (due : Bool) (symbol : Symbol) :
    Fits (fun env => env.admitted = true) (Sim.accrueIf due symbol) := by
  cases due with
  | false => exact .pure ()
  | true => exact .bind (fits_apply _) fun _ => .pure _

/-- Whatever its arguments, a simulation has a run in which no command is
refused. -/
theorem fits_runSimulation (args : SimulateArgs) :
    Fits (fun env => env.admitted = true) (runSimulation args) := by
  have opening (symbol : Symbol) (startPrice : Price) (i : Nat) (b : Unit) :
      Fits (fun env => env.admitted = true) (openAccount args symbol startPrice i b) :=
    .bind (fits_check _) fun _ => .bind (fits_check _) fun _ => .bind (fits_check _) fun _ =>
      .bind (fits_apply _) fun _ => .pure _
  have walking (symbol : Symbol) (step : Nat) (oracle : SimMarketOracle) :
      Fits (fun env => env.admitted = true) (walkStep args symbol step oracle) :=
    .bind (fits_check _) fun _ => .bind (fits_setMarket _ _ _) fun _ =>
      .bind (fits_accrueIf _ _) fun _ => .bind (fits_apply _) fun _ => .pure _
  exact .bind (fits_check _) fun symbol => .bind (fits_check _) fun startPrice =>
    .bind (fits_setMarket _ _ _) fun _ => .bind .read fun _ =>
    .bind (.upto (opening symbol startPrice) _ _) fun _ =>
    .bind (.upto (walking symbol) _ _) fun _ => .bind .read fun _ =>
    .bind (fits_positionsIn symbol) fun _ => .bind .read fun _ => .pure _

/-! ## What is reported -/

section Simulate
variable {args : SimulateArgs} {given : List Environment}

theorem simulate_ok {report : SimReport} (ran : simulate args given = some (.ok report)) :
    failure args = none ∧ ∃ startPrice, Price.fromWhole args.startPrice = .ok startPrice ∧
      Accounts args startPrice report := by
  obtain ⟨outcome, came, same⟩ := Option.map_eq_some_iff.mp ran
  have met := ensures_runSimulation args given ⟨args.engine, given⟩
    ⟨rfl, fun _ member => member⟩ outcome came
  cases outcome with
  | ok p =>
    obtain rfl := Except.ok.inj same
    exact met
  | error e => cases same

theorem simulate_error {e : SimError} (ran : simulate args given = some (.error e)) :
    Ends args given e := by
  obtain ⟨outcome, came, same⟩ := Option.map_eq_some_iff.mp ran
  have met := ensures_runSimulation args given ⟨args.engine, given⟩
    ⟨rfl, fun _ member => member⟩ outcome came
  cases outcome with
  | ok p => cases same
  | error e' =>
    obtain rfl := Except.error.inj same
    exact met

end Simulate

/-- The figures of every finished simulation account for every position opened:
each was liquidated or survives; a sweep socialises a loss at most once, and only
with a liquidation; every funding round settles what is then open; the fund is
never overdrawn; and the last price is where the walk ends. -/
theorem simulation_accounts {args : SimulateArgs} {given : List Environment} {report : SimReport}
    (ran : simulate args given = some (.ok report)) :
    ∃ startPrice, Price.fromWhole args.startPrice = .ok startPrice ∧
      Accounts args startPrice report :=
  (simulate_ok ran).2

open Sample in
/-- Two accounts on a market that loses a tenth at each of two steps, longs
paying funding. -/
def fallingMarket : SimulateArgs where
  accounts := 2
  steps := 2
  startPrice := rate 100
  driftBps := rate (-1000)
  volBps := rate 0
  fundingBps := rate 10
  fundingInterval := 1
  insuranceSeed := 5000
  seed := 7
  accounts_lt := by decide

open Sample in
/-- Its long and its short, having paid this much for funding. -/
def fallingLong (paid : Int) : Position :=
  { openedPosition ⟨"acct-0", by decide, by decide⟩ sol .long .cross (contracts 10) (price 100)
      tenfold (dollars 60) with
    fundingPaid := usd paid }

def fallingShort (paid : Int) : Position :=
  { fallingLong paid with account := ⟨"acct-1", by decide, by decide⟩, side := .short }

def fallingReport : SimReport where
  steps := 2
  accounts := 2
  liquidations := 1
  adlEvents := 0
  fundingSettlements := 3
  insuranceStartMicros := 5000000000
  insuranceEndMicros := 4959100000
  startPriceMicros := 100000000
  finalPriceMicros := 81000000
  survivors := 1

/-- The first fall takes the long, whose deficit the fund covers. -/
theorem simulation_accounts_falling :
    ∃ startPrice, Price.fromWhole fallingMarket.startPrice = .ok startPrice ∧
      Accounts fallingMarket startPrice fallingReport := by
  have ran : simulate fallingMarket [{}, {}, {}, {}, ⟨true, [fallingLong 0, fallingShort 0]⟩,
      ⟨true, [fallingShort (-900000), fallingLong 900000]⟩, {}, ⟨true, [fallingShort (-900000)]⟩,
      ⟨true, [fallingShort (-1710000)]⟩, ⟨true, [fallingShort (-1710000)]⟩] =
        some (.ok fallingReport) := by
    decide +kernel
  exact simulation_accounts ran

/-- Its complaint, if a simulation failed. -/
def complaint : Except SimError SimReport → Option SimError
  | .ok _ => none
  | .error e => some e

end MarginGuard.Guarantees
