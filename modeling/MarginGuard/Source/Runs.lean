import MarginGuard.Source.Engine

/-!
# Everything a command can do

One inversion lemma for each method of the engine: which calls it performs, in
which order, and what it returns, for all answers of the ports, failures
included. Later arguments take a run apart with `cases` on these shapes and do
not unfold the programs again.

A sweep is described by its `Settlement`s, one for each position it liquidated.
-/
namespace MarginGuard.Source
open Foundation

/-- A performed action with its answer. -/
abbrev EngineCall := Call Action Answer

/-! ## Ports and sections -/

theorem returns_locked_bind {α : Type} (action : Action) (f : Answer action → EngineM α)
    (calls : List EngineCall) (r : Except CoreError α) :
    Program.Returns (locked action >>= f : EngineM α) calls r ↔
      ∃ ans rest, calls = ⟨action, ans⟩ :: rest ∧ Program.Returns (f ans) rest r := Iff.rfl

theorem returns_pure_bind {α β : Type} (value : α) (f : α → EngineM β)
    (calls : List EngineCall) (r : Except CoreError β) :
    Program.Returns (pure value >>= f : EngineM β) calls r ↔ Program.Returns (f value) calls r :=
  Iff.rfl

theorem returns_perform (action : Action) (calls : List EngineCall) (r : Answer action) :
    (Program.perform action).Returns calls r ↔ calls = [⟨action, r⟩] := by
  constructor
  · rintro ⟨ans, rest, rfl, rfl, rfl⟩
    rfl
  · rintro rfl
    exact ⟨r, [], rfl, rfl, rfl⟩

/-- Sequencing after a port call: an error stops the run, a value goes on. -/
theorem returns_port_bind {α β : Type} {port : Program Action Answer (Except PortError α)}
    (call : Except PortError α → EngineCall)
    (single : ∀ calls answer, port.Returns calls answer ↔ calls = [call answer])
    (f : α → EngineM β) (calls : List EngineCall) (r : Except CoreError β) :
    Program.Returns (ask port >>= f : EngineM β) calls r ↔
      (∃ e, calls = [call (.error e)] ∧ r = .error (.port e)) ∨
      (∃ value rest, calls = call (.ok value) :: rest ∧ Program.Returns (f value) rest r) := by
  change ((port.bind _).bind _).Returns calls r ↔ _
  simp only [Program.returns_bind]
  constructor
  · rintro ⟨_, back, _, rfl, ⟨front, middle, answer, rfl, first, second⟩, third⟩
    obtain rfl := (single _ _).mp first
    cases answer with
    | error e =>
      obtain ⟨rfl, rfl⟩ := second
      obtain ⟨rfl, rfl⟩ := third
      exact Or.inl ⟨e, rfl, rfl⟩
    | ok value =>
      obtain ⟨rfl, rfl⟩ := second
      exact Or.inr ⟨value, back, rfl, third⟩
  · rintro (⟨e, rfl, rfl⟩ | ⟨value, rest, rfl, run⟩)
    · exact ⟨_, [], _, rfl, ⟨_, [], .error e, rfl, (single _ _).mpr rfl, rfl, rfl⟩, rfl, rfl⟩
    · exact ⟨_, rest, _, rfl, ⟨_, [], .ok value, rfl, (single _ _).mpr rfl, rfl, rfl⟩, run⟩

section Ports
variable {β : Type} (calls : List EngineCall) (r : Except CoreError β)

theorem returns_get_bind (account : String) (symbol : Symbol) (f : Option Position → EngineM β) :
    Program.Returns (Port.get account symbol >>= f : EngineM β) calls r ↔
      (∃ e, calls = [⟨.get account symbol, .error e⟩] ∧ r = .error (.port e)) ∨
      (∃ held rest, calls = ⟨.get account symbol, .ok held⟩ :: rest ∧
        Program.Returns (f held) rest r) :=
  returns_port_bind (fun answer => ⟨.get account symbol, answer⟩)
    (returns_perform (.get account symbol)) f calls r

theorem returns_upsert_bind (position : Position) (f : Unit → EngineM β) :
    Program.Returns (Port.upsert position >>= f : EngineM β) calls r ↔
      (∃ e, calls = [⟨.upsert position, .error e⟩] ∧ r = .error (.port e)) ∨
      (∃ done rest, calls = ⟨.upsert position, .ok done⟩ :: rest ∧
        Program.Returns (f done) rest r) :=
  returns_port_bind (fun answer => ⟨.upsert position, answer⟩)
    (returns_perform (.upsert position)) f calls r

theorem returns_remove_bind (account : String) (symbol : Symbol) (f : Option Position → EngineM β) :
    Program.Returns (Port.remove account symbol >>= f : EngineM β) calls r ↔
      (∃ e, calls = [⟨.remove account symbol, .error e⟩] ∧ r = .error (.port e)) ∨
      (∃ held rest, calls = ⟨.remove account symbol, .ok held⟩ :: rest ∧
        Program.Returns (f held) rest r) :=
  returns_port_bind (fun answer => ⟨.remove account symbol, answer⟩)
    (returns_perform (.remove account symbol)) f calls r

theorem returns_byMarket_bind (symbol : Symbol) (f : List Position → EngineM β) :
    Program.Returns (Port.byMarket symbol >>= f : EngineM β) calls r ↔
      (∃ e, calls = [⟨.byMarket symbol, .error e⟩] ∧ r = .error (.port e)) ∨
      (∃ listing rest, calls = ⟨.byMarket symbol, .ok listing⟩ :: rest ∧
        Program.Returns (f listing) rest r) :=
  returns_port_bind (fun answer => ⟨.byMarket symbol, answer⟩)
    (returns_perform (.byMarket symbol)) f calls r

theorem returns_publish_bind (events : List RiskEvent) (f : Unit → EngineM β) :
    Program.Returns (Port.publish events >>= f : EngineM β) calls r ↔
      (∃ e, calls = [⟨.publish events, .error e⟩] ∧ r = .error (.port e)) ∨
      (∃ done rest, calls = ⟨.publish events, .ok done⟩ :: rest ∧
        Program.Returns (f done) rest r) :=
  returns_port_bind (fun answer => ⟨.publish events, answer⟩)
    (returns_perform (.publish events)) f calls r

end Ports

/-! ## Queries and single-position commands -/

/-- The runs of `account_health`. -/
inductive HealthRun (account : String) (symbol : Symbol) :
    List EngineCall → Except CoreError AccountHealth → Prop
  | storeFailed (e : PortError) :
      HealthRun account symbol [⟨.get account symbol, .error e⟩] (.error (.port e))
  | notFound :
      HealthRun account symbol [⟨.get account symbol, .ok none⟩] (.error .positionNotFound)
  | noMarket (pos : Position) :
      HealthRun account symbol [⟨.get account symbol, .ok (some pos)⟩, ⟨.markFor symbol, none⟩]
        (.error .marketNotFound)
  | reported (pos : Position) (mark : Price) (params : RiskParams) :
      HealthRun account symbol
        [⟨.get account symbol, .ok (some pos)⟩, ⟨.markFor symbol, some mark⟩,
          ⟨.riskParams symbol, params⟩]
        (.ok (accountHealth pos mark params))

theorem returns_accountHealth {account : String} {symbol : Symbol} {calls : List EngineCall}
    {r : Except CoreError AccountHealth}
    (run : Program.Returns (RiskEngine.accountHealth account symbol) calls r) :
    HealthRun account symbol calls r := by
  unfold RiskEngine.accountHealth at run
  rw [returns_get_bind] at run
  obtain ⟨e, rfl, rfl⟩ | ⟨held, rest, rfl, run⟩ := run
  · exact .storeFailed e
  · cases held with
    | none =>
      obtain ⟨rfl, rfl⟩ := run
      exact .notFound
    | some pos =>
      rw [returns_locked_bind] at run
      obtain ⟨mark, rest, rfl, run⟩ := run
      cases mark with
      | none =>
        obtain ⟨rfl, rfl⟩ := run
        exact .noMarket pos
      | some mark =>
        rw [returns_locked_bind] at run
        obtain ⟨params, rest, rfl, rfl, rfl⟩ := run
        exact .reported pos mark params

/-- The position an accepted `OpenPosition` stores. -/
def openedPosition (account : AccountId) (symbol : Symbol) (side : Side) (marginMode : MarginMode)
    (size : Size) (entryPrice : Price) (leverage : Leverage) (posted : Usd) : Position :=
  { account, symbol, side, marginMode, size, entryPrice, leverage
    postedMargin := posted
    fundingPaid := .ZERO }

/-- The position an `OpenPosition` would store. -/
def RiskCommand.opening : RiskCommand → Option Position
  | .openPosition account symbol side marginMode size entryPrice leverage margin =>
    some (openedPosition account symbol side marginMode size entryPrice leverage margin)
  | _ => none

theorem opening_eq_some {command : RiskCommand} {pos : Position}
    (opens : command.opening = some pos) :
    ∃ account symbol side marginMode size entryPrice leverage margin,
      command = .openPosition account symbol side marginMode size entryPrice leverage margin ∧
      pos = openedPosition account symbol side marginMode size entryPrice leverage margin := by
  cases command <;> simp only [RiskCommand.opening, Option.some.injEq, reduceCtorEq] at opens
  exact ⟨_, _, _, _, _, _, _, _, rfl, opens.symm⟩

/-- The event of an accepted `OpenPosition`. -/
def openedEvent (pos : Position) : RiskEvent :=
  .positionOpened pos.account pos.symbol pos.side (pos.notional pos.entryPrice)

/-- The runs of `open` for the position it would store. -/
inductive OpenRun (pos : Position) : List EngineCall → Except CoreError CommandOutcome → Prop
  | storeFailed (e : PortError) :
      OpenRun pos [⟨.get pos.account.asStr pos.symbol, .error e⟩] (.error (.port e))
  | alreadyOpen (held : Position) :
      OpenRun pos [⟨.get pos.account.asStr pos.symbol, .ok (some held)⟩] (.error .positionExists)
  | insufficient (params : RiskParams)
      (short : pos.postedMargin < initialMargin pos pos.entryPrice params) :
      OpenRun pos [⟨.get pos.account.asStr pos.symbol, .ok none⟩, ⟨.riskParams pos.symbol, params⟩]
        (.error .insufficientMargin)
  | upsertFailed (params : RiskParams) (e : PortError)
      (enough : ¬ pos.postedMargin < initialMargin pos pos.entryPrice params) :
      OpenRun pos [⟨.get pos.account.asStr pos.symbol, .ok none⟩, ⟨.riskParams pos.symbol, params⟩,
        ⟨.upsert pos, .error e⟩] (.error (.port e))
  | opened (params : RiskParams)
      (enough : ¬ pos.postedMargin < initialMargin pos pos.entryPrice params) :
      OpenRun pos [⟨.get pos.account.asStr pos.symbol, .ok none⟩, ⟨.riskParams pos.symbol, params⟩,
        ⟨.upsert pos, .ok ()⟩, ⟨.countOpened, ()⟩] (.ok ⟨[openedEvent pos]⟩)

theorem returns_openPosition {account : AccountId} {symbol : Symbol} {side : Side}
    {marginMode : MarginMode} {size : Size} {entryPrice : Price} {leverage : Leverage}
    {posted : Usd} {calls : List EngineCall} {r : Except CoreError CommandOutcome}
    (run : Program.Returns
      (RiskEngine.openPosition account symbol side marginMode size entryPrice leverage posted)
      calls r) :
    OpenRun (openedPosition account symbol side marginMode size entryPrice leverage posted)
      calls r := by
  unfold RiskEngine.openPosition at run
  rw [returns_get_bind] at run
  obtain ⟨e, rfl, rfl⟩ | ⟨held, rest, rfl, run⟩ := run
  · exact .storeFailed e
  · cases held with
    | some held =>
      obtain ⟨rfl, rfl⟩ := run
      exact .alreadyOpen held
    | none =>
      rw [returns_locked_bind] at run
      obtain ⟨params, rest, rfl, run⟩ := run
      dsimp only at run
      split at run
      · next short =>
        obtain ⟨rfl, rfl⟩ := run
        exact .insufficient params short
      · next enough =>
        rw [returns_upsert_bind] at run
        obtain ⟨e, rfl, rfl⟩ | ⟨_, rest, rfl, run⟩ := run
        · exact .upsertFailed params e enough
        · rw [returns_locked_bind] at run
          obtain ⟨_, rest, rfl, rfl, rfl⟩ := run
          exact .opened params enough

/-- The event of a completed `ClosePosition`. -/
def closedEvent (symbol : Symbol) (pos : Position) (mark : Price) : RiskEvent :=
  .positionClosed pos.account symbol ((positionEquity pos mark).saturatingSub pos.postedMargin)

/-- The runs of `close`. -/
inductive CloseRun (account : String) (symbol : Symbol) :
    List EngineCall → Except CoreError CommandOutcome → Prop
  | storeFailed (e : PortError) :
      CloseRun account symbol [⟨.remove account symbol, .error e⟩] (.error (.port e))
  | notFound :
      CloseRun account symbol [⟨.remove account symbol, .ok none⟩] (.error .positionNotFound)
  | noMarket (pos : Position) :
      CloseRun account symbol
        [⟨.remove account symbol, .ok (some pos)⟩, ⟨.markFor symbol, none⟩]
        (.error .marketNotFound)
  | closed (pos : Position) (mark : Price) :
      CloseRun account symbol
        [⟨.remove account symbol, .ok (some pos)⟩, ⟨.markFor symbol, some mark⟩, ⟨.countClosed, ()⟩]
        (.ok ⟨[closedEvent symbol pos mark]⟩)

theorem returns_close {account : String} {symbol : Symbol} {calls : List EngineCall}
    {r : Except CoreError CommandOutcome}
    (run : Program.Returns (RiskEngine.close account symbol) calls r) :
    CloseRun account symbol calls r := by
  unfold RiskEngine.close at run
  rw [returns_remove_bind] at run
  obtain ⟨e, rfl, rfl⟩ | ⟨held, rest, rfl, run⟩ := run
  · exact .storeFailed e
  · cases held with
    | none =>
      obtain ⟨rfl, rfl⟩ := run
      exact .notFound
    | some pos =>
      rw [returns_locked_bind] at run
      obtain ⟨mark, rest, rfl, run⟩ := run
      cases mark with
      | none =>
        obtain ⟨rfl, rfl⟩ := run
        exact .noMarket pos
      | some mark =>
        rw [returns_locked_bind] at run
        obtain ⟨_, rest, rfl, rfl, rfl⟩ := run
        exact .closed pos mark

theorem returns_updateMarket {symbol : Symbol} {markPrice indexPrice : Price} {rateBps : I64}
    {calls : List EngineCall} {r : Except CoreError CommandOutcome}
    (run : Program.Returns (RiskEngine.updateMarket symbol markPrice indexPrice rateBps) calls r) :
    calls = [⟨.insertMarket ⟨symbol, markPrice, indexPrice, rateBps⟩, ()⟩] ∧
      r = .ok ⟨[.marketUpdated symbol markPrice.micros rateBps]⟩ := by
  unfold RiskEngine.updateMarket at run
  rw [returns_locked_bind] at run
  obtain ⟨_, rest, rfl, rfl, rfl⟩ := run
  exact ⟨rfl, rfl⟩

/-! ## Funding -/

/-- A position after one funding settlement. -/
def fundedPosition (mark : Price) (rateBps : I64) (pos : Position) : Position :=
  { pos with fundingPaid := pos.fundingPaid.saturatingAdd (fundingPayment pos mark rateBps) }

/-- The write-back of one funding settlement. -/
def fundingCall (mark : Price) (rateBps : I64) (pos : Position) : EngineCall :=
  ⟨.upsert (fundedPosition mark rateBps pos), .ok ()⟩

/-- The event of one funding settlement. -/
def fundingEvent (symbol : Symbol) (mark : Price) (rateBps : I64) (pos : Position) : RiskEvent :=
  .fundingSettled pos.account symbol (fundingPayment pos mark rateBps)

theorem returns_accrueLoop {symbol : Symbol} {mark : Price} {rateBps : I64}
    {positions : List Position} {events : List RiskEvent} {calls : List EngineCall}
    {r : Except CoreError (List RiskEvent)}
    (run : Program.Returns (RiskEngine.accrueLoop symbol mark rateBps positions events) calls r) :
    (calls = positions.map (fundingCall mark rateBps) ∧
      r = .ok (events ++ positions.map (fundingEvent symbol mark rateBps))) ∨
    (∃ done pos rest e, positions = done ++ pos :: rest ∧
      calls = done.map (fundingCall mark rateBps) ++
        [⟨.upsert (fundedPosition mark rateBps pos), .error e⟩] ∧ r = .error (.port e)) := by
  induction positions generalizing events calls with
  | nil =>
    obtain ⟨rfl, rfl⟩ := run
    exact Or.inl ⟨rfl, by simp⟩
  | cons pos positions ih =>
    unfold RiskEngine.accrueLoop at run
    rw [returns_upsert_bind] at run
    obtain ⟨e, rfl, rfl⟩ | ⟨_, rest, rfl, run⟩ := run
    · exact Or.inr ⟨[], pos, positions, e, rfl, rfl, rfl⟩
    · obtain ⟨rfl, rfl⟩ | ⟨done, failed, rest, e, rfl, rfl, rfl⟩ := ih run
      · exact Or.inl ⟨rfl, by simp [fundingEvent]⟩
      · exact Or.inr ⟨pos :: done, failed, rest, e, rfl, rfl, rfl⟩

/-- The counter section that ends a funding round with at least one settlement. -/
def fundingCount (listing : List Position) : List EngineCall :=
  if listing.isEmpty then [] else [⟨.countFunding listing.length, ()⟩]

theorem mem_fundingCount {listing : List Position} {c : EngineCall}
    (member : c ∈ fundingCount listing) : c = ⟨.countFunding listing.length, ()⟩ := by
  unfold fundingCount at member
  split at member
  · simp at member
  · exact List.mem_singleton.mp member

/-- The runs of `accrue_funding`. -/
inductive AccrueRun (symbol : Symbol) : List EngineCall → Except CoreError CommandOutcome → Prop
  | noMarket : AccrueRun symbol [⟨.fundingTerms symbol, none⟩] (.error .marketNotFound)
  | listingFailed (mark : Price) (rateBps : I64) (e : PortError) :
      AccrueRun symbol [⟨.fundingTerms symbol, some (mark, rateBps)⟩, ⟨.byMarket symbol, .error e⟩]
        (.error (.port e))
  | cut (mark : Price) (rateBps : I64) (done : List Position) (pos : Position)
      (rest : List Position) (e : PortError) :
      AccrueRun symbol (⟨.fundingTerms symbol, some (mark, rateBps)⟩ ::
        ⟨.byMarket symbol, .ok (done ++ pos :: rest)⟩ :: (done.map (fundingCall mark rateBps) ++
          [⟨.upsert (fundedPosition mark rateBps pos), .error e⟩]))
        (.error (.port e))
  | accrued (mark : Price) (rateBps : I64) (listing : List Position) :
      AccrueRun symbol (⟨.fundingTerms symbol, some (mark, rateBps)⟩ ::
        ⟨.byMarket symbol, .ok listing⟩ ::
          (listing.map (fundingCall mark rateBps) ++ fundingCount listing))
        (.ok ⟨listing.map (fundingEvent symbol mark rateBps)⟩)

theorem returns_accrueFunding {symbol : Symbol} {calls : List EngineCall}
    {r : Except CoreError CommandOutcome}
    (run : Program.Returns (RiskEngine.accrueFunding symbol) calls r) : AccrueRun symbol calls r := by
  unfold RiskEngine.accrueFunding at run
  rw [returns_locked_bind] at run
  obtain ⟨terms, rest, rfl, run⟩ := run
  cases terms with
  | none =>
    obtain ⟨rfl, rfl⟩ := run
    exact .noMarket
  | some terms =>
    obtain ⟨mark, rateBps⟩ := terms
    rw [returns_byMarket_bind] at run
    obtain ⟨e, rfl, rfl⟩ | ⟨listing, rest, rfl, run⟩ := run
    · exact .listingFailed mark rateBps e
    · rw [Program.returns_except_bind] at run
      obtain ⟨e, loop, rfl⟩ | ⟨front, back, events, rfl, loop, run⟩ := run
      · obtain ⟨_, same⟩ | ⟨done, pos, rest, e', rfl, rfl, same⟩ := returns_accrueLoop loop
        · cases same
        · cases same
          exact .cut mark rateBps done pos rest e'
      · obtain ⟨rfl, same⟩ | ⟨done, pos, rest, e', _, _, same⟩ := returns_accrueLoop loop
        · cases same
          cases listing with
          | nil =>
            obtain ⟨rfl, rfl⟩ := run
            exact .accrued mark rateBps []
          | cons pos listing =>
            have count : (([] : List RiskEvent) ++
                (pos :: listing).map (fundingEvent symbol mark rateBps)).length =
                (pos :: listing).length := by simp
            rw [if_neg (by simp), count, returns_locked_bind] at run
            obtain ⟨_, rest, rfl, rfl, rfl⟩ := run
            exact .accrued mark rateBps (pos :: listing)
        · cases same

/-! ## Sweeps -/

/-- One position a sweep liquidated, with what the store and the fund answered.
A solvent position never touches the fund's cover. -/
@[ext] structure Settlement where
  position : Position
  mark : Price
  params : RiskParams
  removed : Option Position
  drawn : Usd
  socialized : Usd
  solvent : 0 ≤ (positionEquity position mark).toInt → drawn = .ZERO ∧ socialized = .ZERO

namespace Settlement

def equity (s : Settlement) : Usd := positionEquity s.position s.mark

def fee (s : Settlement) : Usd :=
  (s.position.notional s.mark).mulBps s.params.liquidationFeeBps

/-- Whether the fund has to pay. -/
def bankrupt (s : Settlement) : Bool := s.equity.isNegative

/-- The section on the insurance fund. -/
def fundCall (s : Settlement) : EngineCall :=
  if s.bankrupt then ⟨.cover s.position s.equity.neg, (s.drawn, s.socialized)⟩
  else ⟨.credit s.position (s.fee.min s.equity), ()⟩

/-- Everything the sweep does for this position. -/
def calls (symbol : Symbol) (s : Settlement) : List EngineCall :=
  [⟨.remove s.position.account.asStr symbol, .ok s.removed⟩, s.fundCall, ⟨.countLiquidated, ()⟩]

def liquidation (symbol : Symbol) (s : Settlement) : Liquidation where
  account := s.position.account
  symbol := symbol
  reason := if s.bankrupt then .bankruptcy else .maintenanceBreach
  closedNotional := s.position.notional s.mark
  insuranceDraw := s.drawn
  socializedLoss := s.socialized

theorem fundCall_of_bankrupt {s : Settlement} (short : s.bankrupt = true) :
    s.fundCall = ⟨.cover s.position s.equity.neg, (s.drawn, s.socialized)⟩ := if_pos short

theorem fundCall_of_solvent {s : Settlement} (solvent : s.bankrupt = false) :
    s.fundCall = ⟨.credit s.position (s.fee.min s.equity), ()⟩ := if_neg (by simp [solvent])

theorem calls_of_bankrupt {s : Settlement} (short : s.bankrupt = true) (symbol : Symbol) :
    s.calls symbol = [⟨.remove s.position.account.asStr symbol, .ok s.removed⟩,
      ⟨.cover s.position s.equity.neg, (s.drawn, s.socialized)⟩, ⟨.countLiquidated, ()⟩] := by
  rw [calls, fundCall_of_bankrupt short]

theorem calls_of_solvent {s : Settlement} (solvent : s.bankrupt = false) (symbol : Symbol) :
    s.calls symbol = [⟨.remove s.position.account.asStr symbol, .ok s.removed⟩,
      ⟨.credit s.position (s.fee.min s.equity), ()⟩, ⟨.countLiquidated, ()⟩] := by
  rw [calls, fundCall_of_solvent solvent]

/-- The kinds of calls that settlements make. -/
theorem mem_settlements {symbol : Symbol} {settled : List Settlement} {c : EngineCall}
    (member : c ∈ settled.flatMap (calls symbol)) : ∃ s ∈ settled,
      c = ⟨.remove s.position.account.asStr symbol, .ok s.removed⟩ ∨
      c = ⟨.cover s.position s.equity.neg, (s.drawn, s.socialized)⟩ ∨
      c = ⟨.credit s.position (s.fee.min s.equity), ()⟩ ∨ c = ⟨.countLiquidated, ()⟩ := by
  obtain ⟨s, listed, own⟩ := List.mem_flatMap.mp member
  refine ⟨s, listed, ?_⟩
  cases short : s.bankrupt with
  | true =>
    rw [calls_of_bankrupt short] at own
    simp only [List.mem_cons, List.not_mem_nil, or_false] at own
    tauto
  | false =>
    rw [calls_of_solvent short] at own
    simp only [List.mem_cons, List.not_mem_nil, or_false] at own
    tauto

theorem equity_neg {s : Settlement} (short : s.bankrupt = true) : s.equity.toInt < 0 :=
  (Usd.isNegative_iff _).mp short

theorem equity_nonneg {s : Settlement} (solvent : s.bankrupt = false) : 0 ≤ s.equity.toInt := by
  rw [Settlement.bankrupt, Usd.isNegative, decide_eq_false_iff_not] at solvent
  omega

def event (symbol : Symbol) (s : Settlement) : RiskEvent := .liquidated (s.liquidation symbol)

/-- The running socialised total of a sweep. -/
def addSocialized (total : Usd) (s : Settlement) : Usd := total.saturatingAdd s.socialized

end Settlement

/-- The socialised total of a sweep, as the loop accumulates it. -/
def totalSocialized (settled : List Settlement) : Usd :=
  settled.foldl Settlement.addSocialized .ZERO

/-- Positions a sweep processed, all at the terms it read. -/
structure Processed (mark : Price) (params : RiskParams) (positions : List Position)
    (settled : List Settlement) : Prop where
  terms : ∀ s ∈ settled, s.mark = mark ∧ s.params = params
  positions_eq : settled.map Settlement.position =
    positions.filter fun pos => isLiquidatable pos mark params

theorem Processed.mem_listing {mark : Price} {params : RiskParams} {positions : List Position}
    {settled : List Settlement} (processed : Processed mark params positions settled)
    {s : Settlement} (member : s ∈ settled) :
    s.position ∈ positions ∧ isLiquidatable s.position mark params = true := by
  have listed : s.position ∈ settled.map Settlement.position := List.mem_map_of_mem member
  rw [processed.positions_eq] at listed
  exact List.mem_filter.mp listed

theorem Processed.skip {mark : Price} {params : RiskParams} {pos : Position}
    {positions : List Position} {settled : List Settlement}
    (healthy : isLiquidatable pos mark params = false)
    (rest : Processed mark params positions settled) :
    Processed mark params (pos :: positions) settled where
  terms := rest.terms
  positions_eq := by rw [rest.positions_eq, List.filter_cons_of_neg (by simp [healthy])]

theorem Processed.take {mark : Price} {params : RiskParams} {positions : List Position}
    {s : Settlement} {settled : List Settlement} (own : s.mark = mark ∧ s.params = params)
    (breach : isLiquidatable s.position mark params = true)
    (rest : Processed mark params positions settled) :
    Processed mark params (s.position :: positions) (s :: settled) where
  terms := by
    intro s' member
    rcases List.mem_cons.mp member with rfl | later
    · exact own
    · exact rest.terms s' later
  positions_eq := by
    rw [List.map_cons, rest.positions_eq, List.filter_cons_of_pos (by simp [breach])]

/-- One liquidatable position at the head of the sweep: its removal fails, or it
is settled and the sweep goes on. -/
theorem returns_liquidateLoop_head {symbol : Symbol} {mark : Price} {params : RiskParams}
    {pos : Position} {positions : List Position} {events : List RiskEvent} {total : Usd}
    {calls : List EngineCall} {r : Except CoreError (List RiskEvent × Usd)}
    (breach : isLiquidatable pos mark params = true)
    (run : Program.Returns
      (RiskEngine.liquidateLoop symbol mark params (pos :: positions) events total) calls r) :
    (∃ e, calls = [⟨.remove pos.account.asStr symbol, .error e⟩] ∧ r = .error (.port e)) ∨
    (∃ s : Settlement, ∃ tail, s.position = pos ∧ (s.mark = mark ∧ s.params = params) ∧
      calls = s.calls symbol ++ tail ∧
      Program.Returns (RiskEngine.liquidateLoop symbol mark params positions
        (events ++ [s.event symbol]) (s.addSocialized total)) tail r) := by
  unfold RiskEngine.liquidateLoop at run
  simp only [breach, Bool.not_true, Bool.false_eq_true, if_false] at run
  rw [returns_remove_bind] at run
  obtain ⟨e, rfl, rfl⟩ | ⟨removed, rest, rfl, run⟩ := run
  · exact Or.inl ⟨e, rfl, rfl⟩
  · refine Or.inr ?_
    split at run
    · next bankrupt =>
      rw [returns_locked_bind] at run
      obtain ⟨⟨drawn, socialized⟩, rest, rfl, run⟩ := run
      rw [returns_pure_bind, returns_locked_bind] at run
      obtain ⟨_, tail, rfl, run⟩ := run
      let s : Settlement :=
        { position := pos, mark, params, removed, drawn, socialized
          solvent := fun nonneg => absurd ((Usd.isNegative_iff _).mp bankrupt) (by omega) }
      refine ⟨s, tail, rfl, ⟨rfl, rfl⟩, ?_, ?_⟩
      · simp [Settlement.calls, Settlement.fundCall, Settlement.bankrupt, Settlement.equity, s,
          bankrupt]
      · simpa [Settlement.event, Settlement.liquidation, Settlement.addSocialized,
          Settlement.bankrupt, Settlement.equity, s, bankrupt] using run
    · next solvent =>
      rw [returns_locked_bind] at run
      obtain ⟨_, rest, rfl, run⟩ := run
      rw [returns_pure_bind, returns_locked_bind] at run
      obtain ⟨_, tail, rfl, run⟩ := run
      let s : Settlement :=
        { position := pos, mark, params, removed, drawn := .ZERO, socialized := .ZERO
          solvent := fun _ => ⟨rfl, rfl⟩ }
      refine ⟨s, tail, rfl, ⟨rfl, rfl⟩, ?_, ?_⟩
      · simp [Settlement.calls, Settlement.fundCall, Settlement.bankrupt, Settlement.equity,
          Settlement.fee, s, solvent]
      · simpa [Settlement.event, Settlement.liquidation, Settlement.addSocialized,
          Settlement.bankrupt, Settlement.equity, s, solvent, Usd.saturatingAdd_ZERO] using run

theorem returns_liquidateLoop {symbol : Symbol} {mark : Price} {params : RiskParams}
    {positions : List Position} {events : List RiskEvent} {total : Usd} {calls : List EngineCall}
    {r : Except CoreError (List RiskEvent × Usd)}
    (run : Program.Returns
      (RiskEngine.liquidateLoop symbol mark params positions events total) calls r) :
    (∃ settled, Processed mark params positions settled ∧
      calls = settled.flatMap (Settlement.calls symbol) ∧
      r = .ok (events ++ settled.map (Settlement.event symbol),
        settled.foldl Settlement.addSocialized total)) ∨
    (∃ settled done pos rest e, Processed mark params done settled ∧
      positions = done ++ pos :: rest ∧ isLiquidatable pos mark params = true ∧
      calls = settled.flatMap (Settlement.calls symbol) ++
        [⟨.remove pos.account.asStr symbol, .error e⟩] ∧ r = .error (.port e)) := by
  induction positions generalizing events total calls with
  | nil =>
    obtain ⟨rfl, rfl⟩ := run
    exact Or.inl ⟨[], ⟨by simp, rfl⟩, rfl, by simp⟩
  | cons pos positions ih =>
    cases breach : isLiquidatable pos mark params with
    | false =>
      unfold RiskEngine.liquidateLoop at run
      simp only [breach, Bool.not_false, if_true] at run
      obtain ⟨settled, processed, rfl, rfl⟩ |
          ⟨settled, done, failed, rest, e, processed, rfl, next, rfl, rfl⟩ := ih run
      · exact Or.inl ⟨settled, processed.skip breach, rfl, rfl⟩
      · exact Or.inr ⟨settled, pos :: done, failed, rest, e, processed.skip breach, rfl, next,
          rfl, rfl⟩
    | true =>
      replace run := returns_liquidateLoop_head breach run
      obtain ⟨e, rfl, rfl⟩ | ⟨s, tail, rfl, own, rfl, run⟩ := run
      · exact Or.inr ⟨[], [], pos, positions, e, ⟨by simp, rfl⟩, rfl, breach, rfl, rfl⟩
      · obtain ⟨settled, processed, rfl, rfl⟩ |
            ⟨settled, done, failed, rest, e, processed, rfl, next, rfl, rfl⟩ := ih run
        · exact Or.inl ⟨s :: settled, processed.take own breach, rfl, by simp⟩
        · exact Or.inr ⟨s :: settled, s.position :: done, failed, rest, e,
            processed.take own breach, rfl, next, by simp, rfl⟩

/-- The counter section of a sweep that socialised a loss. -/
def adlCalls (total : Usd) : List EngineCall :=
  if total.toInt = 0 then [] else [⟨.countAdl, ()⟩]

/-- The event of a sweep that socialised a loss. -/
def adlEvents (symbol : Symbol) (total : Usd) : List RiskEvent :=
  if total.toInt = 0 then [] else [.autoDeleveraged symbol total]

theorem mem_adlCalls {total : Usd} {c : EngineCall} (member : c ∈ adlCalls total) :
    c = ⟨.countAdl, ()⟩ := by
  unfold adlCalls at member
  split at member
  · simp at member
  · exact List.mem_singleton.mp member

theorem mem_adlEvents {symbol : Symbol} {total : Usd} {event : RiskEvent}
    (member : event ∈ adlEvents symbol total) : event = .autoDeleveraged symbol total := by
  unfold adlEvents at member
  split at member
  · simp at member
  · exact List.mem_singleton.mp member

/-- The events of a completed sweep. -/
def sweepEvents (symbol : Symbol) (settled : List Settlement) : List RiskEvent :=
  settled.map (Settlement.event symbol) ++ adlEvents symbol (totalSocialized settled)

/-- The liquidations among events. -/
def liquidationsOf (events : List RiskEvent) : List Liquidation :=
  events.filterMap fun
    | .liquidated liquidation => some liquidation
    | _ => none

theorem liquidationsOf_sweep (symbol : Symbol) (settled : List Settlement) :
    liquidationsOf (sweepEvents symbol settled) = settled.map (Settlement.liquidation symbol) := by
  have settlements : liquidationsOf (settled.map (Settlement.event symbol)) =
      settled.map (Settlement.liquidation symbol) := by
    rw [liquidationsOf, List.filterMap_map]
    exact congrFun List.filterMap_eq_map' settled
  have others : liquidationsOf (adlEvents symbol (totalSocialized settled)) = [] :=
    List.filterMap_eq_nil_iff.mpr fun event member => by rw [mem_adlEvents member]
  rw [liquidationsOf] at settlements others ⊢
  rw [sweepEvents, List.filterMap_append, settlements, others, List.append_nil]

/-- A funding round liquidates nothing. -/
theorem liquidationsOf_funding (symbol : Symbol) (mark : Price) (rateBps : I64)
    (listing : List Position) :
    liquidationsOf (listing.map (fundingEvent symbol mark rateBps)) = [] := by
  refine List.filterMap_eq_nil_iff.mpr fun event member => ?_
  obtain ⟨pos, -, rfl⟩ := List.mem_map.mp member
  rfl

/-- The runs of `liquidate_market`. -/
inductive LiquidateRun (symbol : Symbol) :
    List EngineCall → Except CoreError CommandOutcome → Prop
  | noMarket : LiquidateRun symbol [⟨.sweepTerms symbol, none⟩] (.error .marketNotFound)
  | listingFailed (mark : Price) (params : RiskParams) (e : PortError) :
      LiquidateRun symbol
        [⟨.sweepTerms symbol, some (mark, params)⟩, ⟨.byMarket symbol, .error e⟩]
        (.error (.port e))
  | cut (mark : Price) (params : RiskParams) (settled : List Settlement) (done : List Position)
      (pos : Position) (rest : List Position) (e : PortError)
      (processed : Processed mark params done settled)
      (breach : isLiquidatable pos mark params = true) :
      LiquidateRun symbol (⟨.sweepTerms symbol, some (mark, params)⟩ ::
        ⟨.byMarket symbol, .ok (done ++ pos :: rest)⟩ ::
          (settled.flatMap (Settlement.calls symbol) ++
            [⟨.remove pos.account.asStr symbol, .error e⟩]))
        (.error (.port e))
  | swept (mark : Price) (params : RiskParams) (listing : List Position)
      (settled : List Settlement) (processed : Processed mark params listing settled) :
      LiquidateRun symbol (⟨.sweepTerms symbol, some (mark, params)⟩ ::
        ⟨.byMarket symbol, .ok listing⟩ :: (settled.flatMap (Settlement.calls symbol) ++
          adlCalls (totalSocialized settled)))
        (.ok ⟨sweepEvents symbol settled⟩)

theorem returns_liquidateMarket {symbol : Symbol} {calls : List EngineCall}
    {r : Except CoreError CommandOutcome}
    (run : Program.Returns (RiskEngine.liquidateMarket symbol) calls r) :
    LiquidateRun symbol calls r := by
  unfold RiskEngine.liquidateMarket at run
  rw [returns_locked_bind] at run
  obtain ⟨terms, rest, rfl, run⟩ := run
  cases terms with
  | none =>
    obtain ⟨rfl, rfl⟩ := run
    exact .noMarket
  | some terms =>
    obtain ⟨mark, params⟩ := terms
    rw [returns_byMarket_bind] at run
    obtain ⟨e, rfl, rfl⟩ | ⟨listing, rest, rfl, run⟩ := run
    · exact .listingFailed mark params e
    · rw [Program.returns_except_bind] at run
      obtain ⟨e, loop, rfl⟩ | ⟨front, back, ⟨events, total⟩, rfl, loop, run⟩ := run
      · obtain ⟨_, _, _, same⟩ | ⟨settled, done, pos, rest, e', processed, rfl, breach, rfl, same⟩ :=
          returns_liquidateLoop loop
        · cases same
        · cases same
          exact .cut mark params settled done pos rest e' processed breach
      · obtain ⟨settled, processed, rfl, same⟩ | ⟨_, _, _, _, _, _, _, _, _, same⟩ :=
          returns_liquidateLoop loop
        · cases same
          have shape := @LiquidateRun.swept symbol mark params listing settled processed
          change Program.Returns (if (totalSocialized settled).toInt = 0 then _ else _) back r at run
          simp only [adlCalls, sweepEvents, adlEvents] at shape
          split at run
          · next covered =>
            obtain ⟨rfl, rfl⟩ := run
            simpa [covered] using shape
          · next uncovered =>
            rw [returns_locked_bind] at run
            obtain ⟨_, rest, rfl, rfl, rfl⟩ := run
            rw [if_neg uncovered, if_neg uncovered] at shape
            exact shape
        · cases same

/-! ## `apply` -/

/-- The publish that ends an accepted command, none for an empty outcome. -/
def publishCalls (events : List RiskEvent) : List EngineCall :=
  if events.isEmpty then [] else [⟨.publish events, .ok ()⟩]

theorem mem_publishCalls {events : List RiskEvent} {c : EngineCall}
    (member : c ∈ publishCalls events) : c = ⟨.publish events, .ok ()⟩ := by
  unfold publishCalls at member
  split at member
  · simp at member
  · exact List.mem_singleton.mp member

/-- The runs of `apply`. -/
inductive ApplyRun (command : RiskCommand) :
    List EngineCall → Except CoreError CommandOutcome → Prop
  | rateLimited : ApplyRun command [⟨.tryAcquire, false⟩] (.error .rateLimited)
  | failed (body : List EngineCall) (e : CoreError)
      (run : Program.Returns (RiskEngine.dispatch command) body (.error e)) :
      ApplyRun command (⟨.tryAcquire, true⟩ :: body) (.error e)
  | unpublished (body : List EngineCall) (outcome : CommandOutcome) (e : PortError)
      (run : Program.Returns (RiskEngine.dispatch command) body (.ok outcome))
      (nonempty : outcome.events ≠ []) :
      ApplyRun command (⟨.tryAcquire, true⟩ :: (body ++ [⟨.publish outcome.events, .error e⟩]))
        (.error (.port e))
  | published (body : List EngineCall) (outcome : CommandOutcome)
      (run : Program.Returns (RiskEngine.dispatch command) body (.ok outcome)) :
      ApplyRun command (⟨.tryAcquire, true⟩ :: (body ++ publishCalls outcome.events)) (.ok outcome)

theorem returns_apply {command : RiskCommand} {calls : List EngineCall}
    {r : Except CoreError CommandOutcome}
    (run : Program.Returns (RiskEngine.apply command) calls r) : ApplyRun command calls r := by
  unfold RiskEngine.apply at run
  rw [returns_locked_bind] at run
  obtain ⟨admitted, rest, rfl, run⟩ := run
  cases admitted with
  | false =>
    obtain ⟨rfl, rfl⟩ := run
    exact .rateLimited
  | true =>
    simp only [Bool.not_true, Bool.false_eq_true, if_false] at run
    rw [Program.returns_except_bind] at run
    obtain ⟨e, run, rfl⟩ | ⟨body, back, outcome, rfl, run, last⟩ := run
    · exact .failed rest e run
    · obtain ⟨events⟩ := outcome
      cases events with
      | nil =>
        obtain ⟨rfl, rfl⟩ := last
        exact .published body ⟨[]⟩ run
      | cons event events =>
        simp only [List.isEmpty_cons, Bool.false_eq_true, if_false] at last
        rw [returns_publish_bind] at last
        obtain ⟨e, rfl, rfl⟩ | ⟨_, _, rfl, rfl, rfl⟩ := last
        · exact .unpublished body ⟨event :: events⟩ e run (by simp)
        · exact .published body ⟨event :: events⟩ run

/-- An admitted command runs its method and publishes. -/
theorem apply_returns {command : RiskCommand} {body : List EngineCall} {outcome : CommandOutcome}
    (run : Program.Returns (RiskEngine.dispatch command) body (.ok outcome)) :
    Program.Returns (RiskEngine.apply command)
      (⟨.tryAcquire, true⟩ :: (body ++ publishCalls outcome.events)) (.ok outcome) := by
  unfold RiskEngine.apply
  rw [returns_locked_bind]
  refine ⟨true, _, rfl, ?_⟩
  simp only [Bool.not_true, Bool.false_eq_true, if_false]
  rw [Program.returns_except_bind]
  refine Or.inr ⟨body, _, outcome, rfl, run, ?_⟩
  unfold publishCalls
  split
  · exact ⟨rfl, rfl⟩
  · rw [returns_publish_bind]
    exact Or.inr ⟨(), [], rfl, rfl, rfl⟩

end MarginGuard.Source
