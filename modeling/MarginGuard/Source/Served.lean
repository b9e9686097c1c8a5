import MarginGuard.Source.Execution
import MarginGuard.Source.Runs

/-!
# What a command does while the ports are up

`Served` lists the runs of a command whose store and sink never fail, and
`Justified` says, for each call such a run makes, which earlier answers of the
same command led to it. Neither mentions the state of the engine: other
commands may act between any two calls. Arguments about interleavings rest on
these two and on what each call does to the shared state.
-/
namespace MarginGuard.Source
open Foundation

/-- An answer that some engine gives. -/
def Possible (c : EngineCall) : Prop := ∃ engine, portsUp.answers engine c.op c.ans

theorem possible_of_legal {engine : RiskEngine} {calls : List EngineCall}
    (legal : portsUp.Legal engine calls) : ∀ c ∈ calls, Possible c := by
  intro c member
  obtain ⟨front, allowed⟩ := legal.stepwise.mem member
  exact ⟨_, allowed⟩

/-- The runs of a dispatched method while the ports are up. -/
inductive Served : RiskCommand → List EngineCall → Except CoreError CommandOutcome → Prop
  | positionExists {command : RiskCommand} {pos : Position} (opens : command.opening = some pos)
      (held : Position) :
      Served command [⟨.get pos.account.asStr pos.symbol, .ok (some held)⟩] (.error .positionExists)
  | insufficientMargin {command : RiskCommand} {pos : Position}
      (opens : command.opening = some pos) (params : RiskParams)
      (short : pos.postedMargin < initialMargin pos pos.entryPrice params) :
      Served command
        [⟨.get pos.account.asStr pos.symbol, .ok none⟩, ⟨.riskParams pos.symbol, params⟩]
        (.error .insufficientMargin)
  | opened {command : RiskCommand} {pos : Position} (opens : command.opening = some pos)
      (params : RiskParams)
      (enough : ¬ pos.postedMargin < initialMargin pos pos.entryPrice params) :
      Served command
        [⟨.get pos.account.asStr pos.symbol, .ok none⟩, ⟨.riskParams pos.symbol, params⟩,
          ⟨.upsert pos, .ok ()⟩, ⟨.countOpened, ()⟩]
        (.ok ⟨[openedEvent pos]⟩)
  | closeAbsent (account : AccountId) (symbol : Symbol) :
      Served (.closePosition account symbol) [⟨.remove account.asStr symbol, .ok none⟩]
        (.error .positionNotFound)
  | closeUnpriced (account : AccountId) (symbol : Symbol) (pos : Position) :
      Served (.closePosition account symbol)
        [⟨.remove account.asStr symbol, .ok (some pos)⟩, ⟨.markFor symbol, none⟩]
        (.error .marketNotFound)
  | closed (account : AccountId) (symbol : Symbol) (pos : Position) (mark : Price)
      (own : pos.key = (account.asStr, symbol)) :
      Served (.closePosition account symbol)
        [⟨.remove account.asStr symbol, .ok (some pos)⟩, ⟨.markFor symbol, some mark⟩,
          ⟨.countClosed, ()⟩]
        (.ok ⟨[closedEvent symbol pos mark]⟩)
  | updated (symbol : Symbol) (markPrice indexPrice : Price) (rateBps : I64) :
      Served (.updateMarket symbol markPrice indexPrice rateBps)
        [⟨.insertMarket ⟨symbol, markPrice, indexPrice, rateBps⟩, ()⟩]
        (.ok ⟨[.marketUpdated symbol markPrice.micros rateBps]⟩)
  | accrueUnpriced (symbol : Symbol) :
      Served (.accrueFunding symbol) [⟨.fundingTerms symbol, none⟩] (.error .marketNotFound)
  | accrued (symbol : Symbol) (mark : Price) (rateBps : I64) (listing : List Position)
      {store : PositionStore} (lists : store.Lists symbol listing) :
      Served (.accrueFunding symbol)
        (⟨.fundingTerms symbol, some (mark, rateBps)⟩ :: ⟨.byMarket symbol, .ok listing⟩ ::
          (listing.map (fundingCall mark rateBps) ++ fundingCount listing))
        (.ok ⟨listing.map (fundingEvent symbol mark rateBps)⟩)
  | sweepUnpriced (symbol : Symbol) :
      Served (.liquidateMarket symbol) [⟨.sweepTerms symbol, none⟩] (.error .marketNotFound)
  | swept (symbol : Symbol) (mark : Price) (params : RiskParams) (listing : List Position)
      (settled : List Settlement) (processed : Processed mark params listing settled)
      {store : PositionStore} (lists : store.Lists symbol listing) :
      Served (.liquidateMarket symbol)
        (⟨.sweepTerms symbol, some (mark, params)⟩ :: ⟨.byMarket symbol, .ok listing⟩ ::
          (settled.flatMap (Settlement.calls symbol) ++ adlCalls (totalSocialized settled)))
        (.ok ⟨sweepEvents symbol settled⟩)

/-- The runs of `apply` while the ports are up. -/
inductive Applied (command : RiskCommand) :
    List EngineCall → Except CoreError CommandOutcome → Prop
  | rateLimited : Applied command [⟨.tryAcquire, false⟩] (.error .rateLimited)
  | admitted (body : List EngineCall) (r : Except CoreError CommandOutcome)
      (served : Served command body r) :
      Applied command (⟨.tryAcquire, true⟩ :: (body ++ publishCalls (eventsOf r))) r

/-- No method publishes; `apply` does. -/
theorem Served.publish_notMem {command : RiskCommand} {body : List EngineCall}
    {r : Except CoreError CommandOutcome} (served : Served command body r) {events : List RiskEvent}
    {answer : Except PortError Unit} : ⟨.publish events, answer⟩ ∉ body := by
  intro member
  cases served with
  | accrued symbol mark rateBps listing lists =>
    simp only [List.mem_cons, List.mem_append, Call.mk.injEq, reduceCtorEq, false_and,
      false_or] at member
    rcases member with settled | counted
    · obtain ⟨pos, -, same⟩ := List.mem_map.mp settled
      cases same
    · cases mem_fundingCount counted
  | swept symbol mark params listing settled processed lists =>
    simp only [List.mem_cons, List.mem_append, Call.mk.injEq, reduceCtorEq, false_and,
      false_or] at member
    rcases member with settlements | counted
    · obtain ⟨s, -, same | same | same | same⟩ := Settlement.mem_settlements settlements <;>
        cases same
    · cases mem_adlCalls counted
  | _ => simp at member

/-! ## Runs with possible answers -/

theorem served_open {command : RiskCommand} {pos : Position} {body : List EngineCall}
    {r : Except CoreError CommandOutcome} (opens : command.opening = some pos)
    (run : OpenRun pos body r) (possible : ∀ c ∈ body, Possible c) : Served command body r := by
  cases run with
  | storeFailed e =>
    obtain ⟨engine, answered⟩ := possible ⟨.get pos.account.asStr pos.symbol, .error e⟩ (by simp)
    cases answered
  | alreadyOpen held => exact .positionExists opens held
  | insufficient params short => exact .insufficientMargin opens params short
  | upsertFailed params e enough =>
    obtain ⟨engine, answered⟩ := possible ⟨.upsert pos, .error e⟩ (by simp)
    cases answered
  | opened params enough => exact .opened opens params enough

theorem served_close {account : AccountId} {symbol : Symbol} {body : List EngineCall}
    {r : Except CoreError CommandOutcome} (run : CloseRun account.asStr symbol body r)
    (possible : ∀ c ∈ body, Possible c) : Served (.closePosition account symbol) body r := by
  cases run with
  | storeFailed e =>
    obtain ⟨engine, answered⟩ := possible ⟨.remove account.asStr symbol, .error e⟩ (by simp)
    cases answered
  | notFound => exact .closeAbsent account symbol
  | noMarket pos => exact .closeUnpriced account symbol pos
  | closed pos mark =>
    obtain ⟨engine, answered⟩ :=
      possible ⟨.remove account.asStr symbol, .ok (some pos)⟩ (by simp)
    have stored := (Except.ok.inj answered).symm
    exact .closed account symbol pos mark (PositionStore.key_of_get stored)

theorem served_accrue {symbol : Symbol} {body : List EngineCall}
    {r : Except CoreError CommandOutcome} (run : AccrueRun symbol body r)
    (possible : ∀ c ∈ body, Possible c) : Served (.accrueFunding symbol) body r := by
  cases run with
  | noMarket => exact .accrueUnpriced symbol
  | listingFailed mark rateBps e =>
    obtain ⟨engine, answered⟩ := possible ⟨.byMarket symbol, .error e⟩ (by simp)
    exact answered.elim
  | cut mark rateBps done pos rest e =>
    obtain ⟨engine, answered⟩ :=
      possible ⟨.upsert (fundedPosition mark rateBps pos), .error e⟩ (by simp)
    cases answered
  | accrued mark rateBps listing =>
    obtain ⟨engine, lists⟩ := possible ⟨.byMarket symbol, .ok listing⟩ (by simp)
    exact .accrued symbol mark rateBps listing lists

theorem served_sweep {symbol : Symbol} {body : List EngineCall}
    {r : Except CoreError CommandOutcome} (run : LiquidateRun symbol body r)
    (possible : ∀ c ∈ body, Possible c) : Served (.liquidateMarket symbol) body r := by
  cases run with
  | noMarket => exact .sweepUnpriced symbol
  | listingFailed mark params e =>
    obtain ⟨engine, answered⟩ := possible ⟨.byMarket symbol, .error e⟩ (by simp)
    exact answered.elim
  | cut mark params settled done pos rest e processed breach =>
    obtain ⟨engine, answered⟩ := possible ⟨.remove pos.account.asStr symbol, .error e⟩ (by simp)
    cases answered
  | swept mark params listing settled processed =>
    obtain ⟨engine, lists⟩ := possible ⟨.byMarket symbol, .ok listing⟩ (by simp)
    exact .swept symbol mark params listing settled processed lists

theorem served_of_returns {command : RiskCommand} {body : List EngineCall}
    {r : Except CoreError CommandOutcome}
    (run : Program.Returns (RiskEngine.dispatch command) body r)
    (possible : ∀ c ∈ body, Possible c) : Served command body r := by
  cases command with
  | openPosition account symbol side marginMode size entryPrice leverage margin =>
    exact served_open rfl (returns_openPosition run) possible
  | closePosition account symbol => exact served_close (returns_close run) possible
  | updateMarket symbol markPrice indexPrice rateBps =>
    obtain ⟨rfl, rfl⟩ := returns_updateMarket run
    exact .updated symbol markPrice indexPrice rateBps
  | accrueFunding symbol => exact served_accrue (returns_accrueFunding run) possible
  | liquidateMarket symbol => exact served_sweep (returns_liquidateMarket run) possible

theorem applied_of_returns {command : RiskCommand} {calls : List EngineCall}
    {r : Except CoreError CommandOutcome}
    (ran : Program.Returns (RiskEngine.apply command) calls r)
    (possible : ∀ c ∈ calls, Possible c) : Applied command calls r := by
  cases returns_apply ran with
  | rateLimited => exact .rateLimited
  | failed body e run =>
    have shape := Applied.admitted body (.error e)
      (served_of_returns run fun c member => possible c (by simp [member]))
    simpa [eventsOf, publishCalls] using shape
  | unpublished body outcome e run nonempty =>
    obtain ⟨engine, answered⟩ := possible ⟨.publish outcome.events, .error e⟩ (by simp)
    cases answered
  | published body outcome run =>
    exact .admitted body (.ok outcome)
      (served_of_returns run fun c member => possible c (by simp [member]))

/-! ## Why a call is made -/

/-- After the calls `front`, the sweep `command` has read its terms and its
listing and takes this position of the listing. -/
structure Sweeps (command : RiskCommand) (front : List EngineCall) (mark : Price)
    (params : RiskParams) (pos : Position) : Prop where
  sweep : command = .liquidateMarket pos.symbol
  terms : ⟨.sweepTerms pos.symbol, some (mark, params)⟩ ∈ front
  listed : ∃ listing, ⟨.byMarket pos.symbol, .ok listing⟩ ∈ front ∧ pos ∈ listing
  breach : isLiquidatable pos mark params = true

/-- After the calls `front`, the funding round `command` has read its terms and
its listing and this position of the listing. -/
structure Funds (command : RiskCommand) (front : List EngineCall) (mark : Price) (rateBps : I64)
    (pos : Position) : Prop where
  round : command = .accrueFunding pos.symbol
  terms : ⟨.fundingTerms pos.symbol, some (mark, rateBps)⟩ ∈ front
  listed : ∃ listing, ⟨.byMarket pos.symbol, .ok listing⟩ ∈ front ∧ pos ∈ listing

/-- Among the calls `front` is the removal the sweep made for this position. -/
def Removed (command : RiskCommand) (front : List EngineCall) (mark : Price) (params : RiskParams)
    (pos : Position) : Prop :=
  ∃ before held after, Sweeps command before mark params pos ∧
    front = before ++ ⟨.remove pos.account.asStr pos.symbol, .ok held⟩ :: after

/-- What led to a call: the command it belongs to and the calls before it. -/
def Justified (command : RiskCommand) (front : List EngineCall) (c : EngineCall) : Prop :=
  match c.op with
  | .upsert pos =>
      (command.opening = some pos ∧ ⟨.get pos.account.asStr pos.symbol, .ok none⟩ ∈ front) ∨
      ∃ mark rateBps old, Funds command front mark rateBps old ∧
        pos = fundedPosition mark rateBps old
  | .remove account symbol =>
      (∃ owner : AccountId, owner.asStr = account ∧ command = .closePosition owner symbol) ∨
      ∃ mark params pos, Sweeps command front mark params pos ∧ pos.key = (account, symbol)
  | .cover pos shortfall => ∃ mark params, Removed command front mark params pos ∧
      (positionEquity pos mark).toInt < 0 ∧ shortfall = (positionEquity pos mark).neg
  | .credit pos amount => ∃ mark params, Removed command front mark params pos ∧
      0 ≤ (positionEquity pos mark).toInt ∧
      amount = ((pos.notional mark).mulBps params.liquidationFeeBps).min (positionEquity pos mark)
  | .insertMarket state => ∃ markPrice indexPrice rateBps,
      command = .updateMarket state.symbol markPrice indexPrice rateBps
  | .countOpened => command.opening ≠ none
  | .countClosed => ∃ account symbol, command = .closePosition account symbol
  | .countLiquidated => ∃ symbol, command = .liquidateMarket symbol
  | _ => True

/-- The three calls of one settlement of a sweep. -/
theorem justified_settlement {command : RiskCommand} (front : List EngineCall) {s : Settlement}
    (sweeps : Sweeps command front s.mark s.params s.position) :
    Stepwise (fun later c => Justified command (front ++ later) c)
      (s.calls s.position.symbol) := by
  have removed : Removed command (front ++ [⟨.remove s.position.account.asStr s.position.symbol,
      .ok s.removed⟩]) s.mark s.params s.position := ⟨front, s.removed, [], sweeps, rfl⟩
  simp only [Settlement.calls, stepwise_cons, stepwise_nil, and_true]
  refine ⟨Or.inr ⟨s.mark, s.params, s.position, by simpa using sweeps, rfl⟩, ?_,
    ⟨_, sweeps.sweep⟩⟩
  cases short : s.bankrupt with
  | true =>
    rw [Settlement.fundCall_of_bankrupt short]
    exact ⟨s.mark, s.params, removed, Settlement.equity_neg short, rfl⟩
  | false =>
    rw [Settlement.fundCall_of_solvent short]
    exact ⟨s.mark, s.params, removed, Settlement.equity_nonneg short, rfl⟩

theorem justified_sweep {symbol : Symbol} {mark : Price} {params : RiskParams}
    {listing : List Position} {settled : List Settlement} {store : PositionStore}
    (processed : Processed mark params listing settled) (lists : store.Lists symbol listing) :
    Stepwise (Justified (.liquidateMarket symbol))
      (⟨.sweepTerms symbol, some (mark, params)⟩ :: ⟨.byMarket symbol, .ok listing⟩ ::
        (settled.flatMap (Settlement.calls symbol) ++ adlCalls (totalSocialized settled))) := by
  rw [stepwise_cons, stepwise_cons, stepwise_append]
  refine ⟨trivial, trivial, stepwise_flatMap fun s member before => ?_, ?_⟩
  · obtain ⟨listed, breach⟩ := processed.mem_listing member
    obtain ⟨rfl, rfl⟩ := processed.terms s member
    obtain rfl := lists.symbol_eq listed
    exact justified_settlement (_ :: _ :: before)
      ⟨rfl, by simp, ⟨listing, by simp, listed⟩, breach⟩
  · apply stepwise_of_forall
    intro c member front
    obtain rfl := mem_adlCalls member
    trivial

theorem justified_accrue {symbol : Symbol} {mark : Price} {rateBps : I64}
    {listing : List Position} {store : PositionStore} (lists : store.Lists symbol listing) :
    Stepwise (Justified (.accrueFunding symbol))
      (⟨.fundingTerms symbol, some (mark, rateBps)⟩ :: ⟨.byMarket symbol, .ok listing⟩ ::
        (listing.map (fundingCall mark rateBps) ++ fundingCount listing)) := by
  rw [stepwise_cons, stepwise_cons, stepwise_append]
  refine ⟨trivial, trivial, stepwise_of_forall ?_, stepwise_of_forall ?_⟩
  · intro c member front
    obtain ⟨old, listed, rfl⟩ := List.mem_map.mp member
    obtain rfl := lists.symbol_eq listed
    exact Or.inr ⟨mark, rateBps, old, ⟨rfl, by simp, ⟨listing, by simp, listed⟩⟩, rfl⟩
  · intro c member front
    obtain rfl := mem_fundingCount member
    trivial

/-- Every call of a served method is justified by the calls before it. -/
theorem Served.justified {command : RiskCommand} {body : List EngineCall}
    {r : Except CoreError CommandOutcome} (served : Served command body r) :
    Stepwise (Justified command) body := by
  cases served with
  | positionExists opens held => simp [Justified]
  | insufficientMargin opens params short => simp [Justified]
  | opened opens params enough => simp [Justified, opens]
  | closeAbsent account symbol => simp [Justified]
  | closeUnpriced account symbol pos => simp [Justified]
  | closed account symbol pos mark own => simp [Justified]
  | updated symbol markPrice indexPrice rateBps => simp [Justified]
  | accrueUnpriced symbol => simp [Justified]
  | accrued symbol mark rateBps listing lists => exact justified_accrue lists
  | sweepUnpriced symbol => simp [Justified]
  | swept symbol mark params listing settled processed lists => exact justified_sweep processed lists

/-- What was read before the removal has been read after it. -/
theorem Removed.sweeps {command : RiskCommand} {front : List EngineCall} {mark : Price}
    {params : RiskParams} {pos : Position} (removed : Removed command front mark params pos) :
    Sweeps command front mark params pos := by
  obtain ⟨before, held, later, ⟨sweep, terms, ⟨listing, read, member⟩, breach⟩, rfl⟩ := removed
  exact ⟨sweep, by simp [terms], ⟨listing, by simp [read], member⟩, breach⟩

theorem Sweeps.after {command : RiskCommand} {front : List EngineCall} {mark : Price}
    {params : RiskParams} {pos : Position} (first : EngineCall)
    (sweeps : Sweeps command front mark params pos) :
    Sweeps command (first :: front) mark params pos where
  sweep := sweeps.sweep
  terms := by simp [sweeps.terms]
  listed := by
    obtain ⟨listing, read, member⟩ := sweeps.listed
    exact ⟨listing, by simp [read], member⟩
  breach := sweeps.breach

theorem Removed.after {command : RiskCommand} {front : List EngineCall} {mark : Price}
    {params : RiskParams} {pos : Position} (first : EngineCall)
    (removed : Removed command front mark params pos) :
    Removed command (first :: front) mark params pos := by
  obtain ⟨before, held, later, sweeps, rfl⟩ := removed
  exact ⟨first :: before, held, later, sweeps.after first, rfl⟩

theorem Justified.after {command : RiskCommand} {front : List EngineCall} {c : EngineCall}
    (first : EngineCall) (justified : Justified command front c) :
    Justified command (first :: front) c := by
  obtain ⟨op, ans⟩ := c
  cases op <;> simp only [Justified, List.mem_cons] at justified ⊢
  case upsert pos =>
    refine justified.imp (fun ⟨opens, read⟩ => ⟨opens, Or.inr read⟩)
      fun ⟨mark, rateBps, old, funds, same⟩ => ?_
    obtain ⟨listing, read, member⟩ := funds.listed
    exact ⟨mark, rateBps, old,
      ⟨funds.round, by simp [funds.terms], ⟨listing, by simp [read], member⟩⟩, same⟩
  case remove account symbol =>
    exact justified.imp id fun ⟨mark, params, pos, sweeps, own⟩ =>
      ⟨mark, params, pos, sweeps.after first, own⟩
  case cover pos shortfall =>
    obtain ⟨mark, params, removed, rest⟩ := justified
    exact ⟨mark, params, removed.after first, rest⟩
  case credit pos amount =>
    obtain ⟨mark, params, removed, rest⟩ := justified
    exact ⟨mark, params, removed.after first, rest⟩
  all_goals exact justified

/-- Every call of a command is justified by its calls before it. -/
theorem Applied.justified {command : RiskCommand} {calls : List EngineCall}
    {r : Except CoreError CommandOutcome} (applied : Applied command calls r) :
    Stepwise (Justified command) calls := by
  cases applied with
  | rateLimited => simp [Justified]
  | admitted body r served =>
    rw [stepwise_cons, stepwise_append]
    refine ⟨trivial, served.justified.mono fun front c justified => justified.after _, ?_⟩
    apply stepwise_of_forall
    intro c member front
    obtain rfl := mem_publishCalls member
    trivial

end MarginGuard.Source
