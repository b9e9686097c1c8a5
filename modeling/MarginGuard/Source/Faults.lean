import MarginGuard.Source.Decisions
import MarginGuard.Source.Script

/-!
# The engine while ports fail

`portsMayFail may` is the engine over ports of which those calls that `may`
names can answer with an error, at any time and without an effect of their own.
What an answered call does is the same as in `portsUp`; a run in which nothing
failed is one of `portsUp` (`legal_up`).
-/
namespace MarginGuard.Source
open Foundation

/-- A port call that answered with an error. -/
def Failed : (action : Action) → Answer action → Prop
  | .get _ _, .error _ => True
  | .upsert _, .error _ => True
  | .remove _ _, .error _ => True
  | .byMarket _, .error _ => True
  | .publish _, .error _ => True
  | _, _ => False

/-- The calls of the store. -/
def Action.isStoreCall : Action → Bool
  | .get _ _ | .upsert _ | .remove _ _ | .byMarket _ => true
  | _ => false

def Action.isRemove : Action → Bool
  | .remove _ _ => true
  | _ => false

/-- The engine over ports that may fail. -/
def portsMayFail (may : Action → Bool) : Machine RiskEngine Action Answer where
  answers engine action ans := portsUp.answers engine action ans ∨ may action = true ∧ Failed action ans
  effect := RiskEngine.perform

variable {may : Action → Bool} {engine : RiskEngine} {symbol : Symbol}

theorem after_mayFail (engine : RiskEngine) (calls : List EngineCall) :
    (portsMayFail may).after engine calls = portsUp.after engine calls := rfl

/-- Where nothing failed, the ports were up. -/
theorem legal_up {calls : List EngineCall} (legal : (portsMayFail may).Legal engine calls)
    (up : ∀ c ∈ calls, ¬ Failed c.op c.ans) : portsUp.Legal engine calls := by
  induction calls generalizing engine with
  | nil => trivial
  | cons c calls ih =>
    obtain ⟨answered, later⟩ := legal
    have answered := answered.resolve_right fun failed => up c List.mem_cons_self failed.2
    exact ⟨answered, ih later fun d member => up d (List.mem_cons_of_mem _ member)⟩

/-- Ports that are up are ports that may fail and do not. -/
theorem legal_mayFail {calls : List EngineCall} (legal : portsUp.Legal engine calls) :
    (portsMayFail may).Legal engine calls := by
  induction calls generalizing engine with
  | nil => trivial
  | cons c calls ih => exact ⟨Or.inl legal.1, ih legal.2⟩

theorem settlements_up {settled : List Settlement} {c : EngineCall}
    (member : c ∈ settled.flatMap (Settlement.calls symbol)) : ¬ Failed c.op c.ans := by
  obtain ⟨s, -, rfl | rfl | rfl | rfl⟩ := Settlement.mem_settlements member <;> exact id

theorem fundingCalls_up {mark : Price} {rateBps : I64} {listing : List Position} {c : EngineCall}
    (member : c ∈ listing.map (fundingCall mark rateBps)) : ¬ Failed c.op c.ans := by
  obtain ⟨pos, -, rfl⟩ := List.mem_map.mp member
  exact id

/-- What a sweep that listed its market has read. -/
theorem sweep_read {mark : Price} {params : RiskParams} {listing : List Position}
    {rest : List EngineCall} (legal : (portsMayFail may).Legal engine
      (⟨.sweepTerms symbol, some (mark, params)⟩ :: ⟨.byMarket symbol, .ok listing⟩ :: rest)) :
    ∃ state, engine.market symbol = some state ∧ mark = state.markPrice ∧
      params = engine.riskParams symbol ∧ engine.store.Lists symbol listing ∧
      (portsMayFail may).Legal engine rest := by
  obtain ⟨priced, lists, rest⟩ := legal
  obtain ⟨state, known, sameMark, sameParams⟩ :=
    sweepTerms_read (priced.resolve_right fun failed => failed.2)
  exact ⟨state, known, sameMark, sameParams, lists.resolve_right fun failed => failed.2, rest⟩

/-- What a funding round that listed its market has read. -/
theorem round_read {mark : Price} {rateBps : I64} {listing : List Position}
    {rest : List EngineCall} (legal : (portsMayFail may).Legal engine
      (⟨.fundingTerms symbol, some (mark, rateBps)⟩ :: ⟨.byMarket symbol, .ok listing⟩ :: rest)) :
    ∃ state, engine.market symbol = some state ∧ mark = state.markPrice ∧
      rateBps = state.fundingRateBps ∧ engine.store.Lists symbol listing ∧
      (portsMayFail may).Legal engine rest := by
  obtain ⟨priced, lists, rest⟩ := legal
  obtain ⟨state, known, sameMark, sameRate⟩ :=
    fundingTerms_read (priced.resolve_right fun failed => failed.2)
  exact ⟨state, known, sameMark, sameRate, lists.resolve_right fun failed => failed.2, rest⟩

/-- A sweep cut short has settled what it had processed, and no more. -/
theorem cut_of_legal {mark : Price} {params : RiskParams} {listing : List Position}
    {settled : List Settlement} {account : String} {e : PortError}
    (legal : (portsMayFail may).Legal engine (⟨.sweepTerms symbol, some (mark, params)⟩ ::
      ⟨.byMarket symbol, .ok listing⟩ :: (settled.flatMap (Settlement.calls symbol) ++
        [⟨.remove account symbol, .error e⟩]))) :
    ∃ state, engine.market symbol = some state ∧ mark = state.markPrice ∧
      params = engine.riskParams symbol ∧ engine.store.Lists symbol listing ∧
      Waterfall engine.state.insurance settled ∧
      portsUp.after engine (⟨.sweepTerms symbol, some (mark, params)⟩ ::
        ⟨.byMarket symbol, .ok listing⟩ :: (settled.flatMap (Settlement.calls symbol) ++
          [⟨.remove account symbol, .error e⟩])) = engine.settledAll symbol settled := by
  obtain ⟨state, priced, sameMark, sameParams, lists, rest⟩ := sweep_read legal
  have settlements := legal_up ((Machine.legal_append _ _ _).mp rest).1 fun _ => settlements_up
  refine ⟨state, priced, sameMark, sameParams, lists, waterfall_of_legal settlements, ?_⟩
  change portsUp.after engine (settled.flatMap (Settlement.calls symbol) ++ _) = _
  rw [Machine.after_append, after_settlements]
  rfl

/-! ## Commands that no port failed -/

section Unfailed
variable {command : RiskCommand} {body calls : List EngineCall}
  {r : Except CoreError CommandOutcome}

/-- A method that did not return a port error met none. -/
theorem dispatch_up (run : Program.Returns (RiskEngine.dispatch command) body r)
    (fine : ∀ e, r ≠ .error (.port e)) : ∀ c ∈ body, ¬ Failed c.op c.ans := by
  cases command with
  | openPosition account symbol side marginMode size entryPrice leverage margin =>
    cases returns_openPosition run with
    | storeFailed e => exact absurd rfl (fine e)
    | upsertFailed params e => exact absurd rfl (fine e)
    | _ => simp [Failed]
  | closePosition account symbol =>
    cases returns_close run with
    | storeFailed e => exact absurd rfl (fine e)
    | _ => simp [Failed]
  | updateMarket symbol markPrice indexPrice rateBps =>
    obtain ⟨rfl, rfl⟩ := returns_updateMarket run
    simp [Failed]
  | accrueFunding symbol =>
    cases returns_accrueFunding run with
    | noMarket => simp [Failed]
    | listingFailed mark rateBps e => exact absurd rfl (fine e)
    | cut mark rateBps done pos rest e => exact absurd rfl (fine e)
    | accrued mark rateBps listing =>
      simp only [List.forall_mem_cons, List.forall_mem_append]
      refine ⟨id, id, fun c => fundingCalls_up, fun c member => ?_⟩
      rw [mem_fundingCount member]
      exact id
  | liquidateMarket symbol =>
    cases returns_liquidateMarket run with
    | noMarket => simp [Failed]
    | listingFailed mark params e => exact absurd rfl (fine e)
    | cut mark params settled done pos rest e => exact absurd rfl (fine e)
    | swept mark params listing settled processed =>
      simp only [List.forall_mem_cons, List.forall_mem_append]
      refine ⟨id, id, fun c => settlements_up, fun c member => ?_⟩
      rw [mem_adlCalls member]
      exact id

/-- A command that did not return a port error ran as over ports that are up. -/
theorem legal_up_of_result (run : Program.Returns (RiskEngine.apply command) calls r)
    (fine : ∀ e, r ≠ .error (.port e)) (legal : (portsMayFail may).Legal engine calls) :
    portsUp.Legal engine calls := by
  refine legal_up legal ?_
  cases returns_apply run with
  | rateLimited => simp [Failed]
  | failed body e dispatched =>
    rw [List.forall_mem_cons]
    exact ⟨id, dispatch_up dispatched fine⟩
  | unpublished body outcome e => exact absurd rfl (fine e)
  | published body outcome dispatched =>
    rw [List.forall_mem_cons, List.forall_mem_append]
    refine ⟨id, dispatch_up dispatched fine, fun c member => ?_⟩
    rw [mem_publishCalls member]
    exact id

end Unfailed

/-! ## What a port failure leaves -/

/-- The market positions a run was given. -/
def listedIn (calls : List EngineCall) : List Position :=
  calls.flatMap fun
    | ⟨.byMarket _, .ok listing⟩ => listing
    | _ => []

/-- Everything a command can have done when a port call ends it: `failed` is
that call and `listing` what the command had listed. -/
inductive Stopped (engine : RiskEngine) : RiskCommand → List Position → Action → RiskEngine → Prop
  | untouched {command : RiskCommand} {failed : Action}
      (gated : ∀ symbol markPrice indexPrice fundingRateBps,
        command ≠ .updateMarket symbol markPrice indexPrice fundingRateBps)
      (quiet : failed.isPublish = false) : Stopped engine command [] failed engine
  | funding {symbol : Symbol} (state : MarketState) (done : List Position) (pos : Position)
      (rest : List Position) (priced : engine.market symbol = some state)
      (lists : engine.store.Lists symbol (done ++ pos :: rest)) :
      Stopped engine (.accrueFunding symbol) (done ++ pos :: rest)
        (.upsert (fundedPosition state.markPrice state.fundingRateBps pos))
        (engine.setStore (engine.store.upsertAll
          (done.map (fundedPosition state.markPrice state.fundingRateBps))))
  | sweep {symbol : Symbol} (state : MarketState) (settled : List Settlement)
      (done : List Position) (pos : Position) (rest : List Position)
      (priced : engine.market symbol = some state)
      (lists : engine.store.Lists symbol (done ++ pos :: rest))
      (processed : Processed state.markPrice (engine.riskParams symbol) done settled)
      (waterfall : Waterfall engine.state.insurance settled) :
      Stopped engine (.liquidateMarket symbol) (done ++ pos :: rest)
        (.remove pos.account.asStr symbol) (engine.settledAll symbol settled)
  | unpublished {command : RiskCommand} {listing : List Position} {engine' : RiskEngine}
      (outcome : CommandOutcome) (nonempty : outcome.events ≠ [])
      (step : Transition engine command (.ok outcome) (engine'.emit outcome.events)) :
      Stopped engine command listing (.publish outcome.events) engine'

/-- The port call a failed run ended in. -/
def failingCall (calls : List EngineCall) : Option Action := calls.getLast?.map Call.op

@[simp] theorem failingCall_concat (calls : List EngineCall) (c : EngineCall) :
    failingCall (calls ++ [c]) = some c.op := by
  simp [failingCall]

@[simp] theorem failingCall_cons_cons (c d : EngineCall) (calls : List EngineCall) :
    failingCall (c :: d :: calls) = failingCall (d :: calls) := by
  simp [failingCall]

@[simp] theorem listedIn_append (front back : List EngineCall) :
    listedIn (front ++ back) = listedIn front ++ listedIn back := List.flatMap_append

theorem listedIn_settlements (symbol : Symbol) (settled : List Settlement) :
    listedIn (settled.flatMap (Settlement.calls symbol)) = [] := by
  refine List.flatMap_eq_nil_iff.mpr fun c member => ?_
  obtain ⟨s, -, rfl | rfl | rfl | rfl⟩ := Settlement.mem_settlements member <;> rfl

theorem listedIn_fundingCalls (mark : Price) (rateBps : I64) (listing : List Position) :
    listedIn (listing.map (fundingCall mark rateBps)) = [] := by
  refine List.flatMap_eq_nil_iff.mpr fun c member => ?_
  obtain ⟨pos, -, rfl⟩ := List.mem_map.mp member
  rfl

theorem listedIn_round {first : EngineCall} {listing : List Position} {rest : List EngineCall}
    (unlisted : listedIn [first] = []) (others : listedIn rest = []) :
    listedIn (first :: ⟨.byMarket symbol, .ok listing⟩ :: rest) = listing := by
  have split : first :: ⟨.byMarket symbol, .ok listing⟩ :: rest =
      [first] ++ ([⟨.byMarket symbol, .ok listing⟩] ++ rest) := rfl
  rw [split, listedIn_append, listedIn_append, unlisted, others, List.append_nil]
  simp [listedIn]

/-- A funding round cut short has rewritten what it had reached, and no more. -/
theorem after_cutRound (engine : RiskEngine) (mark : Price) (rateBps : I64) (done : List Position)
    (pos : Position) (listing : List Position) (e : PortError) :
    portsUp.after engine (⟨.fundingTerms symbol, some (mark, rateBps)⟩ ::
        ⟨.byMarket symbol, .ok listing⟩ :: (done.map (fundingCall mark rateBps) ++
          [⟨.upsert (fundedPosition mark rateBps pos), .error e⟩])) =
      engine.setStore (engine.store.upsertAll (done.map (fundedPosition mark rateBps))) := by
  change portsUp.after engine (done.map (fundingCall mark rateBps) ++ _) = _
  rw [Machine.after_append, after_fundingCalls]
  rfl

section Failing
variable {command : RiskCommand} {body : List EngineCall} {e : PortError}

theorem stopped_of_dispatch
    (run : Program.Returns (RiskEngine.dispatch command) body (.error (.port e)))
    (legal : (portsMayFail may).Legal engine body) :
    ∃ failed, failingCall body = some failed ∧
      Stopped engine command (listedIn body) failed (portsUp.after engine body) := by
  cases command with
  | openPosition account symbol side marginMode size entryPrice leverage margin =>
    cases returns_openPosition run with
    | storeFailed => exact ⟨_, rfl, .untouched (by simp) rfl⟩
    | upsertFailed params => exact ⟨_, rfl, .untouched (by simp) rfl⟩
  | closePosition account symbol =>
    cases returns_close run with
    | storeFailed => exact ⟨_, rfl, .untouched (by simp) rfl⟩
  | updateMarket symbol markPrice indexPrice rateBps =>
    obtain ⟨-, failed⟩ := returns_updateMarket run
    cases failed
  | accrueFunding symbol =>
    cases returns_accrueFunding run with
    | listingFailed mark rateBps => exact ⟨_, rfl, .untouched (by simp) rfl⟩
    | cut mark rateBps done pos rest =>
      obtain ⟨state, priced, rfl, rfl, lists, -⟩ := round_read legal
      refine ⟨_, by rw [← List.cons_append, ← List.cons_append, failingCall_concat], ?_⟩
      rw [after_cutRound, listedIn_round rfl (by rw [listedIn_append, listedIn_fundingCalls]; rfl)]
      exact .funding state done pos rest priced lists
  | liquidateMarket symbol =>
    cases returns_liquidateMarket run with
    | listingFailed mark params => exact ⟨_, rfl, .untouched (by simp) rfl⟩
    | cut mark params settled done pos rest _ processed breach =>
      obtain ⟨state, priced, rfl, rfl, lists, waterfall, final⟩ := cut_of_legal legal
      refine ⟨_, by rw [← List.cons_append, ← List.cons_append, failingCall_concat], ?_⟩
      rw [final, listedIn_round rfl (by rw [listedIn_append, listedIn_settlements]; rfl)]
      exact .sweep state settled done pos rest priced lists processed waterfall

/-- A command that a port ended has done no more than this. -/
theorem stopped_of_returns {calls : List EngineCall}
    (run : Program.Returns (RiskEngine.apply command) calls (.error (.port e)))
    (legal : (portsMayFail may).Legal engine calls) :
    ∃ failed, failingCall calls = some failed ∧
      Stopped engine command (listedIn calls) failed (portsUp.after engine calls) := by
  cases returns_apply run with
  | failed body _ dispatched =>
    obtain ⟨failed, last, stopped⟩ := stopped_of_dispatch dispatched legal.2
    cases body with
    | nil => cases last
    | cons c body => exact ⟨failed, last, stopped⟩
  | unpublished body outcome _ dispatched nonempty =>
    have before := ((Machine.legal_append _ _ _).mp legal.2).1
    have up := legal_up before (dispatch_up dispatched (by simp))
    have step := (served_of_returns dispatched (possible_of_legal up)).transition up
    refine ⟨.publish outcome.events, by rw [← List.cons_append, failingCall_concat], ?_⟩
    rw [← List.cons_append, Machine.after_append]
    exact .unpublished outcome nonempty step

end Failing

/-! ## Histories with failures -/

/-- One application in a history with failures. -/
structure Attempt where
  engine : RiskEngine
  command : RiskCommand
  calls : List EngineCall
  result : Except CoreError CommandOutcome

/-- The engine an application left. -/
def Attempt.after (a : Attempt) : RiskEngine := portsUp.after a.engine a.calls

/-- A port ended this application. -/
def Attempt.PortFailed (a : Attempt) : Prop := ∃ e, a.result = .error (.port e)

/-- Commands applied one after another from a fresh engine over ports that may
fail, with everything each of them did. -/
inductive FaultyHistory (may : Action → Bool) (seed : Usd) (config : EngineConfig) :
    List Attempt → RiskEngine → Prop
  | fresh : FaultyHistory may seed config [] (.fromParts seed config)
  | apply {attempts : List Attempt} {engine : RiskEngine} {command : RiskCommand}
      {calls : List EngineCall} {result : Except CoreError CommandOutcome}
      (before : FaultyHistory may seed config attempts engine)
      (run : Program.Returns (RiskEngine.apply command) calls result)
      (legal : (portsMayFail may).Legal engine calls) :
      FaultyHistory may seed config (attempts ++ [⟨engine, command, calls, result⟩])
        ((portsMayFail may).after engine calls)

/-- Over ports that are up, no command ends in a port error. -/
theorem Executes.not_port {command : RiskCommand} {engine' : RiskEngine} {e : PortError} :
    ¬ Executes engine command (.error (.port e)) engine' := by
  intro ran
  cases ran.transition

/-- A history in which nothing failed is one of these. -/
theorem History.exists_attempts {seed : Usd} {config : EngineConfig}
    {admissible : RiskEngine → RiskCommand → Prop} {entries : List Entry}
    (run : History seed config admissible entries engine) :
    ∃ attempts, FaultyHistory may seed config attempts engine ∧
      attempts.map Attempt.command = entries.map Entry.command := by
  induction run with
  | fresh => exact ⟨[], .fresh, rfl⟩
  | apply before admitted ran ih =>
    obtain ⟨attempts, earlier, commands⟩ := ih
    obtain ⟨calls, run, legal, rfl⟩ := ran
    refine ⟨_, earlier.apply run (legal_mayFail legal), ?_⟩
    rw [List.map_append, List.map_append, commands]
    rfl

/-- What every application in a history satisfies. -/
theorem FaultyHistory.attempt {seed : Usd} {config : EngineConfig} {attempts : List Attempt}
    (run : FaultyHistory may seed config attempts engine) {a : Attempt} (member : a ∈ attempts) :
    Program.Returns (RiskEngine.apply a.command) a.calls a.result ∧
      (portsMayFail may).Legal a.engine a.calls := by
  induction run with
  | fresh => cases member
  | apply before run legal ih =>
    rcases List.mem_append.mp member with earlier | now
    · exact ih earlier
    · obtain rfl := List.mem_singleton.mp now
      exact ⟨run, legal⟩

/-! ## Computed runs with failures -/

instance : (action : Action) → (ans : Answer action) → Decidable (Failed action ans)
  | .get _ _, .error _ => .isTrue trivial
  | .upsert _, .error _ => .isTrue trivial
  | .remove _ _, .error _ => .isTrue trivial
  | .byMarket _, .error _ => .isTrue trivial
  | .publish _, .error _ => .isTrue trivial
  | .get _ _, .ok _ => .isFalse id
  | .upsert _, .ok _ => .isFalse id
  | .remove _ _, .ok _ => .isFalse id
  | .byMarket _, .ok _ => .isFalse id
  | .publish _, .ok _ => .isFalse id
  | .tryAcquire, _ => .isFalse id
  | .riskParams _, _ => .isFalse id
  | .markFor _, _ => .isFalse id
  | .fundingTerms _, _ => .isFalse id
  | .sweepTerms _, _ => .isFalse id
  | .countOpened, _ => .isFalse id
  | .countClosed, _ => .isFalse id
  | .insertMarket _, _ => .isFalse id
  | .countFunding _, _ => .isFalse id
  | .cover _ _, _ => .isFalse id
  | .credit _ _, _ => .isFalse id
  | .countLiquidated, _ => .isFalse id
  | .countAdl, _ => .isFalse id

instance (engine : RiskEngine) (action : Action) (ans : Answer action) :
    Decidable ((portsMayFail may).answers engine action ans) :=
  inferInstanceAs (Decidable (_ ∨ _ ∧ _))

/-- The answers under an environment while the calls that `down` names time out. -/
def Environment.answerDown (env : Environment) (down : Action → Bool) (engine : RiskEngine)
    (action : Action) : Answer action :=
  match action with
  | .get account symbol =>
    if down (.get account symbol) then .error .timeout else env.answer engine (.get account symbol)
  | .upsert pos => if down (.upsert pos) then .error .timeout else env.answer engine (.upsert pos)
  | .remove account symbol =>
    if down (.remove account symbol) then .error .timeout
    else env.answer engine (.remove account symbol)
  | .byMarket symbol =>
    if down (.byMarket symbol) then .error .timeout else env.answer engine (.byMarket symbol)
  | .publish events =>
    if down (.publish events) then .error .timeout else env.answer engine (.publish events)
  | action => env.answer engine action

/-- Compute an application while the calls that `down` names time out. -/
def executeDown (may down : Action → Bool) (env : Environment) (engine : RiskEngine)
    (command : RiskCommand) : Option (Except CoreError CommandOutcome × RiskEngine) :=
  (portsMayFail may).solo (env.answerDown down) (RiskEngine.apply command) engine

/-- A computed application with failures, call by call. -/
theorem executeDown_calls {down : Action → Bool} {env : Environment} {engine' : RiskEngine}
    {command : RiskCommand} {result : Except CoreError CommandOutcome}
    (ran : executeDown may down env engine command = some (result, engine')) :
    ∃ calls, Program.Returns (RiskEngine.apply command) calls result ∧
      (portsMayFail may).Legal engine calls ∧ engine' = (portsMayFail may).after engine calls ∧
      ((∀ symbol, down (.byMarket symbol) = false) → env.Decides calls) := by
  obtain ⟨calls, run, legal, final, answered⟩ := Machine.solo_answered _ ran
  refine ⟨calls, run, legal, final, fun listed => ⟨fun ans member => ?_, fun symbol ans member => ?_⟩⟩
  · obtain ⟨now, same⟩ := answered _ member
    exact same
  · obtain ⟨now, same⟩ := answered _ member
    exact same.trans (if_neg (by simp [listed]))

/-- An application with failures after a script in which nothing failed, with
an outcome that passes a check. -/
theorem exists_attempt_after_script (may down : Action → Bool) (seed : Usd) (config : EngineConfig)
    (script : List (Environment × RiskCommand)) (env : Environment) (command : RiskCommand)
    (check : RiskEngine → Except CoreError CommandOutcome → RiskEngine → Prop)
    [∀ engine result engine', Decidable (check engine result engine')]
    (passed : (runScript seed config (fun _ _ => True) script).any (fun state =>
      (executeDown may down env state.2 command).any fun ran => check state.2 ran.1 ran.2) = true) :
    ∃ attempts engine calls result, attempts.map Attempt.command = script.map Prod.snd ∧
      FaultyHistory may seed config (attempts ++ [⟨engine, command, calls, result⟩])
        (portsUp.after engine calls) ∧
      ((∀ symbol, down (.byMarket symbol) = false) → env.Decides calls) ∧
      check engine result (portsUp.after engine calls) := by
  obtain ⟨⟨entries, engine⟩, ran, started⟩ := (Option.any_eq_true _ _).mp passed
  obtain ⟨⟨result, engine'⟩, executed, checked⟩ := (Option.any_eq_true _ _).mp started
  obtain ⟨attempts, before, commands⟩ := (runScript_history ran).exists_attempts
  obtain ⟨calls, run, legal, rfl, decides⟩ := executeDown_calls executed
  exact ⟨attempts, engine, calls, result, commands.trans (foldlM_commands ran),
    before.apply run legal, decides, of_decide_eq_true checked⟩

end MarginGuard.Source
