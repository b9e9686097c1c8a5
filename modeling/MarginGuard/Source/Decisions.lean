import MarginGuard.Source.Waterfall

/-!
# What the environment decides

An `Environment` fixes the limiter's verdict and the listing of one command;
everything else is computed. `Executes.exists_environment` shows that nothing is
lost: every application is the computed one under some environment. So two runs
with the same decisions are two runs under the same environments.
-/
namespace MarginGuard.Source
open Foundation

/-- The answers of these calls are the environment's where it decides. -/
def Environment.Decides (env : Environment) (calls : List EngineCall) : Prop :=
  (∀ ans, ⟨.tryAcquire, ans⟩ ∈ calls → ans = env.admitted) ∧
    ∀ symbol ans, ⟨.byMarket symbol, ans⟩ ∈ calls → ans = .ok env.listing

/-- An answer of the engine that is the environment's where it decides is the
computed one. -/
theorem answer_eq {env : Environment} {engine : RiskEngine} {c : EngineCall}
    (answered : portsUp.answers engine c.op c.ans) (decides : env.Decides [c]) :
    c.ans = env.answer engine c.op := by
  obtain ⟨op, ans⟩ := c
  cases op with
  | tryAcquire => exact decides.1 ans List.mem_cons_self
  | byMarket symbol => exact decides.2 symbol ans List.mem_cons_self
  | countOpened => rfl
  | countClosed => rfl
  | insertMarket state => rfl
  | countFunding settled => rfl
  | credit position amount => rfl
  | countLiquidated => rfl
  | countAdl => rfl
  | _ => exact answered

/-- The computed application under an environment, call by call. -/
theorem execute_iff {env : Environment} {engine engine' : RiskEngine} {command : RiskCommand}
    {result : Except CoreError CommandOutcome} :
    execute env engine command = some (result, engine') ↔
      ∃ calls, Program.Returns (RiskEngine.apply command) calls result ∧
        portsUp.Legal engine calls ∧ engine' = portsUp.after engine calls ∧ env.Decides calls := by
  constructor
  · intro ran
    obtain ⟨calls, run, legal, final, answered⟩ := Machine.solo_answered _ ran
    refine ⟨calls, run, legal, final, fun ans member => ?_, fun symbol ans member => ?_⟩
    · obtain ⟨now, same⟩ := answered _ member
      exact same
    · obtain ⟨now, same⟩ := answered _ member
      exact same
  · rintro ⟨calls, run, legal, rfl, verdict, listed⟩
    refine Machine.solo_eq_some _ run legal fun front c back split => ?_
    refine answer_eq (legal.stepwise front c back split) ⟨fun ans member => ?_,
      fun symbol ans member => ?_⟩
    · exact verdict ans (by rw [split]; simp_all)
    · exact listed symbol ans (by rw [split]; simp_all)

theorem Environment.decides_append {env : Environment} {front back : List EngineCall} :
    env.Decides (front ++ back) ↔ env.Decides front ∧ env.Decides back := by
  simp only [Decides, List.mem_append, or_imp, forall_and]
  tauto

/-- Calls of other kinds are not the environment's. -/
theorem Environment.decides_of_forall (env : Environment) {calls : List EngineCall}
    (other : ∀ c ∈ calls, c.op ≠ .tryAcquire ∧ ∀ symbol, c.op ≠ .byMarket symbol) :
    env.Decides calls :=
  ⟨fun _ member => absurd rfl (other _ member).1,
    fun symbol _ member => absurd rfl ((other _ member).2 symbol)⟩

/-- A round that reads its terms, lists the market and goes on with other calls. -/
theorem Environment.decides_round {c : EngineCall} {symbol : Symbol} {listing : List Position}
    {rest : List EngineCall} (first : c.op ≠ .tryAcquire ∧ ∀ symbol, c.op ≠ .byMarket symbol)
    (other : ∀ c ∈ rest, c.op ≠ .tryAcquire ∧ ∀ symbol, c.op ≠ .byMarket symbol) :
    Environment.Decides ⟨true, listing⟩ (c :: ⟨.byMarket symbol, .ok listing⟩ :: rest) := by
  have split : c :: ⟨.byMarket symbol, .ok listing⟩ :: rest =
      [c] ++ ([⟨.byMarket symbol, .ok listing⟩] ++ rest) := rfl
  rw [split, decides_append, decides_append]
  refine ⟨decides_of_forall _ ?_, ⟨by simp, ?_⟩, decides_of_forall _ other⟩
  · intro d member
    rwa [List.mem_singleton.mp member]
  · intro symbol' ans member
    cases List.mem_singleton.mp member
    rfl

/-- A method asks its environment for at most one listing. -/
theorem Served.exists_environment {command : RiskCommand} {body : List EngineCall}
    {r : Except CoreError CommandOutcome} (served : Served command body r) :
    ∃ listing, Environment.Decides ⟨true, listing⟩ body := by
  cases served with
  | accrued symbol mark rateBps listing lists =>
    refine ⟨listing, Environment.decides_round (by simp) fun c member => ?_⟩
    rcases List.mem_append.mp member with settled | counted
    · obtain ⟨pos, -, rfl⟩ := List.mem_map.mp settled
      simp [fundingCall]
    · rw [mem_fundingCount counted]
      simp
  | swept symbol mark params listing settled processed lists =>
    refine ⟨listing, Environment.decides_round (by simp) fun c member => ?_⟩
    rcases List.mem_append.mp member with settlements | counted
    · obtain ⟨s, -, rfl | rfl | rfl | rfl⟩ := Settlement.mem_settlements settlements <;> simp
    · rw [mem_adlCalls counted]
      simp
  | _ => exact ⟨[], Environment.decides_of_forall _ (by simp)⟩

/-- Every application is the computed one under some environment. -/
theorem Executes.exists_environment {engine engine' : RiskEngine} {command : RiskCommand}
    {result : Except CoreError CommandOutcome} (ran : Executes engine command result engine') :
    ∃ env, execute env engine command = some (result, engine') := by
  obtain ⟨calls, run, legal, final⟩ := ran
  suffices decided : ∃ env : Environment, env.Decides calls by
    obtain ⟨env, decides⟩ := decided
    exact ⟨env, execute_iff.mpr ⟨calls, run, legal, final, decides⟩⟩
  cases applied_of_returns run (possible_of_legal legal) with
  | rateLimited => exact ⟨⟨false, []⟩, by simp, by simp⟩
  | admitted body r served =>
    obtain ⟨listing, decides⟩ := served.exists_environment
    refine ⟨⟨true, listing⟩, ?_⟩
    rw [← List.singleton_append, Environment.decides_append, Environment.decides_append]
    refine ⟨⟨by simp, by simp⟩, decides, Environment.decides_of_forall _ fun c member => ?_⟩
    rw [mem_publishCalls member]
    simp

section Decided
variable {env : Environment} {engine engine' : RiskEngine} {command : RiskCommand}
  {result : Except CoreError CommandOutcome}

/-- The limiter's verdict decides whether a command is refused. -/
theorem execute_rateLimited_iff (ran : execute env engine command = some (result, engine')) :
    result = .error .rateLimited ↔ env.admitted = false := by
  obtain ⟨calls, run, legal, -, decides⟩ := execute_iff.mp ran
  cases applied_of_returns run (possible_of_legal legal) with
  | rateLimited =>
    have refused := decides.1 false List.mem_cons_self
    exact ⟨fun _ => refused.symm, fun _ => rfl⟩
  | admitted body r served =>
    have admitted := decides.1 true List.mem_cons_self
    rw [← admitted]
    refine ⟨fun same => ?_, nofun⟩
    subst same
    cases served

/-- A computed sweep is one over the environment's listing. -/
theorem execute_sweepsOn {symbol : Symbol} {outcome : CommandOutcome}
    (ran : execute env engine (.liquidateMarket symbol) = some (.ok outcome, engine')) :
    SweepsOn engine symbol env.listing (.ok outcome) engine' := by
  obtain ⟨calls, run, legal, final, decides⟩ := execute_iff.mp ran
  cases returns_apply run with
  | published body outcome dispatched =>
    cases returns_liquidateMarket dispatched with
    | swept mark params listing settled processed =>
      have member : (⟨.byMarket symbol, .ok listing⟩ : EngineCall) ∈
          ⟨.tryAcquire, true⟩ :: ((⟨.sweepTerms symbol, some (mark, params)⟩ ::
            ⟨.byMarket symbol, .ok listing⟩ :: (settled.flatMap (Settlement.calls symbol) ++
              adlCalls (totalSocialized settled))) ++
            publishCalls (CommandOutcome.mk (sweepEvents symbol settled)).events) := by simp
      have same := Except.ok.inj (decides.2 symbol _ member)
      subst same
      exact ⟨_, run, legal, final, member⟩

/-- An admitted sweep of a market with a state runs over the environment's listing. -/
theorem execute_swept {symbol : Symbol} {state : MarketState}
    (ran : execute env engine (.liquidateMarket symbol) = some (result, engine'))
    (admitted : env.admitted = true) (priced : engine.market symbol = some state) :
    SweepsOn engine symbol env.listing result engine' := by
  cases result with
  | ok outcome => exact execute_sweepsOn ran
  | error e =>
    have verdict := execute_rateLimited_iff ran
    cases (execute_executes ran).transition with
    | rateLimited =>
      rw [verdict.mp rfl] at admitted
      cases admitted
    | sweepUnpriced unpriced =>
      rw [unpriced] at priced
      cases priced

/-- A sweep of a market without a state changes nothing. -/
theorem execute_unpriced {symbol : Symbol}
    (ran : execute env engine (.liquidateMarket symbol) = some (result, engine'))
    (unpriced : engine.market symbol = none) : engine' = engine := by
  cases (execute_executes ran).transition with
  | rateLimited => rfl
  | sweepUnpriced => rfl
  | swept state listing settled priced lists processed waterfall =>
    rw [unpriced] at priced
    cases priced

end Decided

end MarginGuard.Source
