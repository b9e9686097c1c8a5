import MarginGuard.Guarantees.ApiService
import MarginGuard.Guarantees.NodeRefinement
import MarginGuard.Source.ApiNode

/-!
# Requests on the deployed node

The node carries out the actions of resolvers as it does those of commands
(`deployed_implements`), and what a resolver reads under the lock is what it would
read of the engine. So every interleaving of requests on the node, in the smaller
steps of its limiter, store and bus, is an interleaving of the same requests on the
engine (`requests_on_node`), and what is known of these holds of the node.
-/
namespace MarginGuard.Guarantees
open Foundation Source

section Levels
variable {config : NodeConfig} {advisor : AdviceContext → RiskAdvice → Prop}

/-- A section of a query reads what the lock guards. -/
theorem shows_of_reflects {node : Node} {engine : RiskEngine} (reflects : Reflects config node engine)
    (look : Look) (sight : Sight look) (shown : look.Shows advisor (node.core config) sight) :
    look.Shows advisor engine sight := by
  have state : (node.core config).state = engine.state := reflects.state
  cases look with
  | market symbol =>
    exact shown.trans (congrArg (fun state : EngineState => state.markets.lookup symbol.asStr) state)
  | insuranceBalance =>
    exact shown.trans (congrArg (fun state : EngineState => state.insurance.balance) state)
  | stats => exact shown.trans (congrArg EngineState.stats state)
  | assess ctx => exact shown

theorem apiDeployed_implements : (apiDeployed config advisor).Implements
    (Program.withLooks Node.serve) (apiPorts portsUp advisor) (Reflects config) :=
  deployed_implements.observed fun _ _ => shows_of_reflects

theorem ready_serve {F : Type} (wire : Boundary F) (request : Request F) :
    Ready (Program.withLooks Node.serve) (request.serve wire) := by
  have named (symbol : String) (next : Symbol → ApiM (Response F))
      (ready : ∀ sym, Ready (Program.withLooks Node.serve) (next sym : ApiM (Response F))) :
      Ready (Program.withLooks Node.serve)
        (check (Symbol.new symbol) >>= next : ApiM (Response F)) := by
    cases Symbol.new symbol with
    | error e => trivial
    | ok sym => exact ready sym
  cases request with
  | query asked =>
    cases asked with
    | insuranceFund => exact ⟨_, _, rfl⟩
    | riskStats => exact ⟨_, _, rfl⟩
    | _ =>
      refine named _ _ fun sym => ?_
      exact ⟨_, _, rfl⟩
  | mutation given =>
    change Ready (Program.withLooks Node.serve) (mutate wire (given.command wire) : ApiThread F)
    cases given.command wire with
    | error e => trivial
    | ok command => exact ⟨_, _, rfl⟩

end Levels

/-! ## What reaches the bus -/

/-- The event a step of a request sends. -/
def apiSends : Call (NodeOp ⊕ Look) (Observed NodeAnswer Sight) → List RiskEvent
  | ⟨.inl op, ans⟩ => sends ⟨op, ans⟩
  | ⟨.inr _, _⟩ => []

/-- The events a call of a request publishes. -/
def apiPublishes : Call (Action ⊕ Look) (Observed Answer Sight) → List RiskEvent
  | ⟨.inl action, ans⟩ => publishes ⟨action, ans⟩
  | ⟨.inr _, _⟩ => []

theorem apiSends_serve (c : Call (Action ⊕ Look) (Observed Answer Sight))
    (own : List (Call (NodeOp ⊕ Look) (Observed NodeAnswer Sight)))
    (ran : (Program.withLooks Node.serve c.op).Returns own c.ans) :
    own.flatMap apiSends = apiPublishes c := by
  obtain ⟨action | look, ans⟩ := c
  · obtain ⟨made, low, rfl⟩ := Program.returns_embed.mp ran
    rw [List.flatMap_map]
    exact sends_serve ⟨action, ans⟩ made low
  · obtain ⟨_, rest, rfl, rfl, -⟩ := ran
    rfl

theorem apiSent_after (config : NodeConfig) (advisor : AdviceContext → RiskAdvice → Prop)
    (node : Node) (made : List (Call (NodeOp ⊕ Look) (Observed NodeAnswer Sight))) :
    ((apiDeployed config advisor).after node made).sent = node.sent ++ made.flatMap apiSends := by
  induction made generalizing node with
  | nil => simp
  | cons c made ih =>
    obtain ⟨op | look, ans⟩ := c
    · have first := sent_after config node [⟨op, ans⟩]
      rw [List.flatMap_singleton] at first
      rw [Machine.after_cons, ih, List.flatMap_cons, ← List.append_assoc]
      exact congrArg (· ++ _) first
    · exact ih node

/-- A call that changes nothing publishes nothing. -/
theorem apiPublishes_of_still {c : Call (Action ⊕ Look) (Observed Answer Sight)}
    (still : Still portsUp c.op) : apiPublishes c = [] := by
  obtain ⟨action | look, ans⟩ := c
  · cases action
    case publish events =>
      have kept := still (.fromParts .ZERO ⟨.standard⟩) (.ok ())
      exact congrArg RiskEngine.sink kept
    all_goals rfl
  · rfl

/-! ## Runs -/

section Served
variable {F ι : Type} [DecidableEq ι] {wire : Boundary F} {requests : ι → Request F}
  {config : NodeConfig} {advisor : AdviceContext → RiskAdvice → Prop} {insuranceSeed now : Nat}
  {trace : List (NodeApiAct ι)} {node : Node} {threads : ι → NodeApiThread F}

variable (advisor) in
/-- A finished request whose command was accepted has published what the command
returned. -/
theorem published_of_command {made : List (Call (Action ⊕ Look) (Observed Answer Sight))}
    {request : Request F} {command : RiskCommand} {r : Except String (Response F)}
    (passes : request.command wire = some command)
    (ran : (request.serve wire).Returns made r)
    (answered : ∀ c ∈ made, ∃ engine, (apiPorts portsUp advisor).answers engine c.op c.ans) :
    ∃ result, presented wire result = r ∧ made.flatMap apiPublishes = eventsOf result := by
  rw [serve_of_command passes] at ran
  obtain ⟨front, back, result, rfl, first, rfl, rfl⟩ := (Program.returns_bind _ _ _ _).mp ran
  obtain ⟨own, applied, rfl⟩ := Program.returns_embed.mp first
  refine ⟨result, rfl, ?_⟩
  have possible : ∀ c ∈ own, Possible c := fun c member =>
    answered c.embed (List.mem_append_left _ (List.mem_map_of_mem member))
  rw [List.append_nil, List.flatMap_map]
  exact Applied.publishes_eq (applied_of_returns applied possible)

/-- Whatever the interleaving of their steps, requests on a freshly started node are
an interleaving of the same requests on a fresh engine: the node stores and counts
what the engine does, every finished request responds alike, and the bus has
received exactly what was sent, by each accepted mutation the events its command
returned and by any other request nothing. -/
theorem requests_on_node
    (run : Run (apiDeployed config advisor) (.buildEngine config insuranceSeed now)
      (fun i => (requests i).onNode wire) trace node threads) :
    ∃ engineTrace engine engineThreads,
      Run (apiPorts portsUp advisor) (.fromParts (.fromWhole (.clamp insuranceSeed)) config.engine)
        (fun i => (requests i).serve wire) engineTrace engine engineThreads ∧
      Represents node.store engine.store ∧ node.state = engine.state ∧
      node.sent = (calls trace).flatMap apiSends ∧
      ∀ i r, threads i = .done r → engineThreads i = .done r ∧
        (∀ command, (requests i).command wire = some command →
          ∃ result, presented wire result = r ∧ (callsOf i trace).flatMap apiSends = eventsOf result) ∧
        ((requests i).command wire = none → (callsOf i trace).flatMap apiSends = []) := by
  obtain ⟨engineTrace, engine, engineThreads, abstract, reflects, stage⟩ :=
    apiDeployed_implements.exists_run (fun i => ready_serve wire (requests i)) run
      (reflects_buildEngine config insuranceSeed now)
  refine ⟨engineTrace, engine, engineThreads, abstract, reflects.represents, reflects.state, ?_, ?_⟩
  · rw [run.after_eq, apiSent_after]
    rfl
  · intro i r finished
    have own := stage i
    rw [finished] at own
    obtain ⟨returned, realized⟩ := own.done
    have sent := realized.flatMap apiSends_serve
    have ran := abstract.returns returned
    refine ⟨returned, fun command passes => ?_, fun idle => ?_⟩
    · rw [sent]
      refine published_of_command advisor passes ran fun c member => ?_
      obtain ⟨front, back, -, allowed⟩ := abstract.answered member
      exact ⟨_, allowed⟩
    · have observes : Observes portsUp ((requests i).serve wire) := observes_of_none rfl idle
      have still := observes.good_of_returns ran fun _ _ => trivial
      rw [sent, List.flatMap_eq_nil_iff]
      exact fun c member => apiPublishes_of_still (still c member)

end Served

/-! ## The afternoon on the node -/

section Afternoon
open Sample

/-- The answers under a hint, with the heuristic advisor. -/
def nodeAnswer (config : NodeConfig) (hint : Hint) (node : Node) :
    (op : NodeOp ⊕ Look) → Observed NodeAnswer Sight op
  | .inl op => hint.answer config node op
  | .inr look => heuristicAnswer {} (node.core config) (.inr look)

/-- So many steps of a request. -/
def stepsOf (i : Fin 5) (count : Nat) : List (Fin 5 × Hint) := List.replicate count (i, {})

/-- The price falls while the advice is put together, on the node: three events are
sent, none of them by the advice. -/
theorem requests_on_node_afternoon :
    ∃ (trace : List (NodeApiAct (Fin 5))) (node : Node),
      node.sent.length = 3 ∧ (callsOf 2 trace).flatMap apiSends = [] ∧
      ∃ engineTrace engine engineThreads,
        Run (apiPorts portsUp heuristic) (.fromParts (.fromWhole (.clamp 5)) standard)
          (fun i => (afternoon i).serve fractions) engineTrace engine engineThreads ∧
        Represents node.store engine.store ∧ node.state = engine.state ∧
        (engineThreads 2).result.isSome := by
  have played : ((play (apiDeployed ⟨⟨10, 1⟩, standard⟩ heuristic) (nodeAnswer ⟨⟨10, 1⟩, standard⟩)
      (stepsOf 0 4 ++ stepsOf 1 7 ++ stepsOf 2 4 ++ stepsOf 3 4 ++ stepsOf 2 2)
      (.buildEngine ⟨⟨10, 1⟩, standard⟩ 5 0) fun i => (afternoon i).onNode fractions).any fun out =>
        out.2.1.sent.length = 3 ∧ (out.2.2 2).result.isSome) = true := by decide +kernel
  obtain ⟨⟨trace, node, threads⟩, ran, checked⟩ := (Option.any_eq_true _ _).mp played
  obtain ⟨sent, advised⟩ := of_decide_eq_true checked
  obtain ⟨r, finished⟩ := Option.isSome_iff_exists.mp advised
  obtain ⟨engineTrace, engine, engineThreads, run, represents, state, -, ended⟩ :=
    requests_on_node (play_run _ _ ran)
  obtain ⟨returned, -, quiet⟩ := ended 2 r (Program.result_eq_some.mp finished)
  refine ⟨trace, node, sent, quiet rfl, engineTrace, engine, engineThreads, run, represents, state, ?_⟩
  rw [returned]
  rfl

end Afternoon
end MarginGuard.Guarantees
