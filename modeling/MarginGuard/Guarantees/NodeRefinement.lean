import MarginGuard.Guarantees.StoreRefinement
import MarginGuard.Source.Concurrent
import MarginGuard.Source.Node
import MarginGuard.Source.Script

/-!
# The deployed engine is the engine

`Reflects` relates a node to the engine the commands are modelled over: the
in-memory store represents the engine's store, and what the lock guards is the
same. Each action is carried out by steps of the node of which only the last is
noticed (`deployed_implements`), so every interleaving on the node, with readings
of the clock and single events between the steps of other commands, is an
interleaving of whole actions (`node_refines_engine`).
-/
namespace MarginGuard.Guarantees
open Foundation Source

/-- The node is where the engine is. The limiter and the bus take no part: the
engine allows any verdict, and no command reads what was sent. -/
structure Reflects (config : NodeConfig) (node : Node) (engine : RiskEngine) : Prop where
  represents : Represents node.store engine.store
  state : node.state = engine.state
  config : engine.config = config.engine

theorem reflects_buildEngine (config : NodeConfig) (insuranceSeed now : Nat) :
    Reflects config (.buildEngine config insuranceSeed now)
      (.fromParts (.fromWhole (.clamp insuranceSeed)) config.engine) :=
  ⟨represents_new, rfl, rfl⟩

/-! ## Sections under the lock -/

section Locked
variable {first second : RiskEngine} {action : Action}

/-- A section reads only what the lock guards. -/
theorem locked_answers (state : first.state = second.state) (config : first.config = second.config)
    (guarded : action.underLock = true) (ans : Answer action) :
    portsUp.answers first action ans ↔ portsUp.answers second action ans := by
  obtain ⟨store, sink, state, config⟩ := first
  subst state
  subst config
  cases action <;> first | rfl | cases guarded

/-- It writes only what the lock guards. -/
theorem locked_effect (state : first.state = second.state) (guarded : action.underLock = true)
    (ans : Answer action) :
    (portsUp.effect first action ans).state = (portsUp.effect second action ans).state ∧
      (portsUp.effect second action ans).store = second.store ∧
      (portsUp.effect second action ans).config = second.config := by
  obtain ⟨store, sink, state, config⟩ := first
  subst state
  cases action <;> first | exact ⟨rfl, rfl, rfl⟩ | cases guarded

end Locked

/-! ## Each action -/

section Carries
variable {config : NodeConfig}

theorem carries_underLock (action : Action) (guarded : action.underLock = true) :
    (deployed config).CarriesOut portsUp (Reflects config) action
      (Node.underLock action guarded) := by
  refine Machine.carriesOut_single _ _ fun node engine reflects ans allowed => ?_
  have state : (node.core config).state = engine.state := reflects.state
  obtain ⟨after, store, kept⟩ := locked_effect state guarded ans
  refine ⟨(locked_answers state reflects.config.symm guarded ans).mp allowed, ?_, after, ?_⟩
  · rw [store]
    exact reflects.represents
  · rw [kept]
    exact reflects.config

/-- The limiter may answer what it likes, and the engine does not see its steps. -/
theorem carries_tryAcquire :
    (deployed config).CarriesOut portsUp (Reflects config) .tryAcquire (Node.serve .tryAcquire) :=
  fun _ => ⟨fun _ _ reflects _ => ⟨reflects.represents, reflects.state, reflects.config⟩,
    fun _ _ _ reflects _ => ⟨trivial, reflects.represents, reflects.state, reflects.config⟩⟩

/-- Wherever the bus stands in a batch, the rest of it carries the publish out. -/
theorem carries_publish (batch : List RiskEvent) : (rest : List RiskEvent) →
    (deployed config).CarriesOut portsUp (Reflects config) (.publish batch) (Node.publish rest)
  | [] => fun _ _ reflects => ⟨rfl, reflects.represents, reflects.state, reflects.config⟩
  | [_] => fun _ _ _ reflects _ => ⟨rfl, reflects.represents, reflects.state, reflects.config⟩
  | _ :: event :: rest => fun _ =>
    ⟨fun _ _ reflects _ => ⟨reflects.represents, reflects.state, reflects.config⟩,
      carries_publish batch (event :: rest)⟩

/-- Every action takes effect at the last of its steps on the node. -/
theorem deployed_implements :
    (deployed config).Implements Node.serve portsUp (Reflects config) := by
  intro action
  cases action
  case tryAcquire => exact carries_tryAcquire
  case publish events => exact carries_publish events events
  case get account symbol =>
    refine Machine.carriesOut_single _ _ fun node engine reflects held answered => ?_
    exact ⟨congrArg Except.ok (answered.trans (reflects.represents.get account symbol)), reflects⟩
  case upsert position =>
    refine Machine.carriesOut_single _ _ fun node engine reflects _ _ => ?_
    exact ⟨rfl, reflects.represents.upsert position, reflects.state, reflects.config⟩
  case remove account symbol =>
    refine Machine.carriesOut_single _ _ fun node engine reflects removed answered => ?_
    exact ⟨congrArg Except.ok (answered.trans (reflects.represents.remove_fst account symbol)),
      reflects.represents.remove account symbol, reflects.state, reflects.config⟩
  case byMarket symbol =>
    refine Machine.carriesOut_single _ _ fun node engine reflects listing answered => ?_
    exact ⟨reflects.represents.lists answered, reflects⟩
  all_goals exact carries_underLock _ rfl

end Carries

/-! ## What reaches the bus -/

/-- The event a step sends. -/
def sends : Call NodeOp NodeAnswer → List RiskEvent
  | ⟨.send event, _⟩ => [event]
  | ⟨.limiter _, _⟩ => []
  | ⟨.store _, _⟩ => []
  | ⟨.locked _ _, _⟩ => []

/-- The events an action publishes. -/
def publishes (c : EngineCall) : List RiskEvent :=
  match c.op with
  | .publish events => events
  | _ => []

theorem sends_publish {events : List RiskEvent} {own : List (Call NodeOp NodeAnswer)}
    {ans : Except PortError Unit} (ran : (Node.publish events).Returns own ans) :
    own.flatMap sends = events := by
  induction events generalizing own with
  | nil =>
    obtain ⟨rfl, -⟩ := ran
    rfl
  | cons event events ih =>
    obtain ⟨_, rest, rfl, ran⟩ := ran
    rw [List.flatMap_cons, ih ran]
    rfl

/-- An action sends what it publishes. -/
theorem sends_serve (c : EngineCall) (own : List (Call NodeOp NodeAnswer))
    (ran : (Node.serve c.op).Returns own c.ans) : own.flatMap sends = publishes c := by
  obtain ⟨op, ans⟩ := c
  cases op
  case publish events => exact sends_publish ran
  case tryAcquire =>
    obtain ⟨now, _, rfl, admitted, _, rfl, rfl, -⟩ := ran
    rfl
  all_goals
    obtain ⟨_, _, rfl, rfl, -⟩ := ran
    rfl

theorem publishes_eq_nil {c : EngineCall} (silent : ∀ events, c.op ≠ .publish events) :
    publishes c = [] := by
  obtain ⟨op, ans⟩ := c
  unfold publishes
  split
  · next events same => exact absurd same (silent events)
  · rfl

/-- A command publishes the events it returns. -/
theorem Applied.publishes_eq {command : RiskCommand} {made : List EngineCall}
    {r : Except CoreError CommandOutcome} (applied : Applied command made r) :
    made.flatMap publishes = eventsOf r := by
  cases applied with
  | rateLimited => rfl
  | admitted body r served =>
    have quiet : body.flatMap publishes = [] := by
      rw [List.flatMap_eq_nil_iff]
      intro c member
      refine publishes_eq_nil fun events same => ?_
      obtain ⟨op, ans⟩ := c
      subst same
      exact served.publish_notMem member
    have last : (publishCalls (eventsOf r)).flatMap publishes = eventsOf r := by
      unfold publishCalls
      split
      · next noEvents => rw [List.isEmpty_iff.mp noEvents]; rfl
      · simp [publishes]
    rw [List.flatMap_cons, List.flatMap_append, quiet, last]
    rfl

/-- The bus holds what was sent, in the order it was sent in. -/
theorem sent_after (config : NodeConfig) (node : Node) (made : List (Call NodeOp NodeAnswer)) :
    ((deployed config).after node made).sent = node.sent ++ made.flatMap sends := by
  induction made generalizing node with
  | nil => simp
  | cons c made ih =>
    obtain ⟨op, ans⟩ := c
    rw [Machine.after_cons, ih]
    cases op <;> simp [deployed, sends]

/-! ## Runs -/

theorem ready_apply (command : RiskCommand) : Ready Node.serve (RiskEngine.apply command) :=
  ⟨_, _, rfl⟩

/-- Whatever the interleaving of their steps, commands on a freshly started node
return, store and count what some interleaving of their actions on a fresh
engine does. Each finished command has sent the events it returned, in order,
and the bus has received exactly what was sent. -/
theorem node_refines_engine {ι : Type} [DecidableEq ι] {config : NodeConfig}
    {commands : ι → RiskCommand} {insuranceSeed now : Nat} {trace : List (NodeAct ι)} {node : Node}
    {threads : ι → NodeThread}
    (run : OnNode config commands (.buildEngine config insuranceSeed now) trace node threads) :
    ∃ engineTrace engine engineThreads,
      Concurrent commands (.fromParts (.fromWhole (.clamp insuranceSeed)) config.engine)
        engineTrace engine engineThreads ∧
      Represents node.store engine.store ∧ node.state = engine.state ∧
      node.sent = (calls trace).flatMap sends ∧
      ∀ i r, threads i = .done r →
        engineThreads i = .done r ∧ (callsOf i trace).flatMap sends = eventsOf r := by
  obtain ⟨engineTrace, engine, engineThreads, abstract, reflects, stage⟩ :=
    deployed_implements.exists_run (fun i => ready_apply (commands i)) run
      (reflects_buildEngine config insuranceSeed now)
  refine ⟨engineTrace, engine, engineThreads, abstract, reflects.represents, reflects.state, ?_, ?_⟩
  · rw [run.after_eq, sent_after]
    rfl
  · intro i r finished
    have own := stage i
    rw [finished] at own
    obtain ⟨returned, realized⟩ := own.done
    refine ⟨returned, ?_⟩
    rw [realized.flatMap sends_serve]
    exact Applied.publishes_eq (Concurrent.applied abstract returned)

open Sample in
/-- Two quotes of one market. -/
def twoQuotes (i : Fin 2) : RiskCommand :=
  .updateMarket sol (price (100 - 10 * i)) (price 100) (rate 5)

open Sample in
/-- Quote 0 is written first and quote 1 is sent first. -/
theorem node_refines_engine_crossed_quotes :
    ∃ (trace : List (NodeAct (Fin 2))) (node : Node) (threads : Fin 2 → NodeThread),
      node.sent = [.marketUpdated sol (price 90).micros (rate 5),
        .marketUpdated sol (price 100).micros (rate 5)] ∧
      ∃ engineTrace engine engineThreads,
        Concurrent twoQuotes (.fromParts (.fromWhole (.clamp 1000)) standard)
          engineTrace engine engineThreads ∧
        Represents node.store engine.store ∧ node.state = engine.state ∧
        node.sent = (calls trace).flatMap sends ∧
        ∀ i r, threads i = .done r →
          engineThreads i = .done r ∧ (callsOf i trace).flatMap sends = eventsOf r := by
  obtain ⟨trace, node, threads, run, sent⟩ := exists_onNode ⟨⟨2, 1⟩, standard⟩
    (.buildEngine ⟨⟨2, 1⟩, standard⟩ 1000 0) twoQuotes
    [((0 : Fin 2), ⟨1, []⟩), (1, ⟨2, []⟩), (1, {}), (0, {}), (0, {}), (1, {}), (1, {}), (0, {})]
    (fun _ node _ => node.sent = [.marketUpdated sol (price 90).micros (rate 5),
      .marketUpdated sol (price 100).micros (rate 5)])
    (by decide +kernel)
  exact ⟨trace, node, threads, sent, node_refines_engine run⟩

end MarginGuard.Guarantees
