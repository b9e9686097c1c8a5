import MarginGuard.Foundation.Implementation
import MarginGuard.Source.Execution
import MarginGuard.Source.Limiter
import MarginGuard.Source.MemoryStore

/-!
# The deployed engine (`marginguard-node/src/startup.rs`)

`build_engine` puts the engine over the in-memory store, the token-bucket
limiter and the broadcast bus. Each of the three has steps of its own: the
limiter reads the clock before it takes its lock, the store answers from two
maps behind one lock, and the bus sends one event at a time. Between any two of
these steps other commands may run.

`Node.serve` says which steps carry out an action of the engine. `sent` are the
events in the order they reached the bus; what a subscriber sees of them is in
`Source.Bus`.
-/
namespace MarginGuard.Source
open Foundation

/-- The actions that are one section under the state lock. -/
def Action.underLock : Action → Bool
  | .tryAcquire => false
  | .get _ _ => false
  | .upsert _ => false
  | .remove _ _ => false
  | .byMarket _ => false
  | .publish _ => false
  | .riskParams _ => true
  | .markFor _ => true
  | .fundingTerms _ => true
  | .sweepTerms _ => true
  | .countOpened => true
  | .countClosed => true
  | .insertMarket _ => true
  | .countFunding _ => true
  | .cover _ _ => true
  | .credit _ _ => true
  | .countLiquidated => true
  | .countAdl => true

/-- One indivisible step on the node. -/
inductive NodeOp where
  /-- the clock or the bucket of the limiter -/
  | limiter (op : LimiterOp)
  /-- a call of the in-memory store, under its lock -/
  | store (call : StoreCall)
  /-- a section under the engine's state lock -/
  | locked (action : Action) (guarded : action.underLock = true)
  /-- `broadcast::Sender::send` -/
  | send (event : RiskEvent)

abbrev NodeAnswer : NodeOp → Type
  | .limiter op => LimiterAnswer op
  | .store call => StoreAnswer call
  | .locked action _ => Answer action
  | .send _ => Unit

/-- What is fixed when the node starts. -/
structure NodeConfig where
  limiter : RateLimiter
  engine : EngineConfig

/-- The configuration of `EngineConfig::default`. -/
def NodeConfig.default : NodeConfig := ⟨⟨10000, 100000⟩, ⟨.standard⟩⟩

/-- What the commands of a node share. -/
structure Node where
  store : MemoryPositionStore
  limiter : LimiterState
  sent : List RiskEvent
  state : EngineState

namespace Node

/-- `build_engine`, when the clock shows `now`. A seed beyond `i64` becomes its
greatest value. -/
def buildEngine (config : NodeConfig) (insuranceSeed : Nat) (now : Nat) : Node where
  store := .new
  limiter := .created config.limiter now
  sent := []
  state := (RiskEngine.fromParts (.fromWhole (.clamp insuranceSeed)) config.engine).state

/-- The part of the node the sections under the state lock work on. -/
def core (config : NodeConfig) (node : Node) : RiskEngine where
  store := .empty
  sink := []
  state := node.state
  config := config.engine

/-- `publish` of the bus: one `send` for each event. -/
def publish : List RiskEvent → Program NodeOp NodeAnswer (Except PortError Unit)
  | [] => .done (.ok ())
  | event :: events => .step (.send event) fun _ => publish events

/-- A section under the state lock. -/
def underLock (action : Action) (guarded : action.underLock = true) :
    Program NodeOp NodeAnswer (Answer action) :=
  .step (.locked action guarded) .done

/-- A call of the store, which never fails. -/
def stored (call : StoreCall) : Program NodeOp NodeAnswer (Except PortError (StoreAnswer call)) :=
  .step (.store call) fun answer => .done (.ok answer)

/-- The steps that carry out an action. -/
def serve : (action : Action) → Program NodeOp NodeAnswer (Answer action)
  | .tryAcquire => RateLimiter.tryAcquire.implement fun op => Program.perform (NodeOp.limiter op)
  | .get account symbol => stored (.get account symbol)
  | .upsert position => stored (.upsert position)
  | .remove account symbol => stored (.remove account symbol)
  | .byMarket symbol => stored (.byMarket symbol)
  | .publish events => publish events
  | .riskParams symbol => underLock (.riskParams symbol) rfl
  | .markFor symbol => underLock (.markFor symbol) rfl
  | .fundingTerms symbol => underLock (.fundingTerms symbol) rfl
  | .sweepTerms symbol => underLock (.sweepTerms symbol) rfl
  | .countOpened => underLock .countOpened rfl
  | .countClosed => underLock .countClosed rfl
  | .insertMarket state => underLock (.insertMarket state) rfl
  | .countFunding settled => underLock (.countFunding settled) rfl
  | .cover position shortfall => underLock (.cover position shortfall) rfl
  | .credit position amount => underLock (.credit position amount) rfl
  | .countLiquidated => underLock .countLiquidated rfl
  | .countAdl => underLock .countAdl rfl

end Node

/-- The steps of the node. -/
def deployed (config : NodeConfig) : Machine Node NodeOp NodeAnswer where
  answers node
    | .limiter op, ans => (limiterMachine config.limiter).answers node.limiter op ans
    | .store call, ans => memoryStore.answers node.store call ans
    | .locked action _, ans => portsUp.answers (node.core config) action ans
    | .send _, _ => True
  effect node
    | .limiter op, ans =>
      { node with limiter := (limiterMachine config.limiter).effect node.limiter op ans }
    | .store call, ans => { node with store := memoryStore.effect node.store call ans }
    | .locked action _, ans =>
      { node with state := (portsUp.effect (node.core config) action ans).state }
    | .send event, _ => { node with sent := node.sent ++ [event] }

instance (config : NodeConfig) (node : Node) : (op : NodeOp) → (ans : NodeAnswer op) →
    Decidable ((deployed config).answers node op ans)
  | .limiter op, ans =>
    inferInstanceAs (Decidable ((limiterMachine config.limiter).answers node.limiter op ans))
  | .store call, ans => inferInstanceAs (Decidable (memoryStore.answers node.store call ans))
  | .locked action _, ans => inferInstanceAs (Decidable (portsUp.answers (node.core config) action ans))
  | .send _, _ => .isTrue trivial

/-- A command on the node. -/
def Node.apply (command : RiskCommand) :
    Program NodeOp NodeAnswer (Except CoreError CommandOutcome) :=
  Program.implement Node.serve (RiskEngine.apply command)

/-- A step of a command on the node. -/
abbrev NodeAct (ι : Type) := Act ι NodeOp NodeAnswer

/-- A command that has made some of its steps. -/
abbrev NodeThread := Program NodeOp NodeAnswer (Except CoreError CommandOutcome)

/-- Any interleaving of commands on the node. -/
abbrev OnNode {ι : Type} [DecidableEq ι] (config : NodeConfig) (commands : ι → RiskCommand)
    (node : Node) (trace : List (NodeAct ι)) (node' : Node) (threads : ι → NodeThread) : Prop :=
  Run (deployed config) node (fun i => Node.apply (commands i)) trace node' threads

/-! ## Schedules -/

/-- What the environment decides of a step: the clock's reading, the order of a listing. -/
structure Hint where
  shown : Nat := 0
  listing : List Position := []

/-- The answers under a hint. -/
def Hint.answer (config : NodeConfig) (hint : Hint) (node : Node) : (op : NodeOp) → NodeAnswer op
  | .limiter .nowNanos => hint.shown
  | .limiter (.acquire now n) => (config.limiter.acquire node.limiter.bucket now n).1
  | .store (.upsert _) => ()
  | .store (.get account symbol) => node.store.get account symbol
  | .store (.remove account symbol) => (node.store.remove account symbol).1
  | .store (.byMarket _) => hint.listing
  | .store .count => node.store.count
  | .locked action _ => Environment.answer {} (node.core config) action
  | .send _ => ()

/-- A schedule whose outcome passes a check gives an interleaving that does. -/
theorem exists_onNode {ι : Type} [DecidableEq ι] (config : NodeConfig) (node : Node)
    (commands : ι → RiskCommand) (schedule : List (ι × Hint))
    (check : List (NodeAct ι) → Node → (ι → NodeThread) → Prop)
    [∀ trace node' threads, Decidable (check trace node' threads)]
    (passed : (play (deployed config) (Hint.answer config) schedule node
      fun i => Node.apply (commands i)).any (fun out => check out.1 out.2.1 out.2.2) = true) :
    ∃ trace node' threads, OnNode config commands node trace node' threads ∧
      check trace node' threads := by
  obtain ⟨⟨trace, node', threads⟩, played, checked⟩ := (Option.any_eq_true _ _).mp passed
  exact ⟨trace, node', threads, play_run _ schedule played, of_decide_eq_true checked⟩

end MarginGuard.Source
