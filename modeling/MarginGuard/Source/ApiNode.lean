import MarginGuard.Foundation.ObservedImplementation
import MarginGuard.Source.Api
import MarginGuard.Source.Node

/-!
# Requests on the deployed node (`marginguard-node/src/startup.rs`)

`build_context` hands the engine over the in-memory store, the limiter and the bus
to the resolvers. A resolver's engine actions then take the node's smaller steps
(`Node.serve`), and what it reads besides is one section under the state lock.
-/
namespace MarginGuard.Source
open Foundation

/-- The node behind the interface. -/
abbrev apiDeployed (config : NodeConfig) (advisor : AdviceContext → RiskAdvice → Prop) :
    Machine Node (NodeOp ⊕ Look) (Observed NodeAnswer Sight) :=
  (deployed config).observed fun node => Look.Shows advisor (node.core config)

/-- A step of a request on the node. -/
abbrev NodeApiAct (ι : Type) := Act ι (NodeOp ⊕ Look) (Observed NodeAnswer Sight)

/-- What is left of a request on the node. -/
abbrev NodeApiThread (F : Type) :=
  Program (NodeOp ⊕ Look) (Observed NodeAnswer Sight) (Except String (Response F))

/-- What serves a request on the node. -/
def Request.onNode {F : Type} (wire : Boundary F) (request : Request F) : NodeApiThread F :=
  (request.serve wire).implement (Program.withLooks Node.serve)

end MarginGuard.Source
