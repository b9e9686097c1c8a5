import MarginGuard.Foundation.Broadcast
import MarginGuard.Source.Ports

/-!
# The event bus and its subscribers (`marginguard-infra/src/bus.rs`)

The bus sends on `tokio`'s broadcast channel, which is a parameter here: a channel
for every capacity it is asked for. `publish` sends the events of a batch one by
one (`Node.publish`), and `subscribe` hands out a stream that yields what the
channel answers, less the notices that events were missed.
`marginguard-api/src/subscription.rs` serves that stream, once as it is and once
narrowed to liquidations.
-/
namespace MarginGuard.Source
open Foundation

/-- `RiskEvent::kind` -/
def RiskEvent.kind : RiskEvent → String
  | .positionOpened _ _ _ _ => "position_opened"
  | .positionClosed _ _ _ => "position_closed"
  | .marketUpdated _ _ _ => "market_updated"
  | .fundingSettled _ _ _ => "funding_settled"
  | .liquidated _ => "liquidated"
  | .autoDeleveraged _ _ => "auto_deleveraged"

structure BroadcastEventSink (κ : Type) where
  tx : BroadcastChannel κ RiskEvent

namespace BroadcastEventSink
variable {κ : Type}

/-- `new` -/
def new (channel : Nat → BroadcastChannel κ RiskEvent) (capacity : Nat) : BroadcastEventSink κ :=
  ⟨channel (max capacity 1)⟩

/-- `Default for BroadcastEventSink` -/
def default (channel : Nat → BroadcastChannel κ RiskEvent) : BroadcastEventSink κ := new channel 1024

end BroadcastEventSink

section Subscribers
variable {κ : Type} [DecidableEq κ]

/-- A call of the bus: an event sent, or a receiver's own. -/
abbrev BusCall (κ : Type) := Call (BroadcastOp κ RiskEvent) BroadcastAnswer

/-- What the stream makes of an answer: notices of missed events are dropped. -/
def okFrame : Received RiskEvent → Option RiskEvent
  | .value event => some event
  | .lagged _ => none
  | .empty => none

/-- What a call yields on the stream of the receiver `k`. -/
def streamItem (k : κ) : BusCall κ → Option RiskEvent
  | ⟨.recv k', given⟩ => if k' = k then okFrame given else none
  | ⟨.send _, _⟩ => none
  | ⟨.subscribe _, _⟩ => none
  | ⟨.detach _, _⟩ => none

/-- The stream of `subscribe`; `risk_events` serves it as it is. -/
def riskEvents (k : κ) (made : List (BusCall κ)) : List RiskEvent := made.filterMap (streamItem k)

/-- `liquidation_alerts` keeps two kinds of event. -/
def isAlert (event : RiskEvent) : Bool :=
  event.kind = "liquidated" || event.kind = "auto_deleveraged"

def liquidationAlerts (k : κ) (made : List (BusCall κ)) : List RiskEvent :=
  (riskEvents k made).filter isAlert

/-- How many events a call says the receiver `k` has missed. -/
def missedIn (k : κ) : BusCall κ → Nat
  | ⟨.recv k', given⟩ =>
    if k' = k then
      match given with
      | .lagged missed => missed
      | .value _ => 0
      | .empty => 0
    else 0
  | ⟨.send _, _⟩ => 0
  | ⟨.subscribe _, _⟩ => 0
  | ⟨.detach _, _⟩ => 0

/-- The events sent to the bus. -/
def sentEvents (made : List (BusCall κ)) : List RiskEvent := made.flatMap Broadcast.sentIn

end Subscribers
end MarginGuard.Source
