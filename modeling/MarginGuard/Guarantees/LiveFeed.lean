import Mathlib.Data.Nat.Log
import MarginGuard.Source.Bus
import MarginGuard.Source.Script

/-!
# What a subscriber sees

A subscriber attaches to the bus while events are sent and other subscribers
come, read and go. `subscriber_stream` says what its stream is of the events sent
since: in order, none twice, short of exactly those it was told to have missed,
and of none if it keeps up.
-/
namespace MarginGuard.Guarantees
open Foundation Source Broadcast

section Stream
variable {κ : Type} [DecidableEq κ]

/-- The stream is what the receiver sees, its gaps left out. -/
theorem riskEvents_eq (k : κ) (made : List (BusCall κ)) :
    riskEvents k made = (made.flatMap (seenIn k)).reduceOption := by
  induction made with
  | nil => rfl
  | cons c made ih =>
    rw [riskEvents, List.flatMap_cons, List.reduceOption_append, ← ih, riskEvents]
    obtain ⟨op, ans⟩ := c
    cases op with
    | recv k' =>
      by_cases own : k' = k
      · cases ans <;> simp [streamItem, seenIn, own, okFrame, Received.slots]
      · simp [streamItem, seenIn, own]
    | _ => simp [List.filterMap_cons, streamItem, seenIn]

/-- Stream and gaps together are as long as what the receiver saw. -/
theorem length_seen (k : κ) (made : List (BusCall κ)) :
    (made.flatMap (seenIn k)).length =
      (riskEvents k made).length + (made.map (missedIn k)).sum := by
  induction made with
  | nil => rfl
  | cons c made ih =>
    rw [List.flatMap_cons, List.length_append, ih, List.map_cons, List.sum_cons, riskEvents, riskEvents]
    obtain ⟨op, ans⟩ := c
    cases op with
    | recv k' =>
      by_cases own : k' = k
      · cases ans <;> simp [streamItem, seenIn, missedIn, own, okFrame, Received.slots] <;> omega
      · simp [streamItem, seenIn, missedIn, own]
    | _ => simp [List.filterMap_cons, streamItem, seenIn, missedIn]

theorem missed_of_complete {k : κ} {made : List (BusCall κ)}
    (complete : none ∉ made.flatMap (seenIn k)) : (made.map (missedIn k)).sum = 0 := by
  have all := length_seen k made
  have given : (made.flatMap (seenIn k)).reduceOption.length = (made.flatMap (seenIn k)).length := by
    rw [List.reduceOption_length_eq_iff]
    intro slot member
    cases slot with
    | none => exact absurd member complete
    | some event => rfl
  rw [riskEvents_eq] at all
  omega

section Subscriber
variable {channel : Nat → BroadcastChannel κ RiskEvent} {capacity : Nat}
  {bus : (BroadcastEventSink.new channel capacity).tx.State} {k : κ} {made : List (BusCall κ)}

/-- Where the channel has nothing for a subscriber, its stream and the events it was
told to have missed account for all that was sent. -/
theorem accounted_of_empty (keeps : (BroadcastEventSink.new channel capacity).tx.Keeps (max capacity 1))
    (legal : (BroadcastEventSink.new channel capacity).tx.machine.Legal bus
      (⟨.subscribe k, ()⟩ :: (made ++ [⟨.recv k, .empty⟩])))
    (stays : ∀ c ∈ made, c.op ≠ .detach k) :
    (riskEvents k made).length + (made.map (missedIn k)).sum = (sentEvents made).length := by
  rw [← length_seen]
  exact (length_seen_of_empty keeps legal stays).symm

/-- The stream of a subscriber that keeps up is the beginning of what was sent. -/
theorem stream_of_keepsUp (keeps : (BroadcastEventSink.new channel capacity).tx.Keeps (max capacity 1))
    (legal : (BroadcastEventSink.new channel capacity).tx.machine.Legal bus
      (⟨.subscribe k, ()⟩ :: made))
    (stays : ∀ c ∈ made, c.op ≠ .detach k) (keepsUp : KeepsUp (max capacity 1) k made) :
    riskEvents k made = (sentEvents made).take (riskEvents k made).length ∧
      (made.map (missedIn k)).sum = 0 := by
  obtain ⟨b, attached, kept⟩ := attached_after keeps legal stays
  have complete := (kept keepsUp).2
  have missed := missed_of_complete complete
  have length := length_seen k made
  refine ⟨?_, missed⟩
  rw [missed, Nat.add_zero] at length
  rw [← length, riskEvents_eq]
  exact attached.covers.eq_take complete

/-- Where the channel has nothing more for it, it has seen all. -/
theorem stream_of_drained (keeps : (BroadcastEventSink.new channel capacity).tx.Keeps (max capacity 1))
    (legal : (BroadcastEventSink.new channel capacity).tx.machine.Legal bus
      (⟨.subscribe k, ()⟩ :: (made ++ [⟨.recv k, .empty⟩])))
    (stays : ∀ c ∈ made, c.op ≠ .detach k) (keepsUp : KeepsUp (max capacity 1) k made) :
    riskEvents k made = sentEvents made := by
  have all := accounted_of_empty keeps legal stays
  rw [← List.cons_append, Machine.legal_append] at legal
  obtain ⟨first, noneMissed⟩ := stream_of_keepsUp keeps legal.1 stays keepsUp
  rw [noneMissed, Nat.add_zero] at all
  rw [first, all, List.take_length]

end Subscriber
end Stream

/-- On a channel that keeps as many values as it is asked to: whatever is sent
meanwhile, by whichever commands, and whatever other subscribers do, the stream of
a subscriber is, in order, part of what was sent since it subscribed. With the
events it was told to have missed it accounts for all of them whenever the channel
has nothing more for it. As long as it is less than the configured capacity behind
whenever an event is sent, it misses none. -/
theorem subscriber_stream {κ : Type} [DecidableEq κ] {channel : Nat → BroadcastChannel κ RiskEvent}
    {capacity : Nat}
    (keeps : (BroadcastEventSink.new channel capacity).tx.Keeps (max capacity 1))
    {bus : (BroadcastEventSink.new channel capacity).tx.State} {k : κ} {made : List (BusCall κ)}
    (legal : (BroadcastEventSink.new channel capacity).tx.machine.Legal bus
      (⟨.subscribe k, ()⟩ :: made))
    (stays : ∀ c ∈ made, c.op ≠ .detach k) :
    (riskEvents k made).Sublist (sentEvents made) ∧
    (∀ front back, made = front ++ ⟨.recv k, .empty⟩ :: back →
      (riskEvents k front).length + (front.map (missedIn k)).sum = (sentEvents front).length) ∧
    (KeepsUp (max capacity 1) k made →
      riskEvents k made = (sentEvents made).take (riskEvents k made).length ∧
        (made.map (missedIn k)).sum = 0) := by
  refine ⟨?_, ?_, stream_of_keepsUp keeps legal stays⟩
  · obtain ⟨b, attached, -⟩ := attached_after keeps legal stays
    rw [riskEvents_eq]
    exact attached.covers.sublist
  · rintro front back rfl
    have early : (BroadcastEventSink.new channel capacity).tx.machine.Legal bus
        (⟨.subscribe k, ()⟩ :: (front ++ [⟨.recv k, .empty⟩])) := by
      rw [List.append_cons, ← List.cons_append, Machine.legal_append] at legal
      exact legal.1
    exact accounted_of_empty keeps early fun c member => stays c (by simp [member])

/-- Rings with room for the next power of two. -/
def ringOf (n : Nat) : BroadcastChannel Bool RiskEvent := Ring.channel (2 ^ Nat.clog 2 n)

theorem ringOf_keeps (n : Nat) : (ringOf n).Keeps n := Ring.keeps (Nat.le_pow_clog Nat.one_lt_two n)

open Sample in
/-- A bus of two: of three quotes sent before it reads, a subscriber misses the
first. -/
theorem subscriber_stream_one_behind :
    let quote (n : Int) : RiskEvent := .marketUpdated sol (price n).micros (rate 5)
    let read : List (BusCall Bool) :=
      [⟨.send (quote 1), ()⟩, ⟨.send (quote 2), ()⟩, ⟨.send (quote 3), ()⟩,
        ⟨.recv true, .lagged 1⟩, ⟨.recv true, .value (quote 2)⟩, ⟨.recv true, .value (quote 3)⟩]
    let made := read ++ [⟨.recv true, .empty⟩]
    riskEvents true made = [quote 2, quote 3] ∧ (riskEvents true made).Sublist (sentEvents made) ∧
      (riskEvents true read).length + (read.map (missedIn true)).sum = (sentEvents read).length ∧
      (KeepsUp 2 true made → riskEvents true made = (sentEvents made).take 2) := by
  intro quote read made
  have legal : (Ring.machine 2).Legal .new (⟨.subscribe true, ()⟩ :: made) := by decide +kernel
  have keeps : (BroadcastEventSink.new ringOf 2).tx.Keeps (max 2 1) := ringOf_keeps 2
  obtain ⟨part, accounted, complete⟩ := subscriber_stream keeps legal (by decide)
  exact ⟨by decide, part, accounted read [] rfl, fun keepsUp => (complete keepsUp).1⟩

end MarginGuard.Guarantees
