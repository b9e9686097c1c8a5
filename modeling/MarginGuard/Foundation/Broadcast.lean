import Mathlib.Data.List.ReduceOption
import MarginGuard.Foundation.FiniteMap
import MarginGuard.Foundation.Interleaving

/-!
# Broadcast channels

A channel hands each value sent to all receivers attached. It has room for some
values only: one that is released before a receiver has come to it is lost to that
receiver, which is told how many it has missed and goes on with the oldest value
still kept.

A channel is a parameter, known by its calls and by the backlog of each receiver.
`BroadcastChannel.Keeps` lists what is relied on. From it `Attached` is the
invariant of one receiver, whatever the others do: what it has been given so far,
with a gap for each value it has missed, lies along what has been sent since it
subscribed (`attached_after`); without a gap, as long as it is never `capacity` values behind
when one is sent (`KeepsUp`). `Ring` is a channel that keeps to
the list (`Ring.keeps`).
-/
namespace MarginGuard.Foundation

/-- What a receiver is answered. -/
inductive Received (α : Type) where
  | value (v : α)
  | lagged (missed : Nat)
  | empty
  deriving DecidableEq

/-- A call of a channel; `κ` names the receivers. -/
inductive BroadcastOp (κ α : Type) where
  | send (v : α)
  | subscribe (receiver : κ)
  | recv (receiver : κ)
  | detach (receiver : κ)
  deriving DecidableEq

abbrev BroadcastAnswer {κ α : Type} : BroadcastOp κ α → Type
  | .send _ => Unit
  | .subscribe _ => Unit
  | .recv _ => Received α
  | .detach _ => Unit

/-- The receiver a call is of. -/
def BroadcastOp.receiver {κ α : Type} : BroadcastOp κ α → Option κ
  | .send _ => none
  | .subscribe k => some k
  | .recv k => some k
  | .detach k => some k

/-- What a receiver has yet to be told: how many values it has missed, and the
values it may still read. -/
structure Backlog (α : Type) where
  missed : Nat
  waiting : List α

namespace Backlog
variable {α : Type}

def fresh : Backlog α := ⟨0, []⟩

/-- The answer to the receiver, and the backlog after it. -/
def next : Backlog α → Received α × Backlog α
  | ⟨0, []⟩ => (.empty, ⟨0, []⟩)
  | ⟨0, v :: rest⟩ => (.value v, ⟨0, rest⟩)
  | ⟨missed + 1, waiting⟩ => (.lagged (missed + 1), ⟨0, waiting⟩)

/-- A value is sent, and the `n` oldest ones that wait are released. -/
def push (n : Nat) (b : Backlog α) (v : α) : Backlog α := ⟨b.missed + n, (b.waiting ++ [v]).drop n⟩

theorem next_missed (b : Backlog α) : b.next.2.missed = 0 := by
  match b with
  | ⟨0, []⟩ => rfl
  | ⟨0, v :: rest⟩ => rfl
  | ⟨missed + 1, waiting⟩ => rfl

theorem next_waiting_suffix (b : Backlog α) : b.next.2.waiting <:+ b.waiting := by
  match b with
  | ⟨0, []⟩ => exact List.suffix_rfl
  | ⟨0, v :: rest⟩ => exact List.suffix_cons v rest
  | ⟨missed + 1, waiting⟩ => exact List.suffix_rfl

end Backlog

/-- A channel, with the backlog of each receiver that is attached. -/
structure BroadcastChannel (κ α : Type) where
  State : Type
  machine : Machine State (BroadcastOp κ α) BroadcastAnswer
  backlog : State → κ → Option (Backlog α)

/-- What is relied on of a channel that keeps `capacity` values. -/
structure BroadcastChannel.Keeps {κ α : Type} (channel : BroadcastChannel κ α) (capacity : Nat) :
    Prop where
  /-- A receiver subscribes before anything else. -/
  unattached : ∀ s k, channel.machine.answers s (.subscribe k) () → channel.backlog s k = none
  /-- It is sent the values from then on. -/
  subscribed : ∀ s k, channel.backlog (channel.machine.effect s (.subscribe k) ()) k = some .fresh
  /-- A value is sent to every receiver. Values are released to make room only. -/
  sent : ∀ s k v b, channel.backlog s k = some b → ∃ n, n ≤ b.waiting.length + 1 ∧
    (n ≠ 0 → capacity ≤ b.waiting.length) ∧
    channel.backlog (channel.machine.effect s (.send v) ()) k = some (b.push n v)
  /-- A receiver is answered from its backlog. -/
  received : ∀ s k given, channel.machine.answers s (.recv k) given →
    ∃ b, channel.backlog s k = some b ∧ given = b.next.1 ∧
      channel.backlog (channel.machine.effect s (.recv k) given) k = some b.next.2
  /-- Its backlog is its own. -/
  others : ∀ s k op ans, op.receiver.isSome → op.receiver ≠ some k →
    channel.backlog (channel.machine.effect s op ans) k = channel.backlog s k

namespace Broadcast
variable {κ α : Type}

/-! ## What is sent and what one receiver sees -/

/-- The value a call sends. -/
def sentIn : Call (BroadcastOp κ α) BroadcastAnswer → List α
  | ⟨.send v, _⟩ => [v]
  | ⟨.subscribe _, _⟩ => []
  | ⟨.recv _, _⟩ => []
  | ⟨.detach _, _⟩ => []

/-- What an answer tells of the values sent: one of them, or that some were missed. -/
def Received.slots : Received α → List (Option α)
  | .value v => [some v]
  | .lagged missed => List.replicate missed none
  | .empty => []

/-- What the receiver `k` sees in a call. -/
def seenIn [DecidableEq κ] (k : κ) : Call (BroadcastOp κ α) BroadcastAnswer → List (Option α)
  | ⟨.recv k', given⟩ => if k' = k then Received.slots given else []
  | ⟨.send _, _⟩ => []
  | ⟨.subscribe _, _⟩ => []
  | ⟨.detach _, _⟩ => []

/-- What was seen lies along what was sent, gap for missed value. -/
structure Covers (sent : List α) (seen : List (Option α)) : Prop where
  short : seen.length ≤ sent.length
  same : ∀ (i : Nat) (v : α), seen[i]? = some (some v) → sent[i]? = some v

theorem Covers.tail {v : α} {sent : List α} {slot : Option α} {seen : List (Option α)}
    (covers : Covers (v :: sent) (slot :: seen)) : Covers sent seen :=
  ⟨Nat.le_of_succ_le_succ covers.short, fun i w => covers.same (i + 1) w⟩

/-- The values seen were sent in this order, each of them once. -/
theorem Covers.sublist {sent : List α} {seen : List (Option α)} (covers : Covers sent seen) :
    seen.reduceOption.Sublist sent := by
  induction seen generalizing sent with
  | nil => simp
  | cons slot seen ih =>
    cases sent with
    | nil => simpa using covers.short
    | cons v sent =>
      cases slot with
      | none => simpa using (ih covers.tail).trans (List.sublist_cons_self v sent)
      | some w =>
        obtain rfl : v = w := by simpa using covers.same 0 w rfl
        simpa using ih covers.tail

/-- Without a gap, the values seen are the first of those sent. -/
theorem Covers.eq_take {sent : List α} {seen : List (Option α)} (covers : Covers sent seen)
    (complete : none ∉ seen) : seen.reduceOption = sent.take seen.length := by
  induction seen generalizing sent with
  | nil => simp
  | cons slot seen ih =>
    rw [List.mem_cons, not_or] at complete
    cases sent with
    | nil => simpa using covers.short
    | cons v sent =>
      cases slot with
      | none => exact absurd rfl complete.1
      | some w =>
        obtain rfl : v = w := by simpa using covers.same 0 w rfl
        simpa using ih covers.tail complete.2

/-- One more value is sent. -/
theorem Covers.send {sent : List α} {seen : List (Option α)} (covers : Covers sent seen) (v : α) :
    Covers (sent ++ [v]) seen := by
  refine ⟨by simpa using Nat.le_succ_of_le covers.short, fun i w found => ?_⟩
  have inside := covers.same i w found
  rwa [List.getElem?_append_left (List.getElem?_eq_some_iff.mp inside).1]

/-- One more value is seen. -/
theorem Covers.see {sent : List α} {seen : List (Option α)} (covers : Covers sent seen) {v : α}
    (next : sent[seen.length]? = some v) : Covers sent (seen ++ [some v]) := by
  have inside := (List.getElem?_eq_some_iff.mp next).1
  refine ⟨by simp; omega, fun i w found => ?_⟩
  by_cases before : i < seen.length
  · rw [List.getElem?_append_left before] at found
    exact covers.same i w found
  · have last : i = seen.length := by
      have := (List.getElem?_eq_some_iff.mp found).1
      simp at this
      omega
    subst last
    rw [next]
    simpa using found

/-- Values that there are were missed. -/
theorem Covers.miss {sent : List α} {seen : List (Option α)} (covers : Covers sent seen)
    {missed : Nat} (behind : seen.length + missed ≤ sent.length) :
    Covers sent (seen ++ List.replicate missed none) := by
  refine ⟨by simpa using behind, fun i v found => ?_⟩
  by_cases before : i < seen.length
  · rw [List.getElem?_append_left before] at found
    exact covers.same i v found
  · rw [List.getElem?_append_right (by omega), List.getElem?_replicate] at found
    split at found <;> simp at found

/-- The receiver `k` is attached: what was sent and seen since, and that its backlog
is the rest. -/
structure Attached (channel : BroadcastChannel κ α) (s : channel.State) (k : κ) (sent : List α)
    (seen : List (Option α)) (b : Backlog α) : Prop where
  attached : channel.backlog s k = some b
  covers : Covers sent seen
  behind : seen.length + b.missed ≤ sent.length
  waiting : b.waiting = sent.drop (seen.length + b.missed)

namespace Attached
variable {channel : BroadcastChannel κ α} {capacity : Nat} {s : channel.State} {k : κ} {sent : List α}
  {seen : List (Option α)} {b : Backlog α}

theorem subscribe (keeps : channel.Keeps capacity) (s : channel.State) (k : κ) :
    Attached channel (channel.machine.effect s (.subscribe k) ()) k [] [] .fresh where
  attached := keeps.subscribed s k
  covers := ⟨le_rfl, by simp⟩
  behind := le_rfl
  waiting := rfl

theorem length_waiting (here : Attached channel s k sent seen b) :
    seen.length + b.missed + b.waiting.length = sent.length := by
  have behind := here.behind
  rw [here.waiting, List.length_drop]
  omega

/-- A value sent joins the backlog. None is released while the receiver is less than
`capacity` behind. -/
theorem send (keeps : channel.Keeps capacity) (here : Attached channel s k sent seen b) (v : α) :
    ∃ b', Attached channel (channel.machine.effect s (.send v) ()) k (sent ++ [v]) seen b' ∧
      (b.missed = 0 → sent.length < seen.length + capacity → b'.missed = 0) := by
  obtain ⟨n, few, room, after⟩ := keeps.sent s k v b here.attached
  have length := here.length_waiting
  have behind := here.behind
  refine ⟨_, ⟨after, here.covers.send v, ?_, ?_⟩, fun noneMissed inTime => ?_⟩
  · rw [Backlog.push, List.length_append, List.length_singleton]
    dsimp only
    omega
  · rw [Backlog.push, here.waiting]
    dsimp only
    rw [← List.drop_append_of_le_length behind, List.drop_drop, Nat.add_assoc]
  · have kept : n = 0 := by
      by_contra released
      have := room released
      omega
    rw [Backlog.push, kept]
    exact noneMissed

/-- An answer continues what was seen. It is that there is nothing exactly if all that
was sent is accounted for. -/
theorem recv (keeps : channel.Keeps capacity) (here : Attached channel s k sent seen b)
    {given : Received α} (answered : channel.machine.answers s (.recv k) given) :
    (∃ b', Attached channel (channel.machine.effect s (.recv k) given) k sent
        (seen ++ Received.slots given) b' ∧
      (b.missed = 0 → b'.missed = 0 ∧ none ∉ Received.slots given)) ∧
    (given = .empty → sent.length = seen.length) := by
  obtain ⟨b₀, found, rfl, after⟩ := keeps.received s k given answered
  obtain rfl : b = b₀ := Option.some.inj (here.attached.symm.trans found)
  have length := here.length_waiting
  have behind := here.behind
  have waiting := here.waiting
  obtain ⟨missed, rest⟩ := b
  match missed, rest with
  | 0, [] =>
    refine ⟨⟨_, ⟨after, ?_, ?_, ?_⟩, fun _ => ⟨rfl, List.not_mem_nil⟩⟩, fun _ => length.symm⟩
    · simpa [Backlog.next, Received.slots] using here.covers
    · simpa [Backlog.next, Received.slots] using behind
    · simpa [Backlog.next, Received.slots] using waiting
  | 0, v :: rest =>
    rw [Nat.add_zero] at waiting
    have next : sent[seen.length]? = some v := by
      rw [← List.head?_drop, ← waiting]
      rfl
    have inside := (List.getElem?_eq_some_iff.mp next).1
    refine ⟨⟨_, ⟨after, here.covers.see next, ?_, ?_⟩, fun _ => ⟨rfl, by simp [Backlog.next,
      Received.slots]⟩⟩, by rintro ⟨⟩⟩
    · simp [Backlog.next, Received.slots]
      omega
    · have tail := congrArg List.tail waiting
      simpa [Backlog.next, Received.slots] using tail
  | missed + 1, rest =>
    refine ⟨⟨_, ⟨after, here.covers.miss behind, ?_, ?_⟩, by rintro ⟨⟩⟩, by rintro ⟨⟩⟩
    · simpa [Backlog.next, Received.slots] using behind
    · simpa [Backlog.next, Received.slots] using waiting

/-- Any call but its own detachment continues what is sent to a receiver and what it
sees; without a gap, if it has none and is less than `capacity` behind. -/
theorem step [DecidableEq κ] (keeps : channel.Keeps capacity) (here : Attached channel s k sent seen b)
    {c : Call (BroadcastOp κ α) BroadcastAnswer} (allowed : channel.machine.answers s c.op c.ans)
    (stays : c.op ≠ .detach k) :
    ∃ b', Attached channel (channel.machine.effect s c.op c.ans) k (sent ++ sentIn c)
        (seen ++ seenIn k c) b' ∧
      (b.missed = 0 → (sentIn c ≠ [] → sent.length < seen.length + capacity) →
        b'.missed = 0 ∧ none ∉ seenIn k c) := by
  obtain ⟨op, ans⟩ := c
  have elsewhere (named : op.receiver.isSome) (other : op.receiver ≠ some k) :
      Attached channel (channel.machine.effect s op ans) k sent seen b :=
    ⟨(keeps.others s k op ans named other).trans here.attached, here.covers, here.behind, here.waiting⟩
  cases op with
  | send v =>
    obtain ⟨b', after, kept⟩ := here.send keeps v
    rw [seenIn, List.append_nil]
    exact ⟨b', after, fun noneMissed room =>
      ⟨kept noneMissed (room (List.cons_ne_nil v [])), List.not_mem_nil⟩⟩
  | subscribe k' =>
    rw [seenIn, sentIn, List.append_nil, List.append_nil]
    refine ⟨b, elsewhere rfl ?_, fun noneMissed _ => ⟨noneMissed, List.not_mem_nil⟩⟩
    rintro ⟨⟩
    have fresh := keeps.unattached s k allowed
    rw [here.attached] at fresh
    cases fresh
  | detach k' =>
    rw [seenIn, sentIn, List.append_nil, List.append_nil]
    refine ⟨b, elsewhere rfl ?_, fun noneMissed _ => ⟨noneMissed, List.not_mem_nil⟩⟩
    rintro ⟨⟩
    exact stays rfl
  | recv k' =>
    rw [sentIn, List.append_nil, seenIn]
    by_cases own : k' = k
    · subst own
      obtain ⟨⟨b', after, kept⟩, -⟩ := here.recv keeps allowed
      rw [if_pos rfl]
      exact ⟨b', after, fun noneMissed _ => kept noneMissed⟩
    · rw [if_neg own, List.append_nil]
      exact ⟨b, elsewhere rfl fun same => own (Option.some.inj same), fun noneMissed _ =>
        ⟨noneMissed, List.not_mem_nil⟩⟩

end Attached

/-! ## Runs -/

section Runs
variable [DecidableEq κ] {channel : BroadcastChannel κ α} {capacity : Nat} {s : channel.State} {k : κ}
  {made : List (Call (BroadcastOp κ α) BroadcastAnswer)}

/-- The receiver is less than `capacity` values behind whenever one is sent. -/
def KeepsUp (capacity : Nat) (k : κ) (made : List (Call (BroadcastOp κ α) BroadcastAnswer)) : Prop :=
  Stepwise (fun front c => sentIn c ≠ [] →
    (front.flatMap sentIn).length < (front.flatMap (seenIn k)).length + capacity) made

instance [DecidableEq α] (capacity : Nat) (k : κ)
    (made : List (Call (BroadcastOp κ α) BroadcastAnswer)) : Decidable (KeepsUp capacity k made) :=
  inferInstanceAs (Decidable (Stepwise _ _))

/-- From its subscription on, whatever anybody does, a receiver sees along what is
sent, and without a gap if it keeps up. -/
theorem attached_after (keeps : channel.Keeps capacity)
    (legal : channel.machine.Legal s (⟨.subscribe k, ()⟩ :: made))
    (stays : ∀ c ∈ made, c.op ≠ .detach k) :
    ∃ b, Attached channel (channel.machine.after s (⟨.subscribe k, ()⟩ :: made)) k
        (made.flatMap sentIn) (made.flatMap (seenIn k)) b ∧
      (KeepsUp capacity k made → b.missed = 0 ∧ none ∉ made.flatMap (seenIn k)) := by
  rw [Machine.after_cons]
  refine Stepwise.induction (I := fun front => ∃ b, Attached channel
      (channel.machine.after (channel.machine.effect s (.subscribe k) ()) front) k
      (front.flatMap sentIn) (front.flatMap (seenIn k)) b ∧
      (KeepsUp capacity k front → b.missed = 0 ∧ none ∉ front.flatMap (seenIn k)))
    ⟨.fresh, .subscribe keeps s k, fun _ => ⟨rfl, List.not_mem_nil⟩⟩ ?_
  rintro front c back split ⟨b, before, complete⟩
  obtain ⟨b', after, kept⟩ := before.step keeps (legal.2.stepwise front c back split)
    (stays c (by simp [split]))
  rw [Machine.after_append, List.flatMap_append, List.flatMap_append, List.flatMap_singleton,
    List.flatMap_singleton]
  refine ⟨b', after, fun keepsUp => ?_⟩
  obtain ⟨noneMissed, noGap⟩ := complete (Stepwise.front keepsUp)
  obtain ⟨noneMissed', noGap'⟩ := kept noneMissed (keepsUp front c [] rfl)
  exact ⟨noneMissed', by simp [noGap, noGap']⟩

/-- Where the channel has nothing for a receiver, what it has seen accounts for all
that was sent. -/
theorem length_seen_of_empty (keeps : channel.Keeps capacity)
    (legal : channel.machine.Legal s (⟨.subscribe k, ()⟩ :: (made ++ [⟨.recv k, .empty⟩])))
    (stays : ∀ c ∈ made, c.op ≠ .detach k) :
    (made.flatMap sentIn).length = (made.flatMap (seenIn k)).length := by
  rw [← List.cons_append, Machine.legal_append] at legal
  obtain ⟨b, here, -⟩ := attached_after keeps legal.1 stays
  exact (here.recv keeps legal.2.1).2 rfl

end Runs
end Broadcast

/-! ## A channel -/

/-- A bounded ring: the values kept, oldest first, how many were released before
them, and where the receivers are. -/
structure Ring (κ α : Type) [DecidableEq κ] where
  held : List α
  released : Nat
  cursors : FiniteMap κ Nat
  placed : ∀ k next, cursors.lookup k = some next → next ≤ released + held.length

namespace Ring
variable {κ α : Type} [DecidableEq κ]

def new : Ring κ α := ⟨[], 0, ∅, by simp⟩

/-- The backlog of a receiver at a place. -/
def backlogAt (s : Ring κ α) (next : Nat) : Backlog α :=
  ⟨s.released - next, s.held.drop (next - s.released)⟩

/-- A value sent while nobody is attached is dropped. -/
def send (room : Nat) (s : Ring κ α) (v : α) : Ring κ α :=
  if FiniteMap.size s.cursors = 0 then s
  else if room < s.held.length + 1 then
    ⟨(s.held ++ [v]).tail, s.released + 1, s.cursors, fun k next found => by
      have placed := s.placed k next found
      simp
      omega⟩
  else
    ⟨s.held ++ [v], s.released, s.cursors, fun k next found => by
      have placed := s.placed k next found
      simp
      omega⟩

/-- The receiver is put where it has seen all but so many of the values kept. -/
def place (s : Ring κ α) (k : κ) (ahead : Nat) : Ring κ α where
  held := s.held
  released := s.released
  cursors := s.cursors.insert k (s.released + s.held.length - ahead)
  placed k' next found := by
    rw [FiniteMap.lookup_insert_eq] at found
    split at found
    · have := Option.some.inj found
      omega
    · exact s.placed k' next found

def detach (s : Ring κ α) (k : κ) : Ring κ α where
  held := s.held
  released := s.released
  cursors := s.cursors.erase k
  placed k' next found := by
    rw [FiniteMap.lookup_erase_eq] at found
    split at found
    · cases found
    · exact s.placed k' next found

def backlog (s : Ring κ α) (k : κ) : Option (Backlog α) := (s.cursors.lookup k).map s.backlogAt

def machine (room : Nat) : Machine (Ring κ α) (BroadcastOp κ α) BroadcastAnswer where
  answers s
    | .send _, _ => True
    | .subscribe k, _ => s.cursors.lookup k = none
    | .recv k, given => (s.backlog k).map (fun b => b.next.1) = some given
    | .detach _, _ => True
  effect s
    | .send v, _ => s.send room v
    | .subscribe k, _ => s.place k 0
    | .recv k, _ =>
      match s.backlog k with
      | some b => s.place k b.next.2.waiting.length
      | none => s
    | .detach k, _ => s.detach k

instance [DecidableEq α] (room : Nat) (s : Ring κ α) : (op : BroadcastOp κ α) →
    (ans : BroadcastAnswer op) → Decidable ((machine room).answers s op ans)
  | .send _, _ => .isTrue trivial
  | .subscribe k, _ => inferInstanceAs (Decidable (s.cursors.lookup k = none))
  | .recv k, given => inferInstanceAs
      (Decidable ((s.backlog k).map (fun b => b.next.1) = some given))
  | .detach _, _ => .isTrue trivial

/-- The ring with room for so many values. -/
def channel (room : Nat) : BroadcastChannel κ α := ⟨Ring κ α, machine room, backlog⟩

theorem backlog_place (s : Ring κ α) (k : κ) {waiting : List α} (suffix : waiting <:+ s.held) :
    (s.place k waiting.length).backlog k = some ⟨0, waiting⟩ := by
  have short := suffix.length_le
  have place : s.backlogAt (s.released + s.held.length - waiting.length) = ⟨0, waiting⟩ := by
    rw [List.suffix_iff_eq_drop.mp suffix, backlogAt, List.length_drop]
    congr 1
    · omega
    · congr 1
      omega
  change ((s.cursors.insert k _).lookup k).map s.backlogAt = _
  rw [Finmap.lookup_insert, Option.map_some, place]

/-- A value sent joins a backlog, and the oldest value kept may leave it. -/
theorem backlog_send (room : Nat) (s : Ring κ α) {k : κ} {next : Nat}
    (found : s.cursors.lookup k = some next) (v : α) :
    ∃ n, n ≤ (s.backlogAt next).waiting.length + 1 ∧
      (n ≠ 0 → room ≤ (s.backlogAt next).waiting.length) ∧
      (s.send room v).backlog k = some ((s.backlogAt next).push n v) := by
  have placed := s.placed k next found
  have someone : FiniteMap.size s.cursors ≠ 0 := by
    rw [FiniteMap.size, Finset.card_ne_zero]
    exact ⟨k, Finmap.mem_keys.mpr (Finmap.mem_of_lookup_eq_some found)⟩
  have joined : (s.held ++ [v]).drop (next - s.released) = s.held.drop (next - s.released) ++ [v] :=
    List.drop_append_of_le_length (by omega)
  unfold send
  rw [if_neg someone]
  split
  · next full =>
    by_cases behind : next ≤ s.released
    · -- the value released is one the receiver has not come to
      refine ⟨1, by omega, fun _ => ?_, ?_⟩
      · rw [backlogAt, List.length_drop]
        omega
      · rw [backlog, found, Option.map_some, backlogAt, backlogAt, Backlog.push, ← joined]
        dsimp only
        rw [← List.drop_one, List.drop_drop, List.drop_drop]
        congr 2
        · omega
        · congr 1
          omega
    · refine ⟨0, by omega, fun released => absurd rfl released, ?_⟩
      rw [backlog, found, Option.map_some, backlogAt, backlogAt, Backlog.push, ← joined]
      dsimp only
      rw [← List.drop_one, List.drop_drop, List.drop_zero]
      congr 2
      · omega
      · congr 1
        omega
  · refine ⟨0, by omega, fun released => absurd rfl released, ?_⟩
    rw [backlog, found, Option.map_some, backlogAt, backlogAt, Backlog.push, ← joined]
    rfl

/-- A ring keeps as many values as there is room for. -/
theorem keeps {room capacity : Nat} (enough : capacity ≤ room) :
    (channel room : BroadcastChannel κ α).Keeps capacity where
  unattached s k free := by
    have absent : s.cursors.lookup k = none := free
    change (s.cursors.lookup k).map s.backlogAt = none
    rw [absent, Option.map_none]
  subscribed s k := backlog_place s k (List.nil_suffix (l := s.held))
  sent s k v b found := by
    obtain ⟨next, place, rfl⟩ := Option.map_eq_some_iff.mp found
    obtain ⟨n, few, full, after⟩ := s.backlog_send room place v
    exact ⟨n, few, fun released => enough.trans (full released), after⟩
  received s k given answered := by
    obtain ⟨b, found, rfl⟩ := Option.map_eq_some_iff.mp answered
    refine ⟨b, found, rfl, ?_⟩
    obtain ⟨next, -, rfl⟩ := Option.map_eq_some_iff.mp found
    change (match s.backlog k with | some b => _ | none => s).backlog k = _
    rw [found]
    dsimp only
    rw [backlog_place s k ((s.backlogAt next).next_waiting_suffix.trans (List.drop_suffix _ _)),
      ← Backlog.next_missed (s.backlogAt next)]
  others s k op ans named other := by
    cases op with
    | send v => cases named
    | subscribe k' =>
      have apart : k ≠ k' := fun same => other (congrArg _ same.symm)
      change ((s.cursors.insert k' _).lookup k).map s.backlogAt = _
      rw [Finmap.lookup_insert_of_ne _ apart]
      rfl
    | recv k' =>
      have apart : k ≠ k' := fun same => other (congrArg _ same.symm)
      change (match s.backlog k' with | some b => _ | none => s).backlog k = _
      split
      · change ((s.cursors.insert k' _).lookup k).map s.backlogAt = _
        rw [Finmap.lookup_insert_of_ne _ apart]
        rfl
      · rfl
    | detach k' =>
      have apart : k ≠ k' := fun same => other (congrArg _ same.symm)
      change ((s.cursors.erase k').lookup k).map s.backlogAt = _
      rw [Finmap.lookup_erase_ne apart]
      rfl

end Ring
end MarginGuard.Foundation
