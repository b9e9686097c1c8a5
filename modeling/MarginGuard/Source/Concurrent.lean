import MarginGuard.Source.Footprint

/-!
# Commands in flight together

`Concurrent` interleaves the calls of any number of commands on one engine:
each store call, each locked section and each publish is one step. `held` is
what the store files under a key; `held_effect` and `market_effect` say which
calls change it and the market registry, so a run is followed key by key.
-/
namespace MarginGuard.Source
open Foundation

/-- A call with the command that made it, named by its thread. -/
abbrev EngineAct (ι : Type) := Act ι Action Answer

/-- A command that has made some of its calls. -/
abbrev Thread := Program Action Answer (Except CoreError CommandOutcome)

/-- The events a thread has returned: none before it has finished. -/
def returnedEvents (thread : Thread) : List RiskEvent := (thread.result.map eventsOf).getD []

@[simp] theorem returnedEvents_done (r : Except CoreError CommandOutcome) :
    returnedEvents (.done r) = eventsOf r := rfl

/-- What the store files under a key. -/
def RiskEngine.held (engine : RiskEngine) (key : Key) : Option Position :=
  engine.store.get key.1 key.2

/-! ## What a call changes -/

/-- What is filed under a key after a call. -/
theorem held_effect {engine : RiskEngine} {c : EngineCall}
    (allowed : portsUp.answers engine c.op c.ans) (key : Key) :
    (portsUp.effect engine c.op c.ans).held key =
      match c.op with
      | .upsert pos => if pos.key = key then some pos else engine.held key
      | .remove account symbol => if (account, symbol) = key then none else engine.held key
      | _ => engine.held key := by
  obtain ⟨op, ans⟩ := c
  obtain ⟨account, symbol⟩ := key
  cases op
  case upsert pos =>
    obtain rfl : ans = .ok () := allowed
    refine (PositionStore.get_upsert _ _ _ _).trans ?_
    simp only [eq_comm, RiskEngine.held]
  case remove account' symbol' =>
    obtain rfl : ans = .ok (engine.store.get account' symbol') := allowed
    refine (PositionStore.get_remove _ _ _ _ _).trans ?_
    simp only [eq_comm, RiskEngine.held]
  case publish events =>
    obtain rfl : ans = .ok () := allowed
    rfl
  all_goals rfl

theorem held_of_untouched {engine : RiskEngine} {c : EngineCall}
    (allowed : portsUp.answers engine c.op c.ans) {key : Key} (unstored : storedKey c ≠ some key)
    (unremoved : removedKey c ≠ some key) :
    (portsUp.effect engine c.op c.ans).held key = engine.held key := by
  rw [held_effect allowed]
  obtain ⟨op, ans⟩ := c
  cases op <;> simp_all [storedKey, removedKey]

theorem held_of_stores {engine : RiskEngine} {c : EngineCall} {key : Key} {pos : Position}
    (allowed : portsUp.answers engine c.op c.ans) (writes : c.op = .upsert pos)
    (own : pos.key = key) : (portsUp.effect engine c.op c.ans).held key = some pos := by
  rw [held_effect allowed, writes]
  exact if_pos own

theorem held_of_removes {engine : RiskEngine} {c : EngineCall} {key : Key}
    (allowed : portsUp.answers engine c.op c.ans) (removes : removedKey c = some key) :
    (portsUp.effect engine c.op c.ans).held key = none := by
  rw [held_effect allowed, removedKey_eq_some.mp removes]
  exact if_pos rfl

/-- The state of a market after a call. -/
theorem market_effect (engine : RiskEngine) (c : EngineCall) (symbol : Symbol) :
    (portsUp.effect engine c.op c.ans).market symbol =
      match c.op with
      | .insertMarket state => if state.symbol = symbol then some state else engine.market symbol
      | _ => engine.market symbol := by
  obtain ⟨op, ans⟩ := c
  cases op
  case insertMarket state =>
    refine (FiniteMap.lookup_insert_eq _ _ _ _).trans ?_
    simp only [eq_comm, RiskEngine.market, Symbol.asStr_injective.eq_iff]
  all_goals first | rfl | (cases ans <;> rfl)

/-- What has been published after a call. -/
theorem sink_effect {engine : RiskEngine} {c : EngineCall}
    (allowed : portsUp.answers engine c.op c.ans) :
    (portsUp.effect engine c.op c.ans).sink =
      match c.op with
      | .publish events => engine.sink ++ events
      | _ => engine.sink := by
  obtain ⟨op, ans⟩ := c
  cases op
  case publish events =>
    obtain rfl : ans = .ok () := allowed
    rfl
  all_goals first | rfl | (cases ans <;> rfl)

/-! ## Interleaved commands -/

section Concurrent
variable {ι : Type} [DecidableEq ι]

/-- Any interleaving of the calls of the commands, over ports that are up. -/
abbrev Concurrent (commands : ι → RiskCommand) (engine : RiskEngine) (trace : List (EngineAct ι))
    (engine' : RiskEngine) (threads : ι → Thread) : Prop :=
  Run portsUp engine (fun i => RiskEngine.apply (commands i)) trace engine' threads

variable {commands : ι → RiskCommand} {engine engine' : RiskEngine} {trace : List (EngineAct ι)}
  {threads : ι → Thread}

/-- What a command has done so far is the beginning of one of its runs. -/
theorem Concurrent.exists_applied (run : Concurrent commands engine trace engine' threads) (i : ι) :
    ∃ back r, Applied (commands i) (callsOf i trace ++ back) r := by
  obtain ⟨back, r, whole, possible⟩ := run.exists_completion portsUp_answers i
  exact ⟨back, r, applied_of_returns whole possible⟩

theorem Concurrent.applied (run : Concurrent commands engine trace engine' threads) {i : ι}
    {r : Except CoreError CommandOutcome} (finished : threads i = .done r) :
    Applied (commands i) (callsOf i trace) r := by
  apply applied_of_returns (run.returns finished)
  intro c member
  obtain ⟨front, back, -, allowed⟩ := run.answered member
  exact ⟨_, allowed⟩

/-- Every call of a run is justified by the earlier calls of its own command. -/
theorem Concurrent.justified (run : Concurrent commands engine trace engine' threads) :
    Stepwise (fun front a => Justified (commands a.thread) (callsOf a.thread front) a.call) trace := by
  refine stepwise_of_threads (P := fun i => Justified (commands i)) fun i => ?_
  obtain ⟨back, r, applied⟩ := run.exists_applied i
  exact applied.justified.front

/-- After a removal the key stays empty as long as nothing is written where it
is empty. -/
theorem Concurrent.absent_after (run : Concurrent commands engine trace engine' threads) {key : Key}
    {front mid back : List (EngineAct ι)} {a : EngineAct ι}
    (split : trace = front ++ a :: (mid ++ back)) (removes : removedKey a.call = some key)
    (unwritten : Stepwise (fun later b =>
      (portsUp.after engine (calls (front ++ a :: later))).held key = none →
        storedKey b.call ≠ some key) mid) :
    (portsUp.after engine (calls (front ++ a :: mid))).held key = none := by
  refine Stepwise.induction (I := fun later =>
    (portsUp.after engine (calls (front ++ a :: later))).held key = none) ?_ ?_
  · rw [after_concat]
    exact held_of_removes (run.allowed front a _ split) removes
  · intro later b rest parts empty
    have place : trace = (front ++ a :: later) ++ b :: (rest ++ back) := by simp [split, parts]
    have allowed := run.allowed _ b _ place
    rw [← List.cons_append, ← List.append_assoc, after_concat]
    by_cases again : removedKey b.call = some key
    · exact held_of_removes allowed again
    · exact (held_of_untouched allowed (unwritten later b rest parts empty) again).trans empty

/-- The store answers as it did when the command read it: wherever a call
touches (`storedKey` writes, `removedKey` removes), what the command itself has
read under that key is still what is filed there. -/
def Unchanged (touches : EngineCall → Option Key) (engine : RiskEngine) (front : List (EngineAct ι))
    (a : EngineAct ι) : Prop :=
  ∀ key ∈ touches a.call, ∀ held ∈ (callsOf a.thread front).flatMap (readings key),
    engine.held key = held

instance (touches : EngineCall → Option Key) (engine : RiskEngine) (front : List (EngineAct ι))
    (a : EngineAct ι) : Decidable (Unchanged touches engine front a) :=
  inferInstanceAs (Decidable (∀ key ∈ touches a.call, _))

theorem Unchanged.got {touches : EngineCall → Option Key} {front : List (EngineAct ι)}
    {a : EngineAct ι} {account : String} {symbol : Symbol} {held : Option Position}
    (unchanged : Unchanged touches engine front a) (touched : touches a.call = some (account, symbol))
    (read : ⟨.get account symbol, .ok held⟩ ∈ callsOf a.thread front) :
    engine.held (account, symbol) = held :=
  unchanged _ touched held (List.mem_flatMap.mpr ⟨_, read, by simp [readings]⟩)

theorem Unchanged.listed {touches : EngineCall → Option Key} {front : List (EngineAct ι)}
    {a : EngineAct ι} {symbol : Symbol} {listing : List Position} {pos : Position}
    (unchanged : Unchanged touches engine front a) (touched : touches a.call = some pos.key)
    (read : ⟨.byMarket symbol, .ok listing⟩ ∈ callsOf a.thread front) (member : pos ∈ listing) :
    engine.held pos.key = some pos :=
  unchanged _ touched (some pos) (List.mem_flatMap.mpr ⟨_, read, by simp [readings, member]⟩)

end Concurrent
end MarginGuard.Source
