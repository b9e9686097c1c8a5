import MarginGuard.Source.Concurrent
import MarginGuard.Source.Script

/-!
# Opens in flight together

`open` asks the store for its key and writes the key some steps later. While
the store still answers each writer as it answered the check, one of any number
of opens at a key is accepted, its position stays, and `open_positions` grows
with the store (`concurrent_opens_exclusive`). Nothing in `open` sees to that:
two opens that both check before either writes are both accepted
(`interleaved_opens_both_accepted`).
-/
namespace MarginGuard.Guarantees
open Foundation Source

variable {ι : Type} [DecidableEq ι]

/-- What concurrent opens at one key owe their callers after a run. -/
structure OpensExclusively [Fintype ι] (key : Key) (engine : RiskEngine)
    (trace : List (EngineAct ι)) (engine' : RiskEngine) (threads : ι → Thread) : Prop where
  one_accepted : ∀ i j first second, threads i = .done (.ok first) →
    threads j = .done (.ok second) → i = j
  stands : ∀ i outcome, threads i = .done (.ok outcome) → ∃ pos,
    outcome.events = [openedEvent pos] ∧ engine'.held key = some pos
  not_overwritten : ∀ i outcome, threads i = .done (.ok outcome) →
    ∀ a ∈ trace, storedKey a.call = some key → a.thread = i
  counted : (∀ i, ∃ r, threads i = .done r) →
    engine'.stats.openPositions + engine.store.count =
      engine.stats.openPositions + engine'.store.count

/-! ## What one open does -/

/-- An accepted open has written its position and reports it. -/
theorem applied_open {command : RiskCommand} {calls : List EngineCall} {outcome : CommandOutcome}
    {pos : Position} (opens : command.opening = some pos)
    (applied : Applied command calls (.ok outcome)) :
    outcome.events = [openedEvent pos] ∧ ⟨.upsert pos, .ok ()⟩ ∈ calls := by
  cases applied with
  | admitted body r served =>
    cases served with
    | @opened _ pos' opens' params enough =>
      obtain rfl : pos' = pos := Option.some.inj (opens'.symm.trans opens)
      exact ⟨rfl, by simp⟩
    | closed => cases opens
    | updated => cases opens
    | accrued => cases opens
    | swept => cases opens

/-! ## Growth of the store and of the counter -/

/-- By how much a call moves the store's count ahead of `open_positions`. -/
def growth (c : EngineCall) : Int :=
  match c.op with
  | .upsert _ => 1
  | .countOpened => -1
  | _ => 0

theorem growth_publishCalls (events : List RiskEvent) :
    ((publishCalls events).map growth).sum = 0 := by
  unfold publishCalls
  split <;> simp [growth]

/-- A finished open has counted exactly what it wrote. -/
theorem growth_applied {command : RiskCommand} {calls : List EngineCall}
    {r : Except CoreError CommandOutcome} {pos : Position} (opens : command.opening = some pos)
    (applied : Applied command calls r) : (calls.map growth).sum = 0 := by
  cases applied with
  | rateLimited => simp [growth]
  | admitted body r served =>
    have body_zero : (body.map growth).sum = 0 := by
      cases served with
      | positionExists => simp [growth]
      | insufficientMargin => simp [growth]
      | opened => simp [growth]
      | closeAbsent => cases opens
      | closeUnpriced => cases opens
      | closed => cases opens
      | updated => cases opens
      | accrueUnpriced => cases opens
      | accrued => cases opens
      | sweepUnpriced => cases opens
      | swept => cases opens
    simp [growth_publishCalls, body_zero, growth]

section Run
variable {commands : ι → RiskCommand} {key : Key} {engine engine' : RiskEngine}
  {trace : List (EngineAct ι)} {threads : ι → Thread}

/-- A write whose check still holds finds its key free. -/
theorem vacant_write {front : List (EngineAct ι)} {a : EngineAct ι} {pos written : Position}
    (opens : (commands a.thread).opening = some pos)
    (justified : Justified (commands a.thread) (callsOf a.thread front) a.call)
    (unchanged : Unchanged storedKey engine front a) (writes : a.call.op = .upsert written) :
    written = pos ∧ engine.held pos.key = none := by
  obtain ⟨rfl, read⟩ := justified.opened opens writes
  exact ⟨rfl, unchanged.got (storedKey_eq_some.mpr ⟨written, writes, rfl⟩) read⟩

theorem growth_step {front : List (EngineAct ι)} {a : EngineAct ι} {pos : Position}
    (allowed : portsUp.answers engine a.call.op a.call.ans)
    (opens : (commands a.thread).opening = some pos)
    (justified : Justified (commands a.thread) (callsOf a.thread front) a.call)
    (unchanged : Unchanged storedKey engine front a) :
    let after := portsUp.effect engine a.call.op a.call.ans
    (after.store.count : Int) - after.stats.openPositions =
      engine.store.count - engine.stats.openPositions + growth a.call := by
  obtain ⟨i, op, ans⟩ := a
  cases op
  case upsert written =>
    obtain ⟨rfl, vacant⟩ := vacant_write opens justified unchanged rfl
    obtain rfl : ans = .ok () := allowed
    have grown : (engine.store.upsert written).count = engine.store.count + 1 :=
      PositionStore.count_upsert_of_none vacant
    change ((engine.store.upsert written).count : Int) - engine.stats.openPositions = _
    simp only [grown, growth]
    omega
  case countOpened =>
    change (engine.store.count : Int) - ((engine.stats.openPositions + 1 : Nat) : Int) = _
    simp only [growth]
    omega
  case remove account symbol => simp [justified.not_opening rfl] at opens
  case countClosed =>
    obtain ⟨account, symbol, close⟩ := justified
    rw [close] at opens
    cases opens
  case countLiquidated =>
    obtain ⟨symbol, sweep⟩ := justified
    rw [sweep] at opens
    cases opens
  case publish events =>
    obtain rfl : ans = .ok () := allowed
    exact (Int.add_zero _).symm
  all_goals exact (Int.add_zero _).symm

/-- The store's count and `open_positions` drift apart by the growth of the calls. -/
theorem growth_run (opens : ∀ i, ∃ pos, (commands i).opening = some pos)
    (run : Concurrent commands engine trace engine' threads)
    (unchanged : Throughout portsUp (Unchanged storedKey) engine trace) :
    (engine'.store.count : Int) - engine'.stats.openPositions =
      engine.store.count - engine.stats.openPositions + ((calls trace).map growth).sum := by
  rw [run.after_eq]
  refine Stepwise.induction (I := fun front =>
    ((portsUp.after engine (calls front)).store.count : Int) -
        (portsUp.after engine (calls front)).stats.openPositions =
      engine.store.count - engine.stats.openPositions + ((calls front).map growth).sum)
    (by simp) ?_
  intro front a back split ih
  obtain ⟨pos, opening⟩ := opens a.thread
  have step := growth_step (run.allowed front a back split) opening
    (run.justified front a back split) (unchanged front a back split)
  rw [after_concat, sum_calls_concat]
  dsimp only at step ih ⊢
  omega

/-- At most one of the opens has written the key, and it stands. -/
inductive OneWriter (commands : ι → RiskCommand) (key : Key) (front : List (EngineAct ι))
    (engine : RiskEngine) : Prop
  | vacant (empty : engine.held key = none) (unwritten : ∀ a ∈ front, storedKey a.call ≠ some key) :
      OneWriter commands key front engine
  | taken (i : ι) (pos : Position) (opens : (commands i).opening = some pos)
      (filed : engine.held key = some pos)
      (writer : ∀ a ∈ front, storedKey a.call = some key → a.thread = i) :
      OneWriter commands key front engine

theorem oneWriter_step {front : List (EngineAct ι)} {a : EngineAct ι} {pos : Position}
    (allowed : portsUp.answers engine a.call.op a.call.ans)
    (opens : (commands a.thread).opening = some pos) (own : pos.key = key)
    (justified : Justified (commands a.thread) (callsOf a.thread front) a.call)
    (unchanged : Unchanged storedKey engine front a) (sole : OneWriter commands key front engine) :
    OneWriter commands key (front ++ [a]) (portsUp.effect engine a.call.op a.call.ans) := by
  have unremoved : removedKey a.call ≠ some key := by
    intro removes
    simp [justified.not_opening removes] at opens
  by_cases stores : storedKey a.call = some key
  · obtain ⟨written, writes, -⟩ := storedKey_eq_some.mp stores
    obtain ⟨rfl, free⟩ := vacant_write opens justified unchanged writes
    rw [own] at free
    cases sole with
    | vacant empty unwritten =>
      refine .taken a.thread written opens (held_of_stores allowed writes own) ?_
      intro b member stores'
      rcases List.mem_append.mp member with past | now
      · exact absurd stores' (unwritten b past)
      · rw [List.mem_singleton.mp now]
    | taken i other opens' filed writer =>
      rw [filed] at free
      cases free
  · have same := held_of_untouched allowed stores unremoved
    cases sole with
    | vacant empty unwritten =>
      refine .vacant (same.trans empty) ?_
      intro b member
      rcases List.mem_append.mp member with past | now
      · exact unwritten b past
      · rwa [List.mem_singleton.mp now]
    | taken i other opens' filed writer =>
      refine .taken i other opens' (same.trans filed) ?_
      intro b member stores'
      rcases List.mem_append.mp member with past | now
      · exact writer b past stores'
      · rw [List.mem_singleton.mp now] at stores'
        exact absurd stores' stores

theorem oneWriter_run (opens : ∀ i, ∃ pos, (commands i).opening = some pos ∧ pos.key = key)
    (vacant : engine.held key = none) (run : Concurrent commands engine trace engine' threads)
    (unchanged : Throughout portsUp (Unchanged storedKey) engine trace) :
    OneWriter commands key trace engine' := by
  rw [run.after_eq]
  refine Stepwise.induction
    (I := fun front => OneWriter commands key front (portsUp.after engine (calls front)))
    (.vacant vacant (by simp)) ?_
  intro front a back split sole
  obtain ⟨pos, opening, own⟩ := opens a.thread
  rw [after_concat]
  exact oneWriter_step (run.allowed front a back split) opening own
    (run.justified front a back split) (unchanged front a back split) sole

/-- The open that was accepted is the one whose position stands. -/
theorem OneWriter.accepted (sole : OneWriter commands key trace engine')
    (run : Concurrent commands engine trace engine' threads) {i : ι} {outcome : CommandOutcome}
    {pos : Position} (opens : (commands i).opening = some pos) (own : pos.key = key)
    (finished : threads i = .done (.ok outcome)) :
    outcome.events = [openedEvent pos] ∧ engine'.held key = some pos ∧
      ∀ a ∈ trace, storedKey a.call = some key → a.thread = i := by
  obtain ⟨events, written⟩ := applied_open opens (run.applied finished)
  obtain ⟨a, performed, rfl, call⟩ := mem_callsOf.mp written
  have stores : storedKey a.call = some key := storedKey_eq_some.mpr ⟨pos, by rw [call], own⟩
  cases sole with
  | vacant empty unwritten => exact absurd stores (unwritten a performed)
  | taken j other opens' filed writer =>
    obtain rfl := writer a performed stores
    obtain rfl : other = pos := Option.some.inj (opens'.symm.trans opens)
    exact ⟨events, filed, writer⟩

end Run

/-- In every run of opens at one free key in which each write finds the key as
its command's check found it, at most one open is accepted, its position is
never written over, and the counter grows with the store. -/
theorem concurrent_opens_exclusive [Fintype ι] {commands : ι → RiskCommand} {key : Key}
    {engine engine' : RiskEngine} {trace : List (EngineAct ι)} {threads : ι → Thread}
    (opens : ∀ i, ∃ pos, (commands i).opening = some pos ∧ pos.key = key)
    (vacant : engine.held key = none) (run : Concurrent commands engine trace engine' threads)
    (unchanged : Throughout portsUp (Unchanged storedKey) engine trace) :
    OpensExclusively key engine trace engine' threads := by
  have sole := oneWriter_run opens vacant run unchanged
  refine ⟨?_, ?_, ?_, ?_⟩
  · intro i j first second finished finished'
    obtain ⟨pos, opening, own⟩ := opens i
    obtain ⟨pos', opening', own'⟩ := opens j
    have written := (applied_open opening (run.applied finished)).2
    obtain ⟨a, performed, rfl, call⟩ := mem_callsOf.mp written
    exact (sole.accepted run opening' own' finished').2.2 a performed
      (storedKey_eq_some.mpr ⟨pos, by rw [call], own⟩)
  · intro i outcome finished
    obtain ⟨pos, opening, own⟩ := opens i
    obtain ⟨events, filed, -⟩ := sole.accepted run opening own finished
    exact ⟨pos, events, filed⟩
  · intro i outcome finished
    obtain ⟨pos, opening, own⟩ := opens i
    exact (sole.accepted run opening own finished).2.2
  · intro finished
    have drift := growth_run (fun i => (opens i).imp fun _ both => both.1) run unchanged
    have none_left : ((calls trace).map growth).sum = 0 := by
      rw [sum_calls_by_thread]
      apply Finset.sum_eq_zero
      intro i _
      obtain ⟨pos, opening, -⟩ := opens i
      obtain ⟨r, done⟩ := finished i
      exact growth_applied opening (run.applied done)
    rw [none_left] at drift
    omega

open Sample in
/-- Two opens of alice's position in `sol`, one long and one short. -/
def twoOpens : Bool → RiskCommand
  | false => enter alice .long (contracts 10) (price 100) (dollars 150)
  | true => enter alice .short (contracts 4) (price 100) (dollars 100)

open Sample in
theorem twoOpens_key (i : Bool) :
    ∃ pos, (twoOpens i).opening = some pos ∧ pos.key = (alice.asStr, sol) := by
  cases i <;> exact ⟨_, rfl, rfl⟩

open Sample in
/-- One open after the other: the first is accepted, the second refused. -/
theorem concurrent_opens_exclusive_in_turn : ∃ engine trace engine' threads,
    Reachable (dollars 5) standard engine ∧ Concurrent twoOpens engine trace engine' threads ∧
      (∀ i, ∃ r, threads i = .done r) ∧
      OpensExclusively (alice.asStr, sol) engine trace engine' threads := by
  obtain ⟨engine, trace, engine', threads, reachable, run, vacant, finished, unchanged⟩ :=
    exists_run_after_script (dollars 5) standard [] twoOpens (turns false 6 ++ turns true 2)
      (fun engine trace _ threads => engine.held (alice.asStr, sol) = none ∧
        (∀ i, (threads i).result.isSome) ∧ Throughout portsUp (Unchanged storedKey) engine trace)
      (by decide)
  simp only [Option.isSome_iff_exists, Program.result_eq_some] at finished
  exact ⟨engine, trace, engine', threads, reachable, run, finished,
    concurrent_opens_exclusive twoOpens_key vacant run unchanged⟩

open Sample in
/-- Both opens find the key free before either writes it: both are accepted and
the second write replaces the first position. -/
theorem interleaved_opens_both_accepted : ∃ engine trace engine' threads,
    Reachable (dollars 5) standard engine ∧ Concurrent twoOpens engine trace engine' threads ∧
      engine.held (alice.asStr, sol) = none ∧
      (∀ i, ∃ outcome, threads i = .done (.ok outcome)) ∧
      ¬ OpensExclusively (alice.asStr, sol) engine trace engine' threads := by
  obtain ⟨engine, trace, engine', threads, reachable, run, vacant, finished⟩ :=
    exists_run_after_script (dollars 5) standard [] twoOpens
      (turns false 3 ++ turns true 3 ++ turns false 3 ++ turns true 3)
      (fun engine _ _ threads => engine.held (alice.asStr, sol) = none ∧
        ∀ i, (threads i).result.any (fun r => r.isOk)) (by decide)
  have accepted : ∀ i, ∃ outcome, threads i = .done (.ok outcome) := by
    intro i
    obtain ⟨r, done, ok⟩ := (Option.any_eq_true _ _).mp (finished i)
    cases r with
    | error e => cases ok
    | ok outcome => exact ⟨outcome, Program.result_eq_some.mp done⟩
  refine ⟨engine, trace, engine', threads, reachable, run, vacant, accepted, fun exclusive => ?_⟩
  obtain ⟨first, done⟩ := accepted false
  obtain ⟨second, done'⟩ := accepted true
  cases exclusive.one_accepted false true first second done done'

end MarginGuard.Guarantees
