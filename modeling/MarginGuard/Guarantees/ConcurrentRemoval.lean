import MarginGuard.Source.Concurrent
import MarginGuard.Source.Invariants
import MarginGuard.Source.Script

/-!
# Closes and sweeps in flight together

A sweep works from the positions it listed, removes them one by one and settles
each whatever the removal answers. While each removal of a sweep still finds
the position the sweep listed, every accepted open is ended at most once
(`accepted_open_ends_once`); a sweep whose removal comes too late settles a
position somebody else has ended (`overlapping_sweeps_settle_twice`).

A funding round writes back the positions it listed. While each write-back
still finds its key stored, an ended position stays away until it is opened
again (`ended_position_stays_away`); a write-back that comes after the removal
brings the position back (`funding_restores_closed_position`).
-/
namespace MarginGuard.Guarantees
open Foundation Source

variable {ι : Type} [DecidableEq ι]

/-- The command ends the position at the key: it reports the end, or moves the
fund on its account. -/
def EndsKey (key : Key) (trace : List (EngineAct ι)) (threads : ι → Thread) (i : ι) : Prop :=
  key ∈ (returnedEvents (threads i)).filterMap endedKey ∨
    key ∈ (callsOf i trace).filterMap settledKey

/-- What closes and sweeps owe every accepted open. A command removes, reports
and settles a key at most once, it settles the position it has removed, and
between one write of the key by an open and the next only one command ends it. -/
structure EndsOnce (commands : ι → RiskCommand) (trace : List (EngineAct ι))
    (threads : ι → Thread) : Prop where
  one_removal : ∀ i, ((callsOf i trace).filterMap removedKey).Nodup
  one_event : ∀ i, ((returnedEvents (threads i)).filterMap endedKey).Nodup
  one_move : ∀ i, ((callsOf i trace).filterMap settledKey).Nodup
  removed : ∀ i key, EndsKey key trace threads i →
    ∃ pos, ⟨.remove key.1 key.2, .ok (some pos)⟩ ∈ callsOf i trace
  settles_removed : ∀ i, ∀ c ∈ callsOf i trace, ∀ pos ∈ settledPosition c,
    ⟨.remove pos.account.asStr pos.symbol, .ok (some pos)⟩ ∈ callsOf i trace
  one_ender : ∀ key front stretch back, trace = front ++ stretch ++ back →
    (∀ a ∈ stretch, (commands a.thread).opening ≠ none → storedKey a.call ≠ some key) →
    ∀ a ∈ stretch, ∀ b ∈ stretch, removedKey a.call = some key → removedKey b.call = some key →
      EndsKey key trace threads a.thread → EndsKey key trace threads b.thread →
      a.thread = b.thread

section Run
variable {commands : ι → RiskCommand} {engine engine' : RiskEngine} {trace : List (EngineAct ι)}
  {threads : ι → Thread}

/-- The answer of a removal is what the store holds. -/
theorem removal_answer {c : EngineCall} {key : Key} (allowed : portsUp.answers engine c.op c.ans)
    (removes : removedKey c = some key) : c = ⟨.remove key.1 key.2, .ok (engine.held key)⟩ := by
  obtain ⟨op, ans⟩ := c
  obtain rfl : op = .remove key.1 key.2 := removedKey_eq_some.mp removes
  obtain rfl : ans = .ok (engine.held key) := allowed
  rfl

/-- A movement of the fund follows the removal the same sweep made for the position. -/
theorem removal_of_settled (run : Concurrent commands engine trace engine' threads) {i : ι}
    {c : EngineCall} {pos : Position} (performed : c ∈ callsOf i trace)
    (settles : settledPosition c = some pos) :
    ∃ front back held mark params, Sweeps (commands i) (callsOf i front) mark params pos ∧
      trace = front ++ ⟨i, ⟨.remove pos.account.asStr pos.symbol, .ok held⟩⟩ :: back := by
  obtain ⟨front, back, split, -⟩ := run.answered performed
  obtain ⟨mark, params, before, held, later, sweeps, own⟩ :=
    (run.justified front _ back split).settlement settles
  obtain ⟨front', later', whole, rfl⟩ := exists_act_of_callsOf own
  exact ⟨front', later' ++ ⟨i, c⟩ :: back, held, mark, params, sweeps, by rw [split, whole]; simp⟩

/-- Whatever a command ends it has removed. -/
theorem removal_of_ends (run : Concurrent commands engine trace engine' threads) {key : Key} {i : ι}
    (ends : EndsKey key trace threads i) :
    ∃ front back held, trace = front ++ ⟨i, ⟨.remove key.1 key.2, .ok held⟩⟩ :: back := by
  rcases ends with reported | settled
  · cases finished : (threads i).result with
    | none => simp [returnedEvents, finished] at reported
    | some r =>
      rw [returnedEvents, finished] at reported
      obtain ⟨held, removal⟩ :=
        (run.applied (Program.result_eq_some.mp finished)).removal_of_ended reported
      obtain ⟨front, back, split, -⟩ := run.answered removal
      exact ⟨front, back, held, split⟩
  · obtain ⟨c, performed, names⟩ := List.mem_filterMap.mp settled
    obtain ⟨pos, settles, rfl⟩ := Option.map_eq_some_iff.mp names
    obtain ⟨front, back, held, _, _, -, whole⟩ := removal_of_settled run performed settles
    exact ⟨front, back, held, whole⟩

/-- A removal is answered with what was stored. -/
theorem removal_performed (run : Concurrent commands engine trace engine' threads) {key : Key}
    {front back : List (EngineAct ι)} {a : EngineAct ι} (split : trace = front ++ a :: back)
    (removes : removedKey a.call = some key) :
    ⟨.remove key.1 key.2, .ok ((portsUp.after engine (calls front)).held key)⟩ ∈
      callsOf a.thread trace := by
  rw [← removal_answer (run.allowed front a back split) removes]
  exact mem_callsOf.mpr ⟨a, by simp [split], rfl, rfl⟩

/-- A command that ends a key has found something to remove there, if what its
listing had under the key was still stored. -/
theorem removal_found (run : Concurrent commands engine trace engine' threads)
    (unchanged : Throughout portsUp (Unchanged removedKey) engine trace) {key : Key}
    {front back : List (EngineAct ι)} {a : EngineAct ι} (split : trace = front ++ a :: back)
    (removes : removedKey a.call = some key) (ends : EndsKey key trace threads a.thread) :
    ∃ pos, (portsUp.after engine (calls front)).held key = some pos := by
  obtain ⟨owner, -, close⟩ | ⟨mark, params, pos, sweeps, rfl⟩ :=
    (run.justified front a back split).removal removes
  · rcases ends with reported | settled
    · cases finished : threads a.thread with
      | step op next => simp [returnedEvents, finished, Program.result] at reported
      | done r =>
        cases r with
        | error e => simp [finished, eventsOf] at reported
        | ok outcome =>
          have applied := run.applied finished
          rw [close] at applied
          exact Option.ne_none_iff_exists'.mp
            (applied.close_found (removal_performed run split removes))
    · obtain ⟨c, performed, names⟩ := List.mem_filterMap.mp settled
      obtain ⟨pos, settles, -⟩ := Option.map_eq_some_iff.mp names
      obtain ⟨_, _, _, _, _, sweeps, -⟩ := removal_of_settled run performed settles
      rw [sweeps.sweep] at close
      cases close
  · obtain ⟨listing, read, listed⟩ := sweeps.listed
    exact ⟨pos, (unchanged front a back split).listed removes read listed⟩

/-- Between two removals by commands that end the key, an open has written it. -/
theorem open_between_ends (run : Concurrent commands engine trace engine' threads)
    (unfunded : ∀ i symbol, commands i ≠ .accrueFunding symbol)
    (unchanged : Throughout portsUp (Unchanged removedKey) engine trace) {key : Key}
    {front mid back : List (EngineAct ι)} {a b : EngineAct ι}
    (split : trace = front ++ a :: (mid ++ b :: back)) (removes : removedKey a.call = some key)
    (removes' : removedKey b.call = some key) (ends : EndsKey key trace threads b.thread) :
    ∃ c ∈ mid, (commands c.thread).opening ≠ none ∧ storedKey c.call = some key := by
  by_contra quiet
  have empty := run.absent_after split removes (by
    intro later c rest parts _ stores
    obtain ⟨pos, writes, -⟩ := storedKey_eq_some.mp stores
    have place : trace = (front ++ a :: later) ++ c :: (rest ++ b :: back) := by simp [split, parts]
    obtain ⟨opens, -⟩ | ⟨_, _, old, funds, -⟩ := (run.justified _ c _ place).write writes
    · exact quiet ⟨c, by simp [parts], by simp [opens], stores⟩
    · exact unfunded _ _ funds.round)
  have place : trace = (front ++ a :: mid) ++ b :: back := by simp [split]
  obtain ⟨pos, found⟩ := removal_found run unchanged place removes' ends
  rw [found] at empty
  cases empty

end Run

/-- In every run of closes, sweeps and opens in which each removal of a sweep
finds the position the sweep has listed, every accepted open is ended at most
once. -/
theorem accepted_open_ends_once {commands : ι → RiskCommand} {engine engine' : RiskEngine}
    {trace : List (EngineAct ι)} {threads : ι → Thread}
    (unfunded : ∀ i symbol, commands i ≠ .accrueFunding symbol)
    (run : Concurrent commands engine trace engine' threads)
    (unchanged : Throughout portsUp (Unchanged removedKey) engine trace) :
    EndsOnce commands trace threads where
  one_removal i := by
    obtain ⟨back, r, applied⟩ := run.exists_applied i
    have nodup := applied.removals_nodup
    rw [List.filterMap_append] at nodup
    exact (List.nodup_append.mp nodup).1
  one_event i := by
    cases finished : threads i with
    | step op next => exact List.nodup_nil
    | done r => exact (run.applied finished).ended_nodup
  one_move i := by
    obtain ⟨back, r, applied⟩ := run.exists_applied i
    have nodup := applied.moves_nodup
    rw [List.filterMap_append] at nodup
    exact (List.nodup_append.mp nodup).1
  removed i key ends := by
    obtain ⟨front, back, held, split⟩ := removal_of_ends run ends
    obtain ⟨pos, found⟩ := removal_found run unchanged split rfl ends
    exact ⟨pos, found ▸ removal_performed run split rfl⟩
  settles_removed i c performed pos settles := by
    obtain ⟨front, back, held, mark, params, sweeps, split⟩ :=
      removal_of_settled run performed settles
    obtain ⟨listing, read, listed⟩ := sweeps.listed
    have found := (unchanged front _ back split).listed rfl read listed
    exact found ▸ removal_performed run split rfl
  one_ender key front stretch back split quiet a first b second removes removes' ends ends' := by
    by_contra different
    obtain ⟨before, later, rfl⟩ := List.append_of_mem first
    rcases List.mem_append.mp second with earlier | after
    · obtain ⟨start, mid, rfl⟩ := List.append_of_mem earlier
      have place : trace = (front ++ start) ++ b :: (mid ++ a :: (later ++ back)) := by simp [split]
      obtain ⟨c, member, opens, stores⟩ :=
        open_between_ends run unfunded unchanged place removes' removes ends
      exact quiet c (by simp [member]) opens stores
    · rcases List.mem_cons.mp after with rfl | after
      · exact different rfl
      · obtain ⟨mid, rest, rfl⟩ := List.append_of_mem after
        have place : trace = (front ++ before) ++ a :: (mid ++ b :: (rest ++ back)) := by
          simp [split]
        obtain ⟨c, member, opens, stores⟩ :=
          open_between_ends run unfunded unchanged place removes removes' ends'
        exact quiet c (by simp [member]) opens stores

open Sample in
/-- A long of bob's that is under water at 90, with a little equity left. -/
def bobLong : List (Environment × RiskCommand) :=
  [({}, enter bob .long (contracts 10) (price 100) (dollars 110)), ({}, mark (price 90) (rate 0))]

open Sample in
/-- What a sweep of `sol` lists while `bobLong` is the whole market. -/
def bobListed : Environment where
  listing := [openedPosition bob sol .long .cross (contracts 10) (price 100) tenfold (dollars 110)]

open Sample in
/-- A sweep of `sol` and a close of bob's position. -/
def sweepAndClose : Bool → RiskCommand
  | false => .liquidateMarket sol
  | true => .closePosition bob sol

open Sample in
/-- The close is admitted first and finds the position liquidated. -/
theorem accepted_open_ends_once_liquidated : ∃ engine trace engine' threads,
    Reachable (dollars 5) standard engine ∧ Concurrent sweepAndClose engine trace engine' threads ∧
      EndsKey (bob.asStr, sol) trace threads false ∧ EndsOnce sweepAndClose trace threads := by
  obtain ⟨engine, trace, engine', threads, reachable, run, reported, unchanged⟩ :=
    exists_run_after_script (dollars 5) standard bobLong sweepAndClose
      (turns true 1 ++ turns false 7 bobListed ++ turns true 1)
      (fun engine trace _ threads =>
        (bob.asStr, sol) ∈ (returnedEvents (threads false)).filterMap endedKey ∧
          Throughout portsUp (Unchanged removedKey) engine trace) (by decide)
  exact ⟨engine, trace, engine', threads, reachable, run, Or.inl reported,
    accepted_open_ends_once (fun i symbol => by cases i <;> simp [sweepAndClose]) run unchanged⟩

open Sample in
/-- Two sweeps of `sol`. -/
def twoSweeps : Bool → RiskCommand := fun _ => .liquidateMarket sol

open Sample in
/-- Two sweeps list bob's position before either removes it: both report it
liquidated and both credit the fund with its fee. -/
theorem overlapping_sweeps_settle_twice : ∃ engine trace engine' threads,
    Reachable (dollars 5) standard engine ∧ Concurrent twoSweeps engine trace engine' threads ∧
      (∀ i, (bob.asStr, sol) ∈ (returnedEvents (threads i)).filterMap endedKey ∧
        (bob.asStr, sol) ∈ (callsOf i trace).filterMap settledKey) ∧
      ¬ EndsOnce twoSweeps trace threads := by
  obtain ⟨engine, trace, engine', threads, reachable, run, both⟩ :=
    exists_run_after_script (dollars 5) standard bobLong twoSweeps
      (turns false 3 bobListed ++ turns true 3 bobListed ++ turns false 4 ++ turns true 4)
      (fun _ trace _ threads => ∀ i,
        (bob.asStr, sol) ∈ (returnedEvents (threads i)).filterMap endedKey ∧
          (bob.asStr, sol) ∈ (callsOf i trace).filterMap settledKey) (by decide)
  refine ⟨engine, trace, engine', threads, reachable, run, both, fun once => ?_⟩
  have removals : ∀ i, ∃ a ∈ trace, a.thread = i ∧ removedKey a.call = some (bob.asStr, sol) := by
    intro i
    obtain ⟨front, back, held, split⟩ := removal_of_ends run (Or.inl (both i).1)
    exact ⟨_, split ▸ List.mem_append_right front List.mem_cons_self, rfl, rfl⟩
  obtain ⟨a, performed, first, removes⟩ := removals false
  obtain ⟨b, performed', second, removes'⟩ := removals true
  have same := once.one_ender (bob.asStr, sol) [] trace [] (by simp)
    (fun _ _ opens => absurd rfl opens) a performed b performed' removes removes'
    (Or.inl (both _).1) (Or.inl (both _).1)
  rw [first, second] at same
  cases same

/-! ## Ended positions stay away -/

/-- A write that is not an open's finds its key stored. -/
def FindsStored (commands : ι → RiskCommand) (engine : RiskEngine) (_ : List (EngineAct ι))
    (a : EngineAct ι) : Prop :=
  (commands a.thread).opening = none → ∀ key ∈ storedKey a.call, (engine.held key).isSome

instance (commands : ι → RiskCommand) (engine : RiskEngine) (front : List (EngineAct ι))
    (a : EngineAct ι) : Decidable (FindsStored commands engine front a) :=
  inferInstanceAs (Decidable (_ → _))

/-- A position some command reports as closed or liquidated, and that no open
has written since that command removed it, is not in the store. -/
def StaysAway (commands : ι → RiskCommand) (trace : List (EngineAct ι)) (engine' : RiskEngine)
    (threads : ι → Thread) : Prop :=
  ∀ i, ∀ key ∈ (returnedEvents (threads i)).filterMap endedKey,
    (∀ front a back, trace = front ++ a :: back → a.thread = i → removedKey a.call = some key →
      ∀ b ∈ back, (commands b.thread).opening ≠ none → storedKey b.call ≠ some key) →
    engine'.held key = none

/-- In every run in which each write-back of a funding round finds its key still
stored, an ended position that is not opened again is absent in every state
reached after its end was reported. -/
theorem ended_position_stays_away {commands : ι → RiskCommand} {engine engine' : RiskEngine}
    {trace : List (EngineAct ι)} {threads : ι → Thread}
    (run : Concurrent commands engine trace engine' threads)
    (stored : Throughout portsUp (FindsStored commands) engine trace) :
    StaysAway commands trace engine' threads := by
  intro i key reported unopened
  obtain ⟨front, back, held, split⟩ := removal_of_ends run (Or.inl reported)
  rw [run.after_eq, split]
  have whole : trace = front ++ ⟨i, ⟨.remove key.1 key.2, .ok held⟩⟩ :: (back ++ []) := by
    rw [List.append_nil, split]
  apply run.absent_after whole rfl
  intro later b rest parts empty stores
  by_cases opens : (commands b.thread).opening = none
  · have place : trace = (front ++ ⟨i, ⟨.remove key.1 key.2, .ok held⟩⟩ :: later) ++ b :: rest := by
      simp [split, parts]
    have present := stored _ b _ place opens key stores
    rw [empty] at present
    cases present
  · exact unopened front _ back split rfl rfl b (by simp [parts]) opens stores

open Sample in
/-- A funding round on `sol` and a close of bob's position there. -/
def fundAndClose : Bool → RiskCommand
  | false => .accrueFunding sol
  | true => .closePosition bob sol

open Sample in
/-- The round writes back before the close removes. -/
theorem ended_position_stays_away_after_close : ∃ engine trace engine' threads,
    Reachable (dollars 5) standard engine ∧ Concurrent fundAndClose engine trace engine' threads ∧
      (∀ i, ∃ r, threads i = .done r) ∧
      (bob.asStr, sol) ∈ (returnedEvents (threads true)).filterMap endedKey ∧
      StaysAway fundAndClose trace engine' threads := by
  obtain ⟨engine, trace, engine', threads, reachable, run, finished, reported, stored⟩ :=
    exists_run_after_script (dollars 5) standard bobLong fundAndClose
      (turns false 3 bobListed ++ turns true 1 ++ turns false 1 ++ turns true 4 ++ turns false 2)
      (fun engine trace _ threads => (∀ i, (threads i).result.isSome) ∧
        (bob.asStr, sol) ∈ (returnedEvents (threads true)).filterMap endedKey ∧
        Throughout portsUp (FindsStored fundAndClose) engine trace) (by decide)
  simp only [Option.isSome_iff_exists, Program.result_eq_some] at finished
  exact ⟨engine, trace, engine', threads, reachable, run, finished, reported,
    ended_position_stays_away run stored⟩

open Sample in
/-- The round has listed bob's position, the close removes it, and the round
writes it back: closed and reported, it is in the store again. -/
theorem funding_restores_closed_position : ∃ engine trace engine' threads,
    Reachable (dollars 5) standard engine ∧ Concurrent fundAndClose engine trace engine' threads ∧
      (∀ i, ∃ r, threads i = .done r) ∧ ¬ StaysAway fundAndClose trace engine' threads := by
  obtain ⟨engine, trace, engine', threads, reachable, run, finished, reported, present⟩ :=
    exists_run_after_script (dollars 5) standard bobLong fundAndClose
      (turns false 3 bobListed ++ turns true 5 ++ turns false 3)
      (fun _ _ engine' threads => (∀ i, (threads i).result.isSome) ∧
        (bob.asStr, sol) ∈ (returnedEvents (threads true)).filterMap endedKey ∧
        (engine'.held (bob.asStr, sol)).isSome) (by decide)
  simp only [Option.isSome_iff_exists, Program.result_eq_some] at finished
  refine ⟨engine, trace, engine', threads, reachable, run, finished, fun away => ?_⟩
  have absent := away true _ reported (by
    intro _ _ _ _ _ _ b _ opens
    cases side : b.thread <;> simp [side, fundAndClose, RiskCommand.opening] at opens)
  rw [absent] at present
  cases present

end MarginGuard.Guarantees
