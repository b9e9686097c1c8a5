import MarginGuard.Foundation.Budget
import MarginGuard.Source.Faults
import MarginGuard.Source.Script

/-!
# Commands finish

However the calls of commands in flight are interleaved, and whichever store
calls and publishes fail, a command makes a bounded number of calls: one for each
position it was listed in a funding round, three in a sweep, and otherwise as many
as its method is long. As long as it has not finished, its next call is answered
at once. So no command waits for another, and none is starved by others that
change the market meanwhile (`commands_wait_free`).
-/
namespace MarginGuard.Guarantees
open Foundation Source Program

/-! ## What calls earn -/

/-- An answer of `by_market` is worth `each` calls for every position listed. -/
def listingWorth (each : Nat) (c : EngineCall) : Nat := each * (listedIn [c]).length

theorem sum_listingWorth (each : Nat) (made : List EngineCall) :
    (made.map (listingWorth each)).sum = each * (listedIn made).length := by
  induction made with
  | nil => rfl
  | cons c made ih =>
    have split : listedIn ([c] ++ made) = listedIn [c] ++ listedIn made := List.flatMap_append
    change listedIn (c :: made) = _ at split
    rw [List.map_cons, List.sum_cons, ih, split, List.length_append, Nat.mul_add, listingWorth]

section Methods
variable {each n : Nat} {symbol : Symbol}

theorem lasts_locked {action : Action} (pays : 0 < n) :
    Lasts (listingWorth each) (fun _ m => n ≤ m + 1) (locked action) n := lasts_lift pays

theorem lasts_ask {α : Type} {port : Program Action Answer (Except PortError α)}
    {post : α → Nat → Prop}
    (within : port.Within (listingWorth each) (fun r m => ∀ a, r = .ok a → post a m) n) :
    Lasts (listingWorth each) post (ask port) n := by
  refine within.bind fun r m delivered => ?_
  cases r with
  | error e => exact lasts_throw (CoreError.port e)
  | ok a => exact lasts_pure (delivered a rfl)

theorem lasts_get (account : String) (pays : 0 < n) :
    Lasts (listingWorth each) (fun _ m => n ≤ m + 1) (Port.get account symbol) n :=
  lasts_ask ⟨pays, fun _ _ _ => by omega⟩

theorem lasts_upsert (pos : Position) (pays : 0 < n) :
    Lasts (listingWorth each) (fun _ m => n ≤ m + 1) (Port.upsert pos) n :=
  lasts_ask ⟨pays, fun _ _ _ => by omega⟩

theorem lasts_remove (account : String) (pays : 0 < n) :
    Lasts (listingWorth each) (fun _ m => n ≤ m + 1) (Port.remove account symbol) n :=
  lasts_ask ⟨pays, fun _ _ _ => by omega⟩

theorem lasts_publish (events : List RiskEvent) (pays : 0 < n) :
    Lasts (listingWorth each) (fun _ m => n ≤ m + 1) (Port.publish events) n :=
  lasts_ask ⟨pays, fun _ _ _ => by omega⟩

/-- A listing pays for what is done with it. -/
theorem lasts_byMarket (pays : 0 < n) :
    Lasts (listingWorth each) (fun listing m => n + each * listing.length ≤ m + 1)
      (Port.byMarket symbol) n := by
  refine lasts_ask ⟨pays, fun ans listing same => ?_⟩
  subst same
  have earned : listingWorth each ⟨.byMarket symbol, .ok listing⟩ = each * listing.length := by
    rw [listingWorth, listedIn, List.flatMap_singleton]
  rw [earned]
  omega

/-! ## The methods, up to their publish -/

theorem lasts_openPosition (account : AccountId) (side : Side) (marginMode : MarginMode)
    (size : Size) (entryPrice : Price) (leverage : Leverage) (posted : Usd) :
    Lasts (listingWorth each) (fun _ m => 0 < m)
      (RiskEngine.openPosition account symbol side marginMode size entryPrice leverage posted) 5 := by
  refine (lasts_get account.asStr (by omega)).bind fun held m₁ left₁ => ?_
  cases held with
  | some pos => exact lasts_throw _
  | none =>
    refine (lasts_locked (by omega)).bind fun params m₂ left₂ => ?_
    dsimp only
    split
    · exact lasts_throw _
    · refine (lasts_upsert _ (by omega)).bind fun _ m₃ left₃ => ?_
      refine (lasts_locked (by omega)).bind fun _ m₄ left₄ => ?_
      exact lasts_pure (by omega)

theorem lasts_close (account : String) :
    Lasts (listingWorth each) (fun _ m => 0 < m) (RiskEngine.close account symbol) 4 := by
  refine (lasts_remove account (by omega)).bind fun removed m₁ left₁ => ?_
  cases removed with
  | none => exact lasts_throw _
  | some pos =>
    refine (lasts_locked (by omega)).bind fun mark m₂ left₂ => ?_
    cases mark with
    | none => exact lasts_throw _
    | some mark =>
      refine (lasts_locked (by omega)).bind fun _ m₃ left₃ => ?_
      exact lasts_pure (by omega)

theorem lasts_updateMarket (markPrice indexPrice : Price) (rateBps : I64) :
    Lasts (listingWorth each) (fun _ m => 0 < m)
      (RiskEngine.updateMarket symbol markPrice indexPrice rateBps) 2 :=
  (lasts_locked (by omega)).bind fun _ _ _ => lasts_pure (by omega)

theorem lasts_accrueLoop (mark : Price) (rateBps : I64) {listing : List Position}
    (events : List RiskEvent) (left : Nat) (enough : left + listing.length ≤ n) :
    Lasts (listingWorth each) (fun _ m => left ≤ m)
      (RiskEngine.accrueLoop symbol mark rateBps listing events) n := by
  induction listing generalizing events n with
  | nil => exact lasts_pure (by simpa using enough)
  | cons pos listing ih =>
    rw [List.length_cons] at enough
    exact (lasts_upsert _ (by omega)).bind fun _ m left₁ => ih _ (by omega)

theorem lasts_accrueFunding :
    Lasts (listingWorth 1) (fun _ m => 0 < m) (RiskEngine.accrueFunding symbol) 4 := by
  refine (lasts_locked (by omega)).bind fun terms m₁ left₁ => ?_
  cases terms with
  | none => exact lasts_throw _
  | some terms =>
    refine (lasts_byMarket (by omega)).bind fun listing m₂ left₂ => ?_
    refine (lasts_accrueLoop terms.1 terms.2 [] 2 (by omega)).bind fun events m₃ left₃ => ?_
    split
    · exact lasts_pure (by omega)
    · refine (lasts_locked (by omega)).bind fun _ m₄ left₄ => ?_
      exact lasts_pure (by omega)

theorem lasts_liquidateLoop (mark : Price) (params : RiskParams) {listing : List Position}
    (events : List RiskEvent) (total : Usd) (left : Nat) (enough : left + 3 * listing.length ≤ n) :
    Lasts (listingWorth each) (fun _ m => left ≤ m)
      (RiskEngine.liquidateLoop symbol mark params listing events total) n := by
  induction listing generalizing events total n with
  | nil => exact lasts_pure (by simpa using enough)
  | cons pos listing ih =>
    rw [List.length_cons] at enough
    unfold RiskEngine.liquidateLoop
    split
    · exact ih _ _ (by omega)
    · refine (lasts_remove _ (by omega)).bind fun _ m₁ left₁ => ?_
      dsimp only
      -- the rest of the loop stands behind either branch
      split
      · refine (lasts_locked (by omega)).bind fun _ m₂ left₂ => ?_
        exact (lasts_locked (by omega)).bind fun _ m₃ left₃ => ih _ _ (by omega)
      · refine (lasts_locked (by omega)).bind fun _ m₂ left₂ => ?_
        exact (lasts_locked (by omega)).bind fun _ m₃ left₃ => ih _ _ (by omega)

theorem lasts_liquidateMarket :
    Lasts (listingWorth 3) (fun _ m => 0 < m) (RiskEngine.liquidateMarket symbol) 4 := by
  refine (lasts_locked (by omega)).bind fun terms m₁ left₁ => ?_
  cases terms with
  | none => exact lasts_throw _
  | some terms =>
    refine (lasts_byMarket (by omega)).bind fun listing m₂ left₂ => ?_
    refine (lasts_liquidateLoop terms.1 terms.2 [] .ZERO 2 (by omega)).bind
      fun swept m₃ left₃ => ?_
    obtain ⟨events, totalSocialized⟩ := swept
    dsimp only
    split
    · exact lasts_pure (by omega)
    · refine (lasts_locked (by omega)).bind fun _ m₄ left₄ => ?_
      exact lasts_pure (by omega)

end Methods

/-! ## Commands -/

/-- How many calls a command's method has room for, besides those for the positions
it is listed. -/
def fixedCalls : RiskCommand → Nat
  | .openPosition .. => 6
  | .closePosition .. => 5
  | .updateMarket .. => 3
  | .accrueFunding _ => 5
  | .liquidateMarket _ => 5

/-- How many calls it makes for each of these at most. -/
def callsEach : RiskCommand → Nat
  | .openPosition .. => 0
  | .closePosition .. => 0
  | .updateMarket .. => 0
  | .accrueFunding _ => 1
  | .liquidateMarket _ => 3

/-- The room a command has for calls, once these are made. -/
def callBound (command : RiskCommand) (made : List EngineCall) : Nat :=
  fixedCalls command + callsEach command * (listedIn made).length

/-- A credit is left for the publish. -/
theorem lasts_dispatch (command : RiskCommand) :
    Lasts (listingWorth (callsEach command)) (fun _ m => 0 < m) (RiskEngine.dispatch command)
      (fixedCalls command - 1) := by
  cases command with
  | openPosition account symbol side marginMode size entryPrice leverage margin =>
    exact lasts_openPosition account side marginMode size entryPrice leverage margin
  | closePosition account symbol => exact lasts_close account.asStr
  | updateMarket symbol markPrice indexPrice rateBps =>
    exact lasts_updateMarket markPrice indexPrice rateBps
  | accrueFunding symbol => exact lasts_accrueFunding
  | liquidateMarket symbol => exact lasts_liquidateMarket

theorem fixedCalls_pos (command : RiskCommand) : 0 < fixedCalls command := by
  cases command <;> exact Nat.succ_pos _

theorem lasts_apply (command : RiskCommand) :
    Lasts (listingWorth (callsEach command)) (fun _ _ => True) (RiskEngine.apply command)
      (fixedCalls command) := by
  refine (lasts_locked (fixedCalls_pos command)).bind fun admitted m left => ?_
  cases admitted with
  | false => exact lasts_throw _
  | true =>
    have method : Lasts (listingWorth (callsEach command)) (fun _ m => 0 < m)
        (RiskEngine.dispatch command) m :=
      (lasts_dispatch command).mono (by omega) fun _ _ _ more pays a same => (pays a same).trans_le more
    refine Lasts.bind method fun outcome m' pays => ?_
    split
    · exact lasts_pure trivial
    · exact (lasts_publish _ pays).bind fun _ _ _ => lasts_pure trivial

section InFlight
variable {ι : Type} [DecidableEq ι] {may : Action → Bool} {commands : ι → RiskCommand}
  {engine engine' : RiskEngine} {trace : List (EngineAct ι)} {threads : ι → Thread}

/-- Among commands in flight, whichever ports fail, each makes at most so many calls
as its method and its listing give rise to. As long as it has not finished it has
made fewer, and can make the next one at once. -/
theorem commands_wait_free
    (run : Run (portsMayFail may) engine (fun i => RiskEngine.apply (commands i)) trace engine'
      threads) (i : ι) :
    (callsOf i trace).length ≤ callBound (commands i) (callsOf i trace) ∧
      ((threads i).result = none →
        (callsOf i trace).length < callBound (commands i) (callsOf i trace) ∧
        ∃ c engine'' threads', Run (portsMayFail may) engine' threads [⟨i, c⟩] engine'' threads') := by
  have most := run.length_le (lasts_apply (commands i))
  rw [sum_listingWorth] at most
  refine ⟨most, fun unfinished => ⟨?_, ?_⟩⟩
  · have fewer := run.length_lt (lasts_apply (commands i)) unfinished
    rwa [sum_listingWorth] at fewer
  · refine Run.proceeds (fun engine action => ?_) unfinished
    obtain ⟨ans, answered⟩ := portsUp_answers engine action
    exact ⟨ans, Or.inl answered⟩

end InFlight

section Sweeping
open Sample

/-- An opening, a fall of the price, and a sweep. -/
def openAndSweep : Fin 3 → RiskCommand
  | 0 => enter alice .long (contracts 10) (price 100) (dollars 60)
  | 1 => mark (price 90) (rate 0)
  | 2 => .liquidateMarket sol

/-- A sweep with its position removed and not yet settled: four calls of eight. -/
theorem commands_wait_free_sweeping : ∃ trace engine', ∃ threads : Fin 3 → Thread,
    Run (portsMayFail Action.isStoreCall) (.fromParts (dollars 5) standard)
        (fun i => RiskEngine.apply (openAndSweep i)) trace engine' threads ∧
      (callsOf 2 trace).length = 4 ∧ callBound (openAndSweep 2) (callsOf 2 trace) = 8 ∧
      ∃ c engine'' threads',
        Run (portsMayFail Action.isStoreCall) engine' threads [⟨2, c⟩] engine'' threads' := by
  let long := openedPosition alice sol .long .cross (contracts 10) (price 100) tenfold (dollars 60)
  have played : ((play (portsMayFail Action.isStoreCall) Environment.answer
      (turns 0 6 ++ turns 1 3 ++ turns 2 4 ⟨true, [long]⟩) (.fromParts (dollars 5) standard)
      fun i => RiskEngine.apply (openAndSweep i)).any fun out =>
        (callsOf 2 out.1).length = 4 ∧ callBound (openAndSweep 2) (callsOf 2 out.1) = 8 ∧
          (out.2.2 2).result.isNone) = true := by decide +kernel
  obtain ⟨⟨trace, engine', threads⟩, ran, checked⟩ := (Option.any_eq_true _ _).mp played
  obtain ⟨made, bound, unfinished⟩ := of_decide_eq_true checked
  have run := play_run _ _ ran
  obtain ⟨-, goesOn⟩ := (commands_wait_free run 2).2 (Option.isNone_iff_eq_none.mp unfinished)
  exact ⟨trace, engine', threads, run, made, bound, goesOn⟩

end Sweeping
end MarginGuard.Guarantees
