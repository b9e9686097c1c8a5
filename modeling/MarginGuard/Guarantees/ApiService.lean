import MarginGuard.Guarantees.WireFormat
import MarginGuard.Source.Api
import MarginGuard.Source.Script

/-!
# Requests served together

In every interleaving of queries and mutations the engine does what it would do
with the accepted mutations' commands alone, and a mutation hands out what its
command returned (`api_refines_engine`). What a query hands out is what the engine
shows at the moments of its calls, one after the other (`queries_read_engine`):
several moments where it needs several calls, so that other requests may come
between them.
-/
namespace MarginGuard.Guarantees
open Foundation Source

/-! ## Mutations are commands -/

/-- How the result of a command is handed out. -/
def presented {F : Type} (wire : Boundary F) (result : Except CoreError CommandOutcome) :
    Except String (Response F) :=
  (result.mapError CoreError.toString).map fun outcome => .outcome (.of wire.serialize outcome)

/-- A method whose value is only handed out. -/
theorem method_map {α β : Type} (code : EngineM α) (f : α → β) :
    (method code >>= fun a => pure (f a) : ApiM β) =
      (Program.embed code).present fun r => (r.mapError CoreError.toString).map f := by
  change Program.bind (Program.present (Program.embed code) _) _ = _
  unfold Program.present
  induction (code : Program Action Answer (Except CoreError α)) with
  | done r => cases r <;> rfl
  | step op next ih => exact congrArg (Program.step (Sum.inl op)) (funext ih)

theorem mutate_ok {F : Type} (wire : Boundary F) (command : RiskCommand) :
    mutate wire (.ok command) =
      (Program.embed (RiskEngine.apply command)).present (presented wire) :=
  method_map (RiskEngine.apply command) fun outcome => Response.outcome (.of wire.serialize outcome)

/-! ## Queries change nothing -/

/-- The actions that only read. -/
def reading : Action → Prop
  | .get _ _ => True
  | .byMarket _ => True
  | .riskParams _ => True
  | .markFor _ => True
  | _ => False

section Observing
variable {ports : Machine RiskEngine Action Answer}

/-- Code that changes nothing. -/
abbrev ReadOnly (ports : Machine RiskEngine Action Answer) {α : Type} (code : ApiM α) : Prop :=
  Program.Delivers (Still ports) (fun _ _ => True) (fun _ => True) code

theorem ReadOnly.bind {α β : Type} {code : ApiM α} {next : α → ApiM β} (first : ReadOnly ports code)
    (second : ∀ a, ReadOnly ports (next a)) : ReadOnly ports (code >>= next) :=
  Program.Delivers.bind first fun a _ => second a

theorem readOnly_pure {α : Type} (a : α) : ReadOnly ports (pure a) := Program.delivers_pure trivial

theorem readOnly_throw {α : Type} (e : String) : ReadOnly ports (throw e : ApiM α) :=
  Program.delivers_throw e

theorem readOnly_check {α : Type} (x : Except InvalidInput α) : ReadOnly ports (check x) := by
  cases x with
  | ok a => exact readOnly_pure a
  | error e => exact readOnly_throw e.toString

theorem readOnly_look (l : Look) : ReadOnly ports (look l) := ⟨trivial, fun _ _ _ _ => trivial⟩

theorem reading_still (faithful : ports.effect = RiskEngine.perform) {action : Action}
    (reads : reading action) : Still ports (.inl action : Action ⊕ Look) := by
  intro engine ans
  rw [faithful]
  cases action <;> first | rfl | cases reads

theorem readOnly_method {α : Type} (faithful : ports.effect = RiskEngine.perform) {code : EngineM α}
    (reads : Program.Obeys reading (fun _ _ => True) (fun _ => True)
      (code : Program Action Answer (Except CoreError α))) : ReadOnly ports (method code) := by
  change Program.Obeys _ _ _ (Program.present (Program.embed code) _)
  induction (code : Program Action Answer (Except CoreError α)) with
  | done r => exact fun _ _ => trivial
  | step op next ih =>
    exact ⟨reading_still faithful reads.1, fun ans trusted => ih ans (reads.2 ans trusted)⟩

theorem readOnly_position (faithful : ports.effect = RiskEngine.perform) (account : String)
    (symbol : Symbol) : ReadOnly ports (method (RiskEngine.position account symbol)) := by
  refine readOnly_method faithful ⟨trivial, fun ans _ => ?_⟩
  cases ans <;> trivial

theorem readOnly_positionsIn (faithful : ports.effect = RiskEngine.perform) (symbol : Symbol) :
    ReadOnly ports (method (RiskEngine.positionsIn symbol)) := by
  refine readOnly_method faithful ⟨trivial, fun ans _ => ?_⟩
  cases ans <;> trivial

theorem readOnly_accountHealth (faithful : ports.effect = RiskEngine.perform) (account : String)
    (symbol : Symbol) : ReadOnly ports (method (RiskEngine.accountHealth account symbol)) := by
  refine readOnly_method faithful ⟨trivial, fun ans _ => ?_⟩
  rcases ans with e | pos
  · trivial
  · cases pos with
    | none => trivial
    | some pos =>
      refine ⟨trivial, fun mark _ => ?_⟩
      cases mark with
      | none => trivial
      | some mark => exact ⟨trivial, fun _ _ => trivial⟩

theorem readOnly_resolve {F : Type} (wire : Boundary F)
    (faithful : ports.effect = RiskEngine.perform) (query : Query) :
    ReadOnly ports (query.resolve wire) := by
  cases query with
  | position account symbol =>
    refine (readOnly_check _).bind fun sym => ?_
    exact (readOnly_position faithful account sym).bind fun _ => readOnly_pure _
  | positions symbol =>
    refine (readOnly_check _).bind fun sym => ?_
    exact (readOnly_positionsIn faithful sym).bind fun _ => readOnly_pure _
  | accountHealth account symbol =>
    refine (readOnly_check _).bind fun sym => ?_
    exact (readOnly_accountHealth faithful account sym).bind fun _ => readOnly_pure _
  | marketState symbol =>
    refine (readOnly_check _).bind fun sym => ?_
    exact (readOnly_look (.market sym)).bind fun _ => readOnly_pure _
  | insuranceFund => exact (readOnly_look .insuranceBalance).bind fun _ => readOnly_pure _
  | riskStats => exact (readOnly_look .stats).bind fun _ => readOnly_pure _
  | riskAdvice account symbol =>
    refine (readOnly_check _).bind fun sym => ?_
    refine (readOnly_position faithful account sym).bind fun pos => ?_
    cases pos with
    | none => exact readOnly_throw _
    | some pos =>
      refine (readOnly_accountHealth faithful account sym).bind fun health => ?_
      refine (readOnly_look (.market sym)).bind fun market => ?_
      cases market with
      | none => exact readOnly_throw _
      | some market => exact (readOnly_look (.assess _)).bind fun _ => readOnly_pure _

end Observing

/-! ## The engine behind the interface -/

section Served
variable {F ι : Type} {wire : Boundary F} {requests : ι → Request F}

/-- The requests that pass on a command. -/
def Accepted (wire : Boundary F) (requests : ι → Request F) (i : ι) : Prop :=
  ((requests i).command wire).isSome

instance : DecidablePred (Accepted wire requests) := fun _ => inferInstanceAs (Decidable (_ = _))

/-- Their commands. -/
def commandOf (wire : Boundary F) (requests : ι → Request F)
    (i : {i // Accepted wire requests i}) : RiskCommand :=
  ((requests i).command wire).get i.2

/-- An accepted request is served by applying its command. -/
theorem serve_of_command {request : Request F} {command : RiskCommand}
    (passes : request.command wire = some command) :
    request.serve wire = (Program.embed (RiskEngine.apply command)).present (presented wire) := by
  cases request with
  | query asked => cases passes
  | mutation given =>
    unfold Request.command at passes
    unfold Request.serve
    dsimp only at passes ⊢
    cases put : given.command wire with
    | error e =>
      rw [put] at passes
      cases passes
    | ok command' =>
      rw [put] at passes
      obtain rfl := Option.some.inj passes
      exact mutate_ok wire command'

/-- Any other request changes nothing. -/
theorem observes_of_none {ports : Machine RiskEngine Action Answer}
    (faithful : ports.effect = RiskEngine.perform) {request : Request F}
    (idle : request.command wire = none) : Observes ports (request.serve wire) := by
  refine Program.Obeys.weaken (?_ : ReadOnly ports (request.serve wire)) fun _ _ => trivial
  cases request with
  | query asked => exact readOnly_resolve wire faithful asked
  | mutation given =>
    unfold Request.command at idle
    unfold Request.serve
    dsimp only at idle ⊢
    cases put : given.command wire with
    | error e => exact readOnly_throw e
    | ok command =>
      rw [put] at idle
      cases idle

theorem works (i : {i // Accepted wire requests i}) : (requests i).serve wire =
    (Program.embed (RiskEngine.apply (commandOf wire requests i))).present (presented wire) :=
  serve_of_command (Option.some_get i.2).symm

theorem observes {ports : Machine RiskEngine Action Answer}
    (faithful : ports.effect = RiskEngine.perform) (i : ι)
    (idle : ¬ Accepted wire requests i) : Observes ports ((requests i).serve wire) :=
  observes_of_none faithful (Option.not_isSome_iff_eq_none.mp idle)

variable [DecidableEq ι]

/-- The engine's part in a run of requests. -/
def engineTrace (wire : Boundary F) (requests : ι → Request F) (trace : List (ApiAct ι)) :
    List (EngineAct {i // Accepted wire requests i}) :=
  trace.filterMap (Act.unobserved (Accepted wire requests))

/-- Whatever requests are in flight and however their calls are interleaved, the
engine runs the accepted mutations' commands and nothing else: a mutation ends
with what its command returned, one whose input is refused ends with the reason
and has called nothing, and queries leave no trace. -/
theorem api_refines_engine {ports : Machine RiskEngine Action Answer}
    {advisor : AdviceContext → RiskAdvice → Prop} {engine engine' : RiskEngine}
    {trace : List (ApiAct ι)} {threads : ι → ApiThread F}
    (faithful : ports.effect = RiskEngine.perform)
    (run : Run (apiPorts ports advisor) engine (fun i => (requests i).serve wire) trace engine'
      threads) :
    ∃ commands : {i // Accepted wire requests i} → Thread,
      Run ports engine (fun i => RiskEngine.apply (commandOf wire requests i))
        (engineTrace wire requests trace) engine' commands ∧
      (∀ i : {i // Accepted wire requests i}, ∀ r, threads i = .done r ↔
        ∃ result, commands i = .done result ∧ presented wire result = r) ∧
      ∀ i given e, requests i = .mutation given → given.command wire = .error e →
        threads i = .done (.error e) ∧ callsOf i trace = [] := by
  obtain ⟨commands, alone, presents⟩ := run.unobserved works (observes faithful)
  refine ⟨commands, alone, fun i r => ?_, fun i given e mutation refused => ?_⟩
  · rw [presents i, Program.present_eq_done]
    simp only [Program.embed_eq_done]
  · have path := run.leads i
    have ended : (requests i).serve wire = .done (.error e) := by
      rw [mutation, Request.serve, refused]
      rfl
    rw [ended] at path
    generalize threads i = left at path
    generalize callsOf i trace = calls at path
    cases path
    exact ⟨rfl, rfl⟩

/-! ## What queries hand out -/

/-- A query about a market, by name; a name that is none is refused. -/
def Named {F : Type} (symbol : String) (r : Except String (Response F)) (shows : Symbol → Prop) : Prop :=
  match Symbol.new symbol with
  | .error e => r = .error e.toString
  | .ok sym => shows sym

/-- The health of a position that is held at one moment, at the mark of another and
with the tier of a third. -/
def healthAt (account : String) (symbol : Symbol) (holding quoting rating : RiskEngine) :
    Except String AccountHealth :=
  match holding.store.get account symbol with
  | none => .error "position not found"
  | some pos =>
    match quoting.market symbol with
    | none => .error "market not found"
    | some state => .ok (accountHealth pos state.markPrice (rating.riskParams symbol))

/-- What a query hands out, `now` being the engine at its successive calls. -/
def Displays {F : Type} (wire : Boundary F) (advisor : AdviceContext → RiskAdvice → Prop)
    (now : Nat → RiskEngine) : Query → Except String (Response F) → Prop
  | .position account symbol, r => Named symbol r fun sym =>
    r = .ok (.position (((now 0).store.get account sym).map (PositionDto.of wire)))
  | .positions symbol, r => Named symbol r fun sym =>
    ∃ listing, (now 0).store.Lists sym listing ∧
      r = .ok (.positions (listing.map (PositionDto.of wire)))
  | .accountHealth account symbol, r => Named symbol r fun sym =>
    r = (healthAt account sym (now 0) (now 1) (now 2)).map fun health =>
      .accountHealth (.of wire health)
  | .marketState symbol, r => Named symbol r fun sym =>
    r = .ok (.marketState (((now 0).market sym).map (MarketStateDto.of wire)))
  | .insuranceFund, r => r = .ok (.insuranceFund ⟨.of wire (now 0).insuranceBalance⟩)
  | .riskStats, r => r = .ok (.riskStats (.of (now 0).stats))
  | .riskAdvice account symbol, r => Named symbol r fun sym =>
    match (now 0).store.get account sym with
    | none => r = .error "position not found"
    | some pos =>
      match healthAt account sym (now 1) (now 2) (now 3) with
      | .error e => r = .error e
      | .ok health =>
        match (now 4).market sym with
        | none => r = .error "market not found"
        | some market => ∃ advice, advisor (.fromParts pos health market) advice ∧
          r = .ok (.riskAdvice (.of advice))

section Shown
variable {F : Type} {wire : Boundary F} {advisor : AdviceContext → RiskAdvice → Prop}
  {now : Nat → RiskEngine}

/-- The health read at three moments. -/
theorem health_of_answeredAt {β : Type} {account : String} {symbol : Symbol} {k : Nat}
    {next : AccountHealth → ApiM β} {r : Except String β}
    (answered : Program.AnsweredAt (apiPorts portsUp advisor) now
      (method (RiskEngine.accountHealth account symbol) >>= next : ApiM β) k r) :
    match healthAt account symbol (now k) (now (k + 1)) (now (k + 2)) with
    | .error e => r = .error e
    | .ok health =>
      Program.AnsweredAt (apiPorts portsUp advisor) now (next health : ApiM β) (k + 3) r := by
  obtain ⟨held, here, answered⟩ := answered
  obtain rfl : held = .ok ((now k).store.get account symbol) := here
  unfold healthAt
  cases found : (now k).store.get account symbol with
  | none =>
    rw [found] at answered
    exact answered
  | some pos =>
    rw [found] at answered
    obtain ⟨mark, quoted, answered⟩ := answered
    obtain rfl : mark = ((now (k + 1)).market symbol).map (·.markPrice) := quoted
    cases priced : (now (k + 1)).market symbol with
    | none =>
      rw [priced] at answered
      exact answered
    | some state =>
      rw [priced] at answered
      obtain ⟨params, rated, answered⟩ := answered
      obtain rfl : params = (now (k + 2)).riskParams symbol := rated
      exact answered

/-- A query about a market starts by checking its name. -/
theorem named_of_answeredAt {symbol : String} {next : Symbol → ApiM (Response F)}
    {r : Except String (Response F)} {shows : Symbol → Prop}
    (answered : Program.AnsweredAt (apiPorts portsUp advisor) now
      (check (Symbol.new symbol) >>= next : ApiM (Response F)) 0 r)
    (later : ∀ sym,
      Program.AnsweredAt (apiPorts portsUp advisor) now (next sym : ApiM (Response F)) 0 r →
      shows sym) : Named symbol r shows := by
  unfold Named
  cases named : Symbol.new symbol with
  | error e =>
    rw [named] at answered
    exact answered
  | ok sym =>
    rw [named] at answered
    exact later sym answered

/-- A query answered at its moments hands out what they show. -/
theorem displays_of_answeredAt {query : Query} {r : Except String (Response F)}
    (answered : Program.AnsweredAt (apiPorts portsUp advisor) now (query.resolve wire) 0 r) :
    Displays wire advisor now query r := by
  cases query with
  | position account symbol =>
    refine named_of_answeredAt answered fun sym answered => ?_
    obtain ⟨ans, rfl, same⟩ := answered
    exact same
  | positions symbol =>
    refine named_of_answeredAt answered fun sym answered => ?_
    obtain ⟨ans, lists, same⟩ := answered
    cases ans with
    | error e => cases lists
    | ok listing => exact ⟨listing, lists, same⟩
  | accountHealth account symbol =>
    refine named_of_answeredAt answered fun sym answered => ?_
    have health := health_of_answeredAt answered
    revert health
    generalize healthAt account sym (now 0) (now 1) (now 2) = shown
    cases shown with
    | error e => exact id
    | ok health => exact id
  | marketState symbol =>
    refine named_of_answeredAt answered fun sym answered => ?_
    obtain ⟨ans, rfl, same⟩ := answered
    exact same
  | insuranceFund =>
    obtain ⟨ans, rfl, same⟩ := answered
    exact same
  | riskStats =>
    obtain ⟨ans, rfl, same⟩ := answered
    exact same
  | riskAdvice account symbol =>
    refine named_of_answeredAt answered fun sym answered => ?_
    obtain ⟨ans, rfl, answered⟩ := answered
    cases found : (now 0).store.get account sym with
    | none =>
      rw [found] at answered
      exact answered
    | some pos =>
      rw [found] at answered
      have health := health_of_answeredAt answered
      dsimp only
      revert health
      generalize healthAt account sym (now 1) (now 2) (now 3) = shown
      cases shown with
      | error e => exact id
      | ok health =>
        rintro ⟨state, rfl, answered⟩
        cases known : (now 4).market sym with
        | none =>
          rw [known] at answered
          exact answered
        | some market =>
          rw [known] at answered
          exact answered

end Shown

/-- What a query hands out is what the engine shows at the successive moments of
its calls, in a run of the accepted mutations' commands that knows nothing of the
query. -/
theorem queries_read_engine {advisor : AdviceContext → RiskAdvice → Prop}
    {engine engine' : RiskEngine} {trace : List (ApiAct ι)} {threads : ι → ApiThread F}
    (run : Run (apiPorts portsUp advisor) engine (fun i => (requests i).serve wire) trace engine'
      threads) :
    ∃ commands : {i // Accepted wire requests i} → Thread,
      Concurrent (commandOf wire requests) engine (engineTrace wire requests trace) engine'
        commands ∧
      ∀ i query r, requests i = .query query → threads i = .done r →
        ∃ moment : Nat → List (EngineAct {i // Accepted wire requests i}),
          (∀ k, moment k <+: moment (k + 1)) ∧
          (∀ k, moment k <+: engineTrace wire requests trace) ∧
          Displays wire advisor (fun k => portsUp.after engine (calls (moment k))) query r := by
  obtain ⟨commands, alone, -⟩ := run.unobserved works (observes rfl)
  refine ⟨commands, alone, fun i query r asked finished => ?_⟩
  obtain ⟨moment, ordered, early, answered⟩ := run.answeredAt finished
  refine ⟨fun k => (moment k).filterMap (Act.unobserved (Accepted wire requests)),
    fun k => (ordered k).filterMap _, fun k => (early k).filterMap _, ?_⟩
  have same (k : Nat) := run.after_unobserved (early k) works (observes rfl)
  rw [asked] at answered
  simp only [← same]
  exact displays_of_answeredAt answered

end Served

/-! ## An afternoon of requests -/

/-- The heuristic advisor. -/
def heuristic (ctx : AdviceContext) (advice : RiskAdvice) : Prop :=
  advice = HeuristicAdvisor.score ctx

instance (ctx : AdviceContext) (advice : RiskAdvice) : Decidable (heuristic ctx advice) :=
  inferInstanceAs (Decidable (_ = _))

/-- The answers of an engine with this advisor, under an environment. -/
def heuristicAnswer (env : Environment) (engine : RiskEngine) :
    (op : Action ⊕ Look) → Observed Answer Sight op
  | .inl action => env.answer engine action
  | .inr (.market symbol) => engine.market symbol
  | .inr .insuranceBalance => engine.insuranceBalance
  | .inr .stats => engine.stats
  | .inr (.assess ctx) => HeuristicAdvisor.score ctx

/-- Amounts as fractions, rounded to the nearest micro-unit, halves away from zero. -/
def inMicros (whole : Rat) : I128 :=
  .clamp (if 0 ≤ whole then (whole * SCALE + 1 / 2).floor else -(-whole * SCALE + 1 / 2).floor)

/-- The interface with amounts as fractions. -/
def fractions : Boundary Rat := ⟨inMicros, fun micros => micros / SCALE, compact⟩

def requoting (dollars : Rat) : Request Rat :=
  .mutation (.updateMarket "SOL-PERP" dollars dollars .zero)

def entering (leverage : Int) : Request Rat :=
  .mutation (.openPosition {
    account := "alice"
    symbol := "SOL-PERP"
    side := .long
    marginMode := .cross
    size := 10
    entryPrice := 100
    leverage := .clamp leverage
    margin := 60 })

/-- A quote, an opening, advice on the position, a fall of the price, and an
opening with a negative leverage. -/
def afternoon : Fin 5 → Request Rat
  | 0 => requoting 100
  | 1 => entering 10
  | 2 => .query (.riskAdvice "alice" "SOL-PERP")
  | 3 => requoting 93
  | 4 => entering (-1)

open Sample in
/-- The price falls while the advice is put together. -/
theorem exists_afternoon : ∃ trace engine' threads,
    Run (apiPorts portsUp heuristic) (.fromParts (dollars 5) standard)
        (fun i => (afternoon i).serve fractions) trace engine' threads ∧
      ((threads 2).result.isSome ∧ (threads 3).result.isSome) ∧ engine'.stats.openPositions = 1 := by
  have played : ((play (apiPorts portsUp heuristic) heuristicAnswer
      (turns 0 3 ++ turns 1 6 ++ turns 2 4 ++ turns 3 3 ++ turns 2 2)
      (.fromParts (dollars 5) standard) fun i => (afternoon i).serve fractions).any fun out =>
        ((out.2.2 2).result.isSome ∧ (out.2.2 3).result.isSome) ∧
          out.2.1.stats.openPositions = 1) = true := by decide +kernel
  obtain ⟨⟨trace, engine', threads⟩, ran, checked⟩ := (Option.any_eq_true _ _).mp played
  exact ⟨trace, engine', threads, play_run _ _ ran, of_decide_eq_true checked⟩

open Sample in
/-- The engine's part of the afternoon; the negative leverage never reaches it. -/
theorem api_refines_engine_afternoon : ∃ trace engine' commands, ∃ threads : Fin 5 → ApiThread Rat,
    Concurrent (commandOf fractions afternoon) (.fromParts (dollars 5) standard)
        (engineTrace fractions afternoon trace) engine' commands ∧
      engine'.stats.openPositions = 1 ∧
      threads 4 = .done (.error "leverage out of range") ∧ callsOf 4 trace = [] := by
  obtain ⟨trace, engine', threads, run, -, opened⟩ := exists_afternoon
  obtain ⟨commands, alone, -, refused⟩ := api_refines_engine rfl run
  exact ⟨trace, engine', commands, threads, alone, opened, refused 4 _ _ rfl rfl⟩

open Sample in
/-- The advice of the afternoon. -/
theorem queries_read_engine_afternoon : ∃ trace engine' commands r,
    Concurrent (commandOf fractions afternoon) (.fromParts (dollars 5) standard)
        (engineTrace fractions afternoon trace) engine' commands ∧
      ∃ moment : Nat → List (EngineAct {i // Accepted fractions afternoon i}),
        (∀ k, moment k <+: moment (k + 1)) ∧
        (∀ k, moment k <+: engineTrace fractions afternoon trace) ∧
        Displays fractions heuristic (fun k => portsUp.after (.fromParts (dollars 5) standard) (calls (moment k)))
          (.riskAdvice "alice" "SOL-PERP") r := by
  obtain ⟨trace, engine', threads, run, ⟨advised, -⟩, -⟩ := exists_afternoon
  obtain ⟨r, finished⟩ := Option.isSome_iff_exists.mp advised
  obtain ⟨commands, alone, shown⟩ := queries_read_engine run
  exact ⟨trace, engine', commands, r, alone,
    shown 2 _ r rfl (Program.result_eq_some.mp finished)⟩

end MarginGuard.Guarantees
