import MarginGuard.Source.Concurrent
import MarginGuard.Source.Script

/-!
# Funding rounds in flight together

A round reads a whole market and then writes each position back. While every
write-back still finds the position the round has listed, a run of rounds moves
each `funding_paid` by exactly the amounts of its `FundingSettled` events
(`funding_settles_all`). A write-back that comes after another round's
overwrites it: both amounts are reported and one is lost
(`interleaved_rounds_lose_settlement`).
-/
namespace MarginGuard.Guarantees
open Foundation Source

variable {ι : Type} [DecidableEq ι]

/-- What an event settles on the position at the key. -/
def settledAmount (key : Key) : RiskEvent → Int
  | .fundingSettled account symbol amount =>
    if (account.asStr, symbol) = key then amount.toInt else 0
  | _ => 0

/-- Everything the finished commands report as settled at the key. -/
def totalSettled [Fintype ι] (key : Key) (threads : ι → Thread) : Int :=
  ∑ i, ((returnedEvents (threads i)).map (settledAmount key)).sum

/-- Every position of the market has moved by what was settled on it. -/
def SettlesAll [Fintype ι] (symbol : Symbol) (engine engine' : RiskEngine) (threads : ι → Thread) :
    Prop :=
  ∀ account pos, engine.held (account, symbol) = some pos → ∃ paid,
    engine'.held (account, symbol) = some { pos with fundingPaid := paid } ∧
      paid.toInt = pos.fundingPaid.toInt + totalSettled (account, symbol) threads

/-- The key a call writes in a market. -/
def writtenIn (symbol : Symbol) (c : EngineCall) : Option Key :=
  (storedKey c).filter fun key => key.2 = symbol

/-- A write-back in the market finds the position its round has listed, and the
payment fits. -/
structure SettlesListed (symbol : Symbol) (engine : RiskEngine) (front : List (EngineAct ι))
    (a : EngineAct ι) : Prop where
  listed : Unchanged (writtenIn symbol) engine front a
  fits : ∀ key ∈ writtenIn symbol a.call, ∀ pos ∈ engine.held key, ∀ state ∈ engine.market symbol,
    Fits 128 (pos.fundingPaid.toInt +
      (fundingPayment pos state.markPrice state.fundingRateBps).toInt)

instance (symbol : Symbol) (engine : RiskEngine) (front : List (EngineAct ι)) (a : EngineAct ι) :
    Decidable (SettlesListed symbol engine front a) :=
  decidable_of_iff (Unchanged (writtenIn symbol) engine front a ∧
      ∀ key ∈ writtenIn symbol a.call, ∀ pos ∈ engine.held key, ∀ state ∈ engine.market symbol,
        Fits 128 (pos.fundingPaid.toInt +
          (fundingPayment pos state.markPrice state.fundingRateBps).toInt))
    ⟨fun ⟨listed, fits⟩ => ⟨listed, fits⟩, fun each => ⟨each.listed, each.fits⟩⟩

/-! ## Payments of a call -/

/-- What a write-back at the key pays, priced at the market's state. -/
def payment (market : Option MarketState) (key : Key) (c : EngineCall) : Int :=
  match c.op, market with
  | .upsert pos, some state =>
    if pos.key = key then (fundingPayment pos state.markPrice state.fundingRateBps).toInt else 0
  | _, _ => 0

theorem payment_of_unstored {market : Option MarketState} {key : Key} {c : EngineCall}
    (unstored : storedKey c ≠ some key) : payment market key c = 0 := by
  obtain ⟨op, ans⟩ := c
  cases op <;> cases market <;> simp_all [payment, storedKey]

/-- Calls that write nothing under the key pay nothing. -/
theorem payments_of_unstored {market : Option MarketState} {key : Key} {body : List EngineCall}
    (unstored : ∀ c ∈ body, storedKey c ≠ some key) : (body.map (payment market key)).sum = 0 := by
  apply List.sum_eq_zero
  intro amount member
  obtain ⟨c, performed, rfl⟩ := List.mem_map.mp member
  exact payment_of_unstored (unstored c performed)

/-- A round's write-backs pay what its events report. -/
theorem payments_of_round (state : MarketState) {symbol : Symbol} {listing : List Position}
    (inMarket : ∀ pos ∈ listing, pos.symbol = symbol) (key : Key) :
    ((listing.map (fundingCall state.markPrice state.fundingRateBps)).map
        (payment (some state) key)).sum =
      ((listing.map (fundingEvent symbol state.markPrice state.fundingRateBps)).map
        (settledAmount key)).sum := by
  rw [List.map_map, List.map_map]
  congr 1
  apply List.map_congr_left
  intro pos member
  obtain rfl := inMarket pos member
  rfl

/-- A command in another market settles nothing at the key. -/
theorem settled_elsewhere {command : RiskCommand} {calls : List EngineCall}
    {r : Except CoreError CommandOutcome} {key : Key} (applied : Applied command calls r)
    (elsewhere : command.symbol ≠ key.2) : ((eventsOf r).map (settledAmount key)).sum = 0 := by
  apply List.sum_eq_zero
  intro amount member
  obtain ⟨e, reported, rfl⟩ := List.mem_map.mp member
  cases applied with
  | rateLimited => simp [eventsOf] at reported
  | admitted body r served =>
    cases served with
    | accrued symbol mark rateBps listing lists =>
      obtain ⟨pos, -, rfl⟩ := List.mem_map.mp reported
      exact if_neg fun same => elsewhere (congrArg Prod.snd same)
    | swept symbol mark params listing settled processed lists =>
      rcases List.mem_append.mp reported with liquidated | adl
      · obtain ⟨s, -, rfl⟩ := List.mem_map.mp liquidated
        rfl
      · rw [mem_adlEvents adl]
        rfl
    | _ => simp_all [eventsOf, settledAmount, openedEvent, closedEvent]

theorem payments_inert (market : Option MarketState) (key : Key) (events : List RiskEvent)
    (listing : List Position) :
    ((publishCalls events).map (payment market key)).sum = 0 ∧
      ((fundingCount listing).map (payment market key)).sum = 0 := by
  constructor <;> apply payments_of_unstored <;> intro c member
  · rw [mem_publishCalls member]
    simp [storedKey]
  · rw [mem_fundingCount member]
    simp [storedKey]

/-- A finished command that is a round of the market or works elsewhere pays at
the key what it reports, if the round read the market as it is. -/
theorem payments_applied {command : RiskCommand} {calls : List EngineCall}
    {r : Except CoreError CommandOutcome} {market : Option MarketState} {key : Key}
    (applied : Applied command calls r)
    (kind : command = .accrueFunding key.2 ∨ command.symbol ≠ key.2)
    (read : ∀ terms, ⟨.fundingTerms key.2, terms⟩ ∈ calls →
      terms = market.map fun state => (state.markPrice, state.fundingRateBps)) :
    (calls.map (payment market key)).sum = ((eventsOf r).map (settledAmount key)).sum := by
  rcases kind with rfl | elsewhere
  · cases applied with
    | rateLimited => simp [payment, eventsOf]
    | admitted body r served =>
      have published := (payments_inert market key (eventsOf r) []).1
      cases served with
      | accrueUnpriced => simp [payment, eventsOf, publishCalls]
      | positionExists opens => cases opens
      | insufficientMargin opens => cases opens
      | opened opens => cases opens
      | accrued _ mark rateBps listing lists =>
        obtain ⟨state, rfl, same⟩ :=
          Option.map_eq_some_iff.mp (read (some (mark, rateBps)) (by simp)).symm
        obtain ⟨rfl, rfl⟩ := Prod.mk.inj same
        have round := payments_of_round state (fun pos member => lists.symbol_eq member) key
        have counted := (payments_inert (some state) key [] listing).2
        simp only [List.map_cons, List.map_append, List.cons_append, List.sum_cons, List.sum_append,
          round, counted, published]
        simp [payment, eventsOf]
  · rw [settled_elsewhere applied elsewhere]
    apply payments_of_unstored
    intro c performed stores
    obtain ⟨front, justified⟩ := applied.justified.mem performed
    obtain ⟨pos, writes, rfl⟩ := storedKey_eq_some.mp stores
    exact elsewhere (justified.write_symbol writes).symm

/-! ## The run -/

section Run
variable {commands : ι → RiskCommand} {symbol : Symbol} {engine engine' : RiskEngine}
  {trace : List (EngineAct ι)} {threads : ι → Thread}

/-- Rounds leave the market's state as it is. -/
theorem market_constant (run : Concurrent commands engine trace engine' threads)
    (kind : ∀ i, commands i = .accrueFunding symbol ∨ (commands i).symbol ≠ symbol) :
    Stepwise (fun front _ =>
      (portsUp.after engine (calls front)).market symbol = engine.market symbol) trace := by
  intro front a back split
  have before : Stepwise
      (fun front a => Justified (commands a.thread) (callsOf a.thread front) a.call) front := by
    have whole := run.justified
    rw [split] at whole
    exact whole.front
  refine Stepwise.induction (I := fun front =>
    (portsUp.after engine (calls front)).market symbol = engine.market symbol) rfl ?_
  intro start b rest parts same
  have justified := before start b rest parts
  rw [after_concat, market_effect]
  obtain ⟨i, op, ans⟩ := b
  cases op
  case insertMarket state =>
    obtain ⟨markPrice, indexPrice, rateBps, update⟩ := justified
    have apart : state.symbol ≠ symbol := by
      rcases kind i with round | elsewhere
      · rw [update] at round
        cases round
      · rwa [update] at elsewhere
    simpa only [if_neg apart] using same
  all_goals exact same

/-- Every round has read the market as it was at the start. -/
theorem terms_read (run : Concurrent commands engine trace engine' threads)
    (kind : ∀ i, commands i = .accrueFunding symbol ∨ (commands i).symbol ≠ symbol) {i : ι}
    {terms : Option (Price × I64)} (read : ⟨.fundingTerms symbol, terms⟩ ∈ callsOf i trace) :
    terms = (engine.market symbol).map fun state => (state.markPrice, state.fundingRateBps) := by
  obtain ⟨front, back, split, allowed⟩ := run.answered read
  rw [← market_constant run kind front _ back split]
  exact allowed

/-- A round of the market, or a command elsewhere, removes nothing in the market. -/
theorem unremoved_of_kind {command : RiskCommand} {front : List EngineCall} {c : EngineCall}
    (kind : command = .accrueFunding symbol ∨ command.symbol ≠ symbol)
    (justified : Justified command front c) (account : String) :
    removedKey c ≠ some (account, symbol) := by
  intro removes
  rcases kind with rfl | elsewhere
  · obtain ⟨owner, -, close⟩ | ⟨_, _, _, sweeps, -⟩ := justified.removal removes
    · cases close
    · cases sweeps.sweep
  · exact elsewhere (justified.removal_symbol removes).symm

/-- The position `pos` is filed with `paid` more funding. -/
def Carries (key : Key) (pos : Position) (paid : Int) (engine : RiskEngine) : Prop :=
  ∃ funded, engine.held key = some { pos with fundingPaid := funded } ∧
    funded.toInt = pos.fundingPaid.toInt + paid

/-- A write-back that finds the listed position adds its payment. -/
theorem carries_write {now : RiskEngine} {front : List (EngineAct ι)} {a : EngineAct ι}
    {pos new : Position} {state : MarketState} {paid : Int} {account : String}
    (allowed : portsUp.answers now a.call.op a.call.ans)
    (funds : ∃ old, Funds (commands a.thread) (callsOf a.thread front) state.markPrice
      state.fundingRateBps old ∧ new = fundedPosition state.markPrice state.fundingRateBps old)
    (writes : a.call.op = .upsert new) (own : new.key = (account, symbol))
    (priced : now.market symbol = some state) (settles : SettlesListed symbol now front a)
    (carries : Carries (account, symbol) pos paid now) :
    Carries (account, symbol) pos (paid + payment (some state) (account, symbol) a.call)
      (portsUp.effect now a.call.op a.call.ans) := by
  obtain ⟨old, funds, rfl⟩ := funds
  obtain ⟨funded, filed, amount⟩ := carries
  obtain ⟨listing, read, listed⟩ := funds.listed
  have same : old.key = (account, symbol) := own
  have touched : writtenIn symbol a.call = some old.key := by
    have stores : storedKey a.call = some old.key := storedKey_eq_some.mpr ⟨_, writes, rfl⟩
    rw [writtenIn, stores, same]
    simp
  have found := settles.listed.listed touched read listed
  have fits := settles.fits old.key touched old found state priced
  rw [same, filed] at found
  obtain rfl := Option.some.inj found
  refine ⟨_, held_of_stores allowed writes own, ?_⟩
  have pays : payment (some state) (account, symbol) a.call =
      (fundingPayment { pos with fundingPaid := funded } state.markPrice
        state.fundingRateBps).toInt := by
    unfold payment
    rw [writes]
    exact if_pos own
  rw [pays, Usd.toInt_saturatingAdd_of_fits fits]
  change funded.toInt + _ = _
  omega

theorem carries_step (run : Concurrent commands engine trace engine' threads)
    (kind : ∀ i, commands i = .accrueFunding symbol ∨ (commands i).symbol ≠ symbol)
    {front back : List (EngineAct ι)} {a : EngineAct ι} (split : trace = front ++ a :: back)
    (settles : SettlesListed symbol (portsUp.after engine (calls front)) front a)
    {account : String} {pos : Position} {paid : Int}
    (carries : Carries (account, symbol) pos paid (portsUp.after engine (calls front))) :
    Carries (account, symbol) pos
      (paid + payment (engine.market symbol) (account, symbol) a.call)
      (portsUp.after engine (calls (front ++ [a]))) := by
  have allowed := run.allowed front a back split
  have justified := run.justified front a back split
  rw [after_concat]
  by_cases stores : storedKey a.call = some (account, symbol)
  · obtain ⟨new, writes, own⟩ := storedKey_eq_some.mp stores
    have market : new.symbol = symbol := congrArg Prod.snd own
    have round : commands a.thread = .accrueFunding symbol := by
      refine (kind a.thread).resolve_right fun elsewhere => elsewhere ?_
      rw [← justified.write_symbol writes, market]
    obtain ⟨opens, -⟩ | ⟨mark, rateBps, old, funds, rfl⟩ := justified.write writes
    · rw [round] at opens
      cases opens
    · obtain rfl : old.symbol = symbol := market
      have read : ⟨.fundingTerms old.symbol, some (mark, rateBps)⟩ ∈ callsOf a.thread trace := by
        rw [split, callsOf_append]
        exact List.mem_append_left _ funds.terms
      obtain ⟨state, priced, same⟩ := Option.map_eq_some_iff.mp (terms_read run kind read).symm
      obtain ⟨rfl, rfl⟩ := Prod.mk.inj same
      rw [priced]
      exact carries_write allowed ⟨old, funds, rfl⟩ writes own
        ((market_constant run kind front a back split).trans priced) settles carries
  · have unremoved := unremoved_of_kind (kind a.thread) justified account
    obtain ⟨funded, filed, amount⟩ := carries
    rw [payment_of_unstored stores, Int.add_zero]
    exact ⟨funded, (held_of_untouched allowed stores unremoved).trans filed, amount⟩

theorem carries_run (run : Concurrent commands engine trace engine' threads)
    (kind : ∀ i, commands i = .accrueFunding symbol ∨ (commands i).symbol ≠ symbol)
    (settles : Throughout portsUp (SettlesListed symbol) engine trace) {account : String}
    {pos : Position} (start : engine.held (account, symbol) = some pos) :
    Carries (account, symbol) pos
      ((calls trace).map (payment (engine.market symbol) (account, symbol))).sum engine' := by
  rw [run.after_eq]
  refine Stepwise.induction (I := fun front => Carries (account, symbol) pos
    ((calls front).map (payment (engine.market symbol) (account, symbol))).sum
    (portsUp.after engine (calls front))) ⟨pos.fundingPaid, start, (Int.add_zero _).symm⟩ ?_
  intro front a back split carries
  rw [sum_calls_concat]
  exact carries_step run kind split (settles front a back split) carries

end Run

/-- In every run in which nothing but funding rounds works on the market and
each write-back finds the position its round has listed, no settlement is lost:
once all have finished, each `funding_paid` has moved by the reported amounts. -/
theorem funding_settles_all [Fintype ι] {commands : ι → RiskCommand} {symbol : Symbol}
    {engine engine' : RiskEngine} {trace : List (EngineAct ι)} {threads : ι → Thread}
    (kind : ∀ i, commands i = .accrueFunding symbol ∨ (commands i).symbol ≠ symbol)
    (run : Concurrent commands engine trace engine' threads)
    (finished : ∀ i, ∃ r, threads i = .done r)
    (settles : Throughout portsUp (SettlesListed symbol) engine trace) :
    SettlesAll symbol engine engine' threads := by
  intro account pos start
  obtain ⟨paid, filed, amount⟩ := carries_run run kind settles start
  refine ⟨paid, filed, ?_⟩
  rw [amount, sum_calls_by_thread, totalSettled]
  congr 1
  apply Finset.sum_congr rfl
  intro i _
  obtain ⟨r, done⟩ := finished i
  rw [done, returnedEvents_done]
  exact payments_applied (run.applied done) (kind i) fun terms read => terms_read run kind read

open Sample in
/-- Two funding rounds on `sol`. -/
def twoRounds : Bool → RiskCommand := fun _ => .accrueFunding sol

open Sample in
/-- The position both rounds settle: a long of ten contracts. -/
def longOfTen : Position :=
  openedPosition bob sol .long .cross (contracts 10) (price 100) tenfold (dollars 110)

open Sample in
/-- One position in a market with a funding rate of ten basis points. -/
def fundedMarket : List (Environment × RiskCommand) :=
  [({}, enter bob .long (contracts 10) (price 100) (dollars 110)), ({}, mark (price 100) (rate 10))]

open Sample in
/-- The second round lists what the first has written back. -/
theorem funding_settles_all_in_turn : ∃ engine trace engine' threads,
    Reachable (dollars 5) standard engine ∧ Concurrent twoRounds engine trace engine' threads ∧
      totalSettled (bob.asStr, sol) threads = 2000000 ∧ SettlesAll sol engine engine' threads := by
  obtain ⟨engine, trace, engine', threads, reachable, run, finished, total, settles⟩ :=
    exists_run_after_script (dollars 5) standard fundedMarket twoRounds
      (turns false 6 ⟨true, [longOfTen]⟩ ++
        turns true 6 ⟨true, [fundedPosition (price 100) (rate 10) longOfTen]⟩)
      (fun engine trace _ threads => (∀ i, (threads i).result.isSome) ∧
        totalSettled (bob.asStr, sol) threads = 2000000 ∧
        Throughout portsUp (SettlesListed sol) engine trace) (by decide)
  simp only [Option.isSome_iff_exists, Program.result_eq_some] at finished
  exact ⟨engine, trace, engine', threads, reachable, run, total,
    funding_settles_all (fun _ => Or.inl rfl) run finished settles⟩

open Sample in
/-- Both rounds list the position before either writes it back: both report a
payment of one dollar and the position has paid one. -/
theorem interleaved_rounds_lose_settlement : ∃ engine trace engine' threads,
    Reachable (dollars 5) standard engine ∧ Concurrent twoRounds engine trace engine' threads ∧
      (∀ i, ∃ r, threads i = .done r) ∧ ¬ SettlesAll sol engine engine' threads := by
  obtain ⟨engine, trace, engine', threads, reachable, run, finished, start, total, ended⟩ :=
    exists_run_after_script (dollars 5) standard fundedMarket twoRounds
      (turns false 3 ⟨true, [longOfTen]⟩ ++ turns true 3 ⟨true, [longOfTen]⟩ ++ turns false 3 ++
        turns true 3)
      (fun engine _ engine' threads => (∀ i, (threads i).result.isSome) ∧
        engine.held (bob.asStr, sol) = some longOfTen ∧
        totalSettled (bob.asStr, sol) threads = 2000000 ∧
        engine'.held (bob.asStr, sol) =
          some (fundedPosition (price 100) (rate 10) longOfTen)) (by decide)
  simp only [Option.isSome_iff_exists, Program.result_eq_some] at finished
  refine ⟨engine, trace, engine', threads, reachable, run, finished, fun settles => ?_⟩
  obtain ⟨paid, filed, amount⟩ := settles _ _ start
  rw [ended] at filed
  obtain rfl := congrArg Position.fundingPaid (Option.some.inj filed)
  rw [total] at amount
  exact absurd amount (by decide)

end MarginGuard.Guarantees
