import MarginGuard.Foundation.Contract
import MarginGuard.Source.Engine

/-!
# Contracts of the engine's commands

One rule for each method of `RiskEngine`: which actions must be good for the
method to obey a contract, and what is known when it delivers. An answer the
contract rules out ends the matter, so a condition on what follows a store call
may assume that its answer was sound.
-/
namespace MarginGuard.Source
open Foundation Program

variable {good : Action → Prop} {sound : (action : Action) → Answer action → Prop}

section Calls
variable {α : Type}

theorem delivers_locked {action : Action} (fine : good action) :
    Delivers good sound (sound action) (locked action) := delivers_lift fine

theorem delivers_ask {port : Program Action Answer (Except PortError α)} {post : α → Prop}
    (obeys : port.Obeys good sound fun r => ∀ a, r = .ok a → post a) :
    Delivers good sound post (ask port) := by
  refine obeys.bind fun r delivered => ?_
  cases r with
  | error e => exact delivers_throw (CoreError.port e)
  | ok a => exact delivers_pure (delivered a rfl)

theorem delivers_get {account : String} {symbol : Symbol} (fine : good (.get account symbol)) :
    Delivers good sound (fun held => sound (.get account symbol) (.ok held))
      (Port.get account symbol) :=
  delivers_ask ⟨fine, fun _ trusted _ same => same ▸ trusted⟩

theorem delivers_upsert {pos : Position} (fine : good (.upsert pos)) :
    Delivers good sound (fun done => sound (.upsert pos) (.ok done)) (Port.upsert pos) :=
  delivers_ask ⟨fine, fun _ trusted _ same => same ▸ trusted⟩

theorem delivers_remove {account : String} {symbol : Symbol} (fine : good (.remove account symbol)) :
    Delivers good sound (fun removed => sound (.remove account symbol) (.ok removed))
      (Port.remove account symbol) :=
  delivers_ask ⟨fine, fun _ trusted _ same => same ▸ trusted⟩

theorem delivers_byMarket {symbol : Symbol} (fine : good (.byMarket symbol)) :
    Delivers good sound (fun listing => sound (.byMarket symbol) (.ok listing))
      (Port.byMarket symbol) :=
  delivers_ask ⟨fine, fun _ trusted _ same => same ▸ trusted⟩

theorem delivers_publish {events : List RiskEvent} (fine : good (.publish events)) :
    Delivers good sound (fun done => sound (.publish events) (.ok done)) (Port.publish events) :=
  delivers_ask ⟨fine, fun _ trusted _ same => same ▸ trusted⟩

end Calls

namespace RiskEngine
variable {symbol : Symbol}

/-- Opening goes on only where the key was free. -/
theorem delivers_openPosition {account : AccountId} {side : Side} {marginMode : MarginMode}
    {size : Size} {entryPrice : Price} {leverage : Leverage} {posted : Usd}
    (asks : good (.get account.asStr symbol))
    (rest : sound (.get account.asStr symbol) (.ok none) →
      good (.riskParams symbol) ∧
      good (.upsert ⟨account, symbol, side, marginMode, size, entryPrice, leverage, posted, .ZERO⟩) ∧
      good .countOpened) :
    Delivers good sound (fun _ => sound (.get account.asStr symbol) (.ok none))
      (openPosition account symbol side marginMode size entryPrice leverage posted) := by
  refine (delivers_get asks).bind fun held free => ?_
  cases held with
  | some pos => exact delivers_throw _
  | none =>
    obtain ⟨reads, stores, counts⟩ := rest free
    refine (delivers_locked reads).bind fun params _ => ?_
    dsimp only
    split
    · exact delivers_throw _
    · exact (delivers_upsert stores).bind fun _ _ => (delivers_locked counts).bind fun _ _ =>
        delivers_pure free

theorem delivers_close {account : String} (removes : good (.remove account symbol))
    (prices : good (.markFor symbol)) (counts : good .countClosed) :
    Delivers good sound (fun _ => True) (close account symbol) := by
  refine (delivers_remove removes).bind fun removed _ => ?_
  cases removed with
  | none => exact delivers_throw _
  | some pos =>
    refine (delivers_locked prices).bind fun mark _ => ?_
    cases mark with
    | none => exact delivers_throw _
    | some mark => exact (delivers_locked counts).bind fun _ _ => delivers_pure trivial

theorem delivers_updateMarket {markPrice indexPrice : Price} {fundingRateBps : I64}
    (writes : good (.insertMarket { symbol, markPrice, indexPrice, fundingRateBps })) :
    Delivers good sound (fun _ => True) (updateMarket symbol markPrice indexPrice fundingRateBps) :=
  (delivers_locked writes).bind fun _ _ => delivers_pure trivial

theorem delivers_accrueLoop {mark : Price} {rateBps : I64} {listing : List Position}
    {events : List RiskEvent}
    (each : ∀ pos ∈ listing, ∀ fundingPaid, good (.upsert { pos with fundingPaid })) :
    Delivers good sound (fun _ => True) (accrueLoop symbol mark rateBps listing events) := by
  induction listing generalizing events with
  | nil => exact delivers_pure trivial
  | cons pos listing ih =>
    have own := each pos (List.mem_cons_self ..) (pos.fundingPaid.saturatingAdd
      (fundingPayment pos mark rateBps))
    exact (delivers_upsert own).bind fun _ _ =>
      ih fun other member => each other (List.mem_cons_of_mem _ member)

/-- Funding is settled only where the market was listed. -/
theorem delivers_accrueFunding (reads : good (.fundingTerms symbol)) (lists : good (.byMarket symbol))
    (rest : ∀ listing, sound (.byMarket symbol) (.ok listing) →
      (∀ pos ∈ listing, ∀ fundingPaid, good (.upsert { pos with fundingPaid })) ∧
      ∀ settled, good (.countFunding settled)) :
    Delivers good sound (fun _ => ∃ listing, sound (.byMarket symbol) (.ok listing))
      (accrueFunding symbol) := by
  refine (delivers_locked reads).bind fun terms _ => ?_
  cases terms with
  | none => exact delivers_throw _
  | some terms =>
    refine (delivers_byMarket lists).bind fun listing listed => ?_
    obtain ⟨each, counts⟩ := rest listing listed
    refine (delivers_accrueLoop each).bind fun events _ => ?_
    split
    · exact delivers_pure ⟨listing, listed⟩
    · exact (delivers_locked (counts _)).bind fun _ _ => delivers_pure ⟨listing, listed⟩

theorem delivers_liquidateLoop {mark : Price} {params : RiskParams} {listing : List Position}
    {events : List RiskEvent} {total : Usd} (counts : good .countLiquidated)
    (each : ∀ pos ∈ listing, good (.remove pos.account.asStr symbol) ∧
      ∀ amount, good (.cover pos amount) ∧ good (.credit pos amount)) :
    Delivers good sound (fun _ => True)
      (liquidateLoop symbol mark params listing events total) := by
  induction listing generalizing events total with
  | nil => exact delivers_pure trivial
  | cons pos listing ih =>
    obtain ⟨removes, settles⟩ := each pos (List.mem_cons_self ..)
    have rest : ∀ events total, Delivers good sound (fun _ => True)
        (liquidateLoop symbol mark params listing events total) :=
      fun _ _ => ih fun other member => each other (List.mem_cons_of_mem _ member)
    unfold liquidateLoop
    split
    · exact rest _ _
    · refine (delivers_remove removes).bind fun _ _ => ?_
      dsimp only
      -- the rest of the loop stands behind either branch
      split
      · exact (delivers_locked (settles _).1).bind fun _ _ =>
          (delivers_locked counts).bind fun _ _ => rest _ _
      · exact (delivers_locked (settles _).2).bind fun _ _ =>
          (delivers_locked counts).bind fun _ _ => rest _ _

/-- Positions are liquidated only where the market was listed. -/
theorem delivers_liquidateMarket (reads : good (.sweepTerms symbol)) (lists : good (.byMarket symbol))
    (rest : ∀ listing, sound (.byMarket symbol) (.ok listing) →
      (∀ pos ∈ listing, good (.remove pos.account.asStr symbol) ∧
        ∀ amount, good (.cover pos amount) ∧ good (.credit pos amount)) ∧
      good .countLiquidated ∧ good .countAdl) :
    Delivers good sound (fun _ => ∃ listing, sound (.byMarket symbol) (.ok listing))
      (liquidateMarket symbol) := by
  refine (delivers_locked reads).bind fun terms _ => ?_
  cases terms with
  | none => exact delivers_throw _
  | some terms =>
    refine (delivers_byMarket lists).bind fun listing listed => ?_
    obtain ⟨each, counts, last⟩ := rest listing listed
    refine (delivers_liquidateLoop counts each).bind fun swept _ => ?_
    obtain ⟨events, totalSocialized⟩ := swept
    dsimp only
    split
    · exact delivers_pure ⟨listing, listed⟩
    · exact (delivers_locked last).bind fun _ _ => delivers_pure ⟨listing, listed⟩

/-- A command publishes only what its method has delivered. -/
theorem delivers_apply {command : RiskCommand} {post : CommandOutcome → Prop}
    (asks : good .tryAcquire) (method : Delivers good sound post (dispatch command))
    (publishes : ∀ outcome, post outcome → good (.publish outcome.events)) :
    Delivers good sound post (apply command) := by
  refine (delivers_locked asks).bind fun admitted _ => ?_
  cases admitted with
  | false => exact delivers_throw _
  | true =>
    refine method.bind fun outcome delivered => ?_
    split
    · exact delivers_pure delivered
    · exact (delivers_publish (publishes outcome delivered)).bind fun _ _ => delivers_pure delivered

end RiskEngine
end MarginGuard.Source
