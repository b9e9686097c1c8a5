import MarginGuard.Source.Concurrent

/-!
# Scripts: computed histories

A script is a list of commands with what the environment decides during each.
`runScript` computes it from a fresh engine and checks, at every command, a
decidable condition and the environment's listing; what it computes is a
`History`. Concrete states in examples are obtained this way only, so each of
them is one the engine can reach. A schedule says in which order commands in
flight make their calls; what it plays is a `Concurrent` run.
-/
namespace MarginGuard.Source
open Foundation

section Scripts
variable (seed : Usd) (config : EngineConfig) (admissible : RiskEngine → RiskCommand → Prop)
  [∀ engine command, Decidable (admissible engine command)]

/-- One command of a script. -/
def scriptStep (state : List Entry × RiskEngine) (step : Environment × RiskCommand) :
    Option (List Entry × RiskEngine) :=
  if admissible state.2 step.2 then
    (execute step.1 state.2 step.2).map fun ran => (state.1 ++ [⟨step.2, ran.1⟩], ran.2)
  else none

/-- Run a script from a fresh engine; `none` when a check fails. -/
def runScript (script : List (Environment × RiskCommand)) : Option (List Entry × RiskEngine) :=
  script.foldlM (scriptStep admissible) ([], .fromParts seed config)

variable {seed config admissible}

theorem foldlM_history {script : List (Environment × RiskCommand)}
    {state : List Entry × RiskEngine} {entries : List Entry} {engine : RiskEngine}
    (before : History seed config admissible state.1 state.2)
    (ran : script.foldlM (scriptStep admissible) state = some (entries, engine)) :
    History seed config admissible entries engine := by
  induction script generalizing state with
  | nil =>
    obtain rfl : state = (entries, engine) := by simpa using ran
    exact before
  | cons step script ih =>
    rw [List.foldlM_cons] at ran
    obtain ⟨next, stepped, rest⟩ := Option.bind_eq_some_iff.mp ran
    refine ih ?_ rest
    unfold scriptStep at stepped
    split at stepped
    · next admitted =>
      obtain ⟨⟨result, engine'⟩, executed, rfl⟩ := Option.map_eq_some_iff.mp stepped
      exact before.apply admitted (execute_executes executed)
    · cases stepped

/-- What a script computes is a history. -/
theorem runScript_history {script : List (Environment × RiskCommand)} {entries : List Entry}
    {engine : RiskEngine} (ran : runScript seed config admissible script = some (entries, engine)) :
    History seed config admissible entries engine := foldlM_history .fresh ran

theorem foldlM_commands {script : List (Environment × RiskCommand)}
    {state state' : List Entry × RiskEngine}
    (ran : script.foldlM (scriptStep admissible) state = some state') :
    state'.1.map Entry.command = state.1.map Entry.command ++ script.map Prod.snd := by
  induction script generalizing state with
  | nil =>
    obtain rfl : state = state' := by simpa using ran
    simp
  | cons step script ih =>
    rw [List.foldlM_cons] at ran
    obtain ⟨next, stepped, rest⟩ := Option.bind_eq_some_iff.mp ran
    rw [ih rest]
    unfold scriptStep at stepped
    split at stepped
    · obtain ⟨ran, -, rfl⟩ := Option.map_eq_some_iff.mp stepped
      simp
    · cases stepped

/-- A script whose outcome passes a check gives a history that does. -/
theorem exists_history_of_script (seed : Usd) (config : EngineConfig)
    (admissible : RiskEngine → RiskCommand → Prop)
    [∀ engine command, Decidable (admissible engine command)]
    (script : List (Environment × RiskCommand))
    (check : List Entry → RiskEngine → Bool)
    (passed : (runScript seed config admissible script).any (fun state => check state.1 state.2) =
      true) :
    ∃ entries engine, History seed config admissible entries engine ∧
      check entries engine = true := by
  obtain ⟨⟨entries, engine⟩, ran, checked⟩ := (Option.any_eq_true _ _).mp passed
  exact ⟨entries, engine, runScript_history ran, checked⟩

/-- A computed application that passes a check. -/
theorem executes_of_any {env : Environment} {engine : RiskEngine} {command : RiskCommand}
    {p : Except CoreError CommandOutcome × RiskEngine → Bool}
    (passed : (execute env engine command).any p = true) :
    ∃ ran, Executes engine command ran.1 ran.2 ∧ p ran = true := by
  obtain ⟨ran, executed, checked⟩ := (Option.any_eq_true _ _).mp passed
  exact ⟨ran, execute_executes executed, checked⟩

/-- A command after a script, with an outcome that passes a check. -/
theorem exists_executes_after_script (seed : Usd) (config : EngineConfig)
    (script : List (Environment × RiskCommand)) (env : Environment) (command : RiskCommand)
    (check : RiskEngine → Except CoreError CommandOutcome → RiskEngine → Prop)
    [∀ engine result engine', Decidable (check engine result engine')]
    (passed : (runScript seed config (fun _ _ => True) script).any (fun state =>
      (execute env state.2 command).any fun ran => check state.2 ran.1 ran.2) = true) :
    ∃ engine result engine', Reachable seed config engine ∧
      Executes engine command result engine' ∧ check engine result engine' := by
  obtain ⟨⟨entries, engine⟩, ran, started⟩ := (Option.any_eq_true _ _).mp passed
  obtain ⟨⟨result, engine'⟩, executed, checked⟩ := (Option.any_eq_true _ _).mp started
  exact ⟨engine, result, engine', ⟨entries, runScript_history ran⟩, execute_executes executed,
    of_decide_eq_true checked⟩

end Scripts

/-- A condition on commands may be forgotten. -/
theorem History.weaken {seed : Usd} {config : EngineConfig}
    {admissible weaker : RiskEngine → RiskCommand → Prop} {entries : List Entry}
    {engine : RiskEngine} (run : History seed config admissible entries engine)
    (implied : ∀ engine command, admissible engine command → weaker engine command) :
    History seed config weaker entries engine := by
  induction run with
  | fresh => exact .fresh
  | apply before admitted ran ih => exact ih.apply (implied _ _ admitted) ran

theorem History.reachable {seed : Usd} {config : EngineConfig}
    {admissible : RiskEngine → RiskCommand → Prop} {entries : List Entry} {engine : RiskEngine}
    (run : History seed config admissible entries engine) : Reachable seed config engine :=
  ⟨entries, run.weaken fun _ _ _ => trivial⟩

/-- A thread makes its next calls, all under one environment. -/
def turns {ι : Type} (i : ι) (steps : Nat) (env : Environment := {}) : List (ι × Environment) :=
  List.replicate steps (i, env)

section Schedules
variable {ι : Type} [DecidableEq ι]

/-- A schedule whose outcome passes a check gives an interleaving that does. -/
theorem exists_run_of_schedule (engine : RiskEngine) (commands : ι → RiskCommand)
    (schedule : List (ι × Environment))
    (check : List (EngineAct ι) → RiskEngine → (ι → Thread) → Prop)
    [∀ trace engine' threads, Decidable (check trace engine' threads)]
    (passed : (play portsUp Environment.answer schedule engine
      fun i => RiskEngine.apply (commands i)).any (fun out => check out.1 out.2.1 out.2.2) = true) :
    ∃ trace engine' threads, Concurrent commands engine trace engine' threads ∧
      check trace engine' threads := by
  obtain ⟨⟨trace, engine', threads⟩, played, checked⟩ := (Option.any_eq_true _ _).mp passed
  exact ⟨trace, engine', threads, play_run _ schedule played, of_decide_eq_true checked⟩

/-- The same from the engine a script leads to. -/
theorem exists_run_after_script (seed : Usd) (config : EngineConfig)
    (script : List (Environment × RiskCommand)) (commands : ι → RiskCommand)
    (schedule : List (ι × Environment))
    (check : RiskEngine → List (EngineAct ι) → RiskEngine → (ι → Thread) → Prop)
    [∀ engine trace engine' threads, Decidable (check engine trace engine' threads)]
    (passed : (runScript seed config (fun _ _ => True) script).any (fun state =>
      (play portsUp Environment.answer schedule state.2 fun i => RiskEngine.apply (commands i)).any
        fun out => check state.2 out.1 out.2.1 out.2.2) = true) :
    ∃ engine trace engine' threads, Reachable seed config engine ∧
      Concurrent commands engine trace engine' threads ∧ check engine trace engine' threads := by
  obtain ⟨⟨entries, engine⟩, ran, started⟩ := (Option.any_eq_true _ _).mp passed
  obtain ⟨trace, engine', threads, run, checked⟩ :=
    exists_run_of_schedule engine commands schedule (check engine) started
  exact ⟨engine, trace, engine', threads, ⟨entries, runScript_history ran⟩, run, checked⟩

end Schedules

/-! ## Values for concrete states -/

namespace Sample

def usd (micros : Int) : Usd := ⟨SignedInt.clamp micros⟩

def dollars (amount : Int) : Usd := usd (amount * SCALE)

/-- A price in whole dollars, brought into range. -/
def price (amount : Int) : Price where
  micros := max 1 (min (amount * SCALE) MAX_PRICE)
  positive := by omega
  bounded := max_le (by decide) (min_le_right _ _)

/-- A size in whole contracts, brought into range. -/
def contracts (amount : Int) : Size where
  micros := max 1 (min (amount * SCALE) MAX_SIZE)
  positive := by omega
  bounded := max_le (by decide) (min_le_right _ _)

def rate (bps : Int) : I64 := .clamp bps

def tenfold : Leverage := ⟨10, by decide, by decide⟩

def sol : Symbol := ⟨"SOL-PERP", by decide, by decide⟩

def alice : AccountId := ⟨"alice", by decide, by decide⟩

def bob : AccountId := ⟨"bob", by decide, by decide⟩

def carol : AccountId := ⟨"carol", by decide, by decide⟩

/-- The standard tier for every market. -/
def standard : EngineConfig := ⟨.standard⟩

/-- Open a cross-margined position of whole contracts on `sol`. -/
def enter (account : AccountId) (side : Side) (size : Size) (entry : Price) (margin : Usd) :
    RiskCommand :=
  .openPosition account sol side .cross size entry tenfold margin

/-- A price in micro-dollars, brought into range. -/
def microPrice (micros : Int) : Price where
  micros := max 1 (min micros MAX_PRICE)
  positive := by omega
  bounded := max_le (by decide) (min_le_right _ _)

theorem microSize_positive (micros : Int) : 0 < max 1 (min micros MAX_SIZE) := by omega

theorem microSize_bounded (micros : Int) : max 1 (min micros MAX_SIZE) ≤ MAX_SIZE :=
  max_le (by decide) (min_le_right _ _)

/-- A size in micro-contracts, brought into range. -/
def microSize (micros : Int) : Size where
  micros := max 1 (min micros MAX_SIZE)
  positive := microSize_positive micros
  bounded := microSize_bounded micros

/-- An isolated position of alice on `sol`, in micro-units. -/
def held (side : Side) (size entry margin funding : Int) : Position :=
  ⟨alice, sol, side, .isolated, microSize size, microPrice entry, tenfold, usd margin, usd funding⟩

/-- Risk parameters with the standard fee. -/
def tier (initial maintenance : Int) : RiskParams := ⟨rate initial, rate maintenance, rate 100⟩

/-- The market `sol` at a price, without funding. -/
def quoted (level : Price) : MarketState := ⟨sol, level, level, rate 0⟩

/-- Set the mark and index of `sol` and its funding rate. -/
def mark (level : Price) (fundingRateBps : I64) : RiskCommand :=
  .updateMarket sol level level fundingRateBps

end Sample
end MarginGuard.Source
