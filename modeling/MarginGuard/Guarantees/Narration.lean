import MarginGuard.Source.LlmAdvisor

/-!
# Does the language model ever decide risk?

Whatever the endpoint answers, the advice has the tier, the ratios and the action
of the heuristic, and it is the heuristic's advice altogether unless one of the
attempts, after retryable failures only, brings text that is not blank. Without a
key no request is made (`risk_decided_by_heuristic`).
-/
namespace MarginGuard.Guarantees
open Foundation Source

/-- The advice carries the same risk decision as another. -/
structure SameDecision (advice base : RiskAdvice) : Prop where
  riskLevel : advice.riskLevel = base.riskLevel
  marginRatioBps : advice.marginRatioBps = base.marginRatioBps
  liquidationDistanceBps : advice.liquidationDistanceBps = base.liquidationDistanceBps
  recommendedAction : advice.recommendedAction = base.recommendedAction

/-- What came of the request a call made, if it made one. -/
def exchange? : Call LlmOp LlmAns → Option Exchange
  | ⟨.post _ _ _ _, exchange⟩ => some exchange
  | ⟨.sleep _, _⟩ => none

/-- What came of the attempts of a run, in order. -/
def attempts (calls : List (Call LlmOp LlmAns)) : List Exchange := calls.filterMap exchange?

/-- The last of at most `bound` attempts brings text that is not blank; the others
fail in a way that may be retried. -/
def Narrated (bound : Nat) (tried : List Exchange) : Prop :=
  ∃ failed last text, tried = failed ++ [last] ∧ failed.length < bound ∧
    (∀ exchange ∈ failed, ∃ err, exchange.outcome = .error err ∧ err.isRetryable = true) ∧
    last.outcome = .ok text ∧ ¬ Blank text

variable {config : LlmConfig} {ctx : AdviceContext}

/-! ## One attempt -/

theorem callOnce_returns {prompt : String} {calls : List (Call LlmOp LlmAns)}
    {outcome : Except AiError String} (run : (callOnce config prompt).Returns calls outcome) :
    ∃ exchange, attempts calls = [exchange] ∧ outcome = exchange.outcome := by
  obtain ⟨exchange, rest, rfl, rfl, rfl⟩ := run
  exact ⟨exchange, rfl, rfl⟩

/-! ## All attempts -/

/-- A loop that has failed `count` times and then succeeds makes retryable failures
and one success. -/
theorem retries_narrated {prompt : String} {count : Nat} {calls : List (Call LlmOp LlmAns)}
    {outcome : Except AiError String}
    (run : Retries LlmOp.sleep config.policy AiError.isRetryable (callOnce config prompt) count
      calls outcome) :
    ∃ failed last, attempts calls = failed ++ [last] ∧
      (failed.length = 0 ∨ count + failed.length < config.policy.maxAttempts) ∧
      (∀ exchange ∈ failed, ∃ err, exchange.outcome = .error err ∧ err.isRetryable = true) ∧
      last.outcome = outcome := by
  induction run with
  | stop tried =>
    obtain ⟨exchange, only, rfl⟩ := callOnce_returns tried
    exact ⟨[], exchange, only, .inl rfl, by simp, rfl⟩
  | @again count front rest err outcome woken tried more retryable _ ih =>
    obtain ⟨exchange, only, failure⟩ := callOnce_returns tried
    obtain ⟨failed, last, others, bound, failures, ended⟩ := ih
    refine ⟨exchange :: failed, last, ?_, .inr ?_, ?_, ended⟩
    · have slept : exchange? ⟨LlmOp.sleep (config.policy.backoff count), woken⟩ = none := rfl
      unfold attempts at only others ⊢
      rw [List.filterMap_append, List.filterMap_cons_none slept, only, others]
      rfl
    · rw [List.length_cons]
      omega
    · intro exchange' member
      rcases List.mem_cons.mp member with rfl | later
      · exact ⟨err, failure.symm, retryable⟩
      · exact failures exchange' later

/-- The outcome of a narration is that of its last attempt, unless it makes none. -/
theorem narrate_returns {prompt : String} {calls : List (Call LlmOp LlmAns)}
    {outcome : Except AiError String} (run : (narrate config prompt).Returns calls outcome) :
    (calls = [] ∧ outcome = .error .disabled) ∨
      ∃ failed last, attempts calls = failed ++ [last] ∧
        failed.length < max 1 config.maxRetries ∧
        (∀ exchange ∈ failed, ∃ err, exchange.outcome = .error err ∧ err.isRetryable = true) ∧
        last.outcome = outcome := by
  unfold narrate at run
  split at run
  · exact .inl run
  · obtain ⟨failed, last, split, bound, failures, ended⟩ :=
      retries_narrated (retryFrom_returns_iff.mp run)
    have policy : config.policy.maxAttempts = max config.maxRetries 1 := rfl
    exact .inr ⟨failed, last, split, by omega, failures, ended⟩

/-- An outcome is a text that shows exactly if the attempts narrate. -/
theorem narrated_iff {prompt : String} {calls : List (Call LlmOp LlmAns)}
    {outcome : Except AiError String} (run : (narrate config prompt).Returns calls outcome) :
    Narrated (max 1 config.maxRetries) (attempts calls) ↔
      ∃ text, outcome = .ok text ∧ ¬ Blank text := by
  rcases narrate_returns run with ⟨rfl, rfl⟩ | ⟨failed, last, split, bound, failures, ended⟩
  · refine iff_of_false ?_ ?_
    · rintro ⟨failed, last, _, none, _⟩
      exact List.append_ne_nil_of_right_ne_nil _ (List.cons_ne_nil _ _) none.symm
    · rintro ⟨_, ⟨⟩, _⟩
  · constructor
    · rintro ⟨failed', last', text, split', _, _, text', visible⟩
      rw [split] at split'
      obtain ⟨_, same⟩ := List.append_inj' split' rfl
      rw [← List.singleton_inj.mp same, ended] at text'
      exact ⟨text, text', visible⟩
    · rintro ⟨text, rfl, visible⟩
      exact ⟨failed, last, text, split, bound, failures, ended, visible⟩

/-! ## The advice -/

/-- The two ends of an assessment: the heuristic's advice with a narrative, for an
outcome that is a text which shows, and the heuristic's advice. -/
theorem assess_returns {calls : List (Call LlmOp LlmAns)} {advice : RiskAdvice}
    (run : (assess config ctx).Returns calls advice) :
    ∃ outcome, (narrate config (buildPrompt ctx (HeuristicAdvisor.score ctx))).Returns calls outcome ∧
      ((SameDecision advice (HeuristicAdvisor.score ctx) ∧ advice.source = .llm ∧
          ∃ text, outcome = .ok text ∧ ¬ Blank text) ∨
        (advice = HeuristicAdvisor.score ctx ∧ ¬ ∃ text, outcome = .ok text ∧ ¬ Blank text)) := by
  obtain ⟨front, back, outcome, rfl, narrated, rest⟩ := (Program.returns_bind _ _ _ _).mp run
  refine ⟨outcome, ?_⟩
  cases outcome with
  | error err =>
    obtain ⟨rfl, rfl⟩ := rest
    rw [List.append_nil]
    exact ⟨narrated, .inr ⟨rfl, by rintro ⟨_, ⟨⟩, _⟩⟩⟩
  | ok text =>
    have shown : (∃ text', Except.ok text = (.ok text' : Except AiError String) ∧ ¬ Blank text') ↔
        trim text ≠ "" := by
      simp only [Except.ok.injEq, exists_eq_left', ne_eq, trim_eq_empty_iff]
    rw [shown]
    simp only at rest
    split at rest
    · next visible =>
      obtain ⟨rfl, rfl⟩ := rest
      rw [List.append_nil]
      exact ⟨narrated, .inl ⟨⟨rfl, rfl, rfl, rfl⟩, rfl, visible⟩⟩
    · next blank =>
      obtain ⟨rfl, rfl⟩ := rest
      rw [List.append_nil]
      exact ⟨narrated, .inr ⟨rfl, blank⟩⟩

theorem assess_same_decision {calls : List (Call LlmOp LlmAns)} {advice : RiskAdvice}
    (run : (assess config ctx).Returns calls advice) :
    SameDecision advice (HeuristicAdvisor.score ctx) := by
  obtain ⟨_, _, ⟨same, _⟩ | ⟨rfl, _⟩⟩ := assess_returns run
  · exact same
  · exact ⟨rfl, rfl, rfl, rfl⟩

/-- The advice is the heuristic's unless the attempts narrate it. -/
theorem assess_changed_iff {calls : List (Call LlmOp LlmAns)} {advice : RiskAdvice}
    (run : (assess config ctx).Returns calls advice) :
    advice ≠ HeuristicAdvisor.score ctx ↔
      Narrated (max 1 config.maxRetries) (attempts calls) := by
  obtain ⟨_, narrated, ⟨_, source, shown⟩ | ⟨same, hidden⟩⟩ := assess_returns run
  · refine iff_of_true ?_ ((narrated_iff narrated).mpr shown)
    rintro rfl
    exact absurd source (by rintro ⟨⟩)
  · exact iff_of_false (not_not.mpr same) fun attempt => hidden ((narrated_iff narrated).mp attempt)

/-- A blank key: nothing is sent. -/
theorem assess_disabled {calls : List (Call LlmOp LlmAns)} {advice : RiskAdvice}
    (run : (assess config ctx).Returns calls advice) (blank : Blank config.apiKey) : calls = [] := by
  obtain ⟨_, narrated, _⟩ := assess_returns run
  rw [narrate, if_pos ((LlmConfig.enabled_eq_false_iff config).mpr blank)] at narrated
  exact narrated.1

/-! ## Every sequence of outcomes -/

/-- The answers of an endpoint whose exchanges come out as in a given sequence. -/
def answering (outcomes : Nat → Exchange) (front : List (Call LlmOp LlmAns)) :
    (op : LlmOp) → LlmAns op
  | .post _ _ _ _ => outcomes (attempts front).length
  | .sleep _ => ()

/-- A run answered in that way meets the sequence from its start. -/
theorem attempts_answering {outcomes : Nat → Exchange} {calls : List (Call LlmOp LlmAns)}
    (answered : ∀ front c back, calls = front ++ c :: back → c.ans = answering outcomes front c.op) :
    attempts calls = (List.range (attempts calls).length).map outcomes := by
  refine Program.picked_in_order (fun front op exchange picked => ?_) answered
  cases op with
  | post endpoint bearer deadline body => exact (Option.some.inj picked).symm
  | sleep duration => cases picked

/-- Against every sequence of outcomes an assessment comes to an end, and however it
ends, the risk decision is the heuristic's; so is the whole advice unless an
attempt within the bound narrates it. A blank key makes no call. -/
theorem risk_decided_by_heuristic (config : LlmConfig) (ctx : AdviceContext) :
    (∀ outcomes : Nat → Exchange, ∃ calls advice, (assess config ctx).Returns calls advice ∧
      attempts calls = (List.range (attempts calls).length).map outcomes) ∧
    ∀ calls advice, (assess config ctx).Returns calls advice →
      SameDecision advice (HeuristicAdvisor.score ctx) ∧
      (advice ≠ HeuristicAdvisor.score ctx ↔
        Narrated (max 1 config.maxRetries) (attempts calls)) ∧
      (Blank config.apiKey → calls = []) := by
  refine ⟨fun outcomes => ?_, fun calls advice run =>
    ⟨assess_same_decision run, assess_changed_iff run, assess_disabled run⟩⟩
  obtain ⟨calls, advice, run, answered⟩ :=
    (assess config ctx).exists_returns_after (answering outcomes)
  exact ⟨calls, advice, run, attempts_answering answered⟩

end MarginGuard.Guarantees
