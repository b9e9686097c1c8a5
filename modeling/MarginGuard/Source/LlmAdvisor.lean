import MarginGuard.Source.Advice
import MarginGuard.Source.Retry
import Mathlib.Data.List.DropRight

/-!
# The advisor with a language model (`marginguard-ai/src/llm.rs`, `error.rs`)

The advisor posts requests to an endpoint and sleeps between them; these are the
two operations of its program. What the HTTP client and the deadline make of one
request is an `Exchange`, chosen by the environment. Logging is left out.
-/
namespace MarginGuard.Source
open Foundation

/-! ## Text (`str::trim`) -/

/-- The Unicode property `White_Space`. -/
def isWhitespace (c : Char) : Bool :=
  let n := c.toNat
  (9 ≤ n && n ≤ 13) || n == 0x20 || n == 0x85 || n == 0xA0 || n == 0x1680 ||
    (0x2000 ≤ n && n ≤ 0x200A) || n == 0x2028 || n == 0x2029 || n == 0x202F || n == 0x205F ||
    n == 0x3000

/-- `str::trim` -/
@[irreducible] def trim (s : String) : String :=
  String.ofList ((s.toList.dropWhile isWhitespace).rdropWhile isWhitespace)

/-- Text of white space only, the empty text included. -/
def Blank (s : String) : Prop := ∀ c ∈ s.toList, isWhitespace c = true

theorem trim_eq_empty_iff (s : String) : trim s = "" ↔ Blank s := by
  rw [trim, String.ofList_eq_empty_iff, List.rdropWhile_eq_nil_iff]
  constructor
  · intro rest c member
    rw [← List.takeWhile_append_dropWhile (p := isWhitespace) (l := s.toList)] at member
    rcases List.mem_append.mp member with front | back
    · exact List.mem_takeWhile_imp front
    · exact rest c back
  · exact fun blank c member => blank c (List.dropWhile_sublist _ |>.subset member)

/-! ## Errors (`error.rs`) -/

/-- A failure of a call to the model. -/
inductive AiError where
  | transport (reason : String)
  | timeout
  | malformed (reason : String)
  | disabled
  deriving DecidableEq

/-- Whether a retry could plausibly succeed. -/
def AiError.isRetryable : AiError → Bool
  | .transport _ => true
  | .timeout => true
  | .malformed _ => false
  | .disabled => false

/-! ## Configuration and wire types -/

def SYSTEM_PROMPT : String :=
  "You are a perpetual-futures risk assistant. Given margin metrics, reply with one or two " ++
    "concise sentences explaining the liquidation risk and the single most useful action. Do " ++
    "not invent numbers."

/-- The chat-completions endpoint and how to ask it. -/
structure LlmConfig where
  endpoint : String := "https://api.openai.com/v1/chat/completions"
  model : String := "gpt-4o-mini"
  apiKey : String := ""
  timeout : Duration := .fromSecs 4
  maxRetries : Nat := 2
  temperature : Rat := 2 / 10
  maxTokens : Nat := 160
  deriving DecidableEq

/-- Whether a usable API key is configured. -/
def LlmConfig.enabled (config : LlmConfig) : Bool := decide (trim config.apiKey ≠ "")

theorem LlmConfig.enabled_eq_false_iff (config : LlmConfig) :
    config.enabled = false ↔ Blank config.apiKey := by
  rw [← trim_eq_empty_iff, enabled, decide_eq_false_iff_not, not_not]

structure ChatMessage where
  role : String
  content : String
  deriving DecidableEq

structure ChatRequest where
  model : String
  temperature : Rat
  maxTokens : Nat
  messages : List ChatMessage
  deriving DecidableEq

structure ChatResponseMessage where
  content : String
  deriving DecidableEq

structure ChatChoice where
  message : ChatResponseMessage
  deriving DecidableEq

structure ChatResponse where
  choices : List ChatChoice
  deriving DecidableEq

/-- What comes of one request: the deadline passes, it cannot be sent, or it is
answered with a status, its text, and a body that is or is not of the expected
shape. -/
inductive Exchange where
  | timedOut
  | notSent (reason : String)
  | answered (status : Nat) (statusText : String) (body : Except String ChatResponse)

/-- How `call_once` reads an exchange. -/
def Exchange.outcome : Exchange → Except AiError String
  | .timedOut => .error .timeout
  | .notSent reason => .error (.transport reason)
  | .answered status statusText body =>
    if ¬ (200 ≤ status ∧ status < 300) then .error (.transport s!"status {statusText}")
    else
      match body with
      | .error reason => .error (.malformed reason)
      | .ok parsed =>
        match parsed.choices.head? with
        | some choice => .ok choice.message.content
        | none => .error (.malformed "no choices returned")

/-! ## The advisor -/

inductive LlmOp where
  | post (endpoint : String) (bearer : String) (deadline : Duration) (body : ChatRequest)
  | sleep (duration : Duration)

def LlmAns : LlmOp → Type
  | .post _ _ _ _ => Exchange
  | .sleep _ => Unit

def callOnce (config : LlmConfig) (prompt : String) :
    Program LlmOp LlmAns (Except AiError String) :=
  let body : ChatRequest :=
    { model := config.model
      temperature := config.temperature
      maxTokens := config.maxTokens
      messages := [⟨"system", SYSTEM_PROMPT⟩, ⟨"user", prompt⟩] }
  .step (.post config.endpoint config.apiKey config.timeout body) fun exchange =>
    .done (Exchange.outcome exchange)

/-- At least one attempt, the backoff between 100 milliseconds and a second. -/
def LlmConfig.policy (config : LlmConfig) : RetryPolicy where
  maxAttempts := max config.maxRetries 1
  baseDelay := .fromMillis 100
  maxDelay := .fromSecs 1
  representable := by decide

def narrate (config : LlmConfig) (prompt : String) :
    Program LlmOp LlmAns (Except AiError String) :=
  if config.enabled = false then .done (.error .disabled)
  else retry .sleep config.policy AiError.isRetryable (callOnce config prompt)

def buildPrompt (ctx : AdviceContext) (base : RiskAdvice) : String :=
  let side := ctx.side.code
  let lev := ctx.leverage
  let mark := ctx.markPriceMicros
  let entry := ctx.entryPriceMicros
  let mr := base.marginRatioBps.elim "n/a" fun v => s!"{v.toInt}"
  let maint := ctx.maintenanceRatioBps.toInt
  let dist := base.liquidationDistanceBps.elim "n/a" fun v => s!"{v.toInt}"
  let fund := ctx.fundingRateBps.toInt
  let tier := base.riskLevel.code
  s!"side={side} leverage={lev}x mark={mark} entry={entry} margin_ratio_bps={mr} " ++
    s!"maintenance_ratio_bps={maint} distance_to_liquidation_bps={dist} funding_bps={fund} " ++
    s!"tier={tier}"

/-- `LlmAdvisor::assess`: the heuristic first, then a narrative for it. -/
def assess (config : LlmConfig) (ctx : AdviceContext) : Program LlmOp LlmAns RiskAdvice :=
  let base := HeuristicAdvisor.score ctx
  (narrate config (buildPrompt ctx base)).bind fun
    | .ok text =>
      let text := trim text
      if text ≠ "" then
        .done
          { base with
            summary := text
            source := .llm
            confidence := min (base.confidence + 5 / 100) (99 / 100) }
      else .done base
    | .error _ => .done base

end MarginGuard.Source
