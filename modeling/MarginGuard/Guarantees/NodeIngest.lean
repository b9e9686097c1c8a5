import MarginGuard.Guarantees.NodeRefinement
import MarginGuard.Guarantees.RateLimit

/-!
# How many commands a node serves

The limiter's steps of a run on the node are a run of the limiter
(`limiterActs`), whatever the commands do between them. The account of
`Guarantees.RateLimit` therefore bounds the commands that get past it, and a
command that does not has touched nothing but the limiter
(`node_ingest_bounded`). The tokens are exact rationals, as in
`Guarantees.RateLimit`; the source has `f64`.
-/
namespace MarginGuard.Guarantees
open Foundation Source

/-- A step of the limiter. -/
def limiterCall : Call NodeOp NodeAnswer → Option (Call LimiterOp LimiterAnswer)
  | ⟨.limiter op, ans⟩ => some ⟨op, ans⟩
  | ⟨.store _, _⟩ => none
  | ⟨.locked _ _, _⟩ => none
  | ⟨.send _, _⟩ => none

section Trace
variable {ι : Type}

/-- The limiter's steps of a trace. -/
def limiterActs (trace : List (NodeAct ι)) : List (LimiterAct ι) :=
  trace.filterMap fun a => (limiterCall a.call).map fun c => ⟨a.thread, c⟩

/-- A section of the limiter does not run with a reading older than the last refill. -/
def RefillsInOrder (node : Node) (_ : List (NodeAct ι)) (a : NodeAct ι) : Prop :=
  match a.call.op with
  | .limiter (.acquire now _) => node.limiter.bucket.lastRefillNanos ≤ now
  | _ => True

instance : (node : Node) → (front : List (NodeAct ι)) → (a : NodeAct ι) →
    Decidable (RefillsInOrder node front a)
  | node, _, ⟨_, ⟨.limiter (.acquire now _), _⟩⟩ =>
    inferInstanceAs (Decidable (node.limiter.bucket.lastRefillNanos ≤ now))
  | _, _, ⟨_, ⟨.limiter .nowNanos, _⟩⟩ => .isTrue trivial
  | _, _, ⟨_, ⟨.store _, _⟩⟩ => .isTrue trivial
  | _, _, ⟨_, ⟨.locked _ _, _⟩⟩ => .isTrue trivial
  | _, _, ⟨_, ⟨.send _, _⟩⟩ => .isTrue trivial

theorem limiterActs_limiter (front : List (NodeAct ι)) (i : ι) (op : LimiterOp)
    (ans : LimiterAnswer op) :
    limiterActs (front ++ [⟨i, ⟨.limiter op, ans⟩⟩]) = limiterActs front ++ [⟨i, ⟨op, ans⟩⟩] := by
  simp [limiterActs, limiterCall]

theorem limiterActs_other (front : List (NodeAct ι)) {a : NodeAct ι}
    (other : limiterCall a.call = none) : limiterActs (front ++ [a]) = limiterActs front := by
  simp [limiterActs, other]

theorem callsOf_limiterActs [DecidableEq ι] (i : ι) (trace : List (NodeAct ι)) :
    callsOf i (limiterActs trace) = (callsOf i trace).filterMap limiterCall := by
  induction trace with
  | nil => rfl
  | cons a trace ih =>
    rw [callsOf_cons]
    cases own : limiterCall a.call with
    | none =>
      have skipped : limiterActs (a :: trace) = limiterActs trace := by
        simp [limiterActs, own]
      rw [skipped, ih]
      split
      · rw [List.filterMap_cons_none own]
      · rfl
    | some c =>
      have kept : limiterActs (a :: trace) = ⟨a.thread, c⟩ :: limiterActs trace := by
        simp [limiterActs, own]
      rw [kept, callsOf_cons, ih]
      split
      · rw [List.filterMap_cons_some own]
      · rfl

end Trace

/-! ## One command -/

/-- Every section of a command asks for one token, with the reading the command
has made. -/
def ReadOnNode (front : List (Call NodeOp NodeAnswer)) (c : Call NodeOp NodeAnswer) : Prop :=
  ∀ l, limiterCall c = some l → Read (front.filterMap limiterCall) l

theorem publish_not_limiter {events : List RiskEvent} {own : List (Call NodeOp NodeAnswer)}
    {ans : Except PortError Unit} (ran : (Node.publish events).Returns own ans) :
    ∀ a ∈ own, limiterCall a = none := by
  induction events generalizing own with
  | nil =>
    obtain ⟨rfl, -⟩ := ran
    simp
  | cons event events ih =>
    obtain ⟨_, rest, rfl, ran⟩ := ran
    intro a member
    rcases List.mem_cons.mp member with rfl | later
    · rfl
    · exact ih ran a later

theorem read_serve (c : EngineCall) (own : List (Call NodeOp NodeAnswer))
    (ran : (Node.serve c.op).Returns own c.ans) (before : List (Call NodeOp NodeAnswer)) :
    Stepwise (fun front a => ReadOnNode (before ++ front) a) own := by
  obtain ⟨op, ans⟩ := c
  by_cases limits : op = .tryAcquire
  · subst limits
    obtain ⟨now, _, rfl, admitted, _, rfl, rfl, -⟩ := ran
    rw [stepwise_cons, stepwise_cons]
    refine ⟨?_, ?_, stepwise_nil _⟩
    · intro l own
      obtain rfl := Option.some.inj own
      trivial
    · intro l own
      obtain rfl := Option.some.inj own
      exact ⟨rfl, by simp [limiterCall]⟩
  · have quiet : ∀ a ∈ own, limiterCall a = none := by
      intro a member
      cases op
      case tryAcquire => exact absurd rfl limits
      case publish events => exact publish_not_limiter ran a member
      all_goals
        obtain ⟨_, _, rfl, rfl, -⟩ := ran
        obtain rfl := List.mem_singleton.mp member
        rfl
    refine stepwise_of_forall fun a member front l own => ?_
    rw [quiet a member] at own
    cases own

/-- Every step has an answer. -/
theorem deployed_answers (config : NodeConfig) (node : Node) (op : NodeOp) :
    ∃ ans, (deployed config).answers node op ans := by
  cases op with
  | limiter op => exact limiter_answers config.limiter node.limiter op
  | store call =>
    cases call with
    | upsert position => exact ⟨(), trivial⟩
    | get account symbol => exact ⟨_, rfl⟩
    | remove account symbol => exact ⟨_, rfl⟩
    | byMarket symbol =>
      obtain ⟨listing, same⟩ := Quotient.exists_rep
        (((node.store.byMarket.lookup symbol).getD ∅).val.filterMap
          fun account => node.store.byKey.lookup (account, symbol))
      exact ⟨listing, (node.store.listsMarket_iff symbol listing).mpr same⟩
    | count => exact ⟨_, rfl⟩
  | locked action guarded => exact portsUp_answers (node.core config) action
  | send event => exact ⟨(), trivial⟩

section Run
variable {ι : Type} [DecidableEq ι] {config : NodeConfig} {commands : ι → RiskCommand}
  {node node' : Node} {trace : List (NodeAct ι)} {threads : ι → NodeThread}

theorem read_on_node (run : OnNode config commands node trace node' threads) :
    Stepwise (fun front a => ReadOnNode (callsOf a.thread front) a.call) trace := by
  refine stepwise_of_threads (P := fun _ => ReadOnNode) fun i => ?_
  obtain ⟨back, r, whole, -⟩ := run.exists_completion (deployed_answers config) i
  obtain ⟨made, -, realized⟩ := returns_implement whole
  have each : Stepwise ReadOnNode (callsOf i trace ++ back) := realized.stepwise read_serve
  exact each.front

/-- The limiter of a node keeps its account through any step. -/
theorem paid_on_node (capacity : 1 ≤ config.limiter.capacity)
    (refill : 0 ≤ config.limiter.refillPerSec) {t₀ : Nat} {front : List (NodeAct ι)}
    {a : NodeAct ι} (before : Paid config.limiter t₀ (limiterActs front) node.limiter)
    (allowed : (deployed config).answers node a.call.op a.call.ans)
    (read : ReadOnNode (callsOf a.thread front) a.call) (inOrder : RefillsInOrder node front a) :
    Paid config.limiter t₀ (limiterActs (front ++ [a]))
      ((deployed config).effect node a.call.op a.call.ans).limiter := by
  obtain ⟨i, op, ans⟩ := a
  cases op with
  | limiter op =>
    rw [limiterActs_limiter]
    refine paid_step (a := ⟨i, ⟨op, ans⟩⟩) capacity refill before allowed ?_ ?_
    · rw [callsOf_limiterActs]
      exact read ⟨op, ans⟩ rfl
    · cases op with
      | nowNanos => trivial
      | acquire now n => exact inOrder
  | store call =>
    rw [limiterActs_other _ rfl]
    exact before
  | locked action guarded =>
    rw [limiterActs_other _ rfl]
    exact before
  | send event =>
    rw [limiterActs_other _ rfl]
    exact before

/-- A run of a node that starts at `t₀` keeps its limiter's account. -/
theorem paid_run (capacity : 1 ≤ config.limiter.capacity)
    (refill : 0 ≤ config.limiter.refillPerSec) {insuranceSeed t₀ : Nat}
    (run : OnNode config commands (.buildEngine config insuranceSeed t₀) trace node' threads)
    (inOrder : Throughout (deployed config) RefillsInOrder
      (.buildEngine config insuranceSeed t₀) trace) :
    Paid config.limiter t₀ (limiterActs trace) node'.limiter := by
  rw [run.after_eq]
  refine Stepwise.induction (I := fun front => Paid config.limiter t₀ (limiterActs front)
    ((deployed config).after (.buildEngine config insuranceSeed t₀) (calls front)).limiter)
    (paid_created capacity) ?_
  intro front a back split before
  rw [after_concat]
  exact paid_on_node capacity refill before (run.allowed front a back split)
    (read_on_node run front a back split) (inOrder front a back split)

end Run

/-- What a command did on the node: it was turned away with its first two steps,
or they admitted it. -/
theorem returns_onNode {command : RiskCommand} {low : List (Call NodeOp NodeAnswer)}
    {r : Except CoreError CommandOutcome} (ran : (Node.apply command).Returns low r) :
    ∃ now : Nat, (low = [⟨.limiter .nowNanos, now⟩, ⟨.limiter (.acquire now 1), false⟩] ∧
        r = .error .rateLimited) ∨
      ∃ rest, low = ⟨.limiter .nowNanos, now⟩ :: ⟨.limiter (.acquire now 1), true⟩ :: rest := by
  obtain ⟨now, _, rfl, admitted, rest, rfl, ran⟩ := ran
  cases admitted with
  | false =>
    obtain ⟨rfl, rfl⟩ := ran
    exact ⟨now, Or.inl ⟨rfl, rfl⟩⟩
  | true => exact ⟨now, Or.inr ⟨rest, rfl⟩⟩

/-- A command the limiter admitted does not report that it was turned away. -/
theorem Applied.admitted_of_rateLimited {command : RiskCommand} {made : List EngineCall}
    (applied : Applied command made (.error .rateLimited)) : made = [⟨.tryAcquire, false⟩] := by
  generalize turned : (Except.error CoreError.rateLimited : Except CoreError CommandOutcome) = r
    at applied
  cases applied with
  | rateLimited => rfl
  | admitted body r served =>
    subst turned
    cases served

/-- Distinct threads that each have such a step are no more than such steps. -/
theorem card_le_countP {ι Op : Type} {Ans : Op → Type} [DecidableEq ι]
    {trace : List (Act ι Op Ans)} {p : Call Op Ans → Bool} {threads : Finset ι}
    (each : ∀ i ∈ threads, ∃ c ∈ callsOf i trace, p c = true) :
    threads.card ≤ (calls trace).countP p := by
  have found : threads ⊆ ((trace.filter fun a => p a.call).map Act.thread).toFinset := by
    intro i member
    obtain ⟨c, own, holds⟩ := each i member
    obtain ⟨a, performed, rfl, rfl⟩ := mem_callsOf.mp own
    rw [List.mem_toFinset, List.mem_map]
    exact ⟨a, List.mem_filter.mpr ⟨performed, holds⟩, rfl⟩
  calc threads.card ≤ _ := Finset.card_le_card found
    _ ≤ _ := List.toFinset_card_le _
    _ = (calls trace).countP p := by
      rw [List.length_map, ← List.countP_eq_length_filter, calls, List.countP_map]
      rfl

/-- As long as the sections of the limiter run in the order of their readings, the
commands a node has served by the time its clock shows `t` are at most the
capacity and what flows in from its start to `t`. A command that was turned away
has read the clock, asked for a token, and touched nothing else. -/
theorem node_ingest_bounded {ι : Type} [DecidableEq ι] {config : NodeConfig}
    {commands : ι → RiskCommand} {insuranceSeed t₀ : Nat} {trace : List (NodeAct ι)} {node : Node}
    {threads : ι → NodeThread} (capacity : 1 ≤ config.limiter.capacity)
    (refill : 0 ≤ config.limiter.refillPerSec)
    (run : OnNode config commands (.buildEngine config insuranceSeed t₀) trace node threads)
    (inOrder : Throughout (deployed config) RefillsInOrder
      (.buildEngine config insuranceSeed t₀) trace)
    {t : Nat} (shown : node.limiter.clock ≤ t) :
    (∀ served : Finset ι,
      (∀ i ∈ served, ∃ r, threads i = .done r ∧ r ≠ .error .rateLimited) →
        (served.card : Rat) ≤ config.limiter.capacity + inflow config.limiter t₀ t) ∧
    ∀ i, threads i = .done (.error .rateLimited) → ∃ now : Nat,
      callsOf i trace = [⟨.limiter .nowNanos, now⟩, ⟨.limiter (.acquire now 1), false⟩] := by
  constructor
  · intro served passed
    have paid := paid_run capacity refill run inOrder
    have each : ∀ i ∈ served, ∃ c ∈ callsOf i (limiterActs trace), admits c = true := by
      intro i member
      obtain ⟨r, finished, passes⟩ := passed i member
      obtain ⟨now, ⟨-, turned⟩ | ⟨rest, own⟩⟩ := returns_onNode (run.returns finished)
      · exact absurd turned passes
      · rw [callsOf_limiterActs, own]
        exact ⟨⟨.acquire now 1, true⟩, by simp [limiterCall], rfl⟩
    have few : (served.card : Rat) ≤ admissions (limiterActs trace) :=
      Nat.cast_le.mpr (card_le_countP each)
    have filled := paid.filled
    have total := paid.paid
    have later : inflow config.limiter t₀ node.limiter.bucket.lastRefillNanos ≤
        inflow config.limiter t₀ t := inflow_mono refill (paid.shown.trans shown)
    linarith
  · intro i finished
    obtain ⟨engineTrace, engine, engineThreads, abstract, -, stage⟩ :=
      deployed_implements.exists_run (fun i => ready_apply (commands i)) run
        (reflects_buildEngine config insuranceSeed t₀)
    have own := stage i
    rw [finished] at own
    obtain ⟨returned, realized⟩ := own.done
    have made := Applied.admitted_of_rateLimited (Concurrent.applied abstract returned)
    obtain ⟨now, ⟨own, -⟩ | ⟨rest, own⟩⟩ := returns_onNode (run.returns finished)
    · exact ⟨now, own⟩
    · -- the steps of a refusal do not begin with an admission
      rw [made, own] at realized
      obtain ⟨_, _, same, _, _, rfl, -, turned⟩ := realized.of_singleton
      cases turned
      cases same

/-- Two quotes at the same time on a node of one token: the second is turned away. -/
theorem node_ingest_bounded_one_token :
    ∃ (trace : List (NodeAct (Fin 2))) (node : Node) (threads : Fin 2 → NodeThread),
      OnNode ⟨⟨1, 1⟩, Sample.standard⟩ twoQuotes (.buildEngine ⟨⟨1, 1⟩, Sample.standard⟩ 1000 0)
        trace node threads ∧ node.sent.length = 1 ∧
      (∀ served : Finset (Fin 2),
        (∀ i ∈ served, ∃ r, threads i = .done r ∧ r ≠ .error .rateLimited) →
          (served.card : Rat) ≤ 1 + inflow ⟨1, 1⟩ 0 5) ∧
      ∀ i, threads i = .done (.error .rateLimited) → ∃ now : Nat,
        callsOf i trace = [⟨.limiter .nowNanos, now⟩, ⟨.limiter (.acquire now 1), false⟩] := by
  obtain ⟨trace, node, threads, run, sent, inOrder, shown⟩ :=
    exists_onNode ⟨⟨1, 1⟩, Sample.standard⟩
      (.buildEngine ⟨⟨1, 1⟩, Sample.standard⟩ 1000 0) twoQuotes
      [((0 : Fin 2), ⟨5, []⟩), (1, ⟨5, []⟩), (1, {}), (0, {}), (1, {}), (1, {})]
      (fun trace node _ => node.sent.length = 1 ∧
        Throughout (deployed ⟨⟨1, 1⟩, Sample.standard⟩) RefillsInOrder
          (.buildEngine ⟨⟨1, 1⟩, Sample.standard⟩ 1000 0) trace ∧ node.limiter.clock ≤ 5)
      (by decide +kernel)
  exact ⟨trace, node, threads, run, sent,
    node_ingest_bounded (by decide) (by decide) run inOrder shown⟩

end MarginGuard.Guarantees
