import MarginGuard.Foundation.Interleaving

/-!
# Implementing operations by programs

`Program.implement` replaces every operation of a program by the smaller program
that carries it out. What was one indivisible step is then several, and other
threads may act between them.

`Machine.CarriesOut` is the condition under which that is not noticed: the
operation takes effect at the last step of its implementation, and the steps
before it change nothing the relation between the two levels speaks about. Where
it holds of every operation, every interleaving of the smaller steps is an
interleaving of the operations (`Implements.exists_run`), thread by thread with
the same results.
-/
namespace MarginGuard.Foundation
variable {σ τ Op Low α : Type} {Ans : Op → Type} {LowAns : Low → Type}

namespace Program

/-- Every operation replaced by the program that carries it out. -/
def implement (impl : (op : Op) → Program Low LowAns (Ans op)) :
    Program Op Ans α → Program Low LowAns α
  | .done a => .done a
  | .step op next => (impl op).bind fun ans => (next ans).implement impl

theorem Leads.concat {p : Program Op Ans α} {made : List (Call Op Ans)} {op : Op}
    {next : Ans op → Program Op Ans α} (path : p.Leads made (.step op next)) (ans : Ans op) :
    p.Leads (made ++ [⟨op, ans⟩]) (next ans) := by
  generalize left : Program.step op next = q at path
  induction path with
  | refl p =>
    subst left
    exact .step (.refl _)
  | step rest ih => exact .step (ih left)

end Program

section Levels
variable (impl : (op : Op) → Program Low LowAns (Ans op))

/-- The smaller calls `low` carry out the operations `calls` one after another. -/
inductive Realizes : List (Call Op Ans) → List (Call Low LowAns) → Prop
  | nil : Realizes [] []
  | concat {calls : List (Call Op Ans)} {low own : List (Call Low LowAns)}
      (before : Realizes calls low) (c : Call Op Ans) (ran : (impl c.op).Returns own c.ans) :
      Realizes (calls ++ [c]) (low ++ own)

/-- Where a thread stands on both levels: between two operations with nothing
left to do, or within the implementation of the next one. -/
inductive Stage : List (Call Op Ans) → Program Op Ans α → List (Call Low LowAns) →
    Program Low LowAns α → Prop
  | finished {calls : List (Call Op Ans)} {low : List (Call Low LowAns)}
      (realized : Realizes impl calls low) (a : α) : Stage calls (.done a) low (.done a)
  | within {calls : List (Call Op Ans)} {low made : List (Call Low LowAns)}
      (realized : Realizes impl calls low) {op : Op} (next : Ans op → Program Op Ans α)
      {first : Low} {rest : LowAns first → Program Low LowAns (Ans op)}
      (path : (impl op).Leads made (.step first rest)) :
      Stage calls (.step op next) (low ++ made)
        ((Program.step first rest).bind fun ans => (next ans).implement impl)

/-- The next operation of a program takes a step to carry out. -/
def Ready : Program Op Ans α → Prop
  | .done _ => True
  | .step op _ => ∃ first rest, impl op = .step first rest

variable {impl}

/-- What the smaller calls show is what the operations show. -/
theorem Realizes.flatMap {β : Type} {calls : List (Call Op Ans)} {low : List (Call Low LowAns)}
    (realized : Realizes impl calls low) {f : Call Low LowAns → List β}
    {g : Call Op Ans → List β}
    (each : ∀ c own, (impl c.op).Returns own c.ans → own.flatMap f = g c) :
    low.flatMap f = calls.flatMap g := by
  induction realized with
  | nil => rfl
  | concat before c ran ih =>
    rw [List.flatMap_append, List.flatMap_append, ih, each c _ ran, List.flatMap_singleton]

theorem Realizes.append {calls calls' : List (Call Op Ans)} {low low' : List (Call Low LowAns)}
    (realized : Realizes impl calls low) (later : Realizes impl calls' low') :
    Realizes impl (calls ++ calls') (low ++ low') := by
  induction later with
  | nil =>
    rw [List.append_nil, List.append_nil]
    exact realized
  | concat before c ran ih =>
    rw [← List.append_assoc, ← List.append_assoc]
    exact ih.concat c ran

theorem Realizes.of_singleton {c : Call Op Ans} {low : List (Call Low LowAns)}
    (realized : Realizes impl [c] low) : (impl c.op).Returns low c.ans := by
  generalize only : [c] = calls at realized
  cases realized with
  | nil => cases only
  | @concat calls low own before c' ran =>
    obtain ⟨rfl, rfl⟩ : calls = [] ∧ c' = c := by
      cases calls with
      | nil => exact ⟨rfl, (List.singleton_inj.mp only).symm⟩
      | cons first rest => simp at only
    generalize start : ([] : List (Call Op Ans)) = calls at before
    cases before with
    | nil => exact ran
    | concat before c'' ran' => simp at start

/-- What holds step by step within each implementation holds of all the smaller
calls. -/
theorem Realizes.stepwise {calls : List (Call Op Ans)} {low : List (Call Low LowAns)}
    (realized : Realizes impl calls low)
    {P : List (Call Low LowAns) → Call Low LowAns → Prop}
    (each : ∀ (c : Call Op Ans) own, (impl c.op).Returns own c.ans → ∀ before,
      Stepwise (fun front a => P (before ++ front) a) own) : Stepwise P low := by
  induction realized with
  | nil => exact stepwise_nil P
  | concat before c ran ih =>
    rw [stepwise_append]
    exact ⟨ih, each c _ ran _⟩

/-- The complete runs of an implemented program carry out complete runs of it. -/
theorem returns_implement {p : Program Op Ans α} {low : List (Call Low LowAns)} {r : α}
    (run : (p.implement impl).Returns low r) :
    ∃ calls, p.Returns calls r ∧ Realizes impl calls low := by
  induction p generalizing low with
  | done a =>
    obtain ⟨rfl, rfl⟩ := run
    exact ⟨[], ⟨rfl, rfl⟩, .nil⟩
  | step op next ih =>
    obtain ⟨own, rest, ans, rfl, first, second⟩ := (Program.returns_bind _ _ _ _).mp run
    obtain ⟨calls, later, realized⟩ := ih ans second
    exact ⟨⟨op, ans⟩ :: calls, ⟨ans, calls, rfl, later⟩,
      (Realizes.nil.concat ⟨op, ans⟩ first).append realized⟩

theorem stage_of_realizes {calls : List (Call Op Ans)} {low : List (Call Low LowAns)}
    (realized : Realizes impl calls low) {p : Program Op Ans α} (ready : Ready impl p) :
    Stage impl calls p low (p.implement impl) := by
  cases p with
  | done a => exact .finished realized a
  | step op next =>
    obtain ⟨first, rest, body⟩ := ready
    have path : (impl op).Leads [] (.step first rest) := by
      rw [body]
      exact .refl _
    have stage := Stage.within realized next path
    rw [List.append_nil, ← body] at stage
    exact stage

/-- A thread that has finished below has finished above, with the same result. -/
theorem Stage.done {calls : List (Call Op Ans)} {p : Program Op Ans α}
    {low : List (Call Low LowAns)} {a : α} (stage : Stage impl calls p low (.done a)) :
    p = .done a ∧ Realizes impl calls low := by
  generalize ended : Program.done a = q at stage
  cases stage with
  | finished realized b =>
    cases ended
    exact ⟨rfl, realized⟩
  | within realized next path => cases ended

end Levels

/-- `body` carries out the operation `op` of `M` on `N`: it takes effect at the last
step, and the steps before it keep the relation `R`. Without steps it takes
effect by itself. -/
def Machine.CarriesOut (N : Machine τ Low LowAns) (M : Machine σ Op Ans) (R : τ → σ → Prop)
    (op : Op) : Program Low LowAns (Ans op) → Prop
  | .done ans => ∀ t s, R t s → M.answers s op ans ∧ R t (M.effect s op ans)
  | .step low rest => ∀ a, match rest a with
    | .done ans => ∀ t s, R t s → N.answers t low a →
        M.answers s op ans ∧ R (N.effect t low a) (M.effect s op ans)
    | .step _ _ => (∀ t s, R t s → N.answers t low a → R (N.effect t low a) s) ∧
        N.CarriesOut M R op (rest a)

/-- Every operation of `M` is carried out by its implementation on `N`. -/
def Machine.Implements (N : Machine τ Low LowAns)
    (impl : (op : Op) → Program Low LowAns (Ans op)) (M : Machine σ Op Ans)
    (R : τ → σ → Prop) : Prop :=
  ∀ op, N.CarriesOut M R op (impl op)

section Body
variable {M : Machine σ Op Ans} {N : Machine τ Low LowAns} {R : τ → σ → Prop} {op : Op}

theorem Machine.CarriesOut.last {low : Low} {rest : LowAns low → Program Low LowAns (Ans op)}
    (carried : N.CarriesOut M R op (.step low rest)) {a : LowAns low} {ans : Ans op}
    (ended : rest a = .done ans) {t : τ} {s : σ} (related : R t s) (allowed : N.answers t low a) :
    M.answers s op ans ∧ R (N.effect t low a) (M.effect s op ans) := by
  have own := carried a
  rw [ended] at own
  exact own t s related allowed

theorem Machine.CarriesOut.early {low : Low} {rest : LowAns low → Program Low LowAns (Ans op)}
    (carried : N.CarriesOut M R op (.step low rest)) {a : LowAns low} {low' : Low}
    {rest' : LowAns low' → Program Low LowAns (Ans op)} (more : rest a = .step low' rest') :
    (∀ t s, R t s → N.answers t low a → R (N.effect t low a) s) ∧
      N.CarriesOut M R op (rest a) := by
  have own := carried a
  rw [more] at own ⊢
  exact own

/-- What is left of an implementation carries the operation out as well. -/
theorem Machine.CarriesOut.of_leads {body : Program Low LowAns (Ans op)}
    (carried : N.CarriesOut M R op body) {made : List (Call Low LowAns)} {low : Low}
    {rest : LowAns low → Program Low LowAns (Ans op)} (path : body.Leads made (.step low rest)) :
    N.CarriesOut M R op (.step low rest) := by
  generalize left : Program.step low rest = q at path
  induction path with
  | refl p => exact carried
  | @step first next ans calls q tail ih =>
    subst left
    cases more : next ans with
    | done result =>
      rw [more] at tail
      cases tail
    | step low' rest' => exact ih (carried.early more).2 rfl

/-- An implementation of a single step. -/
theorem Machine.carriesOut_single (low : Low) (answer : LowAns low → Ans op)
    (each : ∀ t s, R t s → ∀ a, N.answers t low a →
      M.answers s op (answer a) ∧ R (N.effect t low a) (M.effect s op (answer a))) :
    N.CarriesOut M R op (.step low fun a => .done (answer a)) :=
  fun a t s related allowed => each t s related a allowed

end Body

section Pool
variable {ι : Type} [DecidableEq ι] {M : Machine σ Op Ans} {N : Machine τ Low LowAns}
  {impl : (op : Op) → Program Low LowAns (Ans op)} {R : τ → σ → Prop}

/-- Operations without steps are passed over until the thread has one to make. -/
theorem Machine.Implements.settle (implements : N.Implements impl M R) {t : τ} {s : σ}
    (related : R t s) (pool : ι → Program Op Ans α) (i : ι) {p : Program Op Ans α}
    (head : pool i = p) {calls : List (Call Op Ans)} {low : List (Call Low LowAns)}
    (realized : Realizes impl calls low) :
    ∃ trace s' p', Run M s pool trace s' (Function.update pool i p') ∧ R t s' ∧
      Stage impl (calls ++ callsOf i trace) p' low (p.implement impl) ∧
      ∀ j, j ≠ i → callsOf j trace = [] := by
  induction p generalizing s pool calls with
  | done a =>
    refine ⟨[], s, .done a, ?_, related, ?_, fun j _ => rfl⟩
    · rw [← head, Function.update_eq_self]
      exact .refl _ _
    · rw [callsOf_nil, List.append_nil]
      exact .finished realized a
  | step op next ih =>
    cases body : impl op with
    | step first rest =>
      refine ⟨[], s, .step op next, ?_, related, ?_, fun j _ => rfl⟩
      · rw [← head, Function.update_eq_self]
        exact .refl _ _
      · rw [callsOf_nil, List.append_nil]
        exact stage_of_realizes realized ⟨first, rest, body⟩
    | done ans =>
      obtain ⟨allowed, related'⟩ := by
        have carried := implements op
        rw [body] at carried
        exact carried t s related
      have realized' : Realizes impl (calls ++ [⟨op, ans⟩]) low := by
        have own : (impl op).Returns [] ans := by
          rw [body]
          exact ⟨rfl, rfl⟩
        simpa using realized.concat ⟨op, ans⟩ own
      obtain ⟨trace, s', p', run, final, stage, others⟩ :=
        ih ans related' (Function.update pool i (next ans)) (Function.update_self ..) realized'
      rw [Function.update_idem] at run
      refine ⟨⟨i, ⟨op, ans⟩⟩ :: trace, s', p', .step i head allowed run, final, ?_, ?_⟩
      · rw [callsOf_cons, if_pos rfl, List.append_cons]
        have skipped : (Program.step op next).implement impl = (next ans).implement impl := by
          rw [Program.implement, body]
          rfl
        rw [skipped]
        exact stage
      · intro j other
        rw [callsOf_cons, if_neg (Ne.symm other), others j other]

/-- One smaller step of a thread: nothing above, or the operation it completes
and those without steps behind it. -/
theorem Machine.Implements.step (implements : N.Implements impl M R) {t : τ} {s : σ}
    (related : R t s) {pool : ι → Program Op Ans α} {lowPool : ι → Program Low LowAns α}
    {done : ι → List (Call Op Ans)} {low : ι → List (Call Low LowAns)}
    (stage : ∀ i, Stage impl (done i) (pool i) (low i) (lowPool i)) {i : ι} {op : Low}
    {next : LowAns op → Program Low LowAns α} {a : LowAns op} (head : lowPool i = .step op next)
    (allowed : N.answers t op a) :
    ∃ trace s' pool', Run M s pool trace s' pool' ∧ R (N.effect t op a) s' ∧
      ∀ j, Stage impl (done j ++ callsOf j trace) (pool' j) (low j ++ callsOf j [⟨i, ⟨op, a⟩⟩])
        (Function.update lowPool i (next a) j) := by
  have others : ∀ j, j ≠ i → callsOf j [(⟨i, ⟨op, a⟩⟩ : Act ι Low LowAns)] = [] := by
    intro j other
    rw [callsOf_cons, if_neg (Ne.symm other), callsOf_nil]
  have mine : callsOf i [(⟨i, ⟨op, a⟩⟩ : Act ι Low LowAns)] = [⟨op, a⟩] := by
    rw [callsOf_cons, if_pos rfl, callsOf_nil]
  obtain ⟨made, before, op', next', rest, path, realized, above, split, rfl⟩ :
      ∃ made before op' next' rest, (impl op').Leads made (.step op rest) ∧
        Realizes impl (done i) before ∧ pool i = .step op' next' ∧ low i = before ++ made ∧
        next = fun a => (rest a).bind fun ans => (next' ans).implement impl := by
    have stage := stage i
    rw [head] at stage
    generalize pool i = p, low i = l, left : Program.step op next = q at stage
    cases stage with
    | finished realized b => cases left
    | within realized next' path =>
      cases left
      exact ⟨_, _, _, next', _, path, realized, rfl, rfl, rfl⟩
  cases ended : rest a with
  | step op'' rest' =>
    -- within the same operation
    refine ⟨[], s, pool, .refl _ _, ?_, fun j => ?_⟩
    · exact (((implements op').of_leads path).early ended).1 t s related allowed
    · rw [callsOf_nil, List.append_nil]
      by_cases own : j = i
      · subst own
        have path' := path.concat a
        rw [ended] at path'
        rw [mine, split, above, Function.update_self, List.append_assoc]
        dsimp only
        rw [ended]
        exact .within realized next' path'
      · rw [others j own, List.append_nil, Function.update_of_ne own]
        exact stage j
  | done ans =>
    obtain ⟨allowed', related'⟩ := ((implements op').of_leads path).last ended related allowed
    have own : (impl op').Returns (made ++ [⟨op, a⟩]) ans := by
      rw [← Program.leads_done_iff, ← ended]
      exact path.concat a
    obtain ⟨trace, s', p', run, final, stage', quiet⟩ := implements.settle related'
      (Function.update pool i (next' ans)) i (Function.update_self ..)
      (realized.concat ⟨op', ans⟩ own)
    rw [Function.update_idem] at run
    refine ⟨_, s', _, .step i above allowed' run, final, fun j => ?_⟩
    by_cases own : j = i
    · subst own
      rw [mine, split, callsOf_cons, if_pos rfl, List.append_cons, Function.update_self,
        Function.update_self, List.append_assoc before]
      dsimp only
      rw [ended]
      exact stage'
    · rw [others j own, callsOf_cons, if_neg (Ne.symm own), quiet j own, List.append_nil,
        List.append_nil, Function.update_of_ne own, Function.update_of_ne own]
      exact stage j

/-- Every interleaving of the smaller steps is an interleaving of the operations,
between related states and thread by thread at the same place. -/
theorem Machine.Implements.run (implements : N.Implements impl M R) {t t' : τ} {s : σ}
    {lowPool lowPool' : ι → Program Low LowAns α} {lowTrace : List (Act ι Low LowAns)}
    (ran : Run N t lowPool lowTrace t' lowPool') (related : R t s)
    {pool : ι → Program Op Ans α} (done : ι → List (Call Op Ans))
    (low : ι → List (Call Low LowAns))
    (stage : ∀ i, Stage impl (done i) (pool i) (low i) (lowPool i)) :
    ∃ trace s' pool', Run M s pool trace s' pool' ∧ R t' s' ∧
      ∀ i, Stage impl (done i ++ callsOf i trace) (pool' i) (low i ++ callsOf i lowTrace)
        (lowPool' i) := by
  induction ran generalizing s pool done low with
  | refl t lowPool =>
    refine ⟨[], s, pool, .refl _ _, related, fun i => ?_⟩
    rw [callsOf_nil, callsOf_nil, List.append_nil, List.append_nil]
    exact stage i
  | step i head allowed rest ih =>
    obtain ⟨first, s₁, pool₁, run₁, related₁, stage₁⟩ :=
      implements.step related stage head allowed
    obtain ⟨second, s', pool', run₂, final, stage₂⟩ := ih related₁ _ _ stage₁
    refine ⟨first ++ second, s', pool', run₁.append run₂, final, fun j => ?_⟩
    have placed := stage₂ j
    rw [List.append_assoc, ← callsOf_append, List.append_assoc, ← callsOf_append] at placed
    exact placed

/-- Started together, the two levels stay together. -/
theorem Machine.Implements.exists_run (implements : N.Implements impl M R) {t t' : τ} {s : σ}
    {pool : ι → Program Op Ans α} {lowPool' : ι → Program Low LowAns α}
    {lowTrace : List (Act ι Low LowAns)} (ready : ∀ i, Ready impl (pool i))
    (ran : Run N t (fun i => (pool i).implement impl) lowTrace t' lowPool') (related : R t s) :
    ∃ trace s' pool', Run M s pool trace s' pool' ∧ R t' s' ∧
      ∀ i, Stage impl (callsOf i trace) (pool' i) (callsOf i lowTrace) (lowPool' i) :=
  implements.run ran related (fun _ => []) (fun _ => []) fun i => stage_of_realizes .nil (ready i)

end Pool
end MarginGuard.Foundation
