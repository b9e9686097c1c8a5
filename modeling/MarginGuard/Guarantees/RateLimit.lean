import Mathlib.Tactic.Linarith
import Mathlib.Tactic.Ring
import MarginGuard.Source.Limiter

/-!
# How many calls the rate limiter admits

A call reads the clock before it takes the lock. As long as sections run in the
order of their readings, tokens and admissions are paid by the initial capacity
and the inflow since creation (`admissions_bounded`).

A section that runs with an older reading than the last refill adds nothing but
moves the last refill back, so the next call is credited a second time for the
same stretch of time (`stale_reading_exceeds_bound`).
-/
namespace MarginGuard.Guarantees
open Foundation Source

/-- A step of a call of the limiter. -/
abbrev LimiterAct (ι : Type) := Act ι LimiterOp LimiterAnswer

/-- Any interleaving of calls of `try_acquire` on a limiter created at `t₀`. -/
abbrev Acquiring {ι : Type} [DecidableEq ι] (limiter : RateLimiter) (t₀ : Nat)
    (trace : List (LimiterAct ι)) (s : LimiterState)
    (threads : ι → Program LimiterOp LimiterAnswer Bool) : Prop :=
  Run (limiterMachine limiter) (.created limiter t₀) (fun _ => RateLimiter.tryAcquire) trace s threads

/-- The section admitted its call. -/
def admits : Call LimiterOp LimiterAnswer → Bool
  | ⟨.acquire _ _, admitted⟩ => admitted
  | ⟨.nowNanos, _⟩ => false

/-- The calls admitted in a trace. -/
def admissions {ι : Type} (trace : List (LimiterAct ι)) : Nat := (calls trace).countP admits

/-- Tokens that flow in between two readings. -/
def inflow (limiter : RateLimiter) (t₀ t : Nat) : Rat :=
  limiter.refillPerSec * (((t - t₀ : Nat) : Rat) / 1000000000)

/-- A section does not run with a reading older than the last refill. -/
def InOrder {ι : Type} (s : LimiterState) (_ : List (LimiterAct ι)) (a : LimiterAct ι) : Prop :=
  match a.call.op with
  | .acquire now _ => s.bucket.lastRefillNanos ≤ now
  | .nowNanos => True

instance {ι : Type} : (s : LimiterState) → (front : List (LimiterAct ι)) → (a : LimiterAct ι) →
    Decidable (InOrder s front a)
  | s, _, ⟨_, ⟨.acquire now _, _⟩⟩ => inferInstanceAs (Decidable (s.bucket.lastRefillNanos ≤ now))
  | _, _, ⟨_, ⟨.nowNanos, _⟩⟩ => isTrue trivial

/-! ## One call -/

/-- A call reads the clock once and then asks for one token. -/
theorem returns_tryAcquire {made : List (Call LimiterOp LimiterAnswer)} {admitted : Bool}
    (run : RateLimiter.tryAcquire.Returns made admitted) :
    ∃ now, made = [⟨.nowNanos, now⟩, ⟨.acquire now 1, admitted⟩] := by
  obtain ⟨now, rest, rfl, answer, rest', rfl, rfl, rfl⟩ := run
  exact ⟨now, rfl⟩

/-- Every section asks for one token, with the reading its call has made. -/
def Read (front : List (Call LimiterOp LimiterAnswer)) (c : Call LimiterOp LimiterAnswer) : Prop :=
  match c.op with
  | .acquire now n => n = 1 ∧ ⟨.nowNanos, now⟩ ∈ front
  | .nowNanos => True

theorem limiter_answers (limiter : RateLimiter) (s : LimiterState) (op : LimiterOp) :
    ∃ ans, (limiterMachine limiter).answers s op ans := by
  cases op with
  | nowNanos => exact ⟨s.clock, le_refl s.clock⟩
  | acquire now n => exact ⟨_, rfl⟩

section Run
variable {ι : Type} [DecidableEq ι] {limiter : RateLimiter} {t₀ : Nat}
  {trace : List (LimiterAct ι)} {s : LimiterState}
  {threads : ι → Program LimiterOp LimiterAnswer Bool}

theorem read_before (run : Acquiring limiter t₀ trace s threads) :
    Stepwise (fun front a => Read (callsOf a.thread front) a.call) trace := by
  refine stepwise_of_threads (P := fun _ => Read) fun i => ?_
  obtain ⟨back, admitted, whole, -⟩ := run.exists_completion (limiter_answers limiter) i
  obtain ⟨now, made⟩ := returns_tryAcquire whole
  have each : Stepwise Read (callsOf i trace ++ back) := by
    rw [made, stepwise_cons, stepwise_cons]
    exact ⟨trivial, ⟨rfl, by simp⟩, stepwise_nil _⟩
  exact each.front

/-! ## The run -/

/-- Tokens and admissions so far are paid, and no reading is ahead of the clock. -/
structure Paid (limiter : RateLimiter) (t₀ : Nat) (front : List (LimiterAct ι)) (s : LimiterState) :
    Prop where
  filled : 0 ≤ s.bucket.tokens
  created : t₀ ≤ s.bucket.lastRefillNanos
  shown : s.bucket.lastRefillNanos ≤ s.clock
  readings : ∀ now, ⟨.nowNanos, now⟩ ∈ calls front → now ≤ s.clock
  paid : (admissions front : Rat) + s.bucket.tokens ≤
    limiter.capacity + inflow limiter t₀ s.bucket.lastRefillNanos

omit [DecidableEq ι] in
theorem admissions_concat (front : List (LimiterAct ι)) (a : LimiterAct ι) :
    admissions (front ++ [a]) = admissions front + if admits a.call then 1 else 0 := by
  simp [admissions, calls_append, List.countP_cons]

/-- The inflow up to a later reading is the inflow so far and the refill. -/
theorem inflow_add {last now : Nat} (created : t₀ ≤ last) (forward : last ≤ now) :
    inflow limiter t₀ last + ((now - last : Nat) : Rat) / 1000000000 * limiter.refillPerSec =
      inflow limiter t₀ now := by
  unfold inflow
  rw [Nat.cast_sub created, Nat.cast_sub forward, Nat.cast_sub (created.trans forward)]
  ring

theorem inflow_mono (refill : 0 ≤ limiter.refillPerSec) {t t' : Nat} (later : t ≤ t') :
    inflow limiter t₀ t ≤ inflow limiter t₀ t' := by
  have elapsed : ((t - t₀ : Nat) : Rat) ≤ ((t' - t₀ : Nat) : Rat) :=
    Nat.cast_le.mpr (Nat.sub_le_sub_right later t₀)
  exact mul_le_mul_of_nonneg_left (div_le_div_of_nonneg_right elapsed (by norm_num)) refill

omit [DecidableEq ι] in
theorem paid_created (capacity : 1 ≤ limiter.capacity) :
    Paid limiter t₀ ([] : List (LimiterAct ι)) (.created limiter t₀) where
  filled := zero_le_one.trans capacity
  created := le_refl t₀
  shown := le_refl t₀
  readings := by simp
  paid := by simp [admissions, inflow, LimiterState.created, RateLimiter.withClock]

omit [DecidableEq ι] in
/-- A section in order keeps the account. -/
theorem paid_section (capacity : 1 ≤ limiter.capacity) (refill : 0 ≤ limiter.refillPerSec)
    {front : List (LimiterAct ι)} (before : Paid limiter t₀ front s) {i : ι} {now : Nat}
    {admitted : Bool} (allowed : admitted = (limiter.acquire s.bucket now 1).1)
    (known : now ≤ s.clock) (inOrder : s.bucket.lastRefillNanos ≤ now) :
    Paid limiter t₀ (front ++ [⟨i, ⟨.acquire now 1, admitted⟩⟩])
      { s with bucket := (limiter.acquire s.bucket now 1).2 } := by
  have elapsed : (0 : Rat) ≤ ((now - s.bucket.lastRefillNanos : Nat) : Rat) / 1000000000 :=
    div_nonneg (Nat.cast_nonneg _) (by norm_num)
  have filled := TokenBucket.take_nonneg (zero_le_one.trans capacity) refill before.filled elapsed 1
  have paid := TokenBucket.take_paid limiter.capacity limiter.refillPerSec s.bucket.tokens
    (((now - s.bucket.lastRefillNanos : Nat) : Rat) / 1000000000) 1
  rw [limiter.acquire_eq_take] at allowed ⊢
  subst allowed
  generalize TokenBucket.take limiter.capacity limiter.refillPerSec s.bucket.tokens
    (((now - s.bucket.lastRefillNanos : Nat) : Rat) / 1000000000) 1 = taken at filled paid ⊢
  refine ⟨filled, before.created.trans inOrder, known, ?_, ?_⟩
  · intro now' member
    rw [calls_append, List.mem_append] at member
    rcases member with earlier | own
    · exact before.readings now' earlier
    · cases List.mem_singleton.mp own
  · have charged : ((if admits ⟨.acquire now 1, taken.1⟩ then 1 else 0 : Nat) : Rat) =
        TokenBucket.charge taken.1 1 := by
      cases granted : taken.1 <;> simp [admits, TokenBucket.charge]
    have balance := before.paid
    have flow : inflow limiter t₀ _ + _ = inflow limiter t₀ now := inflow_add before.created inOrder
    rw [admissions_concat, Nat.cast_add, charged]
    dsimp only
    linarith

/-- One step, be it a reading or a section in order, keeps the account. -/
theorem paid_step (capacity : 1 ≤ limiter.capacity) (refill : 0 ≤ limiter.refillPerSec)
    {front : List (LimiterAct ι)} {a : LimiterAct ι} (before : Paid limiter t₀ front s)
    (allowed : (limiterMachine limiter).answers s a.call.op a.call.ans)
    (read : Read (callsOf a.thread front) a.call) (inOrder : InOrder s front a) :
    Paid limiter t₀ (front ++ [a])
      ((limiterMachine limiter).effect s a.call.op a.call.ans) := by
  obtain ⟨i, op, ans⟩ := a
  cases op with
  | nowNanos =>
    refine ⟨before.filled, before.created, before.shown.trans allowed, ?_, ?_⟩
    · intro now member
      rw [calls_append, List.mem_append] at member
      rcases member with earlier | own
      · exact (before.readings now earlier).trans allowed
      · cases List.mem_singleton.mp own
        exact le_refl _
    · have uncounted : admissions (front ++ [⟨i, ⟨.nowNanos, ans⟩⟩]) = admissions front := by
        simp [admissions_concat, admits]
      rw [uncounted]
      exact before.paid
  | acquire now n =>
    obtain ⟨rfl, reading⟩ := read
    have known : now ≤ s.clock := by
      obtain ⟨b, member, -, same⟩ := mem_callsOf.mp reading
      exact before.readings now (List.mem_map.mpr ⟨b, member, same⟩)
    exact paid_section capacity refill before allowed known inOrder

end Run

/-- While every section runs with a reading no older than the last refill, the
calls admitted by the time the clock shows `t` are at most the capacity plus
what flows in from `t₀` to `t`. -/
theorem admissions_bounded {ι : Type} [DecidableEq ι] {limiter : RateLimiter} {t₀ : Nat}
    {trace : List (LimiterAct ι)} {s : LimiterState}
    {threads : ι → Program LimiterOp LimiterAnswer Bool} (capacity : 1 ≤ limiter.capacity)
    (refill : 0 ≤ limiter.refillPerSec) (run : Acquiring limiter t₀ trace s threads)
    (inOrder : Throughout (limiterMachine limiter) InOrder (.created limiter t₀) trace)
    {t : Nat} (shown : s.clock ≤ t) :
    (admissions trace : Rat) ≤ limiter.capacity + inflow limiter t₀ t := by
  have paid : Paid limiter t₀ trace
      ((limiterMachine limiter).after (.created limiter t₀) (calls trace)) := by
    refine Stepwise.induction (I := fun front => Paid limiter t₀ front
      ((limiterMachine limiter).after (.created limiter t₀) (calls front)))
      (paid_created capacity) ?_
    intro front a back split before
    rw [after_concat]
    exact paid_step capacity refill before (run.allowed front a back split)
      (read_before run front a back split) (inOrder front a back split)
  rw [← run.after_eq] at paid
  have filled := paid.filled
  have total := paid.paid
  have later : inflow limiter t₀ s.bucket.lastRefillNanos ≤ inflow limiter t₀ t :=
    inflow_mono refill (paid.shown.trans shown)
  linarith

/-! ## Schedules -/

/-- The answers when the clock shows `shown`. -/
def limiterAnswer (limiter : RateLimiter) (shown : Nat) (s : LimiterState) :
    (op : LimiterOp) → LimiterAnswer op
  | .nowNanos => shown
  | .acquire now n => (limiter.acquire s.bucket now n).1

/-- A schedule of calls whose outcome passes a check gives an interleaving that does. -/
theorem exists_acquiring {ι : Type} [DecidableEq ι] (limiter : RateLimiter) (t₀ : Nat)
    (schedule : List (ι × Nat)) (check : List (LimiterAct ι) → LimiterState → Prop)
    [∀ trace s, Decidable (check trace s)]
    (passed : (play (limiterMachine limiter) (limiterAnswer limiter) schedule
      (.created limiter t₀) fun _ => RateLimiter.tryAcquire).any
        (fun out => check out.1 out.2.1) = true) :
    ∃ trace s threads, Acquiring limiter t₀ trace s threads ∧ check trace s := by
  obtain ⟨⟨trace, s, threads⟩, played, checked⟩ := (Option.any_eq_true _ _).mp passed
  exact ⟨trace, s, threads, play_run _ schedule played, of_decide_eq_true checked⟩

/-- One token, one a second: four calls, two admitted by second one. -/
theorem admissions_bounded_in_turn : ∃ (trace : List (LimiterAct (Fin 4))) (s : LimiterState)
    (threads : _), Acquiring ⟨1, 1⟩ 0 trace s threads ∧ admissions trace = 2 ∧
      ((2 : Nat) : Rat) ≤ 1 + inflow ⟨1, 1⟩ 0 1000000000 := by
  obtain ⟨trace, s, threads, run, admitted, inOrder, shown⟩ := exists_acquiring ⟨1, 1⟩ 0
    [((0 : Fin 4), 0), (1, 0), (0, 0), (1, 0), (2, 1000000000), (2, 1000000000), (3, 1000000000),
      (3, 1000000000)]
    (fun trace s => admissions trace = 2 ∧
      Throughout (limiterMachine ⟨1, 1⟩) InOrder (.created ⟨1, 1⟩ 0) trace ∧ s.clock ≤ 1000000000)
    (by decide +kernel)
  have bound := admissions_bounded (by decide) (by decide) run inOrder shown
  rw [admitted] at bound
  exact ⟨trace, s, threads, run, admitted, bound⟩

/-- One token, one a second: call 0 reads the clock at creation and runs its
section between those of calls 2 and 3, which both read it at second one. Three
calls are admitted where two are allowed. -/
theorem stale_reading_exceeds_bound :
    ¬ ∀ (n : Nat) (limiter : RateLimiter) (t₀ : Nat) (trace : List (LimiterAct (Fin n)))
      (s : LimiterState) (threads : Fin n → Program LimiterOp LimiterAnswer Bool),
      1 ≤ limiter.capacity → 0 ≤ limiter.refillPerSec → Acquiring limiter t₀ trace s threads →
        ∀ t, s.clock ≤ t → (admissions trace : Rat) ≤ limiter.capacity + inflow limiter t₀ t := by
  intro bounded
  obtain ⟨trace, s, threads, run, admitted, shown⟩ := exists_acquiring ⟨1, 1⟩ 0
    [((0 : Fin 4), 0), (1, 0), (1, 0), (2, 1000000000), (2, 1000000000), (0, 1000000000),
      (3, 1000000000), (3, 1000000000)]
    (fun trace s => admissions trace = 3 ∧ s.clock ≤ 1000000000) (by decide +kernel)
  have bound := bounded 4 ⟨1, 1⟩ 0 trace s threads (by decide) (by decide) run 1000000000 shown
  rw [admitted] at bound
  exact absurd bound (by decide +kernel)

end MarginGuard.Guarantees
