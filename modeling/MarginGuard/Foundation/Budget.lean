import Mathlib.Algebra.Ring.Nat
import MarginGuard.Foundation.Interleaving

/-!
# Programs that live within a budget

A program pays one credit for each call and may earn credits by the answers it
gets (`worth`). `Program.Within worth post p n` says that `n` credits are enough
whatever the answers are, and that `post` holds of the result and of the credits
left over. The calls a thread has made are then bounded by its budget and its
earnings, whatever the other threads do (`Run.length_le`); and where every
operation has an answer, a thread that has not finished can go on
(`Run.proceeds`).
-/
namespace MarginGuard.Foundation
variable {σ ι Op α β ε : Type} {Ans : Op → Type} {worth : Call Op Ans → Nat} {n : Nat}

namespace Program

/-- With `n` credits the program returns before it runs out. -/
def Within (worth : Call Op Ans → Nat) (post : α → Nat → Prop) : Program Op Ans α → Nat → Prop
  | .done a, n => post a n
  | .step op next, n => 0 < n ∧ ∀ ans, (next ans).Within worth post (n - 1 + worth ⟨op, ans⟩)

theorem Within.bind {p : Program Op Ans α} {f : α → Program Op Ans β} {mid : α → Nat → Prop}
    {post : β → Nat → Prop} (first : p.Within worth mid n)
    (second : ∀ a m, mid a m → (f a).Within worth post m) : (p.bind f).Within worth post n := by
  induction p generalizing n with
  | done a => exact second a n first
  | step op next ih => exact ⟨first.1, fun ans => ih ans (first.2 ans)⟩

/-- More credits do no harm. -/
theorem Within.mono {p : Program Op Ans α} {post : α → Nat → Prop} {n' : Nat} (more : n ≤ n')
    (keeps : ∀ a m m', m ≤ m' → post a m → post a m') (within : p.Within worth post n) :
    p.Within worth post n' := by
  induction p generalizing n n' with
  | done a => exact keeps a n n' more within
  | step op next ih => exact ⟨within.1.trans_le more, fun ans => ih ans (by omega) (within.2 ans)⟩

/-- Every call was paid for, and what is left of the program lives on the rest. -/
theorem Within.left {p q : Program Op Ans α} {post : α → Nat → Prop} {made : List (Call Op Ans)}
    (within : p.Within worth post n) (leads : p.Leads made q) :
    made.length ≤ n + (made.map worth).sum ∧
      q.Within worth post (n + (made.map worth).sum - made.length) := by
  induction leads generalizing n with
  | refl => exact ⟨Nat.zero_le _, within⟩
  | @step op next ans made q rest ih =>
    obtain ⟨pays, later⟩ := within
    obtain ⟨paid, lives⟩ := ih (later ans)
    rw [List.length_cons, List.map_cons, List.sum_cons]
    refine ⟨by omega, ?_⟩
    have same : n - 1 + worth ⟨op, ans⟩ + (made.map worth).sum - made.length =
        n + (worth ⟨op, ans⟩ + (made.map worth).sum) - (made.length + 1) := by omega
    rwa [← same]

/-- A program with errors lives within its budget; `post` is about what it
delivers. -/
abbrev Lasts (worth : Call Op Ans → Nat) (post : α → Nat → Prop)
    (p : ExceptT ε (Program Op Ans) α) (n : Nat) : Prop :=
  Within worth (fun (r : Except ε α) m => ∀ a, r = .ok a → post a m) p n

theorem lasts_pure {post : α → Nat → Prop} {a : α} (done : post a n) :
    Lasts worth post (pure a : ExceptT ε (Program Op Ans) α) n := by
  intro b same
  rwa [← Except.ok.inj same]

theorem lasts_throw {post : α → Nat → Prop} (e : ε) :
    Lasts worth post (throw e : ExceptT ε (Program Op Ans) α) n := by
  intro a same
  cases same

theorem Lasts.bind {p : ExceptT ε (Program Op Ans) α} {f : α → ExceptT ε (Program Op Ans) β}
    {mid : α → Nat → Prop} {post : β → Nat → Prop} (first : Lasts worth mid p n)
    (second : ∀ a m, mid a m → Lasts worth post (f a) m) : Lasts worth post (p >>= f) n := by
  refine Within.bind first fun r m delivered => ?_
  cases r with
  | error e => exact lasts_throw e
  | ok a => exact second a m (delivered a rfl)

/-- One call costs at most one credit. -/
theorem lasts_lift {op : Op} (pays : 0 < n) :
    Lasts worth (fun _ m => n ≤ m + 1) (ExceptT.lift (perform op) : ExceptT ε (Program Op Ans) _) n :=
  ⟨pays, fun ans _ _ => by omega⟩

end Program

namespace Run
variable [DecidableEq ι] {M : Machine σ Op Ans} {s s' : σ} {pool pool' : ι → Program Op Ans α}
  {trace : List (Act ι Op Ans)}

/-- A thread makes no more calls than its budget and its earnings allow. -/
theorem length_le (run : Run M s pool trace s' pool') {i : ι} {post : α → Nat → Prop}
    (within : (pool i).Within worth post n) :
    (callsOf i trace).length ≤ n + ((callsOf i trace).map worth).sum :=
  (within.left (run.leads i)).1

/-- When it has made so many, it has finished. -/
theorem length_lt (run : Run M s pool trace s' pool') {i : ι} {post : α → Nat → Prop}
    (within : (pool i).Within worth post n) (unfinished : (pool' i).result = none) :
    (callsOf i trace).length < n + ((callsOf i trace).map worth).sum := by
  obtain ⟨-, lives⟩ := within.left (run.leads i)
  cases head : pool' i with
  | done a =>
    rw [head] at unfinished
    cases unfinished
  | step op next =>
    rw [head] at lives
    exact Nat.lt_of_sub_pos lives.1

/-- A thread that has not finished can make its next call at once. -/
theorem proceeds (total : ∀ s op, ∃ ans, M.answers s op ans) {i : ι}
    (unfinished : (pool i).result = none) : ∃ c s' pool', Run M s pool [⟨i, c⟩] s' pool' := by
  cases head : pool i with
  | done a =>
    rw [head] at unfinished
    cases unfinished
  | step op next =>
    obtain ⟨ans, answered⟩ := total s op
    exact ⟨⟨op, ans⟩, _, _, .step i head answered (.refl _ _)⟩

end Run
end MarginGuard.Foundation
