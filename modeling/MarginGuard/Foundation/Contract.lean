import MarginGuard.Foundation.Interleaving

/-!
# Contracts of programs

`Program.Obeys good sound post p`: while every answer it gets is sound, `p`
performs good operations only, and what it returns satisfies `post`. A machine
upholds a contract under an invariant when good operations keep the invariant
and get sound answers. Programs that obey the contract then perform nothing but
good operations in every interleaving, and the invariant holds throughout
(`Run.obeys`).
-/
namespace MarginGuard.Foundation
variable {σ ι Op α β ε : Type} {Ans : Op → Type} {good : Op → Prop}
  {sound : (op : Op) → Ans op → Prop}

namespace Program

/-- While the answers are sound the operations are good, and so is the result. -/
def Obeys (good : Op → Prop) (sound : (op : Op) → Ans op → Prop) (post : α → Prop) :
    Program Op Ans α → Prop
  | .done a => post a
  | .step op next => good op ∧ ∀ ans, sound op ans → (next ans).Obeys good sound post

theorem Obeys.bind {p : Program Op Ans α} {f : α → Program Op Ans β} {mid : α → Prop}
    {post : β → Prop} (first : p.Obeys good sound mid)
    (second : ∀ a, mid a → (f a).Obeys good sound post) : (p.bind f).Obeys good sound post := by
  induction p with
  | done a => exact second a first
  | step op next ih => exact ⟨first.1, fun ans trusted => ih ans (first.2 ans trusted)⟩

theorem Obeys.weaken {p : Program Op Ans α} {post post' : α → Prop} (obeys : p.Obeys good sound post)
    (weaker : ∀ a, post a → post' a) : p.Obeys good sound post' := by
  induction p with
  | done a => exact weaker a obeys
  | step op next ih => exact ⟨obeys.1, fun ans trusted => ih ans (obeys.2 ans trusted)⟩

/-- A complete run of a program that obeys a contract makes good calls only, if its
answers were sound. -/
theorem Obeys.good_of_returns {p : Program Op Ans α} {post : α → Prop} {made : List (Call Op Ans)}
    {r : α} (obeys : p.Obeys good sound post) (ran : p.Returns made r)
    (trusted : ∀ c ∈ made, sound c.op c.ans) : ∀ c ∈ made, good c.op := by
  induction p generalizing made with
  | done a =>
    obtain ⟨rfl, -⟩ := ran
    simp
  | step op next ih =>
    obtain ⟨ans, rest, rfl, later⟩ := ran
    obtain ⟨own, others⟩ := List.forall_mem_cons.mp trusted
    exact List.forall_mem_cons.mpr ⟨obeys.1, ih ans (obeys.2 ans own) later others⟩

/-- A program with errors obeys a contract; `post` is about what it delivers. -/
abbrev Delivers (good : Op → Prop) (sound : (op : Op) → Ans op → Prop) (post : α → Prop)
    (p : ExceptT ε (Program Op Ans) α) : Prop :=
  Obeys good sound (fun r : Except ε α => ∀ a, r = .ok a → post a) p

theorem delivers_pure {post : α → Prop} {a : α} (done : post a) :
    Delivers good sound post (pure a : ExceptT ε (Program Op Ans) α) := by
  intro b same
  rwa [← Except.ok.inj same]

theorem delivers_throw {post : α → Prop} (e : ε) :
    Delivers good sound post (throw e : ExceptT ε (Program Op Ans) α) := by
  intro a same
  cases same

theorem Delivers.bind {p : ExceptT ε (Program Op Ans) α} {f : α → ExceptT ε (Program Op Ans) β}
    {mid : α → Prop} {post : β → Prop} (first : Delivers good sound mid p)
    (second : ∀ a, mid a → Delivers good sound post (f a)) :
    Delivers good sound post (p >>= f) := by
  refine Obeys.bind first fun r delivered => ?_
  cases r with
  | error e => exact delivers_throw e
  | ok a => exact second a (delivered a rfl)

theorem Delivers.weaken {p : ExceptT ε (Program Op Ans) α} {post post' : α → Prop}
    (delivers : Delivers good sound post p) (weaker : ∀ a, post a → post' a) :
    Delivers good sound post' p :=
  Obeys.weaken delivers fun _ delivered a same => weaker a (delivered a same)

theorem delivers_lift {op : Op} (fine : good op) :
    Delivers good sound (sound op) (ExceptT.lift (perform op) : ExceptT ε (Program Op Ans) _) :=
  ⟨fine, fun ans trusted b same => by rwa [← Except.ok.inj same]⟩

end Program

/-- Under the invariant, good operations get sound answers and keep it. -/
structure Machine.Upholds (M : Machine σ Op Ans) (Inv : σ → Prop) (good : Op → Prop)
    (sound : (op : Op) → Ans op → Prop) : Prop where
  sound : ∀ {s op ans}, Inv s → good op → M.answers s op ans → sound op ans
  keeps : ∀ {s op ans}, Inv s → good op → M.answers s op ans → Inv (M.effect s op ans)

/-- Fewer operations keep a machine's contract all the more. -/
theorem Machine.Upholds.mono {M : Machine σ Op Ans} {Inv : σ → Prop} {good' : Op → Prop}
    (upholds : M.Upholds Inv good sound) (fewer : ∀ op, good' op → good op) :
    M.Upholds Inv good' sound where
  sound holds fine answered := upholds.sound holds (fewer _ fine) answered
  keeps holds fine answered := upholds.keeps holds (fewer _ fine) answered

/-- Every program obeys the contract without conditions. -/
theorem Program.obeys_trivial (p : Program Op Ans α) :
    p.Obeys (fun _ => True) sound fun _ => True := by
  induction p with
  | done a => trivial
  | step op next ih => exact ⟨trivial, fun ans _ => ih ans⟩

/-- Programs that obey contracts of the machine, each its own, keep to them
together. What a thread has left to do obeys its contract as well. -/
theorem Run.obeys [DecidableEq ι] {M : Machine σ Op Ans} {Inv : σ → Prop} {good : ι → Op → Prop}
    {post : ι → α → Prop} (upholds : ∀ i, M.Upholds Inv (good i) sound) {s s' : σ}
    {pool pool' : ι → Program Op Ans α} {trace : List (Act ι Op Ans)}
    (run : Run M s pool trace s' pool') (holds : Inv s)
    (obeys : ∀ i, (pool i).Obeys (good i) sound (post i)) :
    Inv s' ∧ (∀ a ∈ trace, good a.thread a.call.op ∧ sound a.call.op a.call.ans) ∧
      ∀ i, (pool' i).Obeys (good i) sound (post i) := by
  induction run with
  | refl => exact ⟨holds, by simp, obeys⟩
  | @step s s' pool pool' trace i op next ans head allowed rest ih =>
    obtain ⟨fine, tail⟩ : good i op ∧ ∀ ans, sound op ans →
        (next ans).Obeys (good i) sound (post i) := by
      have own := obeys i
      rwa [head] at own
    have trusted := (upholds i).sound holds fine allowed
    obtain ⟨final, others, left⟩ := ih ((upholds i).keeps holds fine allowed) fun j => by
      by_cases same : j = i
      · subst same
        rw [Function.update_self]
        exact tail ans trusted
      · rw [Function.update_of_ne same]
        exact obeys j
    refine ⟨final, fun a member => ?_, left⟩
    rcases List.mem_cons.mp member with rfl | later
    · exact ⟨fine, trusted⟩
    · exact others a later

end MarginGuard.Foundation
