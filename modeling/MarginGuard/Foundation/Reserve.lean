import Mathlib.Algebra.Order.Ring.Defs
import Mathlib.Algebra.BigOperators.Group.List.Basic
import Mathlib.Data.List.Perm.Basic
import Mathlib.Tactic.Linarith
import Mathlib.Tactic.Ring

/-!
# A capped reserve that absorbs shortfalls

A reserve takes credits, capped to `lo..hi`, and draws. A draw takes what the
reserve has, leaves the rest uncovered and never leaves the reserve below zero.
Amounts are any ordered ring.

* Value: without clipping, the balance is the start plus credits minus draws plus
  `deficiency`, the value draws left unpaid; `deficiency` in turn is the largest
  deficit the plain running balance shows at a draw (`deficiency_eq`).
* Order: with credits of one sign, balance and uncovered total are independent of
  the order of the flows exactly when there is no draw, no effective credit, or
  enough in the reserve for every order (`orderFree_iff`).
* Comparison: of two reserves under the same flows the larger stays larger and
  leaves less uncovered, and the surplus is accounted for (`surplus_kept`).
-/
namespace MarginGuard.Foundation

/-- A movement of a reserve. -/
inductive Flow (α : Type) where
  | credit (amount : α)
  | draw (shortfall : α)
  deriving DecidableEq

namespace Flow
variable {α : Type}

def isDraw : Flow α → Bool
  | .credit _ => false
  | .draw _ => true

@[simp] theorem isDraw_credit (amount : α) : (credit amount).isDraw = false := rfl

@[simp] theorem isDraw_draw (shortfall : α) : (draw shortfall).isDraw = true := rfl

end Flow

namespace Reserve
variable {α : Type} [CommRing α] [LinearOrder α]

/-- The balance after one flow. -/
def step (lo hi balance : α) : Flow α → α
  | .credit amount => max lo (min hi (balance + amount))
  | .draw shortfall => max (balance - shortfall) 0

/-- The balance after flows in order. -/
def after (lo hi balance : α) (flows : List (Flow α)) : α := flows.foldl (step lo hi) balance

/-- What a draw leaves to others: the reserve pays from a positive balance only. -/
def unpaid (balance : α) : Flow α → α
  | .credit _ => 0
  | .draw shortfall => max (shortfall - max balance 0) 0

/-- What all draws together leave to others. -/
def uncovered (lo hi balance : α) : List (Flow α) → α
  | [] => 0
  | flow :: flows => unpaid balance flow + uncovered lo hi (step lo hi balance flow) flows

/-- How far draws would have taken the balance below zero. -/
def deficiency (lo hi balance : α) : List (Flow α) → α
  | [] => 0
  | .credit amount :: flows => deficiency lo hi (step lo hi balance (.credit amount)) flows
  | .draw shortfall :: flows =>
    max (shortfall - balance) 0 + deficiency lo hi (step lo hi balance (.draw shortfall)) flows

/-- No credit is capped. -/
def Unclipped (lo hi balance : α) : List (Flow α) → Prop
  | [] => True
  | .credit amount :: flows =>
    (lo ≤ balance + amount ∧ balance + amount ≤ hi) ∧ Unclipped lo hi (balance + amount) flows
  | .draw shortfall :: flows => Unclipped lo hi (max (balance - shortfall) 0) flows

instance decidableUnclipped (lo hi : α) : (balance : α) → (flows : List (Flow α)) →
    Decidable (Unclipped lo hi balance flows)
  | _, [] => .isTrue trivial
  | balance, .credit amount :: flows =>
    have := decidableUnclipped lo hi (balance + amount) flows
    inferInstanceAs (Decidable (_ ∧ _))
  | balance, .draw shortfall :: flows => decidableUnclipped lo hi (max (balance - shortfall) 0) flows

/-- Sum of the credits. -/
def credits : List (Flow α) → α
  | [] => 0
  | .credit amount :: flows => amount + credits flows
  | .draw _ :: flows => credits flows

/-- Sum of the draws. -/
def draws : List (Flow α) → α
  | [] => 0
  | .credit _ :: flows => draws flows
  | .draw shortfall :: flows => shortfall + draws flows

/-- The largest deficit of the plain running balance at a draw, zero if none. -/
def peakDeficit (balance : α) : List (Flow α) → α
  | [] => 0
  | .credit amount :: flows => peakDeficit (balance + amount) flows
  | .draw shortfall :: flows =>
    max (shortfall - balance) (peakDeficit (balance - shortfall) flows)

section Lists
variable (lo hi balance : α)

theorem after_append (front back : List (Flow α)) :
    after lo hi balance (front ++ back) = after lo hi (after lo hi balance front) back :=
  List.foldl_append

theorem uncovered_append (front back : List (Flow α)) :
    uncovered lo hi balance (front ++ back) =
      uncovered lo hi balance front + uncovered lo hi (after lo hi balance front) back := by
  induction front generalizing balance with
  | nil => simp [uncovered, after]
  | cons flow front ih =>
    rw [List.cons_append, uncovered, uncovered, ih, add_assoc]
    rfl

omit [LinearOrder α] in
theorem credits_append (front back : List (Flow α)) :
    credits (front ++ back) = credits front + credits back := by
  induction front with
  | nil => simp [credits]
  | cons flow front ih => cases flow <;> simp [credits, ih, add_assoc]

omit [LinearOrder α] in
theorem draws_append (front back : List (Flow α)) :
    draws (front ++ back) = draws front + draws back := by
  induction front with
  | nil => simp [draws]
  | cons flow front ih => cases flow <;> simp [draws, ih, add_assoc]

omit [LinearOrder α] in
theorem credits_perm {flows flows' : List (Flow α)} (perm : flows.Perm flows') :
    credits flows = credits flows' := by
  induction perm with
  | nil => rfl
  | cons flow _ ih => cases flow <;> simp [credits, ih]
  | swap first second _ => cases first <;> cases second <;> simp [credits, add_left_comm]
  | trans _ _ first second => exact first.trans second

omit [LinearOrder α] in
theorem draws_perm {flows flows' : List (Flow α)} (perm : flows.Perm flows') :
    draws flows = draws flows' := by
  induction perm with
  | nil => rfl
  | cons flow _ ih => cases flow <;> simp [draws, ih]
  | swap first second _ => cases first <;> cases second <;> simp [draws, add_left_comm]
  | trans _ _ first second => exact first.trans second

omit [LinearOrder α] in
theorem draws_filter_isDraw (flows : List (Flow α)) :
    draws (flows.filter Flow.isDraw) = draws flows := by
  induction flows with
  | nil => rfl
  | cons flow flows ih =>
    cases flow with
    | credit amount => simpa [draws] using ih
    | draw shortfall => rw [List.filter_cons_of_pos rfl, draws, draws, ih]

omit [LinearOrder α] in
theorem credits_filter_not_isDraw (flows : List (Flow α)) :
    credits (flows.filter fun flow => !flow.isDraw) = credits flows := by
  induction flows with
  | nil => rfl
  | cons flow flows ih => cases flow <;> simp [credits, ih]

end Lists

variable [IsStrictOrderedRing α] {lo hi balance : α}

/-! ## Value -/

theorem step_draw (lo hi balance shortfall : α) :
    step lo hi balance (.draw shortfall) =
      balance - shortfall + max (shortfall - balance) 0 := by
  rcases le_total balance shortfall with short | enough
  · rw [step, max_eq_right (by linarith), max_eq_left (by linarith)]
    linarith
  · rw [step, max_eq_left (by linarith), max_eq_right (by linarith)]
    linarith

omit [IsStrictOrderedRing α] in
theorem step_credit {amount : α} (above : lo ≤ balance + amount) (below : balance + amount ≤ hi) :
    step lo hi balance (.credit amount) = balance + amount := by
  rw [step, min_eq_right below, max_eq_right above]

/-- The value equation of a reserve. -/
theorem after_eq {flows : List (Flow α)} (unclipped : Unclipped lo hi balance flows) :
    after lo hi balance flows =
      balance + credits flows - draws flows + deficiency lo hi balance flows := by
  induction flows generalizing balance with
  | nil => simp [after, credits, draws, deficiency]
  | cons flow flows ih =>
    cases flow with
    | credit amount =>
      have moved := step_credit unclipped.1.1 unclipped.1.2
      have rest := ih unclipped.2
      rw [after] at rest
      rw [after, List.foldl_cons, credits, draws, deficiency, moved]
      linarith
    | draw shortfall =>
      have moved := step_draw lo hi balance shortfall
      have rest := @ih (step lo hi balance (.draw shortfall)) unclipped
      rw [after] at rest
      rw [after, List.foldl_cons, credits, draws, deficiency]
      linarith

/-- Starting lower by `debt` deepens every deficit by `debt`. -/
theorem max_peakDeficit_sub (balance : α) {debt : α} (nonneg : 0 ≤ debt) (flows : List (Flow α)) :
    max debt (peakDeficit (balance - debt) flows) = debt + peakDeficit balance flows := by
  induction flows generalizing balance with
  | nil => simp [peakDeficit, nonneg]
  | cons flow flows ih =>
    cases flow with
    | credit amount =>
      have moved : balance - debt + amount = balance + amount - debt := by ring
      rw [peakDeficit, peakDeficit, moved, ih]
    | draw shortfall =>
      have moved : balance - debt - shortfall = balance - shortfall - debt := by ring
      have deeper : shortfall - (balance - debt) = debt + (shortfall - balance) := by ring
      rw [peakDeficit, peakDeficit, moved, deeper, max_left_comm, ih, max_add_add_left]

/-- `peakDeficit` is the least bound on the deficits at draws. -/
theorem peakDeficit_le_iff {flows : List (Flow α)} {bound : α} :
    peakDeficit balance flows ≤ bound ↔ 0 ≤ bound ∧ ∀ front shortfall back,
      flows = front ++ .draw shortfall :: back →
        draws front + shortfall - credits front - balance ≤ bound := by
  induction flows generalizing balance with
  | nil => simp [peakDeficit]
  | cons flow flows ih =>
    have headed : (∀ front shortfall back, flow :: flows = front ++ .draw shortfall :: back →
          draws front + shortfall - credits front - balance ≤ bound) ↔
        (∀ shortfall, flow = .draw shortfall → shortfall - balance ≤ bound) ∧
        (∀ front shortfall back, flows = front ++ .draw shortfall :: back →
          draws (flow :: front) + shortfall - credits (flow :: front) - balance ≤ bound) := by
      constructor
      · intro all
        refine ⟨fun shortfall same => ?_, fun front shortfall back same => ?_⟩
        · simpa [draws, credits] using all [] shortfall flows (by rw [same]; rfl)
        · exact all (flow :: front) shortfall back (by rw [same]; rfl)
      · rintro ⟨first, later⟩ front shortfall back same
        cases front with
        | nil =>
          obtain ⟨rfl, rfl⟩ := List.cons.inj same
          simpa [draws, credits] using first shortfall rfl
        | cons flow' front =>
          obtain ⟨rfl, rfl⟩ := List.cons.inj same
          exact later front shortfall back rfl
    rw [headed]
    cases flow with
    | credit amount =>
      rw [peakDeficit, ih]
      refine and_congr_right fun _ => ?_
      simp only [reduceCtorEq, false_implies, implies_true, true_and, draws, credits]
      refine forall₃_congr fun front shortfall back => imp_congr_right fun _ => ?_
      constructor <;> intro h <;> linarith
    | draw first =>
      rw [peakDeficit, max_le_iff, ih, and_left_comm]
      refine and_congr_right fun _ => and_congr ?_ ?_
      · simp
      · simp only [draws, credits]
        refine forall₃_congr fun front shortfall back => imp_congr_right fun _ => ?_
        constructor <;> intro h <;> linarith

theorem peakDeficit_nonneg (balance : α) (flows : List (Flow α)) :
    0 ≤ peakDeficit balance flows := (peakDeficit_le_iff.mp le_rfl).1

/-- The value draws left unpaid is the largest running deficit. -/
theorem deficiency_eq {flows : List (Flow α)} (unclipped : Unclipped lo hi balance flows) :
    deficiency lo hi balance flows = peakDeficit balance flows := by
  induction flows generalizing balance with
  | nil => rfl
  | cons flow flows ih =>
    cases flow with
    | credit amount =>
      rw [deficiency, peakDeficit, step_credit unclipped.1.1 unclipped.1.2, ih unclipped.2]
    | draw shortfall =>
      rw [deficiency, peakDeficit, step, ih unclipped]
      rcases le_total balance shortfall with short | enough
      · have debt := max_peakDeficit_sub 0 (sub_nonneg.mpr short) flows
        have below : 0 - (shortfall - balance) = balance - shortfall := by ring
        rw [below] at debt
        rw [max_eq_left (by linarith : 0 ≤ shortfall - balance),
          max_eq_right (by linarith : balance - shortfall ≤ 0), debt]
      · have nonneg := peakDeficit_nonneg (balance - shortfall) flows
        rw [max_eq_right (by linarith : shortfall - balance ≤ 0),
          max_eq_left (by linarith : 0 ≤ balance - shortfall), max_eq_right (by linarith), zero_add]

/-! ## Order -/

/-- Every order of the flows leaves the same balance and the same uncovered total. -/
def OrderFree (lo hi balance : α) (flows : List (Flow α)) : Prop :=
  ∀ one other : List (Flow α), one.Perm flows → other.Perm flows →
    after lo hi balance one = after lo hi balance other ∧
      uncovered lo hi balance one = uncovered lo hi balance other

/-- Credits of one sign: at one fee rate the fund only gains, or only loses. -/
def OneSign (flows : List (Flow α)) : Prop :=
  (∀ amount, .credit amount ∈ flows → 0 ≤ amount) ∨
    (∀ amount, .credit amount ∈ flows → amount ≤ 0)

theorem draws_nonneg {flows : List (Flow α)}
    (positive : ∀ shortfall, .draw shortfall ∈ flows → 0 < shortfall) : 0 ≤ draws flows := by
  induction flows with
  | nil => exact le_refl _
  | cons flow flows ih =>
    have rest := ih fun shortfall member => positive shortfall (by simp [member])
    cases flow with
    | credit amount => exact rest
    | draw shortfall =>
      have first := positive shortfall (by simp)
      rw [draws]
      linarith

theorem draws_pos {flows : List (Flow α)}
    (positive : ∀ shortfall, .draw shortfall ∈ flows → 0 < shortfall) {shortfall : α}
    (member : .draw shortfall ∈ flows) : 0 < draws flows := by
  obtain ⟨front, back, rfl⟩ := List.append_of_mem member
  have first := draws_nonneg fun s m => positive s (List.mem_append_left _ m)
  have rest := draws_nonneg fun s m =>
    positive s (List.mem_append_right _ (List.mem_cons_of_mem _ m))
  have own := positive shortfall member
  rw [draws_append, draws]
  linarith

theorem credits_nonneg {flows : List (Flow α)}
    (gains : ∀ amount, .credit amount ∈ flows → 0 ≤ amount) : 0 ≤ credits flows := by
  induction flows with
  | nil => exact le_refl _
  | cons flow flows ih =>
    have rest := ih fun amount member => gains amount (by simp [member])
    cases flow with
    | draw shortfall => exact rest
    | credit amount =>
      have first := gains amount (by simp)
      rw [credits]
      linarith

theorem credits_nonpos {flows : List (Flow α)}
    (losses : ∀ amount, .credit amount ∈ flows → amount ≤ 0) : credits flows ≤ 0 := by
  induction flows with
  | nil => exact le_refl _
  | cons flow flows ih =>
    have rest := ih fun amount member => losses amount (by simp [member])
    cases flow with
    | draw shortfall => exact rest
    | credit amount =>
      have first := losses amount (by simp)
      rw [credits]
      linarith

theorem credits_pos {flows : List (Flow α)}
    (gains : ∀ amount, .credit amount ∈ flows → 0 ≤ amount) {amount : α}
    (member : .credit amount ∈ flows) (effective : 0 < amount) : 0 < credits flows := by
  obtain ⟨front, back, rfl⟩ := List.append_of_mem member
  have before := credits_nonneg fun a m => gains a (List.mem_append_left _ m)
  have later := credits_nonneg fun a m =>
    gains a (List.mem_append_right _ (List.mem_cons_of_mem _ m))
  rw [credits_append, credits]
  linarith

theorem credits_neg {flows : List (Flow α)}
    (losses : ∀ amount, .credit amount ∈ flows → amount ≤ 0) {amount : α}
    (member : .credit amount ∈ flows) (effective : amount < 0) : credits flows < 0 := by
  obtain ⟨front, back, rfl⟩ := List.append_of_mem member
  have before := credits_nonpos fun a m => losses a (List.mem_append_left _ m)
  have later := credits_nonpos fun a m =>
    losses a (List.mem_append_right _ (List.mem_cons_of_mem _ m))
  rw [credits_append, credits]
  linarith

section CreditsOnly
variable {flows : List (Flow α)} (noDraw : ∀ flow ∈ flows, flow.isDraw = false)
include noDraw

omit [IsStrictOrderedRing α] in
theorem uncovered_credits : uncovered lo hi balance flows = 0 := by
  induction flows generalizing balance with
  | nil => rfl
  | cons flow flows ih =>
    cases flow with
    | draw shortfall => exact absurd (noDraw _ List.mem_cons_self) (by simp)
    | credit amount =>
      rw [uncovered, unpaid, zero_add, ih fun flow member => noDraw flow (by simp [member])]

/-- Gains pile up until the upper cap. -/
theorem after_gains (gains : ∀ amount, .credit amount ∈ flows → 0 ≤ amount) (lower : lo ≤ balance)
    (upper : balance ≤ hi) : after lo hi balance flows = min hi (balance + credits flows) := by
  induction flows generalizing balance with
  | nil => simp [after, credits, upper]
  | cons flow flows ih =>
    cases flow with
    | draw shortfall => exact absurd (noDraw _ List.mem_cons_self) (by simp)
    | credit amount =>
      have first := gains amount (by simp)
      have rest := credits_nonneg fun amount member => gains amount (List.mem_cons_of_mem _ member)
      have moved := @ih (step lo hi balance (.credit amount))
        (fun flow member => noDraw flow (by simp [member]))
        (fun amount member => gains amount (by simp [member])) (le_max_left _ _)
        (max_le (by linarith) (min_le_left _ _))
      rw [after] at moved
      rw [after, List.foldl_cons, moved, step, credits]
      grind

/-- Losses pile up until the lower cap. -/
theorem after_losses (losses : ∀ amount, .credit amount ∈ flows → amount ≤ 0) (lower : lo ≤ balance)
    (upper : balance ≤ hi) : after lo hi balance flows = max lo (balance + credits flows) := by
  induction flows generalizing balance with
  | nil => simp [after, credits, lower]
  | cons flow flows ih =>
    cases flow with
    | draw shortfall => exact absurd (noDraw _ List.mem_cons_self) (by simp)
    | credit amount =>
      have first := losses amount (by simp)
      have rest := credits_nonpos fun amount member => losses amount (List.mem_cons_of_mem _ member)
      have moved := @ih (step lo hi balance (.credit amount))
        (fun flow member => noDraw flow (by simp [member]))
        (fun amount member => losses amount (by simp [member])) (le_max_left _ _)
        (max_le (by linarith) (min_le_left _ _))
      rw [after] at moved
      rw [after, List.foldl_cons, moved, step, credits]
      grind

end CreditsOnly

/-- Two draws in a row take what their sum takes. -/
theorem pay_twice {first others : α} (positive : 0 < first) (nonneg : 0 ≤ others) :
    (if others = 0 then max (balance - first) 0 else max (max (balance - first) 0 - others) 0) =
        (if first + others = 0 then balance else max (balance - (first + others)) 0) ∧
      max (first - max balance 0) 0 + max (others - max (max (balance - first) 0) 0) 0 =
        max (first + others - max balance 0) 0 := by
  constructor
  · grind
  · grind

/-- Draws alone: the fund pays what it has, whatever the order. -/
theorem after_draws {flows : List (Flow α)} (still : ∀ amount, .credit amount ∈ flows → amount = 0)
    (positive : ∀ shortfall, .draw shortfall ∈ flows → 0 < shortfall) (lower : lo ≤ balance)
    (upper : balance ≤ hi) (low : lo ≤ 0) (high : 0 ≤ hi) :
    after lo hi balance flows =
        (if draws flows = 0 then balance else max (balance - draws flows) 0) ∧
      uncovered lo hi balance flows = max (draws flows - max balance 0) 0 := by
  induction flows generalizing balance with
  | nil => simp [after, uncovered, draws]
  | cons flow flows ih =>
    have still' := fun amount member => still amount (List.mem_cons_of_mem flow member)
    have positive' := fun shortfall member => positive shortfall (List.mem_cons_of_mem flow member)
    cases flow with
    | credit amount =>
      obtain rfl := still amount (by simp)
      have kept : step lo hi balance (.credit 0) = balance := by
        rw [step_credit (by linarith) (by linarith), add_zero]
      have rest := ih still' positive' lower upper
      rw [after] at rest
      rw [after, List.foldl_cons, uncovered, unpaid, zero_add, draws, kept]
      exact rest
    | draw shortfall =>
      have first := positive shortfall (by simp)
      have others := draws_nonneg positive'
      have rest := @ih (step lo hi balance (.draw shortfall)) still' positive'
        (le_max_of_le_right low) (max_le (by linarith) high)
      rw [after] at rest
      rw [after, List.foldl_cons, uncovered, unpaid, draws, rest.1, rest.2, step]
      exact pay_twice first others

/-- With enough in the reserve for every order, nothing is capped or uncovered. -/
theorem after_covered {flows : List (Flow α)} (oneSign : OneSign flows)
    (positive : ∀ shortfall, .draw shortfall ∈ flows → 0 < shortfall) (low : lo ≤ 0)
    (upper : balance ≤ hi) (paid : draws flows ≤ balance)
    (paidLast : draws flows ≤ balance + credits flows) (room : balance + credits flows ≤ hi) :
    after lo hi balance flows = balance + credits flows - draws flows ∧
      uncovered lo hi balance flows = 0 := by
  induction flows generalizing balance with
  | nil => simp [after, uncovered, draws, credits]
  | cons flow flows ih =>
    have positive' := fun shortfall member => positive shortfall (List.mem_cons_of_mem flow member)
    have others := draws_nonneg positive'
    have oneSign' : OneSign flows := oneSign.imp
      (fun gains amount member => gains amount (List.mem_cons_of_mem flow member))
      (fun losses amount member => losses amount (List.mem_cons_of_mem flow member))
    cases flow with
    | credit amount =>
      rw [credits] at paidLast room
      rw [draws] at paid paidLast
      have signs : (0 ≤ amount ∧ 0 ≤ credits flows) ∨ (amount ≤ 0 ∧ credits flows ≤ 0) :=
        oneSign.imp
          (fun gains => ⟨gains amount (by simp), credits_nonneg fun amount member =>
            gains amount (List.mem_cons_of_mem _ member)⟩)
          (fun losses => ⟨losses amount (by simp), credits_nonpos fun amount member =>
            losses amount (List.mem_cons_of_mem _ member)⟩)
      have inside : lo ≤ balance + amount ∧ balance + amount ≤ hi ∧
          draws flows ≤ balance + amount := by
        rcases signs with ⟨first, rest⟩ | ⟨first, rest⟩
        · refine ⟨?_, ?_, ?_⟩ <;> linarith
        · refine ⟨?_, ?_, ?_⟩ <;> linarith
      have moved := step_credit inside.1 inside.2.1
      have rest := @ih (balance + amount) oneSign' positive' inside.2.1 inside.2.2
        (by linarith) (by linarith)
      rw [after] at rest
      rw [after, List.foldl_cons, uncovered, unpaid, credits, draws, moved, rest.1, rest.2]
      exact ⟨by ring, by ring⟩
    | draw shortfall =>
      have first := positive shortfall (by simp)
      rw [credits] at paidLast room
      rw [draws] at paid paidLast
      have moved : step lo hi balance (.draw shortfall) = balance - shortfall := by
        rw [step, max_eq_left (by linarith)]
      have paidUp : unpaid balance (.draw shortfall) = 0 := by
        rw [unpaid, max_eq_left (by linarith : 0 ≤ balance), max_eq_right (by linarith)]
      have rest := @ih (balance - shortfall) oneSign' positive' (by linarith)
        (by linarith) (by linarith) (by linarith)
      rw [after] at rest
      rw [after, List.foldl_cons, uncovered, paidUp, credits, draws, moved, rest.1, rest.2]
      exact ⟨by ring, by ring⟩

/-- Draws first and credits first agree only if the reserve can pay for every order. -/
theorem covered_of_gains {drawn credited : α} (high : 0 < hi) (upper : balance ≤ hi)
    (drawing : 0 < drawn) (gain : 0 < credited)
    (sameBalance : min hi (max (balance - drawn) 0 + credited) =
      max (min hi (balance + credited) - drawn) 0)
    (sameUncovered : max (drawn - max balance 0) 0 =
      max (drawn - max (min hi (balance + credited)) 0) 0) :
    drawn ≤ balance ∧ drawn ≤ balance + credited ∧ balance + credited ≤ hi := by
  grind

theorem covered_of_losses {drawn credited : α} (low : lo < 0) (upper : balance ≤ hi)
    (drawing : 0 < drawn) (loss : credited < 0)
    (sameBalance : max lo (max (balance - drawn) 0 + credited) =
      max (max lo (balance + credited) - drawn) 0) :
    drawn ≤ balance ∧ drawn ≤ balance + credited ∧ balance + credited ≤ hi := by
  grind

omit [IsStrictOrderedRing α] [CommRing α] [LinearOrder α] in
private theorem mem_filter_draws {flows : List (Flow α)} {amount : α} :
    .credit amount ∉ flows.filter Flow.isDraw := by
  simp

/-- What order independence comes down to. -/
def Covered (hi balance : α) (flows : List (Flow α)) : Prop :=
  draws flows ≤ balance ∧ draws flows ≤ balance + credits flows ∧ balance + credits flows ≤ hi

omit [IsStrictOrderedRing α] in
theorem Covered.perm {flows flows' : List (Flow α)} (perm : flows'.Perm flows)
    (covered : Covered hi balance flows) : Covered hi balance flows' := by
  rwa [Covered, draws_perm perm, credits_perm perm]

theorem OrderFree.covered {flows : List (Flow α)} (low : lo < 0) (high : 0 < hi)
    (lower : lo ≤ balance) (upper : balance ≤ hi) (oneSign : OneSign flows)
    (positive : ∀ shortfall, .draw shortfall ∈ flows → 0 < shortfall)
    (free : OrderFree lo hi balance flows) {flow : Flow α} (drawn : flow ∈ flows)
    (isDraw : flow.isDraw = true) {amount : α} (credited : .credit amount ∈ flows)
    (effective : amount ≠ 0) : Covered hi balance flows := by
  -- compare all draws first with all credits first
  let pays := flows.filter Flow.isDraw
  let takes := flows.filter fun flow => !flow.isDraw
  have split : (pays ++ takes).Perm flows := List.filter_append_perm _ _
  have swapped : (takes ++ pays).Perm flows := List.perm_append_comm.trans split
  have paysDraw : ∀ flow ∈ pays, flow ∈ flows ∧ flow.isDraw = true :=
    fun flow member => List.mem_filter.mp member
  have takesCredit : ∀ flow ∈ takes, flow.isDraw = false := fun flow member => by
    simpa using (List.mem_filter.mp member).2
  have noCredit : ∀ amount, .credit amount ∈ pays → amount = 0 :=
    fun amount member => absurd member mem_filter_draws
  have paysPositive : ∀ shortfall, .draw shortfall ∈ pays → 0 < shortfall :=
    fun shortfall member => positive shortfall (paysDraw _ member).1
  have allDraws : draws flows = draws pays := (draws_filter_isDraw flows).symm
  have allCredits : credits flows = credits takes := (credits_filter_not_isDraw flows).symm
  have drawing : 0 < draws pays := by
    cases flow with
    | credit amount => cases isDraw
    | draw shortfall =>
      exact draws_pos paysPositive (List.mem_filter.mpr ⟨drawn, rfl⟩)
  have listed : .credit amount ∈ takes := List.mem_filter.mpr ⟨credited, rfl⟩
  have paysFrom := fun (start : α) (above : lo ≤ start) (below : start ≤ hi) =>
    after_draws noCredit paysPositive above below low.le high.le
  obtain ⟨sameBalance, sameUncovered⟩ := free _ _ split swapped
  rw [after_append, after_append] at sameBalance
  rw [uncovered_append, uncovered_append, uncovered_credits takesCredit, uncovered_credits takesCredit,
    add_zero, zero_add] at sameUncovered
  have first := paysFrom balance lower upper
  rw [if_neg drawing.ne'] at first
  rw [Covered, allDraws, allCredits]
  rcases oneSign with gains | losses
  · have gains' : ∀ amount, .credit amount ∈ takes → 0 ≤ amount := fun amount member =>
      gains amount (List.mem_filter.mp member).1
    have gain : 0 < credits takes :=
      credits_pos gains' listed (lt_of_le_of_ne (gains amount credited) (Ne.symm effective))
    have second := paysFrom (min hi (balance + credits takes)) (le_min (by linarith) (by linarith))
      (min_le_left _ _)
    rw [if_neg drawing.ne'] at second
    rw [first.1, after_gains takesCredit gains' (le_max_of_le_right low.le)
      (max_le (by linarith) high.le), after_gains takesCredit gains' lower upper, second.1]
      at sameBalance
    rw [first.2, after_gains takesCredit gains' lower upper, second.2] at sameUncovered
    exact covered_of_gains high upper drawing gain sameBalance sameUncovered
  · have losses' : ∀ amount, .credit amount ∈ takes → amount ≤ 0 := fun amount member =>
      losses amount (List.mem_filter.mp member).1
    have loss : credits takes < 0 :=
      credits_neg losses' listed (lt_of_le_of_ne (losses amount credited) effective)
    have second := paysFrom (max lo (balance + credits takes)) (le_max_left _ _)
      (max_le (by linarith) (by linarith))
    rw [if_neg drawing.ne'] at second
    rw [first.1, after_losses takesCredit losses' (le_max_of_le_right low.le)
      (max_le (by linarith) high.le), after_losses takesCredit losses' lower upper, second.1]
      at sameBalance
    exact covered_of_losses low upper drawing loss sameBalance

/-- When the order of the flows does not matter. -/
theorem orderFree_iff {flows : List (Flow α)} (low : lo < 0) (high : 0 < hi)
    (lower : lo ≤ balance) (upper : balance ≤ hi) (oneSign : OneSign flows)
    (positive : ∀ shortfall, .draw shortfall ∈ flows → 0 < shortfall) :
    OrderFree lo hi balance flows ↔
      (∀ flow ∈ flows, flow.isDraw = false) ∨ (∀ amount, .credit amount ∈ flows → amount = 0) ∨
        Covered hi balance flows := by
  constructor
  · intro free
    by_cases noDraw : ∀ flow ∈ flows, flow.isDraw = false
    · exact Or.inl noDraw
    by_cases still : ∀ amount, .credit amount ∈ flows → amount = 0
    · exact Or.inr (Or.inl still)
    push Not at noDraw still
    obtain ⟨flow, drawn, isDraw⟩ := noDraw
    obtain ⟨amount, credited, effective⟩ := still
    exact Or.inr (Or.inr (free.covered low high lower upper oneSign positive drawn
      (by simpa using isDraw) credited effective))
  · -- each case has a closed form that only sees the totals
    rintro (noDraw | still | covered) one other first second
    · have noDraws := fun (order : List (Flow α)) (perm : order.Perm flows) flow
        (member : flow ∈ order) => noDraw flow (perm.mem_iff.mp member)
      rw [uncovered_credits (noDraws one first), uncovered_credits (noDraws other second)]
      refine ⟨?_, rfl⟩
      rcases oneSign with gains | losses
      · rw [after_gains (noDraws one first) (fun a m => gains a (first.mem_iff.mp m)) lower upper,
          after_gains (noDraws other second) (fun a m => gains a (second.mem_iff.mp m)) lower upper,
          credits_perm first, credits_perm second]
      · rw [after_losses (noDraws one first) (fun a m => losses a (first.mem_iff.mp m)) lower upper,
          after_losses (noDraws other second) (fun a m => losses a (second.mem_iff.mp m)) lower upper,
          credits_perm first, credits_perm second]
    · have form := fun (order : List (Flow α)) (perm : order.Perm flows) =>
        after_draws (fun a m => still a (perm.mem_iff.mp m))
          (fun s m => positive s (perm.mem_iff.mp m)) lower upper low.le high.le
      rw [(form one first).1, (form one first).2, (form other second).1, (form other second).2,
        draws_perm first, draws_perm second]
      exact ⟨rfl, rfl⟩
    · have form := fun (order : List (Flow α)) (perm : order.Perm flows) =>
        after_covered (oneSign.imp (fun gains a m => gains a (perm.mem_iff.mp m))
            (fun losses a m => losses a (perm.mem_iff.mp m)))
          (fun s m => positive s (perm.mem_iff.mp m)) low.le upper (covered.perm perm).1
          (covered.perm perm).2.1 (covered.perm perm).2.2
      rw [(form one first).1, (form one first).2, (form other second).1, (form other second).2,
        draws_perm first, draws_perm second, credits_perm first, credits_perm second]
      exact ⟨rfl, rfl⟩

/-! ## Two balances -/

section Compare
variable {small large : α} {flows : List (Flow α)}

/-- A larger balance stays larger over every flow. -/
theorem step_mono (le : small ≤ large) (flow : Flow α) :
    step lo hi small flow ≤ step lo hi large flow := by
  cases flow with
  | credit amount =>
    have sums : small + amount ≤ large + amount := by linarith
    exact max_le_max (le_refl lo) (min_le_min (le_refl hi) sums)
  | draw shortfall =>
    have left : small - shortfall ≤ large - shortfall := by linarith
    exact max_le_max left (le_refl 0)

theorem after_mono (le : small ≤ large) (flows : List (Flow α)) :
    after lo hi small flows ≤ after lo hi large flows := by
  induction flows generalizing small large with
  | nil => exact le
  | cons flow flows ih => exact ih (step_mono le flow)

/-- A larger balance leaves less to others. -/
theorem unpaid_antitone (le : small ≤ large) (flow : Flow α) :
    unpaid large flow ≤ unpaid small flow := by
  cases flow with
  | credit amount => exact le_refl _
  | draw shortfall =>
    have paid := max_le_max le (le_refl (0 : α))
    have left : shortfall - max large 0 ≤ shortfall - max small 0 := by linarith
    exact max_le_max left (le_refl 0)

theorem step_nonneg (high : 0 ≤ hi) (nonneg : 0 ≤ balance) {flow : Flow α}
    (gain : ∀ amount, flow = .credit amount → 0 ≤ amount) : 0 ≤ step lo hi balance flow := by
  cases flow with
  | credit amount =>
    have first := gain amount rfl
    exact le_max_of_le_right (le_min high (by linarith))
  | draw shortfall => exact le_max_right _ _

theorem after_nonneg (high : 0 ≤ hi) (nonneg : 0 ≤ balance)
    (gains : ∀ amount, .credit amount ∈ flows → 0 ≤ amount) : 0 ≤ after lo hi balance flows := by
  induction flows generalizing balance with
  | nil => exact nonneg
  | cons flow flows ih =>
    refine ih (step_nonneg high nonneg fun amount same => gains amount ?_)
      fun amount member => gains amount (List.mem_cons_of_mem _ member)
    exact same ▸ List.mem_cons_self

/-- What fits a larger balance fits a smaller one. -/
theorem Unclipped.mono (low : lo ≤ 0) (nonneg : 0 ≤ small) (le : small ≤ large)
    (gains : ∀ amount, .credit amount ∈ flows → 0 ≤ amount)
    (unclipped : Unclipped lo hi large flows) : Unclipped lo hi small flows := by
  induction flows generalizing small large with
  | nil => trivial
  | cons flow flows ih =>
    have later := fun amount member => gains amount (List.mem_cons_of_mem flow member)
    cases flow with
    | credit amount =>
      have first := gains amount List.mem_cons_self
      obtain ⟨⟨above, below⟩, rest⟩ := unclipped
      exact ⟨⟨by linarith, by linarith⟩, ih (by linarith) (by linarith) later rest⟩
    | draw shortfall =>
      have left : small - shortfall ≤ large - shortfall := by linarith
      exact ih (le_max_right _ _) (max_le_max left (le_refl 0)) later unclipped

/-- From a non-negative balance with gains only, what is left less what is left
uncovered is the plain sum of the flows. -/
theorem after_sub_uncovered (nonneg : 0 ≤ balance)
    (gains : ∀ amount, .credit amount ∈ flows → 0 ≤ amount)
    (unclipped : Unclipped lo hi balance flows) :
    after lo hi balance flows - uncovered lo hi balance flows =
      balance + credits flows - draws flows := by
  induction flows generalizing balance with
  | nil => simp [after, uncovered, credits, draws]
  | cons flow flows ih =>
    have later := fun amount member => gains amount (List.mem_cons_of_mem flow member)
    rw [after, List.foldl_cons, ← after, uncovered]
    cases flow with
    | credit amount =>
      have first := gains amount List.mem_cons_self
      have moved := step_credit unclipped.1.1 unclipped.1.2
      have rest := @ih (balance + amount) (by linarith) later unclipped.2
      rw [moved, unpaid, credits, draws]
      linarith
    | draw shortfall =>
      have moved := step_draw lo hi balance shortfall
      have rest := @ih (step lo hi balance (.draw shortfall)) (le_max_right _ _) later unclipped
      rw [unpaid, max_eq_left nonneg, credits, draws]
      linarith

/-- The surplus of the larger balance goes to its balance and to what others
need not pay, and nowhere else. -/
theorem surplus_kept (low : lo ≤ 0) (nonneg : 0 ≤ small) (le : small ≤ large)
    (gains : ∀ amount, .credit amount ∈ flows → 0 ≤ amount)
    (unclipped : Unclipped lo hi large flows) :
    (after lo hi large flows - after lo hi small flows) +
        (uncovered lo hi small flows - uncovered lo hi large flows) = large - small := by
  have first := after_sub_uncovered nonneg gains (unclipped.mono low nonneg le gains)
  have second := after_sub_uncovered (nonneg.trans le) gains unclipped
  linarith

end Compare

end Reserve
end MarginGuard.Foundation
