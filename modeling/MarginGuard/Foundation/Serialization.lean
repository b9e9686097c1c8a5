import Mathlib.Data.List.Perm.Basic
import MarginGuard.Foundation.Isolation

/-!
# Threads on separate parts, one after another

Each thread of an interleaving keeps to its own parts of the state (`T`), and no
part is two threads'. Then every thread answers as if it had run alone
(`Partition.alone`), and the threads can be run one after another in every order:
the calls are legal so arranged, and all parts end the same
(`Partition.serializable`).
-/
namespace MarginGuard.Foundation
variable {σ Op ι κ : Type} {Ans : Op → Type} {M : Machine σ Op Ans} [DecidableEq ι]

/-- The calls of a trace, thread by thread. -/
def arranged (order : List ι) (trace : List (Act ι Op Ans)) : List (Call Op Ans) :=
  order.flatMap fun i => callsOf i trace

theorem arranged_cons_of_notMem {order : List ι} {a : Act ι Op Ans} (trace : List (Act ι Op Ans))
    (other : a.thread ∉ order) : arranged order (a :: trace) = arranged order trace := by
  refine List.flatMap_congr fun i member => ?_
  rw [callsOf_cons, if_neg]
  rintro rfl
  exact other member

/-- Arranging a trace leaves no call out and makes none twice. -/
theorem arranged_perm {order : List ι} (once : order.Nodup) {trace : List (Act ι Op Ans)}
    (each : ∀ a ∈ trace, a.thread ∈ order) : (arranged order trace).Perm (calls trace) := by
  induction trace with
  | nil =>
    have nothing : arranged order ([] : List (Act ι Op Ans)) = [] := List.flatMap_eq_nil_iff.mpr
      fun i _ => callsOf_nil i
    rw [nothing, calls_nil]
  | cons a trace ih =>
    rw [List.forall_mem_cons] at each
    obtain ⟨front, back, rfl⟩ := List.append_of_mem each.1
    have apart := List.nodup_append'.mp once
    have early : a.thread ∉ front := fun member => apart.2.2 member List.mem_cons_self
    have late : a.thread ∉ back := (List.nodup_cons.mp apart.2.1).1
    have split (trace : List (Act ι Op Ans)) : arranged (front ++ a.thread :: back) trace =
        arranged front trace ++ (callsOf a.thread trace ++ arranged back trace) := by
      simp [arranged]
    rw [split, arranged_cons_of_notMem trace early, arranged_cons_of_notMem trace late, callsOf_cons,
      if_pos rfl, List.cons_append, calls_cons]
    refine List.perm_middle.trans (List.Perm.cons _ ?_)
    rw [← split]
    exact ih each.2

namespace Partition
variable (P : Partition M κ) {T : ι → κ → Prop} {s t : σ} {trace : List (Act ι Op Ans)}

/-- A thread's calls alone, where its parts are as at the start of the trace. -/
theorem alone (apart : ∀ i j part, T i part → T j part → i = j)
    (within : ∀ a ∈ trace, ∀ part, P.Touches a.call part → T a.thread part)
    (legal : M.Legal s (calls trace)) (i : ι) (agree : ∀ part, T i part → P.Agree part s t) :
    M.Legal t (callsOf i trace) ∧ ∀ part, T i part →
      P.Agree part (M.after s (calls trace)) (M.after t (callsOf i trace)) := by
  induction trace generalizing s t with
  | nil => exact ⟨trivial, agree⟩
  | cons a trace ih =>
    rw [List.forall_mem_cons] at within
    obtain ⟨allowed, rest⟩ := legal
    rw [callsOf_cons]
    by_cases own : a.thread = i
    · rw [if_pos own]
      have one : M.Legal s [a.call] := ⟨allowed, trivial⟩
      have inside : ∀ c ∈ [a.call], ∀ part, P.Touches c part → T i part := by
        intro c member part touched
        rw [List.mem_singleton.mp member] at touched
        exact own ▸ within.1 part touched
      obtain ⟨mine, next⟩ := P.transfer inside agree one
      obtain ⟨others, final⟩ := ih within.2 rest next
      exact ⟨⟨mine.1, others⟩, final⟩
    · rw [if_neg own]
      refine ih within.2 rest fun part mine => ?_
      have untouched : ¬ P.Touches a.call part := fun touched =>
        own (apart _ _ part (within.1 part touched) mine)
      exact (P.equiv part).trans (P.frame s a.call part untouched) (agree part mine)

/-- The calls of a thread keep to its parts. -/
theorem within_callsOf (within : ∀ a ∈ trace, ∀ part, P.Touches a.call part → T a.thread part)
    (i : ι) : ∀ c ∈ callsOf i trace, ∀ part, P.Touches c part → T i part := by
  intro c member part touched
  obtain ⟨a, made, rfl, rfl⟩ := mem_callsOf.mp member
  exact within a made part touched

/-- Threads one after another, where their parts are as at the start of the trace. -/
theorem arranged_legal (apart : ∀ i j part, T i part → T j part → i = j)
    (within : ∀ a ∈ trace, ∀ part, P.Touches a.call part → T a.thread part)
    (legal : M.Legal s (calls trace)) {order : List ι} (once : order.Nodup)
    (agree : ∀ i ∈ order, ∀ part, T i part → P.Agree part s t) :
    M.Legal t (arranged order trace) ∧ ∀ i ∈ order, ∀ part, T i part →
      P.Agree part (M.after s (calls trace)) (M.after t (arranged order trace)) := by
  induction order generalizing t with
  | nil => exact ⟨trivial, by simp⟩
  | cons i order ih =>
    rw [List.nodup_cons] at once
    rw [List.forall_mem_cons] at agree
    obtain ⟨first, mine⟩ := P.alone apart within legal i agree.1
    -- the parts of the later threads are still as they were
    have still : ∀ j ∈ order, ∀ part, T j part → P.Agree part s (M.after t (callsOf i trace)) := by
      intro j member part own
      have frame : P.Agree part (M.after t (callsOf i trace)) t :=
        P.frame_all fun c made touched => once.1
          (apart _ _ part (P.within_callsOf within i c made part touched) own ▸ member)
      exact (P.equiv part).trans (agree.2 j member part own) ((P.equiv part).symm frame)
    obtain ⟨later, others⟩ := ih once.2 still
    have split : arranged (i :: order) trace = callsOf i trace ++ arranged order trace := rfl
    rw [split, Machine.legal_append, Machine.after_append]
    refine ⟨⟨first, later⟩, fun j member part own => ?_⟩
    rcases List.mem_cons.mp member with rfl | member
    · -- no later thread touches the parts of the first
      have frame : P.Agree part (M.after (M.after t (callsOf j trace)) (arranged order trace))
          (M.after t (callsOf j trace)) := by
        refine P.frame_all fun c made touched => ?_
        obtain ⟨k, among, made⟩ := List.mem_flatMap.mp made
        have same := apart _ _ part (P.within_callsOf within k c made part touched) own
        exact once.1 (same ▸ among)
      exact (P.equiv part).trans (mine part own) ((P.equiv part).symm frame)
    · exact others j member part own

/-- Threads on separate parts can be run one after another, in every order. -/
theorem serializable (apart : ∀ i j part, T i part → T j part → i = j)
    (within : ∀ a ∈ trace, ∀ part, P.Touches a.call part → T a.thread part)
    (legal : M.Legal s (calls trace)) {order : List ι} (once : order.Nodup)
    (each : ∀ i, i ∈ order) :
    M.Legal s (arranged order trace) ∧
      ∀ part, P.Agree part (M.after s (calls trace)) (M.after s (arranged order trace)) := by
  obtain ⟨legal', same⟩ := P.arranged_legal apart within legal once
    fun i _ part _ => (P.equiv part).refl s
  refine ⟨legal', fun part => ?_⟩
  by_cases own : ∃ i, T i part
  · obtain ⟨i, own⟩ := own
    exact same i (each i) part own
  · have frame {made : List (Call Op Ans)} (subset : ∀ c ∈ made, c ∈ calls trace) :
        P.Agree part (M.after s made) s := by
      refine P.frame_all fun c member touched => own ?_
      obtain ⟨a, acted, rfl⟩ := List.mem_map.mp (subset c member)
      exact ⟨a.thread, within a acted part touched⟩
    have left := frame fun c (member : c ∈ calls trace) => member
    have right := frame fun c (member : c ∈ arranged order trace) =>
      (arranged_perm once fun a _ => each a.thread).mem_iff.mp member
    exact (P.equiv part).trans left ((P.equiv part).symm right)

end Partition
end MarginGuard.Foundation
