import Mathlib.Data.BitVec
import Mathlib.Data.Int.CardIntervalMod
import Mathlib.Algebra.Ring.Parity
import Mathlib.Data.Nat.Prime.Basic

/-!
# Reversible mixing of machine words

Exclusive-or with a right shift of itself and multiplication by an odd word
lose nothing of a word. So a word that grows by an odd step and is mixed by such
operations takes every value once in each round of `2 ^ w` steps
(`onceARound_mixed`), and any reduction of it modulo a number is as even as it
can be (`OnceARound.card_filter_mod`).
-/
namespace MarginGuard.Foundation

variable {w : Nat}

/-- `z ^ (z >> k)` -/
def xorShift (k : Nat) (z : BitVec w) : BitVec w := z ^^^ (z >>> k)

theorem xorShift_injective {k : Nat} (positive : 0 < k) :
    Function.Injective (xorShift (w := w) k) := by
  intro x y same
  have swap : ∀ s t : BitVec w, x ^^^ s = y ^^^ t → x ^^^ y = s ^^^ t := by
    intro s t same
    ext i inside
    have bit := congrArg (fun z : BitVec w => z[i]) same
    simp only [BitVec.getElem_xor] at bit ⊢
    revert bit
    cases x[i] <;> cases y[i] <;> cases s[i] <;> cases t[i] <;> simp
  have own : (x ^^^ y).toNat = (x ^^^ y).toNat / 2 ^ k := by
    have value := congrArg BitVec.toNat (swap _ _ same)
    rwa [← BitVec.ushiftRight_xor_distrib, BitVec.toNat_ushiftRight,
      Nat.shiftRight_eq_div_pow] at value
  have zero : (x ^^^ y).toNat = 0 := by
    by_contra nonzero
    have shrinks := Nat.div_lt_self (Nat.pos_of_ne_zero nonzero)
      (Nat.one_lt_two_pow (Nat.ne_of_gt positive))
    omega
  exact BitVec.xor_eq_zero_iff.mp (BitVec.eq_of_toNat_eq zero)

theorem mul_odd_injective {c : BitVec w} (odd : Odd c.toNat) :
    Function.Injective fun z : BitVec w => z * c := by
  intro x y same
  have coprime : Nat.Coprime (2 ^ w) c.toNat := Nat.Coprime.pow_left _ odd.coprime_two_left
  have product : x.toNat * c.toNat ≡ y.toNat * c.toNat [MOD 2 ^ w] := by
    have value := congrArg BitVec.toNat same
    rwa [BitVec.toNat_mul, BitVec.toNat_mul] at value
  have equal := Nat.ModEq.cancel_right_of_coprime coprime product
  rw [Nat.ModEq, Nat.mod_eq_of_lt x.isLt, Nat.mod_eq_of_lt y.isLt] at equal
  exact BitVec.eq_of_toNat_eq equal

/-- A sequence of words with the period `2 ^ w` that never repeats within it. -/
def OnceARound (f : Nat → BitVec w) : Prop :=
  ∀ i j, f i = f j ↔ i ≡ j [MOD 2 ^ w]

/-- A word that grows by an odd step, mixed without loss. -/
theorem onceARound_mixed {mix : BitVec w → BitVec w} (lossless : Function.Injective mix)
    (start : BitVec w) {step : BitVec w} (odd : Odd step.toNat) :
    OnceARound fun i => mix (start + BitVec.ofNat w i * step) := by
  intro i j
  rw [lossless.eq_iff, BitVec.add_right_inj, (mul_odd_injective odd).eq_iff]
  constructor
  · intro same
    have value := congrArg BitVec.toNat same
    rwa [BitVec.toNat_ofNat, BitVec.toNat_ofNat] at value
  · intro same
    apply BitVec.eq_of_toNat_eq
    rw [BitVec.toNat_ofNat, BitVec.toNat_ofNat]
    exact same

namespace OnceARound
variable {f : Nat → BitVec w}

theorem injOn (once : OnceARound f) :
    Set.InjOn (fun i => (f i).toNat) (Finset.range (2 ^ w) : Set Nat) := by
  intro i low j low' same
  have equal := (once i j).mp (BitVec.eq_of_toNat_eq same)
  rw [Finset.coe_range, Set.mem_Iio] at low low'
  rwa [Nat.ModEq, Nat.mod_eq_of_lt low, Nat.mod_eq_of_lt low'] at equal

/-- A round visits everything. -/
theorem image_range (once : OnceARound f) :
    (Finset.range (2 ^ w)).image (fun i => (f i).toNat) = Finset.range (2 ^ w) := by
  apply Finset.eq_of_subset_of_card_le
  · intro n visited
    obtain ⟨i, -, rfl⟩ := Finset.mem_image.mp visited
    exact Finset.mem_range.mpr (f i).isLt
  · rw [Finset.card_image_of_injOn once.injOn]

/-- How often a round has the remainder `v`. -/
theorem card_filter_mod (once : OnceARound f) {r v : Nat} (within : v < r) :
    ((Finset.range (2 ^ w)).filter fun i => (f i).toNat % r = v).card =
      2 ^ w / r + if v < 2 ^ w % r then 1 else 0 := by
  have positive : 0 < r := Nat.zero_lt_of_lt within
  have counted := Nat.count_modEq_card (b := 2 ^ w) positive v
  rw [Nat.mod_eq_of_lt within, Nat.count_eq_card_filter_range, ← once.image_range,
    Finset.filter_image] at counted
  rw [← counted, Finset.card_image_of_injOn]
  · congr 1
    ext i
    simp only [Finset.mem_filter, Nat.ModEq, Nat.mod_eq_of_lt within]
  · exact once.injOn.mono (Finset.coe_subset.mpr (Finset.filter_subset _ _))

end OnceARound
end MarginGuard.Foundation
