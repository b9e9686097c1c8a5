import MarginGuard.Foundation.Truncation
import Mathlib.Order.Lattice

/-!
# Fixed-width signed integers with saturating arithmetic

`SignedInt w` is the type of the integers a two's-complement word of `w` bits
holds, so an out-of-range value cannot be built. The operations are the
saturating ones: the exact result, pulled back to the nearer bound when it does
not fit. Division truncates toward zero.

The exactness lemmas (`toInt_clamp`, `toInt_saturatingAdd`, ...) have the shape
"fits, therefore equal to the integer result"; everything that reasons about
unclipped arithmetic goes through `Fits`.
-/
namespace MarginGuard.Foundation

/-- Least value of a `w`-bit signed word. -/
def minInt (w : Nat) : Int := -2 ^ (w - 1)

/-- Greatest value of a `w`-bit signed word. -/
def maxInt (w : Nat) : Int := 2 ^ (w - 1) - 1

/-- An integer a `w`-bit signed word can hold. -/
def Fits (w : Nat) (n : Int) : Prop := minInt w ≤ n ∧ n ≤ maxInt w

instance (w : Nat) (n : Int) : Decidable (Fits w n) := by
  unfold Fits; infer_instance

theorem two_pow_pos_int (k : Nat) : (0 : Int) < 2 ^ k := Int.pow_pos (by decide)

theorem minInt_neg (w : Nat) : minInt w < 0 := by
  have := two_pow_pos_int (w - 1)
  unfold minInt; omega

theorem maxInt_nonneg (w : Nat) : 0 ≤ maxInt w := by
  have := two_pow_pos_int (w - 1)
  unfold maxInt; omega

theorem minInt_eq (w : Nat) : minInt w = -maxInt w - 1 := by
  unfold minInt maxInt; omega

/-- The integers of a `w`-bit signed word, with the bounds as fields. -/
@[ext] structure SignedInt (w : Nat) where
  toInt : Int
  lower : minInt w ≤ toInt
  upper : toInt ≤ maxInt w
  deriving DecidableEq

namespace SignedInt
variable {w : Nat}

theorem toInt_injective : Function.Injective (toInt (w := w)) := fun _ _ h => SignedInt.ext h

theorem fits (a : SignedInt w) : Fits w a.toInt := ⟨a.lower, a.upper⟩

instance : LinearOrder (SignedInt w) := LinearOrder.lift' toInt toInt_injective

theorem le_iff (a b : SignedInt w) : a ≤ b ↔ a.toInt ≤ b.toInt := Iff.rfl

theorem lt_iff (a b : SignedInt w) : a < b ↔ a.toInt < b.toInt := Iff.rfl

theorem toInt_min (a b : SignedInt w) : (min a b).toInt = min a.toInt b.toInt := by
  rcases le_total a b with ordered | ordered
  · rw [min_eq_left ordered, min_eq_left ((le_iff a b).mp ordered)]
  · rw [min_eq_right ordered, min_eq_right ((le_iff b a).mp ordered)]

theorem toInt_max (a b : SignedInt w) : (max a b).toInt = max a.toInt b.toInt := by
  rcases le_total a b with ordered | ordered
  · rw [max_eq_right ordered, max_eq_right ((le_iff a b).mp ordered)]
  · rw [max_eq_left ordered, max_eq_left ((le_iff b a).mp ordered)]

/-- The nearest representable value. -/
def clamp (n : Int) : SignedInt w where
  toInt := max (minInt w) (min (maxInt w) n)
  lower := Int.le_max_left _ _
  upper := by
    have := minInt_neg w
    have := maxInt_nonneg w
    omega

theorem toInt_clamp_eq (n : Int) :
    (clamp n : SignedInt w).toInt = max (minInt w) (min (maxInt w) n) := rfl

theorem toInt_clamp {n : Int} (fit : Fits w n) : (clamp n : SignedInt w).toInt = n := by
  have lower := fit.1
  have upper := fit.2
  rw [toInt_clamp_eq]; omega

theorem clamp_mono {n n' : Int} (h : n ≤ n') :
    (clamp n : SignedInt w).toInt ≤ (clamp n' : SignedInt w).toInt := by
  rw [toInt_clamp_eq, toInt_clamp_eq]; omega

/-- Clipping leaves a value within any symmetric bound it was in. -/
theorem clamp_within {b n : Int} (low : -b ≤ n) (high : n ≤ b) :
    -b ≤ (clamp n : SignedInt w).toInt ∧ (clamp n : SignedInt w).toInt ≤ b := by
  have := minInt_neg w
  have := maxInt_nonneg w
  rw [toInt_clamp_eq]; omega

theorem clamp_nonneg {n : Int} (h : 0 ≤ n) : 0 ≤ (clamp n : SignedInt w).toInt := by
  have := maxInt_nonneg w
  rw [toInt_clamp_eq]; omega

/-- Clipping at the top only takes away. -/
theorem clamp_le {n : Int} (h : 0 ≤ n) : (clamp n : SignedInt w).toInt ≤ n := by
  have := minInt_neg w
  rw [toInt_clamp_eq]; omega

theorem clamp_nonpos {n : Int} (h : n ≤ 0) : (clamp n : SignedInt w).toInt ≤ 0 := by
  have := minInt_neg w
  have := maxInt_nonneg w
  rw [toInt_clamp_eq]; omega

/-- Two's-complement wrapping, for operators that neither check nor saturate. -/
def wrap (n : Int) : SignedInt w where
  toInt := n.bmod (2 ^ w)
  lower := by
    have range := Int.le_bmod (x := n) (m := 2 ^ w) (Nat.two_pow_pos w)
    cases w with
    | zero => simp [minInt]
    | succ k =>
      simp only [Nat.cast_pow, Nat.cast_ofNat, Int.pow_succ] at range
      simp only [minInt, Nat.add_sub_cancel]
      omega
  upper := by
    have range := Int.bmod_lt (x := n) (m := 2 ^ w) (Nat.two_pow_pos w)
    cases w with
    | zero => simp [maxInt]
    | succ k =>
      simp only [Nat.cast_pow, Nat.cast_ofNat, Int.pow_succ] at range
      simp only [maxInt, Nat.add_sub_cancel]
      omega

theorem toInt_wrap {n : Int} (fit : Fits w n) (wide : 0 < w) :
    (wrap n : SignedInt w).toInt = n := by
  obtain ⟨k, rfl⟩ := Nat.exists_eq_succ_of_ne_zero (Nat.ne_of_gt wide)
  have lower := fit.1
  have upper := fit.2
  simp only [minInt, maxInt, Nat.succ_eq_add_one, Nat.add_sub_cancel] at lower upper
  change n.bmod (2 ^ (k + 1)) = n
  rw [Int.bmod_eq_of_le] <;> simp only [Nat.cast_pow, Nat.cast_ofNat, Int.pow_succ] <;> omega

/-- Checked conversion, `try_from` in the source language. -/
def tryFrom (n : Int) : Option (SignedInt w) :=
  if fit : Fits w n then some ⟨n, fit.1, fit.2⟩ else none

def maxValue : SignedInt w where
  toInt := maxInt w
  lower := by
    have := minInt_neg w
    have := maxInt_nonneg w
    omega
  upper := le_refl _

/-- A checked conversion with the greatest value as its fallback takes every
integer that does not fit to that value, also those below the range. -/
theorem toInt_tryFrom_getD_maxValue (n : Int) :
    ((tryFrom n).getD maxValue : SignedInt w).toInt =
      if minInt w ≤ n then min n (maxInt w) else maxInt w := by
  unfold tryFrom
  by_cases low : minInt w ≤ n
  · rw [if_pos low]
    by_cases high : n ≤ maxInt w
    · have fit : Fits w n := ⟨low, high⟩
      rw [dif_pos fit, Option.getD_some, min_eq_left high]
    · have unfit : ¬ Fits w n := fun fit => high fit.2
      rw [dif_neg unfit, Option.getD_none, min_eq_right (le_of_not_ge high)]
      rfl
  · have unfit : ¬ Fits w n := fun fit => low fit.1
    rw [if_neg low, dif_neg unfit]
    rfl

def zero : SignedInt w := ⟨0, by have := minInt_neg w; omega, maxInt_nonneg w⟩

def saturatingAdd (a b : SignedInt w) : SignedInt w := clamp (a.toInt + b.toInt)

def saturatingSub (a b : SignedInt w) : SignedInt w := clamp (a.toInt - b.toInt)

def saturatingNeg (a : SignedInt w) : SignedInt w := clamp (-a.toInt)

/-- Truncating division. A quotient by a positive divisor always fits
(`toInt_div`), so no result of this model is clipped here. -/
def div (a : SignedInt w) (d : Int) : SignedInt w := clamp (a.toInt.tdiv d)

theorem toInt_saturatingAdd {a b : SignedInt w} (fit : Fits w (a.toInt + b.toInt)) :
    (a.saturatingAdd b).toInt = a.toInt + b.toInt := toInt_clamp fit

theorem toInt_saturatingSub {a b : SignedInt w} (fit : Fits w (a.toInt - b.toInt)) :
    (a.saturatingSub b).toInt = a.toInt - b.toInt := toInt_clamp fit

/-- Negation clips exactly one value, the least one. -/
theorem toInt_saturatingNeg {a : SignedInt w} (h : a.toInt ≠ minInt w) :
    a.saturatingNeg.toInt = -a.toInt := by
  have lower := a.lower
  have upper := a.upper
  have := minInt_eq w
  exact toInt_clamp ⟨by omega, by omega⟩

/-- Negating a negative value gives a positive one even where it clips. -/
theorem saturatingNeg_pos {a : SignedInt w} (h : a.toInt < 0) (wide : 0 < maxInt w) :
    0 < a.saturatingNeg.toInt := by
  have := minInt_neg w
  simp only [saturatingNeg, toInt_clamp_eq]; omega

theorem tdiv_fits (a : SignedInt w) {d : Int} (h : 0 < d) : Fits w (a.toInt.tdiv d) := by
  have lower := a.lower
  have upper := a.upper
  have := minInt_neg w
  have := maxInt_nonneg w
  rcases le_or_gt 0 a.toInt with sign | sign
  · have nonneg := Int.tdiv_nonneg sign (le_of_lt h)
    have bound := Int.tdiv_le_self d sign
    exact ⟨by omega, by omega⟩
  · have flipped : a.toInt.tdiv d = -((-a.toInt).tdiv d) := by rw [Int.neg_tdiv, Int.neg_neg]
    have nonneg := Int.tdiv_nonneg (a := -a.toInt) (by omega) (le_of_lt h)
    have bound := Int.tdiv_le_self (a := -a.toInt) d (by omega)
    exact ⟨by omega, by omega⟩

theorem toInt_div (a : SignedInt w) {d : Int} (h : 0 < d) : (a.div d).toInt = a.toInt.tdiv d :=
  toInt_clamp (a.tdiv_fits h)

/-- A proper quotient is never the least value, so its negation is exact. -/
theorem toInt_div_ne_minInt (a : SignedInt w) {d : Int} (h : 1 < d) :
    (a.div d).toInt ≠ minInt w := by
  rw [toInt_div a (by omega)]
  intro least
  have lower := a.lower
  have low := minInt_neg w
  have split := Int.mul_tdiv_add_tmod a.toInt d
  rw [least] at split
  rcases le_total 0 a.toInt with sign | sign
  · have nonneg := Int.tdiv_nonneg sign (by omega : 0 ≤ d)
    omega
  · have rest := tmod_range_of_nonpos (by omega : 0 < d) sign
    have twice : d * minInt w ≤ 2 * minInt w := mul_le_mul_of_nonpos_right (by omega) (by omega)
    omega

theorem div_nonneg {a : SignedInt w} {d : Int} (h : 0 ≤ a.toInt) (hd : 0 < d) :
    0 ≤ (a.div d).toInt := by
  rw [toInt_div a hd]
  exact Int.tdiv_nonneg h (le_of_lt hd)

theorem div_nonpos {a : SignedInt w} {d : Int} (h : a.toInt ≤ 0) (hd : 0 < d) :
    (a.div d).toInt ≤ 0 := by
  rw [toInt_div a hd]
  exact tdiv_nonpos hd h

end SignedInt
end MarginGuard.Foundation
