import MarginGuard.Foundation.FixedPoint
import MarginGuard.Foundation.SignedInt

/-!
# Fixed-point money (`marginguard-types/src/money.rs`)

Every amount is a signed 128-bit count of micro-dollars. All arithmetic on
`Usd` saturates, so a value of the model is always one the program can hold.
-/
namespace MarginGuard.Source
open Foundation

/-- `i128` -/
abbrev I128 := SignedInt 128

/-- `i64` -/
abbrev I64 := SignedInt 64

/-- Micro-units per whole unit. -/
def SCALE : Int := 1000000

/-- Maximum price in micro-USD. -/
def MAX_PRICE : Int := 10000000 * SCALE

/-- Maximum size in micro-contracts. -/
def MAX_SIZE : Int := 10000000 * SCALE

/-- A signed USD amount in micro-dollars. -/
@[ext] structure Usd where
  micros : I128
  deriving DecidableEq

namespace Usd

/-- The integer amount, for statements about sums. -/
def toInt (u : Usd) : Int := u.micros.toInt

def ZERO : Usd := ⟨SignedInt.zero⟩

def isNegative (u : Usd) : Bool := decide (u.toInt < 0)

def saturatingAdd (u other : Usd) : Usd := ⟨u.micros.saturatingAdd other.micros⟩

def saturatingSub (u other : Usd) : Usd := ⟨u.micros.saturatingSub other.micros⟩

/-- `Neg for Usd`. -/
def neg (u : Usd) : Usd := ⟨u.micros.saturatingNeg⟩

/-- Multiply by basis points, rounding toward zero; the product saturates first. -/
def mulBps (u : Usd) (bps : I64) : Usd :=
  ⟨(SignedInt.clamp (u.toInt * bps.toInt) : I128).div 10000⟩

/-- `Usd::max`. -/
def max (u other : Usd) : Usd := ⟨Max.max u.micros other.micros⟩

/-- `Usd::min`. -/
def min (u other : Usd) : Usd := ⟨Min.min u.micros other.micros⟩

/-- `Display for Usd`: the whole dollars, truncated toward zero, and the magnitude of
the rest. -/
def display (u : Usd) : String :=
  let whole := (u.micros.div SCALE).toInt
  let frac := (u.toInt.tmod SCALE).natAbs
  String.ofList (Decimal.render whole ++ '.' :: Decimal.padded 6 frac ++ " USD".toList)

/-- `Usd::from_whole` -/
def fromWhole (dollars : I64) : Usd where
  micros :=
    { toInt := dollars.toInt * SCALE
      lower := by
        have low := dollars.lower
        unfold minInt at low ⊢
        unfold SCALE
        omega
      upper := by
        have high := dollars.upper
        unfold maxInt at high ⊢
        unfold SCALE
        omega }

instance : LT Usd := ⟨fun u v => u.toInt < v.toInt⟩
instance : LE Usd := ⟨fun u v => u.toInt ≤ v.toInt⟩
instance (u v : Usd) : Decidable (u < v) := inferInstanceAs (Decidable (u.toInt < v.toInt))
instance (u v : Usd) : Decidable (u ≤ v) := inferInstanceAs (Decidable (u.toInt ≤ v.toInt))

theorem lt_iff (u v : Usd) : u < v ↔ u.toInt < v.toInt := Iff.rfl

theorem le_iff (u v : Usd) : u ≤ v ↔ u.toInt ≤ v.toInt := Iff.rfl

theorem toInt_injective : Function.Injective toInt := fun _ _ same =>
  Usd.ext (SignedInt.ext same)

theorem fits (u : Usd) : Fits 128 u.toInt := u.micros.fits

@[simp] theorem toInt_ZERO : ZERO.toInt = 0 := rfl

@[simp] theorem isNegative_iff (u : Usd) : u.isNegative = true ↔ u.toInt < 0 := by
  simp [isNegative]

theorem toInt_min (u v : Usd) : (u.min v).toInt = Min.min u.toInt v.toInt :=
  SignedInt.toInt_min _ _

theorem toInt_max (u v : Usd) : (u.max v).toInt = Max.max u.toInt v.toInt :=
  SignedInt.toInt_max _ _

theorem toInt_saturatingAdd (u v : Usd) :
    (u.saturatingAdd v).toInt = Max.max (minInt 128) (Min.min (maxInt 128) (u.toInt + v.toInt)) := rfl

theorem toInt_saturatingSub (u v : Usd) :
    (u.saturatingSub v).toInt = Max.max (minInt 128) (Min.min (maxInt 128) (u.toInt - v.toInt)) := rfl

theorem toInt_saturatingAdd_of_fits {u v : Usd} (fit : Fits 128 (u.toInt + v.toInt)) :
    (u.saturatingAdd v).toInt = u.toInt + v.toInt := SignedInt.toInt_saturatingAdd fit

theorem toInt_saturatingSub_of_fits {u v : Usd} (fit : Fits 128 (u.toInt - v.toInt)) :
    (u.saturatingSub v).toInt = u.toInt - v.toInt := SignedInt.toInt_saturatingSub fit

theorem saturatingAdd_ZERO (u : Usd) : u.saturatingAdd .ZERO = u := by
  apply toInt_injective
  have fit := u.fits
  rw [toInt_saturatingAdd_of_fits (by simpa using fit), toInt_ZERO, Int.add_zero]

theorem toInt_neg {u : Usd} (h : u.toInt ≠ minInt 128) : u.neg.toInt = -u.toInt :=
  SignedInt.toInt_saturatingNeg h

theorem neg_pos {u : Usd} (h : u.toInt < 0) : 0 < u.neg.toInt :=
  SignedInt.saturatingNeg_pos h (by decide)

theorem toInt_neg_mulBps (u : Usd) (bps : I64) :
    (u.mulBps bps).neg.toInt = -(u.mulBps bps).toInt :=
  toInt_neg (SignedInt.toInt_div_ne_minInt _ (by decide))

theorem toInt_mulBps_eq (u : Usd) (bps : I64) :
    (u.mulBps bps).toInt = (SignedInt.clamp (u.toInt * bps.toInt) : I128).toInt.tdiv 10000 :=
  SignedInt.toInt_div _ (by decide)

theorem toInt_mulBps {u : Usd} {bps : I64} (fit : Fits 128 (u.toInt * bps.toInt)) :
    (u.mulBps bps).toInt = (u.toInt * bps.toInt).tdiv 10000 := by
  rw [toInt_mulBps_eq, SignedInt.toInt_clamp fit]

/-- A larger amount has the larger share. -/
theorem mulBps_mono {u v : Usd} {bps : I64} (rate : 0 ≤ bps.toInt) (le : u.toInt ≤ v.toInt) :
    (u.mulBps bps).toInt ≤ (v.mulBps bps).toInt := by
  rw [toInt_mulBps_eq, toInt_mulBps_eq]
  exact Int.tdiv_le_tdiv (by decide)
    (SignedInt.clamp_mono (mul_le_mul_of_nonneg_right le rate))

/-- Basis points of a non-negative amount at a non-negative rate are non-negative. -/
theorem mulBps_nonneg {u : Usd} {bps : I64} (amount : 0 ≤ u.toInt) (rate : 0 ≤ bps.toInt) :
    0 ≤ (u.mulBps bps).toInt :=
  SignedInt.div_nonneg (SignedInt.clamp_nonneg (Int.mul_nonneg amount rate)) (by decide)

/-- A higher rate takes the larger share. -/
theorem mulBps_mono_rate {u : Usd} {bps bps' : I64} (amount : 0 ≤ u.toInt)
    (le : bps.toInt ≤ bps'.toInt) : (u.mulBps bps).toInt ≤ (u.mulBps bps').toInt := by
  rw [toInt_mulBps_eq, toInt_mulBps_eq]
  exact Int.tdiv_le_tdiv (by decide) (SignedInt.clamp_mono (mul_le_mul_of_nonneg_left le amount))

/-- Ten thousand times a share is at most the clipped product it is a share of. -/
theorem mulBps_mul_le {u : Usd} {bps : I64} (amount : 0 ≤ u.toInt) (rate : 0 ≤ bps.toInt) :
    (u.mulBps bps).toInt * 10000 ≤ (SignedInt.clamp (u.toInt * bps.toInt) : I128).toInt := by
  have clipped := SignedInt.clamp_nonneg (w := 128) (Int.mul_nonneg amount rate)
  have rest := Int.tmod_nonneg 10000 clipped
  have split := Int.tdiv_mul_add_tmod
    (SignedInt.clamp (u.toInt * bps.toInt) : I128).toInt 10000
  rw [toInt_mulBps_eq]
  omega

/-- Basis points of a non-negative amount at a non-positive rate are non-positive. -/
theorem mulBps_nonpos {u : Usd} {bps : I64} (amount : 0 ≤ u.toInt) (rate : bps.toInt ≤ 0) :
    (u.mulBps bps).toInt ≤ 0 :=
  SignedInt.div_nonpos (SignedInt.clamp_nonpos (Int.mul_nonpos_of_nonneg_of_nonpos amount rate))
    (by decide)

end Usd

/-- `value * size / SCALE`; the product saturates, the quotient truncates. -/
def scaledMul (value size : Int) : I128 := (SignedInt.clamp (value * size) : I128).div SCALE

theorem scaledMul_nonneg {value size : Int} (hv : 0 ≤ value) (hs : 0 ≤ size) :
    0 ≤ (scaledMul value size).toInt :=
  SignedInt.div_nonneg (SignedInt.clamp_nonneg (Int.mul_nonneg hv hs)) (by decide)

/-- The product of a price difference and a size is far from the bounds of `i128`. -/
theorem toInt_scaledMul {value size : Int} (low : -MAX_PRICE ≤ value) (high : value ≤ MAX_PRICE)
    (nonneg : 0 ≤ size) (bounded : size ≤ MAX_SIZE) :
    (scaledMul value size).toInt = (value * size).tdiv SCALE := by
  have above : value * size ≤ MAX_PRICE * MAX_SIZE :=
    mul_le_mul high bounded nonneg (by decide)
  have below : -value * size ≤ MAX_PRICE * MAX_SIZE :=
    mul_le_mul (by omega) bounded nonneg (by decide)
  have small : MAX_PRICE * MAX_SIZE ≤ maxInt 128 := by decide
  have edge := minInt_eq 128
  rw [Int.neg_mul] at below
  rw [scaledMul, SignedInt.toInt_div _ (by decide), SignedInt.toInt_clamp ⟨by omega, by omega⟩]

end MarginGuard.Source
