import Mathlib.Algebra.Order.Ring.Int
import Mathlib.Data.List.Basic

/-!
# Decimal text of integers

`render` writes an integer in base ten; `parse` reads one as integer parsers
commonly do, with an optional sign and any number of leading zeros. `Canonical`
is the text `render` writes, told by its characters alone. The two functions
are inverse to each other on canonical text (`parse_render`, `render_parse`).
-/
namespace MarginGuard.Foundation.Decimal

/-- The value of a nonempty string of digits. -/
def parseDigits (ds : List Char) : Option Nat :=
  if ds ≠ [] ∧ ds.all Char.isDigit = true then some (Nat.ofDigitChars 10 ds 0) else none

/-- An optional sign, then digits. -/
def parse : List Char → Option Int
  | [] => none
  | c :: ds =>
    if c = '-' then (parseDigits ds).map fun n : Nat => -(n : Int)
    else if c = '+' then (parseDigits ds).map fun n : Nat => (n : Int)
    else (parseDigits (c :: ds)).map fun n : Nat => (n : Int)

/-- A minus sign for a negative integer, then the digits of its magnitude. -/
def render (n : Int) : List Char :=
  if n < 0 then '-' :: Nat.toDigits 10 n.natAbs else Nat.toDigits 10 n.natAbs

/-- Digits without a leading zero, or the one digit zero. -/
def CanonicalDigits (ds : List Char) : Prop :=
  ds ≠ [] ∧ (∀ d ∈ ds, d.isDigit = true) ∧ (ds.head? = some '0' → ds = ['0'])

/-- Canonical digits, with a minus sign before any but zero; no plus sign. -/
def Canonical : List Char → Prop
  | [] => False
  | c :: ds => if c = '-' then CanonicalDigits ds ∧ ds ≠ ['0'] else CanonicalDigits (c :: ds)

/-! ## Natural numbers -/

theorem parseDigits_eq {ds : List Char} (nonempty : ds ≠ []) (digits : ∀ d ∈ ds, d.isDigit = true) :
    parseDigits ds = some (Nat.ofDigitChars 10 ds 0) :=
  if_pos ⟨nonempty, List.all_eq_true.mpr digits⟩

theorem parseDigits_toDigits (n : Nat) : parseDigits (Nat.toDigits 10 n) = some n := by
  rw [parseDigits_eq Nat.toDigits_ne_nil
    fun _ mem => Nat.isDigit_of_mem_toDigits (by decide) (by decide) mem,
    Nat.ofDigitChars_ten_toDigits]

/-- Only zero is written with the digit zero in front. -/
theorem toDigits_head_ne_zero {n : Nat} (positive : 0 < n) :
    (Nat.toDigits 10 n).head? ≠ some '0' := by
  induction n using Nat.strong_induction_on with
  | _ n ih =>
    by_cases single : n < 10
    · rw [Nat.toDigits_of_lt_base single, List.head?_cons]
      intro zero
      have value := Nat.toNat_digitChar_of_lt_ten single
      rw [Option.some.inj zero] at value
      change 48 = 48 + n at value
      omega
    · rw [Nat.toDigits_of_base_le (by decide) (by omega),
        List.head?_append_of_ne_nil _ Nat.toDigits_ne_nil]
      exact ih (n / 10) (by omega) (by omega)

theorem canonical_toDigits (n : Nat) : CanonicalDigits (Nat.toDigits 10 n) := by
  refine ⟨Nat.toDigits_ne_nil,
    fun _ mem => Nat.isDigit_of_mem_toDigits (by decide) (by decide) mem, fun zero => ?_⟩
  rcases Nat.eq_zero_or_pos n with none | positive
  · rw [none, Nat.toDigits_zero]
  · exact absurd zero (toDigits_head_ne_zero positive)

/-- A digit is the text of its own value. -/
theorem toDigits_digit {d : Char} (digit : d.isDigit = true) :
    Nat.toDigits 10 (d.toNat - 48) = [d] := by
  obtain ⟨low, high⟩ := Char.isDigit_iff_toNat.mp digit
  change 48 ≤ d.toNat at low
  change d.toNat ≤ 57 at high
  have small : d.toNat - 48 < 10 := by omega
  have value := Nat.toNat_digitChar_of_lt_ten small
  rw [Nat.toDigits_of_lt_base small]
  have same : (Nat.digitChar (d.toNat - 48)).toNat = d.toNat := by omega
  rw [Char.toNat_inj.mp same]

/-- Reading further digits after a positive value appends them to its text. -/
theorem toDigits_append {ds : List Char} (digits : ∀ d ∈ ds, d.isDigit = true) {n : Nat}
    (positive : 0 < n) :
    Nat.toDigits 10 n ++ ds = Nat.toDigits 10 (Nat.ofDigitChars 10 ds n) := by
  induction ds generalizing n with
  | nil => rw [List.append_nil, Nat.ofDigitChars_nil]
  | cons d ds ih =>
    have digit := digits d List.mem_cons_self
    have small : d.toNat - 48 < 10 := by
      have high := (Char.isDigit_iff_toNat.mp digit).2
      change d.toNat ≤ 57 at high
      omega
    have rest := ih (fun c mem => digits c (List.mem_cons_of_mem d mem))
      (n := 10 * n + (d.toNat - 48)) (by omega)
    calc Nat.toDigits 10 n ++ d :: ds
        = (Nat.toDigits 10 n ++ Nat.toDigits 10 (d.toNat - 48)) ++ ds := by
          rw [toDigits_digit digit, List.append_assoc, List.singleton_append]
      _ = Nat.toDigits 10 (10 * n + (d.toNat - 48)) ++ ds := by
          rw [Nat.toDigits_append_toDigits (by decide) positive small]
      _ = _ := by rw [rest, Nat.ofDigitChars_cons]; rfl

/-- Canonical digits are the text of their value. -/
theorem toDigits_ofDigitChars {ds : List Char} (canonical : CanonicalDigits ds) :
    Nat.toDigits 10 (Nat.ofDigitChars 10 ds 0) = ds := by
  obtain ⟨nonempty, digits, leading⟩ := canonical
  cases ds with
  | nil => exact absurd rfl nonempty
  | cons d ds =>
    have digit := digits d List.mem_cons_self
    by_cases zero : d = '0'
    · subst zero
      rw [leading rfl]
      rfl
    · have low := (Char.isDigit_iff_toNat.mp digit).1
      change 48 ≤ d.toNat at low
      have other : d.toNat ≠ 48 := fun same => zero (Char.toNat_inj.mp same)
      have rest := toDigits_append (fun c mem => digits c (List.mem_cons_of_mem d mem))
        (n := d.toNat - 48) (by omega)
      rw [toDigits_digit digit, List.singleton_append] at rest
      rw [Nat.ofDigitChars_cons, Nat.mul_zero, Nat.zero_add]
      exact rest.symm

/-! ## Integers -/

theorem digit_ne_sign {d : Char} (digit : d.isDigit = true) : d ≠ '-' ∧ d ≠ '+' := by
  constructor <;> rintro rfl <;> exact absurd digit (by decide)

/-- Text that starts with a digit is read without a sign. -/
theorem parse_digits {ds : List Char} (digits : ds ≠ [] ∧ ∀ d ∈ ds, d.isDigit = true) :
    parse ds = (parseDigits ds).map fun n : Nat => (n : Int) := by
  cases ds with
  | nil => exact absurd rfl digits.1
  | cons d ds =>
    obtain ⟨minus, plus⟩ := digit_ne_sign (digits.2 d List.mem_cons_self)
    rw [parse, if_neg minus, if_neg plus]

theorem parse_minus (ds : List Char) :
    parse ('-' :: ds) = (parseDigits ds).map fun n : Nat => -(n : Int) := by
  rw [parse, if_pos rfl]

theorem render_ofNat (n : Nat) : render n = Nat.toDigits 10 n := by
  rw [render, if_neg (by omega), Int.natAbs_natCast]

theorem render_neg {n : Nat} (positive : 0 < n) : render (-(n : Int)) = '-' :: Nat.toDigits 10 n := by
  rw [render, if_pos (by omega), Int.natAbs_neg, Int.natAbs_natCast]

/-- What is written is read back. -/
theorem parse_render (n : Int) : parse (render n) = some n := by
  rcases lt_or_ge n 0 with negative | nonneg
  · rw [render, if_pos negative, parse_minus, parseDigits_toDigits, Option.map_some]
    congr 1
    omega
  · obtain ⟨k, rfl⟩ := Int.eq_ofNat_of_zero_le nonneg
    have canonical := canonical_toDigits k
    rw [render_ofNat, parse_digits ⟨canonical.1, canonical.2.1⟩, parseDigits_toDigits]
    rfl

theorem canonical_render (n : Int) : Canonical (render n) := by
  rcases lt_or_ge n 0 with negative | nonneg
  · rw [render, if_pos negative]
    change CanonicalDigits _ ∧ _
    refine ⟨canonical_toDigits _, fun zero => ?_⟩
    exact toDigits_head_ne_zero (n := n.natAbs) (by omega) (by rw [zero]; rfl)
  · obtain ⟨k, rfl⟩ := Int.eq_ofNat_of_zero_le nonneg
    have canonical := canonical_toDigits k
    rw [render_ofNat]
    cases written : Nat.toDigits 10 k with
    | nil => exact absurd written canonical.1
    | cons d ds =>
      rw [written] at canonical
      have minus := (digit_ne_sign (canonical.2.1 d List.mem_cons_self)).1
      change if d = '-' then _ else _
      rwa [if_neg minus]

/-- Canonical text is read as the integer it is the text of. -/
theorem canonical_iff (cs : List Char) : Canonical cs ↔ ∃ n, parse cs = some n ∧ render n = cs := by
  constructor
  · intro canonical
    cases cs with
    | nil => exact canonical.elim
    | cons c ds =>
      by_cases minus : c = '-'
      · subst minus
        obtain ⟨digits, nonzero⟩ : CanonicalDigits ds ∧ ds ≠ ['0'] := canonical
        have text := toDigits_ofDigitChars digits
        have positive : 0 < Nat.ofDigitChars 10 ds 0 := by
          refine Nat.pos_of_ne_zero fun zero => nonzero ?_
          rw [← text, zero, Nat.toDigits_zero]
        exact ⟨-(Nat.ofDigitChars 10 ds 0 : Nat), by rw [parse_minus, parseDigits_eq digits.1 digits.2.1]; rfl,
          by rw [render_neg positive, text]⟩
      · have digits : CanonicalDigits (c :: ds) := by
          change if c = '-' then _ else _ at canonical
          rwa [if_neg minus] at canonical
        exact ⟨(Nat.ofDigitChars 10 (c :: ds) 0 : Nat),
          by rw [parse_digits ⟨digits.1, digits.2.1⟩, parseDigits_eq digits.1 digits.2.1]; rfl,
          by rw [render_ofNat, toDigits_ofDigitChars digits]⟩
  · rintro ⟨n, -, written⟩
    rw [← written]
    exact canonical_render n

/-- What is read from canonical text is written back as that text. -/
theorem render_parse {cs : List Char} (canonical : Canonical cs) {n : Int}
    (read : parse cs = some n) : render n = cs := by
  obtain ⟨k, value, written⟩ := (canonical_iff cs).mp canonical
  rw [value] at read
  rw [← Option.some.inj read, written]

end MarginGuard.Foundation.Decimal
