import MarginGuard.Foundation.Decimal

/-!
# Decimal text of fixed-point numbers

An integer counts units of `10 ^ -places`. `renderFixed` writes it as a sign, the
whole part, a point and exactly `places` digits; `parseFixed` reads such text. What
is written is read back (`parseFixed_renderFixed`).
-/
namespace MarginGuard.Foundation.Decimal

/-- The digits of a number, filled up with zeros in front. -/
def padded (width n : Nat) : List Char := (Nat.toDigits 10 n).leftpad width '0'

/-- Digits, a point and `places` digits more. -/
def renderParts (places whole frac : Nat) : List Char :=
  Nat.toDigits 10 whole ++ '.' :: padded places frac

/-- A minus sign for a negative number, then its magnitude. -/
def renderFixed (places : Nat) (n : Int) : List Char :=
  let magnitude := renderParts places (n.natAbs / 10 ^ places) (n.natAbs % 10 ^ places)
  if n < 0 then '-' :: magnitude else magnitude

/-- A number with exactly `places` digits behind the point. -/
def parseParts (places : Nat) (cs : List Char) : Option Nat :=
  match cs.dropWhile (· != '.') with
  | [] => none
  | _ :: frac =>
    if frac.length = places then
      (parseDigits (cs.takeWhile (· != '.'))).bind fun whole =>
        (parseDigits frac).map fun part => whole * 10 ^ places + part
    else none

/-- An optional minus sign, then the magnitude. -/
def parseFixed (places : Nat) : List Char → Option Int
  | [] => none
  | c :: cs =>
    if c = '-' then (parseParts places cs).map fun n : Nat => -(n : Int)
    else (parseParts places (c :: cs)).map fun n : Nat => (n : Int)

/-! ## Padding -/

theorem length_padded {width n : Nat} (positive : 0 < width) (small : n < 10 ^ width) :
    (padded width n).length = width := by
  have short := (Nat.length_toDigits_le_iff (by decide) positive).mpr small
  rw [padded, List.length_leftpad, max_eq_left short]

theorem isDigit_padded {width n : Nat} : ∀ d ∈ padded width n, d.isDigit = true := by
  intro d mem
  rcases List.mem_append.mp mem with zero | digit
  · rw [List.eq_of_mem_replicate zero]
    rfl
  · exact Nat.isDigit_of_mem_toDigits (by decide) (by decide) digit

/-- Zeros in front change nothing. -/
theorem parseDigits_padded (width n : Nat) : parseDigits (padded width n) = some n := by
  have nonempty : padded width n ≠ [] :=
    List.append_ne_nil_of_right_ne_nil _ Nat.toDigits_ne_nil
  rw [parseDigits_eq nonempty isDigit_padded, padded, List.leftpad, Nat.ofDigitChars_append,
    Nat.ofDigitChars_replicate_zero, Nat.mul_zero, Nat.ofDigitChars_ten_toDigits]

/-! ## The two parts -/

/-- Digits contain no point. -/
theorem ne_point {ds : List Char} (digits : ∀ d ∈ ds, d.isDigit = true) :
    ∀ d ∈ ds, (d != '.') = true := by
  intro d mem
  have digit := digits d mem
  rw [bne_iff_ne]
  rintro rfl
  exact absurd digit (by decide)

theorem parseParts_renderParts {places frac : Nat} (positive : 0 < places)
    (small : frac < 10 ^ places) (whole : Nat) :
    parseParts places (renderParts places whole frac) = some (whole * 10 ^ places + frac) := by
  have plain := ne_point fun d mem =>
    Nat.isDigit_of_mem_toDigits (b := 10) (n := whole) (c := d) (by decide) (by decide) mem
  have before : (renderParts places whole frac).takeWhile (· != '.') = Nat.toDigits 10 whole := by
    rw [renderParts, List.takeWhile_append_of_pos plain, List.takeWhile_cons_of_neg (by decide),
      List.append_nil]
  have after : (renderParts places whole frac).dropWhile (· != '.') = '.' :: padded places frac := by
    rw [renderParts, List.dropWhile_append_of_pos plain, List.dropWhile_cons_of_neg (by decide)]
  unfold parseParts
  rw [after, before]
  simp only [length_padded positive small, if_true, parseDigits_toDigits, parseDigits_padded,
    Option.bind_some, Option.map_some]

/-! ## Signed numbers -/

/-- A magnitude starts with a digit, so it is read without a sign. -/
theorem parseFixed_renderParts (places whole frac : Nat) :
    parseFixed places (renderParts places whole frac) =
      (parseParts places (renderParts places whole frac)).map fun n : Nat => (n : Int) := by
  cases written : renderParts places whole frac with
  | nil => exact absurd written (List.append_ne_nil_of_left_ne_nil Nat.toDigits_ne_nil _)
  | cons c cs =>
    have first : c ∈ Nat.toDigits 10 whole := by
      have head := congrArg List.head? written
      rw [renderParts, List.head?_append_of_ne_nil _ Nat.toDigits_ne_nil, List.head?_cons] at head
      exact List.mem_of_head? head
    have digit := Nat.isDigit_of_mem_toDigits (by decide) (by decide) first
    rw [parseFixed, if_neg (digit_ne_sign digit).1]

/-- What is written is read back. -/
theorem parseFixed_renderFixed {places : Nat} (positive : 0 < places) (n : Int) :
    parseFixed places (renderFixed places n) = some n := by
  have unit : 0 < 10 ^ places := Nat.pow_pos (by decide)
  have magnitude := parseParts_renderParts positive (Nat.mod_lt n.natAbs unit)
    (n.natAbs / 10 ^ places)
  rw [Nat.div_add_mod'] at magnitude
  unfold renderFixed
  split
  · next negative =>
    rw [parseFixed, if_pos rfl, magnitude, Option.map_some]
    congr 1
    omega
  · next nonneg =>
    rw [parseFixed_renderParts, magnitude, Option.map_some]
    congr 1
    omega

end MarginGuard.Foundation.Decimal
