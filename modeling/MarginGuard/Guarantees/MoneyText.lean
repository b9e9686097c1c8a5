import MarginGuard.Foundation.Truncation
import MarginGuard.Source.Money

/-!
# Is an amount read back from its text?

The text of an amount carries a sign only on its whole dollars. An amount strictly
between minus one dollar and zero has none, so it is read back without its sign
and has the text of the opposite amount; every other amount is read back as it is
(`display_lossless_iff`).
-/
namespace MarginGuard.Guarantees
open Foundation Source

/-- A signed decimal number with six digits behind the point, and the unit. -/
def readUsd (text : String) : Option Int :=
  let cs := text.toList
  if cs.drop (cs.length - 4) = " USD".toList then Decimal.parseFixed 6 (cs.take (cs.length - 4))
  else none

theorem readUsd_append (cs : List Char) :
    readUsd (String.ofList (cs ++ " USD".toList)) = Decimal.parseFixed 6 cs := by
  have four : (cs ++ " USD".toList).length - 4 = cs.length := by
    rw [List.length_append]
    exact Nat.add_sub_cancel _ 4
  unfold readUsd
  simp only [String.toList_ofList, four, List.drop_left, List.take_left, if_true]

/-- The amount that the text of another one tells. -/
def shown (u : Usd) : Int := if -SCALE < u.toInt ∧ u.toInt < 0 then -u.toInt else u.toInt

/-- The whole dollars are negative from minus one dollar down. -/
theorem whole_neg_iff (n : Int) : n.tdiv SCALE < 0 ↔ n ≤ -SCALE := by
  have reached := tdiv_le_neg_iff (a := n) (show 0 < SCALE by decide) Int.one_pos
  rw [Int.one_mul] at reached
  omega

/-- The text is the fixed-point text of the shown amount. -/
theorem display_eq (u : Usd) :
    u.display = String.ofList (Decimal.renderFixed 6 (shown u) ++ " USD".toList) := by
  have whole : (u.micros.div SCALE).toInt = u.toInt.tdiv SCALE :=
    SignedInt.toInt_div u.micros (by decide)
  have magnitude : (shown u).natAbs = u.toInt.natAbs := by
    unfold shown
    split
    · exact Int.natAbs_neg u.toInt
    · rfl
  have sign : u.toInt.tdiv SCALE < 0 ↔ shown u < 0 := by
    rw [whole_neg_iff]
    unfold shown SCALE
    split <;> omega
  have digits : (u.toInt.tdiv SCALE).natAbs = u.toInt.natAbs / 10 ^ 6 := Int.natAbs_tdiv _ _
  have rest : (u.toInt.tmod SCALE).natAbs = u.toInt.natAbs % 10 ^ 6 := Int.natAbs_tmod _ _
  unfold Usd.display Decimal.render Decimal.renderFixed Decimal.renderParts
  simp only [whole, digits, rest, magnitude, sign]
  split <;> rfl

/-- What is read from a text is the shown amount. -/
theorem read_display (u : Usd) : readUsd u.display = some (shown u) := by
  rw [display_eq, readUsd_append, Decimal.parseFixed_renderFixed (by decide)]

theorem display_eq_iff (u v : Usd) : u.display = v.display ↔ shown u = shown v := by
  constructor
  · intro same
    have read := read_display u
    rw [same, read_display v] at read
    exact (Option.some.inj read).symm
  · intro same
    rw [display_eq, display_eq, same]

/-- An amount is read back from its text exactly if it is not strictly between minus
one dollar and zero; two amounts have one text exactly if they are equal, or
opposite and less than a dollar. -/
theorem display_lossless_iff (u : Usd) :
    (readUsd u.display = some u.toInt ↔ ¬ (-SCALE < u.toInt ∧ u.toInt < 0)) ∧
    ∀ v : Usd, u.display = v.display ↔
      u = v ∨ (u.toInt = -v.toInt ∧ -SCALE < u.toInt ∧ u.toInt < SCALE) := by
  constructor
  · rw [read_display, Option.some.injEq]
    unfold shown
    split <;> omega
  · intro v
    rw [display_eq_iff, ← Usd.toInt_injective.eq_iff]
    unfold shown SCALE
    split <;> split <;> omega

/-- Half a dollar of debt reads as half a dollar. -/
theorem half_dollar_debt_loses_sign :
    (⟨SignedInt.clamp (-500000)⟩ : Usd).display = "0.500000 USD" ∧
    (⟨SignedInt.clamp 500000⟩ : Usd).display = "0.500000 USD" ∧
    readUsd "0.500000 USD" = some 500000 ∧
    ¬ ((∀ u : Usd, readUsd u.display = some u.toInt) ∧
      ∀ u v : Usd, u.display = v.display → u = v) := by
  have debt : (⟨SignedInt.clamp (-500000)⟩ : Usd).display = "0.500000 USD" := by decide +kernel
  have text : readUsd "0.500000 USD" = some 500000 := by decide +kernel
  refine ⟨debt, by decide +kernel, text, fun lossless => ?_⟩
  have read := lossless.1 ⟨SignedInt.clamp (-500000)⟩
  rw [debt, text] at read
  exact absurd read (by decide)

end MarginGuard.Guarantees
