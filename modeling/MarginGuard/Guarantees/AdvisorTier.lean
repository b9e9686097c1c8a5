import MarginGuard.Source.Ratios
import MarginGuard.Source.Script

/-!
# The advisor's tier and the engine's decision

The engine compares two amounts, the advisor two ratios truncated separately. As
long as the margin ratio is moderate the ratios follow the amounts
(`distance_of_context`), so the tier is critical whenever the engine would
liquidate, and otherwise only where truncation makes the ratios meet. More posted
margin never makes the tier more severe.
-/
namespace MarginGuard.Guarantees
open Foundation Source

/-- The margin ratio, if there is one, is below `2 ^ 62` in magnitude. -/
def ModerateRatio (pos : Position) (mark : Price) : Prop :=
  ∀ r, marginRatioBps (positionEquity pos mark) (pos.notional mark) = some r →
    -2 ^ 62 < r.toInt ∧ r.toInt < 2 ^ 62

/-- The advice for a position at a mark. -/
abbrev adviceFor (pos : Position) (mark : Price) (params : RiskParams) (market : MarketState) :
    RiskAdvice :=
  HeuristicAdvisor.score (adviceContext pos mark params market)

variable {pos : Position} {mark : Price} {params : RiskParams} {market : MarketState}

theorem riskLevel_score (ctx : AdviceContext) :
    (HeuristicAdvisor.score ctx).riskLevel =
      classify ctx.liquidatable ctx.liquidationDistanceBps := rfl

theorem liquidatable_context :
    (adviceContext pos mark params market).liquidatable = isLiquidatable pos mark params :=
  liquidatable_account_health pos mark params

/-- A flat account has no ratio and no distance. -/
theorem flat_context (pos : Position) (params : RiskParams) (market : MarketState)
    (flat : (pos.notional mark).toInt = 0) :
    (adviceContext pos mark params market).marginRatioBps = none ∧
      (adviceContext pos mark params market).liquidationDistanceBps = none := by
  have ratio : (adviceContext pos mark params market).marginRatioBps = none := if_pos flat
  refine ⟨ratio, ?_⟩
  rw [AdviceContext.liquidationDistanceBps, ratio]
  rfl

/-- A moderate ratio is the quotient itself. -/
theorem ratio_of_moderate (positive : 0 < (pos.notional mark).toInt)
    (moderate : ModerateRatio pos mark) :
    ∃ r, marginRatioBps (positionEquity pos mark) (pos.notional mark) = some r ∧
      r.toInt = ratioQuotient (positionEquity pos mark) (pos.notional mark) ∧
      -2 ^ 62 < r.toInt ∧ r.toInt < 2 ^ 62 := by
  obtain ⟨r, found, value⟩ := marginRatioBps_of_pos (positionEquity pos mark) positive
  obtain ⟨low, high⟩ := moderate r found
  have wide : (2 : Int) ^ 62 ≤ maxInt 64 := by decide
  refine ⟨r, found, ?_, low, high⟩
  split at value <;> omega

/-- With a moderate ratio the distance is the exact difference of the quotients. -/
theorem distance_of_context (pos : Position) (market : MarketState)
    (rate : 0 ≤ params.maintenanceMarginBps.toInt)
    (small : params.maintenanceMarginBps.toInt ≤ 10000)
    (positive : 0 < (pos.notional mark).toInt) (moderate : ModerateRatio pos mark) :
    ∃ r d, (adviceContext pos mark params market).marginRatioBps = some r ∧
      r.toInt = ratioQuotient (positionEquity pos mark) (pos.notional mark) ∧
      (adviceContext pos mark params market).liquidationDistanceBps = some d ∧
      d.toInt = ratioQuotient (positionEquity pos mark) (pos.notional mark) -
        maintenanceQuotient pos mark params := by
  obtain ⟨r, found, value, low, high⟩ := ratio_of_moderate positive moderate
  obtain ⟨ratio, nonneg, atMost⟩ := toInt_maintenanceRatioBps market rate positive
  have context : (adviceContext pos mark params market).marginRatioBps = some r := found
  have fit : Fits 64 (r.toInt - maintenanceQuotient pos mark params) := by
    unfold Fits minInt maxInt
    omega
  refine ⟨r, SignedInt.wrap (r.toInt - maintenanceQuotient pos mark params), context, value, ?_, ?_⟩
  · rw [AdviceContext.liquidationDistanceBps, context, ratio, Option.map_some]
  · rw [SignedInt.toInt_wrap fit (by decide), value]

/-- At or above maintenance the quotients are ordered as the amounts are. -/
theorem maintenance_le_quotient (rate : 0 ≤ params.maintenanceMarginBps.toInt)
    (positive : 0 < (pos.notional mark).toInt)
    (sound : ¬ isLiquidatable pos mark params = true) :
    maintenanceQuotient pos mark params ≤
      ratioQuotient (positionEquity pos mark) (pos.notional mark) := by
  rw [isLiquidatable_iff, not_lt] at sound
  rw [← ratioQuotient_maintenance rate]
  exact ratioQuotient_mono positive sound

theorem severity_classify (d : I64) :
    (classify false (some d)).severity =
      if d.toInt ≤ CRITICAL_BPS then 3 else if d.toInt ≤ WARNING_BPS then 2
      else if d.toInt ≤ CAUTION_BPS then 1 else 0 := by
  simp only [classify, Bool.false_eq_true, if_false]
  split_ifs <;> simp [RiskLevel.severity]

/-- Without the flag the tier is critical at a distance of at most zero. -/
theorem distance_of_critical {d : I64} (critical : classify false (some d) = .critical) :
    d.toInt ≤ 0 := by
  have severity := severity_classify d
  rw [critical, RiskLevel.severity] at severity
  by_contra wide
  rw [CRITICAL_BPS, if_neg wide] at severity
  split_ifs at severity <;> omega

/-- A wider distance is no more severe, and neither is losing the flag. -/
theorem classify_mono {liquidatable liquidatable' : Bool} {d d' : I64}
    (flag : liquidatable' = true → liquidatable = true) (wider : d.toInt ≤ d'.toInt) :
    classify liquidatable' (some d') ≤ classify liquidatable (some d) := by
  cases liquidatable with
  | true => exact RiskLevel.le_critical _
  | false =>
    cases liquidatable' with
    | true => cases flag rfl
    | false =>
      rw [RiskLevel.le_iff, severity_classify, severity_classify]
      unfold CRITICAL_BPS WARNING_BPS CAUTION_BPS
      split_ifs <;> omega

/-- Equity grows with the posted margin. -/
theorem positionEquity_mono (mark : Price) {margin : Usd} (more : pos.postedMargin ≤ margin) :
    positionEquity pos mark ≤ positionEquity { pos with postedMargin := margin } mark := by
  rw [Usd.le_iff] at more ⊢
  exact positionEquity_le rfl (Int.add_le_add_right more _)

/-- More posted margin never gives a more severe tier. -/
theorem tier_antitone (rate : 0 ≤ params.maintenanceMarginBps.toInt)
    (small : params.maintenanceMarginBps.toInt ≤ 10000) {margin : Usd}
    (more : pos.postedMargin ≤ margin) (moderate : ModerateRatio pos mark)
    (moderate' : ModerateRatio { pos with postedMargin := margin } mark) :
    (adviceFor { pos with postedMargin := margin } mark params market).riskLevel ≤
      (adviceFor pos mark params market).riskLevel := by
  have equity := positionEquity_mono mark more
  have flag : isLiquidatable { pos with postedMargin := margin } mark params = true →
      isLiquidatable pos mark params = true := by
    rw [isLiquidatable_iff, isLiquidatable_iff]
    exact lt_of_le_of_lt ((Usd.le_iff _ _).mp equity)
  have nonneg := pos.notional_nonneg mark
  rw [riskLevel_score, riskLevel_score, liquidatable_context, liquidatable_context]
  rcases Int.lt_or_eq_of_le nonneg with positive | flat
  · obtain ⟨r, d, -, -, distance, value⟩ :=
      distance_of_context pos market rate small positive moderate
    obtain ⟨r', d', -, -, distance', value'⟩ := distance_of_context
      { pos with postedMargin := margin } market rate small positive moderate'
    rw [distance, distance']
    apply classify_mono flag
    rw [value, value']
    exact Int.sub_le_sub_right (ratioQuotient_mono positive equity) _
  · rw [(flat_context pos params market flat.symm).2,
      (flat_context { pos with postedMargin := margin } params market flat.symm).2]
    cases liquidatable : isLiquidatable { pos with postedMargin := margin } mark params with
    | false => exact RiskLevel.safe_le _
    | true =>
      rw [flag liquidatable]
      exact RiskLevel.le_critical _

/-- The tier against the engine's decision, and against more posted margin. -/
theorem advisor_tier_agrees (pos : Position) (mark : Price) (params : RiskParams)
    (market : MarketState) (rate : 0 ≤ params.maintenanceMarginBps.toInt)
    (small : params.maintenanceMarginBps.toInt ≤ 10000) (moderate : ModerateRatio pos mark) :
    (isLiquidatable pos mark params = true →
      (adviceFor pos mark params market).riskLevel = .critical) ∧
    (isLiquidatable pos mark params = false →
      (adviceFor pos mark params market).riskLevel = .critical →
        (adviceContext pos mark params market).marginRatioBps =
          some (adviceContext pos mark params market).maintenanceRatioBps) ∧
    (∀ d, (adviceContext pos mark params market).liquidationDistanceBps = some d →
      d.toInt < 0 → isLiquidatable pos mark params = true) ∧
    (∀ margin : Usd, pos.postedMargin ≤ margin →
      ModerateRatio { pos with postedMargin := margin } mark →
        (adviceFor { pos with postedMargin := margin } mark params market).riskLevel ≤
          (adviceFor pos mark params market).riskLevel) := by
  have nonneg := pos.notional_nonneg mark
  refine ⟨?_, ?_, ?_, ?_⟩
  · intro liquidatable
    rw [riskLevel_score, liquidatable_context, liquidatable]
    rfl
  · intro sound critical
    rw [riskLevel_score, liquidatable_context, sound] at critical
    rcases Int.lt_or_eq_of_le nonneg with positive | flat
    · obtain ⟨r, d, ratio, value, distance, difference⟩ :=
        distance_of_context pos market rate small positive moderate
      have ordered := maintenance_le_quotient rate positive (by rw [sound]; decide)
      have exactly := (toInt_maintenanceRatioBps market rate positive).1
      rw [distance] at critical
      have touching := distance_of_critical critical
      rw [ratio]
      congr 1
      apply SignedInt.toInt_injective
      omega
    · rw [(flat_context pos params market flat.symm).2] at critical
      cases critical
  · intro d distance negative
    rcases Int.lt_or_eq_of_le nonneg with positive | flat
    · obtain ⟨r, d', -, -, distance', difference⟩ :=
        distance_of_context pos market rate small positive moderate
      rw [distance'] at distance
      cases distance
      by_contra sound
      have ordered := maintenance_le_quotient rate positive sound
      omega
    · rw [(flat_context pos params market flat.symm).2] at distance
      cases distance
  · intro margin more moderate'
    exact tier_antitone rate small more moderate moderate'

open Sample

/-- A tenfold position at maintenance to the micro-dollar, and with ten dollars more. -/
theorem advisor_tier_agrees_at_maintenance :
    (adviceFor (held .long 1000000 100000000 2500000 0) (price 100) .standard
        (quoted (price 100))).riskLevel = .critical ∧
      (adviceContext (held .long 1000000 100000000 2500000 0) (price 100) .standard
          (quoted (price 100))).marginRatioBps =
        some (adviceContext (held .long 1000000 100000000 2500000 0) (price 100) .standard
          (quoted (price 100))).maintenanceRatioBps ∧
      (adviceFor { held .long 1000000 100000000 2500000 0 with postedMargin := usd 12500000 }
          (price 100) .standard (quoted (price 100))).riskLevel ≤
        (adviceFor (held .long 1000000 100000000 2500000 0) (price 100) .standard
          (quoted (price 100))).riskLevel := by
  have moderate : ModerateRatio (held .long 1000000 100000000 2500000 0) (price 100) := by
    intro r found
    obtain rfl : rate 250 = r := Option.some.inj (Eq.trans (by decide +kernel) found)
    decide +kernel
  have moderate' : ModerateRatio
      { held .long 1000000 100000000 2500000 0 with postedMargin := usd 12500000 } (price 100) := by
    intro r found
    obtain rfl : rate 1250 = r := Option.some.inj (Eq.trans (by decide +kernel) found)
    decide +kernel
  have critical : (adviceFor (held .long 1000000 100000000 2500000 0) (price 100) .standard
      (quoted (price 100))).riskLevel = .critical := by decide +kernel
  obtain ⟨-, touching, -, more⟩ := advisor_tier_agrees _ _ .standard (quoted (price 100))
    (by decide) (by decide) moderate
  exact ⟨critical, touching (by decide +kernel) critical,
    more (usd 12500000) (by decide +kernel) moderate'⟩

end MarginGuard.Guarantees
