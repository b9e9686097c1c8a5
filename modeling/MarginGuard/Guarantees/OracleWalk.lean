import MarginGuard.Source.Oracle

/-!
# The walk of the simulated price

While nothing overflows (`Steady`), a step moves the price by its drift and a
noise of at most the volatility (`nextPrice_spec`). So a whole walk stays between
two geometric curves, and a price too small to move never moves again
(`price_walk_envelope`). The noise itself is as even as a reduction of 64 random
bits can be: over one round of the generator every noise occurs equally often, but
for one occurrence (`noise_evenly_spread`).
-/
namespace MarginGuard.Guarantees
open Foundation Source

/-! ## The draws -/

theorem splitmix_injective : Function.Injective splitmix := by
  have first := mul_odd_injective (w := 64) (c := 0xBF58476D1CE4E5B9#64) (by decide)
  have second := mul_odd_injective (w := 64) (c := 0x94D049BB133111EB#64) (by decide)
  exact (xorShift_injective (by decide)).comp
    (second.comp ((xorShift_injective (by decide)).comp
      (first.comp (xorShift_injective (by decide)))))

theorem noise_still {oracle : SimMarketOracle} (still : oracle.volBps.toInt = 0) :
    oracle.noise.2 = oracle := by
  unfold SimMarketOracle.noise
  rw [if_pos still]

/-- Drawing advances the generator. -/
theorem noise_drawn {oracle : SimMarketOracle} (moving : oracle.volBps.toInt ≠ 0) :
    oracle.noise.2 = oracle.setState (oracle.state + GAMMA) := by
  unfold SimMarketOracle.noise
  rw [if_neg moving]
  rfl

/-- It changes nothing else. -/
theorem noise_settings (oracle : SimMarketOracle) :
    oracle.noise.2.priceMicros = oracle.priceMicros ∧ oracle.noise.2.driftBps = oracle.driftBps ∧
      oracle.noise.2.volBps = oracle.volBps := by
  by_cases still : oracle.volBps.toInt = 0
  · rw [noise_still still]
    exact ⟨rfl, rfl, rfl⟩
  · rw [noise_drawn still]
    exact ⟨oracle.setState_priceMicros _, oracle.setState_driftBps _, oracle.setState_volBps _⟩

theorem after_settings (oracle : SimMarketOracle) (steps : Nat) :
    (oracle.after steps).driftBps = oracle.driftBps ∧
      (oracle.after steps).volBps = oracle.volBps := by
  induction steps with
  | zero => exact ⟨rfl, rfl⟩
  | succ steps ih =>
    obtain ⟨-, drift, vol⟩ := noise_settings (oracle.after steps)
    rw [SimMarketOracle.after_succ]
    exact ⟨drift.trans ih.1, vol.trans ih.2⟩

theorem state_after {oracle : SimMarketOracle} (moving : oracle.volBps.toInt ≠ 0) (steps : Nat) :
    (oracle.after steps).state = oracle.state + BitVec.ofNat 64 steps * GAMMA := by
  induction steps with
  | zero =>
    change oracle.state = oracle.state + 0 * GAMMA
    rw [zero_mul, add_zero]
  | succ steps ih =>
    obtain ⟨-, same⟩ := after_settings oracle steps
    have step : (oracle.after (steps + 1)).state = (oracle.after steps).noise.2.state := by
      rw [SimMarketOracle.after_succ]
      exact SimMarketOracle.setPrice_state _ _
    have one : BitVec.ofNat 64 1 * GAMMA = GAMMA := by decide
    rw [step, noise_drawn (by rwa [same]), SimMarketOracle.setState_state, ih, BitVec.add_assoc,
      BitVec.ofNat_add, add_mul, one]

/-- The numbers drawn step by step. -/
def drawnAt (oracle : SimMarketOracle) (step : Nat) : BitVec 64 := (oracle.after step).nextU64.1

theorem drawnAt_onceARound {oracle : SimMarketOracle} (moving : oracle.volBps.toInt ≠ 0) :
    OnceARound (drawnAt oracle) := by
  have shape : drawnAt oracle = fun step =>
      splitmix (oracle.state + GAMMA + BitVec.ofNat 64 step * GAMMA) := by
    funext step
    change splitmix ((oracle.after step).state + GAMMA) = _
    rw [state_after moving, BitVec.add_assoc, BitVec.add_comm _ GAMMA, ← BitVec.add_assoc]
  rw [shape]
  exact onceARound_mixed splitmix_injective _ (by decide)

/-! ## One step -/

/-- Settings under which no step overflows. -/
structure Steady (oracle : SimMarketOracle) : Prop where
  span : 2 * oracle.volBps.toInt + 1 ≤ maxInt 64
  lowest : minInt 64 ≤ oracle.driftBps.toInt - oracle.volBps.toInt
  highest : oracle.driftBps.toInt + oracle.volBps.toInt ≤ maxInt 64

theorem maxInt_64 : maxInt 64 = 9223372036854775807 := by decide

theorem minInt_64 : minInt 64 = -9223372036854775808 := by decide

/-- The noise of a step is the number drawn, brought into `-vol ..= vol`. -/
theorem toInt_noise {oracle : SimMarketOracle} (steady : Steady oracle) :
    oracle.noise.1.toInt =
      (oracle.nextU64.1.toNat : Int) % (2 * oracle.volBps.toInt + 1) - oracle.volBps.toInt := by
  have vol := oracle.vol_nonneg
  have span := steady.span
  have high := maxInt_64
  have low := minInt_64
  unfold SimMarketOracle.noise
  by_cases still : oracle.volBps.toInt = 0
  · rw [if_pos still, still]
    simp [SignedInt.zero]
  · have twice : (SignedInt.wrap (2 * oracle.volBps.toInt) : I64).toInt = 2 * oracle.volBps.toInt :=
      SignedInt.toInt_wrap ⟨by omega, by omega⟩ (by decide)
    have width : (SignedInt.wrap (2 * oracle.volBps.toInt + 1) : I64).toInt =
        2 * oracle.volBps.toInt + 1 :=
      SignedInt.toInt_wrap ⟨by omega, by omega⟩ (by decide)
    have unsigned : ((BitVec.ofInt 64 (2 * oracle.volBps.toInt + 1)).toNat : Int) =
        2 * oracle.volBps.toInt + 1 := by
      rw [BitVec.toNat_ofInt]
      omega
    have positive : 0 < 2 * oracle.volBps.toInt + 1 := by omega
    have least := Int.emod_nonneg (oracle.nextU64.1.toNat : Int) (Int.ne_of_gt positive)
    have most := Int.emod_lt_of_pos (oracle.nextU64.1.toNat : Int) positive
    have rest : (SignedInt.wrap ((oracle.nextU64.1.toNat : Int) % (2 * oracle.volBps.toInt + 1)) :
        I64).toInt = (oracle.nextU64.1.toNat : Int) % (2 * oracle.volBps.toInt + 1) :=
      SignedInt.toInt_wrap ⟨by omega, by omega⟩ (by decide)
    rw [if_neg still]
    dsimp only
    rw [twice, width, Int.natCast_emod, unsigned, rest]
    exact SignedInt.toInt_wrap ⟨by omega, by omega⟩ (by decide)

theorem noise_range {oracle : SimMarketOracle} (steady : Steady oracle) :
    -oracle.volBps.toInt ≤ oracle.noise.1.toInt ∧ oracle.noise.1.toInt ≤ oracle.volBps.toInt := by
  have vol := oracle.vol_nonneg
  have positive : 0 < 2 * oracle.volBps.toInt + 1 := by omega
  have least := Int.emod_nonneg (oracle.nextU64.1.toNat : Int) (Int.ne_of_gt positive)
  have most := Int.emod_lt_of_pos (oracle.nextU64.1.toNat : Int) positive
  rw [toInt_noise steady]
  omega

/-- What truncation leaves of ten-thousandths. -/
theorem tdiv_myriad (n : Int) : ∃ rest, n.tdiv 10000 * 10000 + rest = n ∧ -10000 < rest ∧
    rest < 10000 ∧ (0 ≤ n → 0 ≤ rest) ∧ (n ≤ 0 → rest ≤ 0) := by
  have split := Int.tdiv_mul_add_tmod n 10000
  refine ⟨n.tmod 10000, split, ?_⟩
  rcases Int.le_total 0 n with sign | sign
  · have range := tmod_range_of_nonneg (d := 10000) (by decide) sign
    omega
  · have range := tmod_range_of_nonpos (d := 10000) (by decide) sign
    omega

/-- A price the engine accepts moves as written. -/
theorem toInt_moved {price : I128} (low : 0 ≤ price.toInt) (high : price.toInt ≤ MAX_PRICE)
    (changeBps : I64) :
    (moved price changeBps).1.toInt =
      max (price.toInt + (price.toInt * changeBps.toInt).tdiv 10000) 1 := by
  have limit : MAX_PRICE = 10000000000000 := by decide
  have most : price.toInt * changeBps.toInt ≤ MAX_PRICE * maxInt 64 :=
    (mul_le_mul_of_nonneg_left changeBps.upper low).trans
      (mul_le_mul_of_nonneg_right high (maxInt_nonneg 64))
  have least : MAX_PRICE * minInt 64 ≤ price.toInt * changeBps.toInt :=
    (mul_le_mul_of_nonpos_right high (minInt_neg 64).le).trans
      (mul_le_mul_of_nonneg_left changeBps.lower low)
  have wide : maxInt 128 = 170141183460469231731687303715884105727 := by decide
  have deep : minInt 128 = -170141183460469231731687303715884105728 := by decide
  obtain ⟨rest, split, bounds⟩ := tdiv_myriad (price.toInt * changeBps.toInt)
  rw [limit, maxInt_64] at most
  rw [limit, minInt_64] at least
  have product : (SignedInt.wrap (price.toInt * changeBps.toInt) : I128).toInt =
      price.toInt * changeBps.toInt := SignedInt.toInt_wrap ⟨by omega, by omega⟩ (by decide)
  unfold moved floored
  dsimp only
  rw [SignedInt.toInt_max, SignedInt.toInt_div _ (by decide), product,
    SignedInt.toInt_wrap ⟨by omega, by omega⟩ (by decide)]
  rfl

theorem Steady.after {oracle : SimMarketOracle} (steady : Steady oracle) (steps : Nat) :
    Steady (oracle.after steps) := by
  obtain ⟨drift, vol⟩ := after_settings oracle steps
  obtain ⟨span, lowest, highest⟩ := steady
  exact ⟨by rwa [vol], by rwa [drift, vol], by rwa [drift, vol]⟩

/-- A step moves the price by a change that is off the drift by at most the
volatility. -/
theorem price_succ {oracle : SimMarketOracle} (steady : Steady oracle) {step : Nat}
    (quoted : oracle.price step ≤ MAX_PRICE) : ∃ change,
      oracle.driftBps.toInt - oracle.volBps.toInt ≤ change ∧
      change ≤ oracle.driftBps.toInt + oracle.volBps.toInt ∧
      oracle.price (step + 1) =
        max (oracle.price step + (oracle.price step * change).tdiv 10000) 1 := by
  obtain ⟨drift, vol⟩ := after_settings oracle step
  have range := noise_range (steady.after step)
  have positive := (oracle.after step).price_pos
  have sum : (SignedInt.wrap (oracle.driftBps.toInt + (oracle.after step).noise.1.toInt) :
      I64).toInt = oracle.driftBps.toInt + (oracle.after step).noise.1.toInt := by
    have lowest := steady.lowest
    have highest := steady.highest
    rw [vol] at range
    exact SignedInt.toInt_wrap ⟨by omega, by omega⟩ (by decide)
  have next : oracle.price (step + 1) = (moved (oracle.after step).priceMicros
      (.wrap ((oracle.after step).driftBps.toInt + (oracle.after step).noise.1.toInt))).1.toInt := by
    rw [SimMarketOracle.price, SimMarketOracle.after_succ]
    exact congrArg SignedInt.toInt (SimMarketOracle.setPrice_priceMicros _ _)
  rw [toInt_moved (by omega) quoted, drift, sum] at next
  rw [vol] at range
  exact ⟨_, by omega, by omega, next⟩

/-! ## Whole walks -/

/-- Ten thousand times the most a price can be multiplied by in a step. -/
def climb (oracle : SimMarketOracle) : Int :=
  10000 + max 0 (oracle.driftBps.toInt + oracle.volBps.toInt)

/-- Ten thousand times the least, but for rounding up. -/
def fall (oracle : SimMarketOracle) : Int :=
  max 0 (10000 + min 0 (oracle.driftBps.toInt - oracle.volBps.toInt))

/-- A step stays between the two. -/
theorem step_bounds {p low high change : Int} (positive : 1 ≤ p) (least : low ≤ change)
    (most : change ≤ high) :
    max (p + (p * change).tdiv 10000) 1 * 10000 ≤ p * (10000 + max 0 high) ∧
      p * max 0 (10000 + min 0 low) ≤ max (p + (p * change).tdiv 10000) 1 * 10000 := by
  obtain ⟨rest, split, below, above, up, down⟩ := tdiv_myriad (p * change)
  have nonneg : 0 ≤ p := by omega
  have ceiling : p * change ≤ p * max 0 high := mul_le_mul_of_nonneg_left (by omega) nonneg
  have floor : p * min 0 low ≤ p * change := mul_le_mul_of_nonneg_left (by omega) nonneg
  have gain : 0 ≤ p * max 0 high := mul_nonneg nonneg (by omega)
  have loss : p * min 0 low ≤ 0 := mul_nonpos_of_nonneg_of_nonpos nonneg (by omega)
  constructor
  · rw [mul_add]
    rcases Int.le_total 0 (p * change) with sign | sign
    · have kept := up sign
      omega
    · have kept := down sign
      omega
  · have shape : p * max 0 (10000 + min 0 low) = max 0 (p * 10000 + p * min 0 low) := by
      rw [← mul_add, mul_max_of_nonneg _ _ nonneg, mul_zero]
    rw [shape]
    rcases Int.le_total 0 (p * change) with sign | sign
    · have kept := up sign
      omega
    · have kept := down sign
      omega

/-- A price that is too small to move stays. -/
theorem step_still {p d v change : Int} (positive : 1 ≤ p) (least : d - v ≤ change)
    (most : change ≤ d + v) (small : p * (|d| + v) < 10000) :
    max (p + (p * change).tdiv 10000) 1 = p := by
  obtain ⟨rest, split, below, above, up, down⟩ := tdiv_myriad (p * change)
  have most' := le_abs_self d
  have least' := neg_abs_le d
  have ceiling : p * change ≤ p * (|d| + v) := mul_le_mul_of_nonneg_left (by omega) (by omega)
  have floor : p * -(|d| + v) ≤ p * change := mul_le_mul_of_nonneg_left (by omega) (by omega)
  rw [mul_neg] at floor
  rcases Int.le_total 0 (p * change) with sign | sign
  · have kept := up sign
    omega
  · have kept := down sign
    omega

theorem fall_nonneg (oracle : SimMarketOracle) : 0 ≤ fall oracle := le_max_left _ _

theorem climb_nonneg (oracle : SimMarketOracle) : 0 ≤ climb oracle := by
  unfold climb
  omega

/-- While the engine would accept the prices, a walk stays between two geometric
curves; and from a price on that no change can move by a micro-dollar, the price
stands still. -/
theorem price_walk_envelope {oracle : SimMarketOracle} (steady : Steady oracle) {steps : Nat}
    (quoted : ∀ step < steps, oracle.price step ≤ MAX_PRICE) :
    oracle.price steps * 10000 ^ steps ≤ oracle.price 0 * climb oracle ^ steps ∧
    oracle.price 0 * fall oracle ^ steps ≤ oracle.price steps * 10000 ^ steps ∧
    ∀ step ≤ steps,
      oracle.price step * (|oracle.driftBps.toInt| + oracle.volBps.toInt) < 10000 →
        oracle.price steps = oracle.price step := by
  induction steps with
  | zero =>
    refine ⟨by simp, by simp, fun step early _ => ?_⟩
    rw [Nat.le_zero.mp early]
  | succ steps ih =>
    obtain ⟨upper, lower, still⟩ := ih fun step early => quoted step (by omega)
    obtain ⟨change, least, most, next⟩ := price_succ steady (quoted steps (Nat.lt_succ_self _))
    have positive : 1 ≤ oracle.price steps := (oracle.after steps).price_pos
    obtain ⟨above, below⟩ := step_bounds positive least most
    rw [← next] at above below
    have scale : (0 : Int) ≤ 10000 ^ steps := by positivity
    refine ⟨?_, ?_, ?_⟩
    · calc oracle.price (steps + 1) * 10000 ^ (steps + 1)
          = oracle.price (steps + 1) * 10000 * 10000 ^ steps := by ring
        _ ≤ oracle.price steps * climb oracle * 10000 ^ steps :=
          mul_le_mul_of_nonneg_right above scale
        _ = oracle.price steps * 10000 ^ steps * climb oracle := by ring
        _ ≤ oracle.price 0 * climb oracle ^ steps * climb oracle :=
          mul_le_mul_of_nonneg_right upper (climb_nonneg oracle)
        _ = oracle.price 0 * climb oracle ^ (steps + 1) := by ring
    · calc oracle.price 0 * fall oracle ^ (steps + 1)
          = oracle.price 0 * fall oracle ^ steps * fall oracle := by ring
        _ ≤ oracle.price steps * 10000 ^ steps * fall oracle :=
          mul_le_mul_of_nonneg_right lower (fall_nonneg oracle)
        _ = oracle.price steps * fall oracle * 10000 ^ steps := by ring
        _ ≤ oracle.price (steps + 1) * 10000 * 10000 ^ steps :=
          mul_le_mul_of_nonneg_right below scale
        _ = oracle.price (steps + 1) * 10000 ^ (steps + 1) := by ring
    · intro step early small
      rcases Nat.lt_or_eq_of_le early with before | rfl
      · have kept := still step (Nat.le_of_lt_succ before) small
        rw [← kept] at small ⊢
        rw [next, step_still positive least most small]
      · rfl

/-- From a hundred dollars with the settings of the command line's defaults. -/
def bearish : SimMarketOracle := .new 42 (.clamp (100 * SCALE)) (.clamp (-50)) (.clamp 40)

theorem steady_bearish : Steady bearish := ⟨by decide, by decide, by decide⟩

theorem price_walk_envelope_bearish :
    bearish.price 3 * 10000 ^ 3 ≤ bearish.price 0 * climb bearish ^ 3 ∧
      bearish.price 0 * fall bearish ^ 3 ≤ bearish.price 3 * 10000 ^ 3 := by
  have quoted : ∀ step < 3, bearish.price step ≤ MAX_PRICE := by decide +kernel
  obtain ⟨upper, lower, -⟩ := price_walk_envelope steady_bearish quoted
  exact ⟨upper, lower⟩

/-- Over one round of the generator the numbers drawn are all different, so every
noise from `-vol` to `vol` occurs equally often, but for one occurrence. -/
theorem noise_evenly_spread {oracle : SimMarketOracle} (steady : Steady oracle)
    (moving : oracle.volBps.toInt ≠ 0) :
    (∀ step step', drawnAt oracle step = drawnAt oracle step' ↔ step ≡ step' [MOD 2 ^ 64]) ∧
    ∀ value, -oracle.volBps.toInt ≤ value → value ≤ oracle.volBps.toInt →
      (((Finset.range (2 ^ 64)).filter fun step =>
        (oracle.after step).noise.1.toInt = value).card : Int) =
        2 ^ 64 / (2 * oracle.volBps.toInt + 1) +
          if value + oracle.volBps.toInt < 2 ^ 64 % (2 * oracle.volBps.toInt + 1) then 1 else 0 := by
  refine ⟨drawnAt_onceARound moving, fun value least most => ?_⟩
  have nonneg := oracle.vol_nonneg
  obtain ⟨span, width⟩ : ∃ span : Nat, (span : Int) = 2 * oracle.volBps.toInt + 1 :=
    ⟨(2 * oracle.volBps.toInt + 1).toNat, by omega⟩
  obtain ⟨rest, place⟩ : ∃ rest : Nat, (rest : Int) = value + oracle.volBps.toInt :=
    ⟨(value + oracle.volBps.toInt).toNat, by omega⟩
  have same : ((Finset.range (2 ^ 64)).filter fun step =>
        (oracle.after step).noise.1.toInt = value) =
      (Finset.range (2 ^ 64)).filter fun step => (drawnAt oracle step).toNat % span = rest := by
    ext step
    obtain ⟨-, vol⟩ := after_settings oracle step
    rw [Finset.mem_filter, Finset.mem_filter, toInt_noise (steady.after step), vol, ← width,
      ← Int.natCast_emod]
    refine and_congr_right fun _ => ?_
    change (((drawnAt oracle step).toNat % span : Nat) : Int) - oracle.volBps.toInt = value ↔ _
    omega
  have within : rest < span := by omega
  rw [same, (drawnAt_onceARound moving).card_filter_mod within, ← width, ← place]
  norm_cast

theorem noise_evenly_spread_bearish :
    (((Finset.range (2 ^ 64)).filter fun step => (bearish.after step).noise.1.toInt = 0).card : Int) =
      227737581156908044 + 1 := by
  obtain ⟨-, spread⟩ := noise_evenly_spread steady_bearish (by decide)
  exact spread 0 (by decide) (by decide)

end MarginGuard.Guarantees
