import MarginGuard.Foundation.Mixing
import MarginGuard.Source.Money

/-!
# The simulated mark price (`marginguard-infra/src/oracle.rs`)

The oracle walks the price by a drift and a noise in basis points. The noise
comes from the `splitmix64` hash of a counter. Arithmetic on machine integers
wraps, as in a release build; a build that checks for overflow stops instead.
-/
namespace MarginGuard.Source
open Foundation

/-- A reproducible mark-price generator. Its constructor and its steps keep the
price positive and the volatility non-negative. -/
@[ext] structure SimMarketOracle where
  state : BitVec 64
  priceMicros : I128
  driftBps : I64
  volBps : I64
  price_pos : 1 ≤ priceMicros.toInt
  vol_nonneg : 0 ≤ volBps.toInt

/-- The odd step of the counter. -/
def GAMMA : BitVec 64 := 0x9E3779B97F4A7C15#64

/-- The hash of `splitmix64`. -/
def splitmix (z : BitVec 64) : BitVec 64 :=
  xorShift 31 (xorShift 27 (xorShift 30 z * 0xBF58476D1CE4E5B9#64) * 0x94D049BB133111EB#64)

/-- A price brought up to one micro-dollar. -/
def floored (n : I128) : { n : I128 // 1 ≤ n.toInt } :=
  ⟨max n (.clamp 1), by
    rw [SignedInt.toInt_max]
    exact le_max_of_le_right (by decide)⟩

/-- The price a change in basis points leads to. -/
def moved (price : I128) (changeBps : I64) : { n : I128 // 1 ≤ n.toInt } :=
  let delta : I128 := (SignedInt.wrap (price.toInt * changeBps.toInt) : I128).div 10000
  floored (.wrap (price.toInt + delta.toInt))

namespace SimMarketOracle

/-- `SimMarketOracle::new` -/
def new (seed : BitVec 64) (startPriceMicros : I128) (driftBps volBps : I64) : SimMarketOracle where
  state := seed + GAMMA
  priceMicros := floored startPriceMicros
  driftBps := driftBps
  volBps := max volBps .zero
  price_pos := (floored startPriceMicros).2
  vol_nonneg := by
    rw [SignedInt.toInt_max]
    exact le_max_right _ _

def setState (oracle : SimMarketOracle) (state : BitVec 64) : SimMarketOracle :=
  { oracle with state }

def setPrice (oracle : SimMarketOracle) (price : { n : I128 // 1 ≤ n.toInt }) : SimMarketOracle :=
  { oracle with priceMicros := price, price_pos := price.2 }

/-- `SimMarketOracle::next_u64` -/
def nextU64 (oracle : SimMarketOracle) : BitVec 64 × SimMarketOracle :=
  let state := oracle.state + GAMMA
  (splitmix state, oracle.setState state)

/-- The noise of a step, and the oracle once it is drawn. -/
def noise (oracle : SimMarketOracle) : I64 × SimMarketOracle :=
  if oracle.volBps.toInt = 0 then (.zero, oracle)
  else
    let twice : I64 := .wrap (2 * oracle.volBps.toInt)
    let span : I64 := .wrap (twice.toInt + 1)
    let drawn := oracle.nextU64
    let rest : I64 := .wrap (drawn.1.toNat % (BitVec.ofInt 64 span.toInt).toNat : Nat)
    (.wrap (rest.toInt - oracle.volBps.toInt), drawn.2)

/-- `SimMarketOracle::next_price` -/
def nextPrice (oracle : SimMarketOracle) : I128 × SimMarketOracle :=
  let drawn := oracle.noise
  let changeBps : I64 := .wrap (oracle.driftBps.toInt + drawn.1.toInt)
  let price := moved oracle.priceMicros changeBps
  (price, drawn.2.setPrice price)

/-- The oracle after some steps. -/
def after (oracle : SimMarketOracle) (steps : Nat) : SimMarketOracle :=
  (fun oracle => oracle.nextPrice.2)^[steps] oracle

/-- The price after some steps. -/
def price (oracle : SimMarketOracle) (steps : Nat) : Int := (oracle.after steps).priceMicros.toInt

section Fields
variable (oracle : SimMarketOracle) (state : BitVec 64) (price : { n : I128 // 1 ≤ n.toInt })

@[simp] theorem setState_state : (oracle.setState state).state = state := rfl
@[simp] theorem setState_priceMicros :
    (oracle.setState state).priceMicros = oracle.priceMicros := rfl
@[simp] theorem setState_driftBps : (oracle.setState state).driftBps = oracle.driftBps := rfl
@[simp] theorem setState_volBps : (oracle.setState state).volBps = oracle.volBps := rfl
@[simp] theorem setPrice_state : (oracle.setPrice price).state = oracle.state := rfl
@[simp] theorem setPrice_priceMicros : (oracle.setPrice price).priceMicros = price := rfl

end Fields

theorem after_succ (oracle : SimMarketOracle) (steps : Nat) :
    oracle.after (steps + 1) = (oracle.after steps).nextPrice.2 :=
  Function.iterate_succ_apply' _ _ _

end SimMarketOracle
end MarginGuard.Source
