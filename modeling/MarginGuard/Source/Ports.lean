import MarginGuard.Foundation.FiniteMap
import MarginGuard.Foundation.Program
import MarginGuard.Source.Margin

/-!
# Commands, events, errors and the engine's outbound ports

`marginguard-core/src/{command,event,error,ports,config}.rs`. The store is the
contract of the `PositionStore` port: a finite map from `(account, symbol)` to
positions, each filed under its own key. `by_market` may list a market in any
order, so `Lists` relates a store to every admissible listing.

An `Action` is what the engine does in one indivisible step: one store call,
one section under the state lock, one acquisition of the rate limiter, or one
publish. The fallible ones answer with `Except PortError`.
-/
namespace MarginGuard.Source
open Foundation

/-! ## Commands and events -/

/-- A command mutating engine state. -/
inductive RiskCommand where
  | openPosition (account : AccountId) (symbol : Symbol) (side : Side) (marginMode : MarginMode)
      (size : Size) (entryPrice : Price) (leverage : Leverage) (margin : Usd)
  | closePosition (account : AccountId) (symbol : Symbol)
  | updateMarket (symbol : Symbol) (markPrice indexPrice : Price) (fundingRateBps : I64)
  | accrueFunding (symbol : Symbol)
  | liquidateMarket (symbol : Symbol)
  deriving DecidableEq

/-- The market a command addresses. -/
def RiskCommand.symbol : RiskCommand → Symbol
  | .openPosition _ symbol .. => symbol
  | .closePosition _ symbol => symbol
  | .updateMarket symbol .. => symbol
  | .accrueFunding symbol => symbol
  | .liquidateMarket symbol => symbol

/-- An event describing a state change. -/
inductive RiskEvent where
  | positionOpened (account : AccountId) (symbol : Symbol) (side : Side) (notional : Usd)
  | positionClosed (account : AccountId) (symbol : Symbol) (realizedPnl : Usd)
  | marketUpdated (symbol : Symbol) (markPrice : Int) (fundingRateBps : I64)
  | fundingSettled (account : AccountId) (symbol : Symbol) (amount : Usd)
  | liquidated (liquidation : Liquidation)
  | autoDeleveraged (symbol : Symbol) (socializedLoss : Usd)
  deriving DecidableEq

/-- The ordered events a command produced. -/
structure CommandOutcome where
  events : List RiskEvent
  deriving DecidableEq

/-! ## Errors -/

/-- A failure of a store or sink. -/
inductive PortError where
  | unavailable (reason : String)
  | timeout
  | internal (reason : String)
  deriving DecidableEq

/-- Whether a retry could plausibly succeed. -/
def PortError.isRetryable : PortError → Bool
  | .unavailable _ => true
  | .timeout => true
  | .internal _ => false

/-- The top-level engine error. -/
inductive CoreError where
  | invalid (input : InvalidInput)
  | port (error : PortError)
  | positionNotFound
  | positionExists
  | marketNotFound
  | insufficientMargin
  | rateLimited
  deriving DecidableEq

/-! ## The position store -/

/-- The store's key: an account id as text and a market. -/
abbrev Key := String × Symbol

def Position.key (pos : Position) : Key := (pos.account.asStr, pos.symbol)

/-- What a `PositionStore` holds. Positions enter only through `upsert`, which
files them under their own key. -/
structure PositionStore where
  byKey : FiniteMap Key Position
  filed : ∀ k pos, byKey.lookup k = some pos → pos.key = k

namespace PositionStore

def empty : PositionStore := ⟨∅, fun k pos stored => by simp at stored⟩

/-- Fetch a position by account and market. -/
def get (store : PositionStore) (account : String) (symbol : Symbol) : Option Position :=
  store.byKey.lookup (account, symbol)

/-- Insert or replace a position. -/
def upsert (store : PositionStore) (pos : Position) : PositionStore where
  byKey := store.byKey.insert pos.key pos
  filed k other stored := by
    rw [FiniteMap.lookup_insert_eq] at stored
    split at stored
    · next same => rw [← Option.some.inj stored, same]
    · exact store.filed k other stored

/-- The store after removing a position; `remove` answers with what `get` held. -/
def remove (store : PositionStore) (account : String) (symbol : Symbol) : PositionStore where
  byKey := store.byKey.erase (account, symbol)
  filed k other stored := by
    rw [FiniteMap.lookup_erase_eq] at stored
    split at stored
    · cases stored
    · exact store.filed k other stored

/-- Total number of open positions. -/
def count (store : PositionStore) : Nat := FiniteMap.size store.byKey

/-- An admissible answer of `by_market`: the positions of the market, each
once, in any order. -/
structure Lists (store : PositionStore) (symbol : Symbol) (listing : List Position) : Prop where
  nodup : (listing.map Position.key).Nodup
  stored : ∀ pos ∈ listing, pos.symbol = symbol ∧ store.get pos.account.asStr symbol = some pos
  complete : ∀ k ∈ store.byKey.keys, k.2 = symbol → ∃ pos ∈ listing, pos.key = k

instance (store : PositionStore) (symbol : Symbol) (listing : List Position) :
    Decidable (store.Lists symbol listing) :=
  decidable_of_iff ((listing.map Position.key).Nodup ∧
      (∀ pos ∈ listing, pos.symbol = symbol ∧ store.get pos.account.asStr symbol = some pos) ∧
      ∀ k ∈ store.byKey.keys, k.2 = symbol → ∃ pos ∈ listing, pos.key = k)
    ⟨fun ⟨nodup, stored, complete⟩ => ⟨nodup, stored, complete⟩,
      fun lists => ⟨lists.nodup, lists.stored, lists.complete⟩⟩

theorem ext {first second : PositionStore} (same : ∀ account symbol,
    first.get account symbol = second.get account symbol) : first = second := by
  have maps : first.byKey = second.byKey := Finmap.ext_lookup fun k => same k.1 k.2
  cases first
  cases second
  simpa using maps

theorem key_of_get {store : PositionStore} {account : String} {symbol : Symbol} {pos : Position}
    (stored : store.get account symbol = some pos) : pos.key = (account, symbol) :=
  store.filed _ _ stored

theorem account_of_get {store : PositionStore} {account : String} {symbol : Symbol}
    {pos : Position} (stored : store.get account symbol = some pos) :
    pos.account.asStr = account := congrArg Prod.fst (key_of_get stored)

theorem get_upsert (store : PositionStore) (pos : Position) (account : String) (symbol : Symbol) :
    (store.upsert pos).get account symbol =
      if (account, symbol) = pos.key then some pos else store.get account symbol :=
  FiniteMap.lookup_insert_eq _ _ _ _

theorem get_remove (store : PositionStore) (account' : String) (symbol' : Symbol)
    (account : String) (symbol : Symbol) :
    (store.remove account' symbol').get account symbol =
      if (account, symbol) = (account', symbol') then none else store.get account symbol :=
  FiniteMap.lookup_erase_eq _ _ _

theorem remove_of_get_none {store : PositionStore} {account : String} {symbol : Symbol}
    (absent : store.get account symbol = none) : store.remove account symbol = store := by
  apply ext
  intro account' symbol'
  rw [get_remove]
  split
  · next same =>
    rw [Prod.mk.injEq] at same
    rw [same.1, same.2, absent]
  · rfl

theorem count_upsert_of_none {store : PositionStore} {pos : Position}
    (absent : store.get pos.account.asStr pos.symbol = none) :
    (store.upsert pos).count = store.count + 1 := FiniteMap.size_insert_of_none absent pos

theorem count_upsert_of_some {store : PositionStore} {pos old : Position}
    (stored : store.get pos.account.asStr pos.symbol = some old) :
    (store.upsert pos).count = store.count := FiniteMap.size_insert_of_some stored pos

theorem count_remove_of_some {store : PositionStore} {account : String} {symbol : Symbol}
    {pos : Position} (stored : store.get account symbol = some pos) :
    (store.remove account symbol).count + 1 = store.count := FiniteMap.size_erase_of_some stored

namespace Lists
variable {store : PositionStore} {symbol : Symbol} {listing : List Position}

theorem mem_iff (lists : store.Lists symbol listing) (pos : Position) :
    pos ∈ listing ↔ store.get pos.account.asStr symbol = some pos := by
  constructor
  · exact fun member => (lists.stored pos member).2
  · intro stored
    have present : (pos.account.asStr, symbol) ∈ store.byKey.keys :=
      Finmap.mem_keys.mpr (Finmap.mem_of_lookup_eq_some stored)
    obtain ⟨other, member, same⟩ := lists.complete _ present rfl
    obtain ⟨own, listed⟩ := lists.stored other member
    rw [Position.key, Prod.mk.injEq] at same
    rw [same.1, stored] at listed
    rwa [Option.some.inj listed]

theorem symbol_eq (lists : store.Lists symbol listing) {pos : Position} (member : pos ∈ listing) :
    pos.symbol = symbol := (lists.stored pos member).1

/-- Distinct positions of a listing belong to distinct accounts. -/
theorem accounts_nodup (lists : store.Lists symbol listing) :
    (listing.map Position.account).Nodup := by
  apply List.Nodup.of_map (fun account : AccountId => (account.asStr, symbol))
  rw [List.map_map]
  have same : listing.map ((fun account : AccountId => (account.asStr, symbol)) ∘ Position.account)
      = listing.map Position.key := by
    apply List.map_congr_left
    intro pos member
    simp [Position.key, lists.symbol_eq member]
  rw [same]
  exact lists.nodup

/-- Stores that hold the same of a market have the same listings of it. -/
theorem congr {other : PositionStore} (lists : store.Lists symbol listing)
    (same : ∀ account, store.get account symbol = other.get account symbol) :
    other.Lists symbol listing := by
  refine ⟨lists.nodup, fun pos member => ?_, ?_⟩
  · obtain ⟨own, stored⟩ := lists.stored pos member
    exact ⟨own, (same _).symm.trans stored⟩
  · rintro k present rfl
    have held : (other.get k.1 k.2).isSome := by
      rwa [Finmap.mem_keys, ← Finmap.lookup_isSome] at present
    rw [← same] at held
    refine lists.complete _ ?_ rfl
    rwa [Finmap.mem_keys, ← Finmap.lookup_isSome]

/-- Looking up the keys of a market, each once, lists it. -/
theorem of_keys {keys : List Key} (nodup : keys.Nodup)
    (own : ∀ k, k ∈ keys ↔ k.2 = symbol ∧ (store.byKey.lookup k).isSome) :
    store.Lists symbol (keys.filterMap fun k => store.byKey.lookup k) := by
  have found : ∀ l : List Key, (∀ k ∈ l, k ∈ keys) →
      (l.filterMap fun k => store.byKey.lookup k).map Position.key = l := by
    intro l
    induction l with
    | nil => intro _; rfl
    | cons k l ih =>
      intro present
      obtain ⟨pos, stored⟩ := Option.isSome_iff_exists.mp ((own k).mp (present k (by simp))).2
      simp only [List.filterMap_cons, stored, List.map_cons]
      rw [store.filed k pos stored, ih fun k' member => present k' (by simp [member])]
  refine ⟨?_, ?_, ?_⟩
  · rw [found keys fun _ member => member]
    exact nodup
  · intro pos member
    obtain ⟨k, listed, stored⟩ := List.mem_filterMap.mp member
    obtain rfl := store.filed k pos stored
    obtain rfl := ((own _).mp listed).1
    exact ⟨rfl, stored⟩
  · intro k present market
    obtain ⟨pos, stored⟩ := Finmap.mem_iff.mp (Finmap.mem_keys.mp present)
    have listed := (own k).mpr ⟨market, by rw [stored]; rfl⟩
    exact ⟨pos, List.mem_filterMap.mpr ⟨k, listed, stored⟩, store.filed k pos stored⟩

/-- The store may list a market in any order. -/
theorem reorder {other : List Position} (lists : store.Lists symbol listing)
    (perm : other.Perm listing) : store.Lists symbol other where
  nodup := ((perm.map _).nodup_iff).mpr lists.nodup
  stored pos member := lists.stored pos (perm.mem_iff.mp member)
  complete k present market := by
    obtain ⟨pos, member, own⟩ := lists.complete k present market
    exact ⟨pos, perm.mem_iff.mpr member, own⟩

/-- Two listings of one market are permutations of each other. -/
theorem perm {other : List Position} (lists : store.Lists symbol listing)
    (lists' : store.Lists symbol other) : listing.Perm other :=
  (List.perm_ext_iff_of_nodup (List.Nodup.of_map _ lists.nodup)
    (List.Nodup.of_map _ lists'.nodup)).mpr fun pos => by
      rw [lists.mem_iff, lists'.mem_iff]

end Lists
end PositionStore

/-! ## Actions -/

/-- One indivisible step of the engine. The position named by `cover` and
`credit` is the one the section is run for; only the amount takes part in it. -/
inductive Action where
  /-- `RateLimiter::try_acquire` -/
  | tryAcquire
  /-- `PositionStore::get` -/
  | get (account : String) (symbol : Symbol)
  /-- `PositionStore::upsert` -/
  | upsert (position : Position)
  /-- `PositionStore::remove` -/
  | remove (account : String) (symbol : Symbol)
  /-- `PositionStore::by_market` -/
  | byMarket (symbol : Symbol)
  /-- the section of `risk_params` -/
  | riskParams (symbol : Symbol)
  /-- the section of `mark_for` -/
  | markFor (symbol : Symbol)
  /-- the first section of `accrue_funding`: mark and funding rate -/
  | fundingTerms (symbol : Symbol)
  /-- the first section of `liquidate_market`: mark and risk parameters -/
  | sweepTerms (symbol : Symbol)
  /-- the section of `open`: `open_positions += 1` -/
  | countOpened
  /-- the section of `close`: `open_positions.saturating_sub(1)` -/
  | countClosed
  /-- the section of `update_market` -/
  | insertMarket (state : MarketState)
  /-- the last section of `accrue_funding` -/
  | countFunding (settled : Nat)
  /-- the section of the bankrupt branch of `liquidate_market` -/
  | cover (position : Position) (shortfall : Usd)
  /-- the section of the solvent branch of `liquidate_market` -/
  | credit (position : Position) (amount : Usd)
  /-- the counter section of `liquidate_market` -/
  | countLiquidated
  /-- the auto-deleverage section of `liquidate_market` -/
  | countAdl
  /-- `EventSink::publish` -/
  | publish (events : List RiskEvent)
  deriving DecidableEq

def Action.isPublish : Action → Bool
  | .publish _ => true
  | _ => false

/-- What the engine learns from an action. -/
abbrev Answer : Action → Type
  | .tryAcquire => Bool
  | .get _ _ => Except PortError (Option Position)
  | .upsert _ => Except PortError Unit
  | .remove _ _ => Except PortError (Option Position)
  | .byMarket _ => Except PortError (List Position)
  | .riskParams _ => RiskParams
  | .markFor _ => Option Price
  | .fundingTerms _ => Option (Price × I64)
  | .sweepTerms _ => Option (Price × RiskParams)
  | .cover _ _ => Usd × Usd
  | .publish _ => Except PortError Unit
  | .countOpened => Unit
  | .countClosed => Unit
  | .insertMarket _ => Unit
  | .countFunding _ => Unit
  | .credit _ _ => Unit
  | .countLiquidated => Unit
  | .countAdl => Unit

end MarginGuard.Source
