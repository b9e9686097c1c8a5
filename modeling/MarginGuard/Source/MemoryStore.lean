import MarginGuard.Foundation.Interleaving
import MarginGuard.Foundation.SetIndex
import MarginGuard.Source.Ports

/-!
# The in-memory position store (`marginguard-infra/src/store.rs`)

Two maps behind one lock: positions by `(account, symbol)` and, for each market,
the accounts that hold a position in it. `by_market` walks a hash set, so the
order in which it meets the accounts is an input here.

`memoryStore` is the store as a machine that answers one call after another.
-/
namespace MarginGuard.Source
open Foundation

/-- `Inner` -/
@[ext] structure MemoryPositionStore where
  byKey : FiniteMap Key Position
  byMarket : SetIndex Symbol String

namespace MemoryPositionStore

/-- `MemoryPositionStore::new` -/
def new : MemoryPositionStore := ⟨∅, ∅⟩

/-- `upsert`: file the account under the market, then the position under its key. -/
def upsert (g : MemoryPositionStore) (position : Position) : MemoryPositionStore :=
  let account := position.account.asStr
  { byMarket := g.byMarket.add position.symbol account
    byKey := g.byKey.insert (account, position.symbol) position }

/-- `get` -/
def get (g : MemoryPositionStore) (account : String) (symbol : Symbol) : Option Position :=
  g.byKey.lookup (account, symbol)

/-- `remove`: the position removed, and the store after it. The index is touched
only when a position was there. -/
def remove (g : MemoryPositionStore) (account : String) (symbol : Symbol) :
    Option Position × MemoryPositionStore :=
  let removed := g.byKey.lookup (account, symbol)
  let byKey := g.byKey.erase (account, symbol)
  if removed.isSome then (removed, { byKey, byMarket := g.byMarket.drop symbol account })
  else (removed, { byKey, byMarket := g.byMarket })

/-- The loop of `by_market` over the accounts in the order the set gives them. -/
def positionsOf (g : MemoryPositionStore) (symbol : Symbol) (accounts : List String) :
    List Position :=
  accounts.filterMap fun account => g.byKey.lookup (account, symbol)

/-- `by_market` may answer `listing`: it walks the market's set in some order,
or finds no set. -/
def ListsMarket (g : MemoryPositionStore) (symbol : Symbol) (listing : List Position) : Prop :=
  match g.byMarket.lookup symbol with
  | none => listing = []
  | some set => ∃ accounts : List String, accounts.Nodup ∧ accounts.toFinset = set ∧
      listing = g.positionsOf symbol accounts

/-- The list walked can be put in any order its images come in. -/
theorem exists_perm_filterMap {α β : Type} [DecidableEq α] {f : α → Option β} {l : List α}
    {images : List β} (perm : (l.filterMap f).Perm images) :
    ∃ l' : List α, l'.Perm l ∧ l'.filterMap f = images := by
  induction images generalizing l with
  | nil => exact ⟨l, .refl l, perm.eq_nil⟩
  | cons b images ih =>
    obtain ⟨a, member, image⟩ := List.mem_filterMap.mp (perm.mem_iff.mpr (List.mem_cons_self ..))
    have front := List.perm_cons_erase member
    have rest := (front.filterMap f).symm.trans perm
    rw [List.filterMap_cons_some image, List.perm_cons] at rest
    obtain ⟨l', reordered, same⟩ := ih rest
    exact ⟨a :: l', (reordered.cons a).trans front.symm, by
      rw [List.filterMap_cons_some image, same]⟩

/-- An admissible listing is a reordering of what the index set leads to. -/
theorem listsMarket_iff (g : MemoryPositionStore) (symbol : Symbol) (listing : List Position) :
    g.ListsMarket symbol listing ↔ (listing : Multiset Position) =
      (((g.byMarket.lookup symbol).getD ∅).val.filterMap
        fun account => g.byKey.lookup (account, symbol)) := by
  unfold ListsMarket
  split
  · next absent => simp [absent]
  · next set present =>
    rw [present, Option.getD_some]
    constructor
    · rintro ⟨accounts, nodup, rfl, rfl⟩
      rw [List.toFinset_val, List.dedup_eq_self.mpr nodup, Multiset.filterMap_coe]
      rfl
    · intro same
      obtain ⟨accounts, represented⟩ := Quotient.exists_rep set.val
      rw [← represented, Multiset.quot_mk_to_coe, Multiset.filterMap_coe, Multiset.coe_eq_coe] at same
      obtain ⟨walked, perm, images⟩ := exists_perm_filterMap same.symm
      have nodup : walked.Nodup := by
        rw [perm.nodup_iff, ← Multiset.coe_nodup, ← Multiset.quot_mk_to_coe, represented]
        exact set.nodup
      refine ⟨walked, nodup, ?_, images.symm⟩
      rw [← Finset.val_inj, List.toFinset_val, List.dedup_eq_self.mpr nodup, ← represented]
      exact Multiset.coe_eq_coe.mpr perm

instance (g : MemoryPositionStore) (symbol : Symbol) (listing : List Position) :
    Decidable (g.ListsMarket symbol listing) :=
  decidable_of_iff _ (g.listsMarket_iff symbol listing).symm

/-- `count` -/
def count (g : MemoryPositionStore) : Nat := FiniteMap.size g.byKey

end MemoryPositionStore

/-! ## Calls -/

/-- A call of the `PositionStore` port. -/
inductive StoreCall where
  | upsert (position : Position)
  | get (account : String) (symbol : Symbol)
  | remove (account : String) (symbol : Symbol)
  | byMarket (symbol : Symbol)
  | count
  deriving DecidableEq

/-- What a call answers. -/
abbrev StoreAnswer : StoreCall → Type
  | .upsert _ => Unit
  | .get _ _ => Option Position
  | .remove _ _ => Option Position
  | .byMarket _ => List Position
  | .count => Nat

/-- The in-memory store. -/
def memoryStore : Machine MemoryPositionStore StoreCall StoreAnswer where
  answers g
    | .upsert _, _ => True
    | .get account symbol, held => held = g.get account symbol
    | .remove account symbol, removed => removed = (g.remove account symbol).1
    | .byMarket symbol, listing => g.ListsMarket symbol listing
    | .count, n => n = g.count
  effect g
    | .upsert position, _ => g.upsert position
    | .remove account symbol, _ => (g.remove account symbol).2
    | .get _ _, _ => g
    | .byMarket _, _ => g
    | .count, _ => g

instance (g : MemoryPositionStore) : (call : StoreCall) → (answer : StoreAnswer call) →
    Decidable (memoryStore.answers g call answer)
  | .upsert _, _ => .isTrue trivial
  | .get account symbol, held => inferInstanceAs (Decidable (held = g.get account symbol))
  | .remove account symbol, removed =>
    inferInstanceAs (Decidable (removed = (g.remove account symbol).1))
  | .byMarket symbol, listing => inferInstanceAs (Decidable (g.ListsMarket symbol listing))
  | .count, n => inferInstanceAs (Decidable (n = g.count))

/-- A plain map from `(account, symbol)` to positions, the purpose of the store:
every position under its own key, and the positions of a market listed once
each in any order. -/
def plainMap : Machine (FiniteMap Key Position) StoreCall StoreAnswer where
  answers m
    | .upsert _, _ => True
    | .get account symbol, held => held = m.lookup (account, symbol)
    | .remove account symbol, removed => removed = m.lookup (account, symbol)
    | .byMarket symbol, listing => listing.Nodup ∧
        ∀ pos, pos ∈ listing ↔ pos.symbol = symbol ∧ ∃ key, m.lookup key = some pos
    | .count, n => n = m.keys.card
  effect m
    | .upsert position, _ => m.insert position.key position
    | .remove account symbol, _ => m.erase (account, symbol)
    | .get _ _, _ => m
    | .byMarket _, _ => m
    | .count, _ => m

end MarginGuard.Source
