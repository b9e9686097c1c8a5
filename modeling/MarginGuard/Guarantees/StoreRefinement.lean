import MarginGuard.Foundation.Simulation
import MarginGuard.Source.MemoryStore
import MarginGuard.Source.Script

/-!
# The in-memory store is a map

`Represents` is the representation invariant: the primary map is the abstract
store, the index files exactly its keys and has no empty set. Each operation
keeps it (`Represents.upsert`, `Represents.remove`) and each answer is the
abstract store's (`Represents.lists`, `Represents.remove_fst`), so

* the store serves the contract of the `PositionStore` port the engine is
  modelled over, and
* every sequence of calls answers as on a plain map
  (`memory_store_refines_map`).
-/
namespace MarginGuard.Guarantees
open Foundation Source

/-- The in-memory store `g` holds what the abstract store holds, and its index
follows. -/
structure Represents (g : MemoryPositionStore) (store : PositionStore) : Prop where
  same : g.byKey = store.byKey
  indexes : g.byMarket.Indexes store.byKey
  noEmpty : g.byMarket.NoEmpty

theorem represents_new : Represents .new .empty :=
  ⟨rfl, SetIndex.indexes_empty, SetIndex.noEmpty_empty⟩

namespace Represents
variable {g : MemoryPositionStore} {store : PositionStore}

theorem get (represents : Represents g store) (account : String) (symbol : Symbol) :
    g.get account symbol = store.get account symbol := by
  rw [MemoryPositionStore.get, PositionStore.get, represents.same]

theorem count (represents : Represents g store) : g.count = store.count := by
  rw [MemoryPositionStore.count, PositionStore.count, represents.same]

theorem upsert (represents : Represents g store) (pos : Position) :
    Represents (g.upsert pos) (store.upsert pos) where
  same := by
    change g.byKey.insert _ pos = store.byKey.insert _ pos
    rw [represents.same]
    rfl
  indexes := represents.indexes.insert pos.account.asStr pos.symbol pos
  noEmpty := represents.noEmpty.add pos.symbol pos.account.asStr

theorem remove_fst (represents : Represents g store) (account : String) (symbol : Symbol) :
    (g.remove account symbol).1 = store.get account symbol := by
  have answer : (g.remove account symbol).1 = g.get account symbol := by
    unfold MemoryPositionStore.remove
    dsimp only
    split <;> rfl
  rw [answer, represents.get]

/-- A removal that finds nothing leaves the index alone, and rightly so. -/
theorem remove (represents : Represents g store) (account : String) (symbol : Symbol) :
    Represents (g.remove account symbol).2 (store.remove account symbol) := by
  unfold MemoryPositionStore.remove
  dsimp only
  split
  · exact ⟨congrArg (Finmap.erase (account, symbol)) represents.same,
      represents.indexes.erase account symbol, represents.noEmpty.drop symbol account⟩
  · next missing =>
    have absent : store.get account symbol = none := by
      rw [represents.same, Option.not_isSome_iff_eq_none] at missing
      exact missing
    rw [PositionStore.remove_of_get_none absent]
    refine ⟨?_, represents.indexes, represents.noEmpty⟩
    change g.byKey.erase (account, symbol) = store.byKey
    rw [represents.same]
    exact congrArg PositionStore.byKey (PositionStore.remove_of_get_none absent)

/-- Walking the market's index set in any order lists the market. -/
theorem lists (represents : Represents g store) {symbol : Symbol} {listing : List Position}
    (answered : g.ListsMarket symbol listing) : store.Lists symbol listing := by
  have filed : ∀ account, account ∈ g.byMarket.members symbol ↔
      (store.byKey.lookup (account, symbol)).isSome := fun account =>
    represents.indexes account symbol
  unfold MemoryPositionStore.ListsMarket at answered
  -- with or without an index set, the answer looks up the accounts filed in it
  obtain ⟨accounts, nodup, walked, rfl⟩ : ∃ accounts : List String, accounts.Nodup ∧
      accounts.toFinset = g.byMarket.members symbol ∧
        listing = g.positionsOf symbol accounts := by
    unfold SetIndex.members
    split at answered
    · next absent => exact ⟨[], List.nodup_nil, by rw [absent]; rfl, answered⟩
    · next set present =>
      rw [present]
      exact answered
  have keys : (accounts.map fun account => (account, symbol)).Nodup :=
    nodup.map fun _ _ same => congrArg Prod.fst same
  have found : g.positionsOf symbol accounts =
      (accounts.map fun account => (account, symbol)).filterMap
        fun key => store.byKey.lookup key := by
    rw [List.filterMap_map, MemoryPositionStore.positionsOf, represents.same]
    rfl
  rw [found]
  apply PositionStore.Lists.of_keys keys
  rintro ⟨account, symbol'⟩
  rw [List.mem_map]
  constructor
  · rintro ⟨own, walks, same⟩
    obtain ⟨rfl, rfl⟩ := Prod.mk.inj same
    rw [← List.mem_toFinset, walked, filed] at walks
    exact ⟨rfl, walks⟩
  · rintro ⟨rfl, present⟩
    rw [← filed, ← walked, List.mem_toFinset] at present
    exact ⟨account, present, rfl⟩

end Represents

/-- The contents of an abstract store. -/
def RepresentsMap (g : MemoryPositionStore) (m : FiniteMap Key Position) : Prop :=
  ∃ store : PositionStore, store.byKey = m ∧ Represents g store

theorem representsMap_new : RepresentsMap .new ∅ := ⟨.empty, rfl, represents_new⟩

/-- A listing of the abstract store lists its map's positions of the market. -/
theorem mem_lists_iff {store : PositionStore} {symbol : Symbol} {listing : List Position}
    (lists : store.Lists symbol listing) (pos : Position) :
    pos ∈ listing ↔ pos.symbol = symbol ∧ ∃ key, store.byKey.lookup key = some pos := by
  constructor
  · intro member
    exact ⟨lists.symbol_eq member, _, (lists.mem_iff pos).mp member⟩
  · rintro ⟨rfl, key, stored⟩
    obtain rfl := store.filed key pos stored
    exact (lists.mem_iff pos).mpr stored

theorem memoryStore_simulates : memoryStore.Simulates plainMap RepresentsMap := by
  rintro g m ⟨store, rfl, represents⟩ call answer answered
  cases call with
  | upsert pos => exact ⟨trivial, store.upsert pos, rfl, represents.upsert pos⟩
  | get account symbol =>
    exact ⟨answered.trans (represents.get account symbol), store, rfl, represents⟩
  | remove account symbol =>
    exact ⟨answered.trans (represents.remove_fst account symbol), store.remove account symbol, rfl,
      represents.remove account symbol⟩
  | byMarket symbol =>
    have lists := represents.lists answered
    exact ⟨⟨.of_map _ lists.nodup, mem_lists_iff lists⟩, store, rfl, represents⟩
  | count => exact ⟨answered.trans represents.count, store, rfl, represents⟩

/-- Every sequence of calls on a fresh store is answered as by a plain map. The
primary map is that map throughout, the index files exactly its keys and has no
empty set, and every position is filed under its own key. -/
theorem memory_store_refines_map {calls : List (Call StoreCall StoreAnswer)}
    (legal : memoryStore.Legal .new calls) :
    plainMap.Legal ∅ calls ∧
      let g := memoryStore.after .new calls
      let m := plainMap.after ∅ calls
      g.byKey = m ∧
      (∀ account symbol, account ∈ g.byMarket.members symbol ↔ (account, symbol) ∈ m) ∧
      (∀ symbol set, g.byMarket.lookup symbol = some set → set ≠ ∅) ∧
      ∀ key pos, m.lookup key = some pos → pos.key = key := by
  obtain ⟨answers, store, same, represents⟩ :=
    memoryStore_simulates.legal representsMap_new legal
  refine ⟨answers, represents.same.trans same, ?_, represents.noEmpty, ?_⟩
  · intro account symbol
    rw [represents.indexes account symbol, Finmap.lookup_isSome, same]
  · rw [← same]
    exact store.filed

open Sample in
/-- Two positions of one market, listed, one of them removed twice. -/
theorem memory_store_refines_map_two_positions :
    let long :=
      openedPosition alice sol .long .cross (contracts 10) (price 100) tenfold (dollars 60)
    let short := openedPosition bob sol .short .cross (contracts 5) (price 100) tenfold (dollars 50)
    let calls : List (Call StoreCall StoreAnswer) :=
      [⟨.upsert long, ()⟩, ⟨.upsert short, ()⟩, ⟨.byMarket sol, [short, long]⟩,
        ⟨.remove "alice" sol, some long⟩, ⟨.remove "alice" sol, none⟩, ⟨.get "bob" sol, some short⟩,
        ⟨.count, 1⟩]
    plainMap.Legal ∅ calls ∧ (memoryStore.after .new calls).byKey = plainMap.after ∅ calls := by
  intro long short calls
  have legal : memoryStore.Legal .new calls := by
    refine ⟨trivial, trivial, ⟨["bob", "alice"], by decide, by decide, by decide⟩, ?_, ?_, ?_, ?_,
      trivial⟩ <;> rfl
  exact ⟨(memory_store_refines_map legal).1, (memory_store_refines_map legal).2.1⟩

end MarginGuard.Guarantees
