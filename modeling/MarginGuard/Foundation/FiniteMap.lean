import Mathlib.Algebra.BigOperators.Group.Multiset.Defs
import Mathlib.Data.Finmap
import Mathlib.Data.Finset.Card

/-!
# Finite maps with non-dependent values

A hash map is a finite map here: which keys are present and with which value,
nothing about the iteration order. The order in which a hash table lists its
entries is never a function of the map; where a program observes it, the model
takes the listing as an input.

`size` counts keys and `total` sums a quantity over the entries. Both change by
exactly the entry that an `insert` or an `erase` touches.
-/
namespace MarginGuard.Foundation

/-- A finite map from `κ` to `ν`. -/
abbrev FiniteMap (κ ν : Type) := Finmap fun _ : κ => ν

namespace FiniteMap
variable {κ ν M : Type} [DecidableEq κ] [AddCommMonoid M]

/-- Number of keys. -/
def size (m : FiniteMap κ ν) : Nat := m.keys.card

/-- Sum of `f` over the entries. -/
def total (f : κ → ν → M) (m : FiniteMap κ ν) : M := (m.entries.map fun e => f e.1 e.2).sum

theorem lookup_insert_eq (m : FiniteMap κ ν) (k k' : κ) (v : ν) :
    (m.insert k v).lookup k' = if k' = k then some v else m.lookup k' := by
  by_cases same : k' = k
  · subst same
    rw [if_pos rfl, Finmap.lookup_insert]
  · rw [if_neg same, Finmap.lookup_insert_of_ne _ same]

theorem lookup_erase_eq (m : FiniteMap κ ν) (k k' : κ) :
    (m.erase k).lookup k' = if k' = k then none else m.lookup k' := by
  by_cases same : k' = k
  · subst same
    rw [if_pos rfl, Finmap.lookup_erase]
  · rw [if_neg same, Finmap.lookup_erase_ne same]

/-- Putting back the value an erase removed restores the map. -/
theorem insert_erase_of_lookup {m : FiniteMap κ ν} {k : κ} {v : ν} (stored : m.lookup k = some v) :
    (m.erase k).insert k v = m := by
  apply Finmap.ext_lookup
  intro k'
  rw [lookup_insert_eq]
  split
  · next same => rw [same, stored]
  · next other => rw [lookup_erase_eq, if_neg other]

/-- An insert shows unless it writes what is there. -/
theorem insert_eq_self_iff {m : FiniteMap κ ν} {k : κ} {v : ν} :
    m.insert k v = m ↔ m.lookup k = some v := by
  constructor
  · intro same
    rw [← same, Finmap.lookup_insert]
  · intro stored
    apply Finmap.ext_lookup
    intro k'
    rw [lookup_insert_eq]
    split
    · next same => rw [same, stored]
    · rfl

theorem keys_insert (m : FiniteMap κ ν) (k : κ) (v : ν) :
    (m.insert k v).keys = insert k m.keys := by
  ext k'
  rw [Finmap.mem_keys, Finmap.mem_insert, Finset.mem_insert, Finmap.mem_keys]

theorem size_insert_of_none {m : FiniteMap κ ν} {k : κ} (absent : m.lookup k = none) (v : ν) :
    size (m.insert k v) = size m + 1 := by
  have fresh : k ∉ m.keys := by rw [Finmap.mem_keys]; exact Finmap.lookup_eq_none.mp absent
  rw [size, keys_insert, Finset.card_insert_of_notMem fresh, size]

theorem size_insert_of_some {m : FiniteMap κ ν} {k : κ} {old : ν} (stored : m.lookup k = some old)
    (v : ν) : size (m.insert k v) = size m := by
  have present : k ∈ m.keys := by rw [Finmap.mem_keys]; exact Finmap.mem_of_lookup_eq_some stored
  rw [size, keys_insert, Finset.insert_eq_of_mem present, size]

theorem size_erase_of_some {m : FiniteMap κ ν} {k : κ} {old : ν} (stored : m.lookup k = some old) :
    size (m.erase k) + 1 = size m := by
  have present : k ∈ m.keys := by rw [Finmap.mem_keys]; exact Finmap.mem_of_lookup_eq_some stored
  rw [size, Finmap.keys_erase, size, Finset.card_erase_add_one present]

/-- Inserting at a fresh key adds exactly the new entry. -/
theorem total_insert_of_none (f : κ → ν → M) {m : FiniteMap κ ν} {k : κ}
    (absent : m.lookup k = none) (v : ν) : total f (m.insert k v) = f k v + total f m := by
  rw [total, total, Finmap.entries_insert_of_notMem (Finmap.lookup_eq_none.mp absent),
    Multiset.map_cons, Multiset.sum_cons]

/-- Erasing a stored key takes away exactly its entry. -/
theorem total_erase_of_some (f : κ → ν → M) {m : FiniteMap κ ν} {k : κ} {v : ν}
    (stored : m.lookup k = some v) : f k v + total f (m.erase k) = total f m := by
  have absent : (m.erase k).lookup k = none := Finmap.lookup_erase k m
  have restored := total_insert_of_none f absent v
  rw [insert_erase_of_lookup stored] at restored
  exact restored.symm

theorem total_eq_zero {f : κ → ν → M} {m : FiniteMap κ ν}
    (each : ∀ k v, m.lookup k = some v → f k v = 0) : total f m = 0 := by
  apply Multiset.sum_eq_zero
  intro value member
  obtain ⟨⟨k, v⟩, stored, rfl⟩ := Multiset.mem_map.mp member
  exact each k v (Finmap.lookup_eq_some_iff.mpr stored)

end FiniteMap
end MarginGuard.Foundation
