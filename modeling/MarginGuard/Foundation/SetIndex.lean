import MarginGuard.Foundation.FiniteMap

/-!
# A map with pairs as keys and an index of its second component

`SetIndex ι κ` files, under each `i`, the set of the `k` a map has an entry
`(k, i)` for. `add` creates the set under `i` when there is none, `drop` deletes
a set it empties. `Indexes` is the representation invariant that ties an index
to its map; `Indexes.insert` and `Indexes.erase` say that updating both sides
keeps it, whatever was there before.
-/
namespace MarginGuard.Foundation

/-- Sets filed under the values of `ι`. -/
abbrev SetIndex (ι κ : Type) := FiniteMap ι (Finset κ)

namespace SetIndex
variable {ι κ ν : Type} [DecidableEq ι] [DecidableEq κ]

/-- What is filed under `i`: nothing where the index has no set. -/
def members (index : SetIndex ι κ) (i : ι) : Finset κ := (index.lookup i).getD ∅

/-- File `k` under `i`. -/
def add (index : SetIndex ι κ) (i : ι) (k : κ) : SetIndex ι κ :=
  index.insert i (insert k (index.members i))

/-- Take `k` out of the set under `i` and delete the set if that empties it. -/
def drop (index : SetIndex ι κ) (i : ι) (k : κ) : SetIndex ι κ :=
  match index.lookup i with
  | none => index
  | some set => if set.erase k = ∅ then index.erase i else index.insert i (set.erase k)

theorem members_add (index : SetIndex ι κ) (i i' : ι) (k : κ) :
    (index.add i k).members i' =
      if i' = i then insert k (index.members i) else index.members i' := by
  rw [members, add, FiniteMap.lookup_insert_eq]
  split <;> rfl

theorem members_drop (index : SetIndex ι κ) (i i' : ι) (k : κ) :
    (index.drop i k).members i' =
      if i' = i then (index.members i).erase k else index.members i' := by
  unfold drop
  split
  · next absent =>
    split
    · next same => rw [same, members, absent, Option.getD_none, Finset.erase_empty]
    · rfl
  · next set present =>
    have own : index.members i = set := by rw [members, present, Option.getD_some]
    rw [own]
    split
    · next emptied =>
      rw [members, FiniteMap.lookup_erase_eq, emptied]
      split <;> rfl
    · rw [members, FiniteMap.lookup_insert_eq]
      split <;> rfl

/-- No set of the index is empty. -/
def NoEmpty (index : SetIndex ι κ) : Prop := ∀ i set, index.lookup i = some set → set ≠ ∅

omit [DecidableEq κ] in
theorem noEmpty_empty : NoEmpty (∅ : SetIndex ι κ) := by
  intro i set present
  rw [Finmap.lookup_empty] at present
  cases present

theorem NoEmpty.add {index : SetIndex ι κ} (noEmpty : index.NoEmpty) (i : ι) (k : κ) :
    (index.add i k).NoEmpty := by
  intro i' set present
  rw [SetIndex.add, FiniteMap.lookup_insert_eq] at present
  split at present
  · obtain rfl := Option.some.inj present
    exact Finset.insert_ne_empty _ _
  · exact noEmpty i' set present

theorem NoEmpty.drop {index : SetIndex ι κ} (noEmpty : index.NoEmpty) (i : ι) (k : κ) :
    (index.drop i k).NoEmpty := by
  intro i' set present
  unfold SetIndex.drop at present
  split at present
  · exact noEmpty i' set present
  · split at present
    · rw [FiniteMap.lookup_erase_eq] at present
      split at present
      · cases present
      · exact noEmpty i' set present
    · next kept =>
      rw [FiniteMap.lookup_insert_eq] at present
      split at present
      · obtain rfl := Option.some.inj present
        exact kept
      · exact noEmpty i' set present

/-- Exactly the keys of the map are filed in the index. -/
def Indexes (index : SetIndex ι κ) (m : FiniteMap (κ × ι) ν) : Prop :=
  ∀ k i, k ∈ index.members i ↔ (m.lookup (k, i)).isSome

theorem indexes_empty : (∅ : SetIndex ι κ).Indexes (∅ : FiniteMap (κ × ι) ν) := by
  intro k i
  rw [members, Finmap.lookup_empty, Finmap.lookup_empty]
  simp

namespace Indexes
variable {index : SetIndex ι κ} {m : FiniteMap (κ × ι) ν}

theorem insert (indexes : index.Indexes m) (k : κ) (i : ι) (v : ν) :
    (index.add i k).Indexes (m.insert (k, i) v) := by
  intro k' i'
  rw [members_add, FiniteMap.lookup_insert_eq]
  by_cases market : i' = i
  · subst market
    rw [if_pos rfl, Finset.mem_insert, indexes k' i']
    by_cases same : k' = k <;> simp [same]
  · rw [if_neg market, if_neg fun same => market (congrArg Prod.snd same), indexes k' i']

theorem erase (indexes : index.Indexes m) (k : κ) (i : ι) :
    (index.drop i k).Indexes (m.erase (k, i)) := by
  intro k' i'
  rw [members_drop, FiniteMap.lookup_erase_eq]
  by_cases market : i' = i
  · subst market
    rw [if_pos rfl, Finset.mem_erase, indexes k' i']
    by_cases same : k' = k <;> simp [same]
  · rw [if_neg market, if_neg fun same => market (congrArg Prod.snd same), indexes k' i']

end Indexes

end SetIndex
end MarginGuard.Foundation
