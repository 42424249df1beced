import NeoX.Library.FiniteMap

/-!
# Traversals

The order in which a program visits the entries of a hash map is not determined. A traversal is one
such order, and what is proved for every traversal holds for all of them. Changing every value of a
map does not depend on the order.
-/

namespace FiniteMap

variable {K V : Type} [DecidableEq K]

/-- An order in which the entries of a map are visited. -/
structure Traversal (K V : Type) [DecidableEq K] where
  visit : FiniteMap K V → List (K × V)
  perm : ∀ map, (visit map).Perm map.toList

namespace Traversal

def entries : Traversal K V := ⟨toList, fun _ => .refl _⟩

theorem mem_visit (order : Traversal K V) {map : FiniteMap K V} {key : K} {value : V} :
    (key, value) ∈ order.visit map ↔ map.lookup key = some value := by
  rw [(order.perm map).mem_iff, mem_toList]

theorem keys_visit_nodup (order : Traversal K V) (map : FiniteMap K V) :
    ((order.visit map).map Prod.fst).Nodup :=
  ((order.perm map).map Prod.fst).nodup_iff.mpr map.keys_toList_nodup

end Traversal

def mapValues (change : K → V → V) (map : FiniteMap K V) : FiniteMap K V where
  entries := map.entries.map fun entry => ⟨entry.1, change entry.1 entry.2⟩
  nodupKeys := by
    have hkeys := map.nodupKeys
    unfold List.NodupKeys List.keys at hkeys ⊢
    rwa [List.map_map]

theorem lookup_mapValues (change : K → V → V) (map : FiniteMap K V) (key : K) :
    (mapValues change map).lookup key = (map.lookup key).map (change key) := by
  ext value
  rw [← mem_toList, Option.map_eq_some_iff]
  simp only [← mem_toList]
  unfold toList mapValues
  simp only [List.map_map, List.mem_map, Function.comp_def, Prod.mk.injEq]
  constructor
  · rintro ⟨e, he, rfl, rfl⟩
    exact ⟨e.2, ⟨e, he, rfl, rfl⟩, rfl⟩
  · rintro ⟨old, ⟨e, he, rfl, rfl⟩, rfl⟩
    exact ⟨e, he, rfl, rfl⟩

end FiniteMap
