import Mathlib.Data.List.AList
import Mathlib.Data.List.NodupEquivFin
import Mathlib.Data.Finset.Card
import Mathlib.Tactic

/-!
# Finite maps

Association lists with one entry for each key, seen as finite maps: their
entries as pairs, counting, weighing and filtering entries, and the update of one entry.
-/

/-- A finite map with one entry for each key. -/
abbrev FiniteMap (K V : Type) := AList fun _ : K => V

namespace FiniteMap

open List

variable {K V : Type} [DecidableEq K]

/-- The entries as key and value pairs. -/
def toList (map : FiniteMap K V) : List (K × V) :=
  map.entries.map fun entry => (entry.1, entry.2)

def size (map : FiniteMap K V) : Nat :=
  map.entries.length

/-- Keep the entries that satisfy a test. -/
def retain (map : FiniteMap K V) (keep : K → V → Bool) : FiniteMap K V where
  entries := map.entries.filter fun entry => keep entry.1 entry.2
  nodupKeys := map.nodupKeys.sublist List.filter_sublist

def has (map : FiniteMap K V) (key : K) : Bool :=
  (map.lookup key).isSome

variable {map : FiniteMap K V} {key : K}

theorem mem_toList {value : V} :
    (key, value) ∈ map.toList ↔ map.lookup key = some value := by
  rw [← Option.mem_def, AList.mem_lookup_iff, toList, mem_map]
  constructor
  · rintro ⟨⟨otherKey, otherValue⟩, he, heq⟩
    cases heq
    exact he
  · intro he
    exact ⟨⟨key, value⟩, he, rfl⟩

omit [DecidableEq K] in
theorem keys_toList_nodup (map : FiniteMap K V) : (map.toList.map Prod.fst).Nodup := by
  have hkeys := map.keys_nodup
  simpa [toList, AList.keys, keys, Function.comp_def] using hkeys

theorem lookup_insert_if (map : FiniteMap K V) (key other : K) (v : V) :
    (map.insert key v).lookup other = if other = key then some v else map.lookup other := by
  split
  · rename_i heq
    subst heq
    exact AList.lookup_insert map
  · rename_i hne
    exact AList.lookup_insert_ne hne

theorem lookup_retain (map : FiniteMap K V) (keep : K → V → Bool) (key : K) (v : V) :
    (map.retain keep).lookup key = some v ↔
      map.lookup key = some v ∧ keep key v = true := by
  rw [← mem_toList, ← mem_toList]
  simp only [toList, retain, mem_map, mem_filter]
  constructor
  · rintro ⟨e, ⟨he, hkeep⟩, heq⟩
    cases heq
    exact ⟨⟨e, he, rfl⟩, hkeep⟩
  · rintro ⟨⟨e, he, heq⟩, hkeep⟩
    cases heq
    exact ⟨e, ⟨he, hkeep⟩, rfl⟩

@[simp] theorem has_iff : map.has key = true ↔ ∃ value, map.lookup key = some value := by
  simp [has, Option.isSome_iff_exists]

/-- Entries that satisfy a test, counted, are the keys whose value satisfies it. -/
theorem length_filter_toList (map : FiniteMap K V) (test : V → Bool) :
    (map.toList.filter fun e => test e.2).length =
      ((map.toList.filter fun e => test e.2).map Prod.fst).toFinset.card := by
  rw [toFinset_card_of_nodup, length_map]
  exact map.keys_toList_nodup.sublist (filter_sublist.map Prod.fst)

theorem toList_subset {later : FiniteMap K V}
    (h : ∀ key v, map.lookup key = some v → later.lookup key = some v) :
    map.toList ⊆ later.toList := by
  rintro ⟨key, v⟩ he
  exact mem_toList.mpr (h key v (mem_toList.mp he))

/-- Entries that satisfy a test do not get fewer when entries are added. -/
theorem length_filter_toList_le {later : FiniteMap K V} (test : K × V → Bool)
    (h : ∀ key v, map.lookup key = some v → later.lookup key = some v) :
    (map.toList.filter test).length ≤ (later.toList.filter test).length := by
  have hnd : (map.toList.filter test).Nodup := (map.keys_toList_nodup.of_map _).filter _
  refine (subperm_of_subset hnd ?_).length_le
  intro e he
  rcases mem_filter.mp he with ⟨hmem, htest⟩
  exact mem_filter.mpr ⟨toList_subset h hmem, htest⟩

theorem size_le_of_lookup {later : FiniteMap K V}
    (h : ∀ key v, map.lookup key = some v → later.lookup key = some v) :
    map.size ≤ later.size := by
  have hnd : map.toList.Nodup := map.keys_toList_nodup.of_map _
  have hlen := (subperm_of_subset hnd (toList_subset h)).length_le
  simpa [size, toList] using hlen

theorem size_eq_card (map : FiniteMap K V) :
    map.size = (map.toList.map Prod.fst).toFinset.card := by
  rw [toFinset_card_of_nodup map.keys_toList_nodup]
  simp [size, toList]

theorem lookup_erase_if (map : FiniteMap K V) (key other : K) :
    (map.erase key).lookup other = if other = key then none else map.lookup other := by
  split
  · rename_i heq
    subst heq
    exact AList.lookup_erase _ map
  · rename_i hne
    exact AList.lookup_erase_ne hne

/-! ## Weights -/

/-- The sum of a weight over all entries. -/
def weight (weigh : K → V → Nat) (map : FiniteMap K V) : Nat :=
  (map.toList.map fun entry => weigh entry.1 entry.2).sum

section Weight

variable {weigh : K → V → Nat}

omit [DecidableEq K] in
@[simp] theorem weight_empty : (∅ : FiniteMap K V).weight weigh = 0 := rfl

variable {map : FiniteMap K V}

theorem weight_congr {o : FiniteMap K V} (h : ∀ key, map.lookup key = o.lookup key) :
    map.weight weigh = o.weight weigh := by
  have hperm : map.entries.Perm o.entries :=
    lookup_ext map.nodupKeys o.nodupKeys fun key v => by
      have hkey := h key
      unfold AList.lookup at hkey
      rw [hkey]
  exact ((hperm.map _).map _).sum_eq

theorem weight_insert (map : FiniteMap K V) (key : K) (value : V) :
    weight weigh (map.insert key value) = weight weigh (map.erase key) + weigh key value := by
  rw [Nat.add_comm]
  rfl

theorem weight_erase (weigh : K → V → Nat) {v : V} (h : map.lookup key = some v) :
    weight weigh (map.erase key) + weigh key v = map.weight weigh := by
  rw [← weight_insert]
  apply weight_congr
  intro o
  rw [lookup_insert_if]
  split
  · rename_i heq
    rw [heq, h]
  · rfl

theorem weight_erase_of_none (h : map.lookup key = none) :
    weight weigh (map.erase key) = map.weight weigh := by
  apply weight_congr
  intro o
  rw [lookup_erase_if]
  split
  · rename_i heq
    rw [heq, h]
  · rfl

theorem weight_eq_zero (h : ∀ key, map.lookup key = none) : map.weight weigh = 0 := by
  have hempty : map.weight weigh = weight weigh ∅ := weight_congr fun key => (h key).trans rfl
  rw [hempty, weight_empty]

omit [DecidableEq K] in
theorem size_eq_weight (map : FiniteMap K V) : map.size = map.weight fun _ _ => 1 := by
  simp [size, weight, toList, Function.comp_def]

theorem size_insert_of_none (h : map.lookup key = none) (v : V) :
    size (map.insert key v) = map.size + 1 := by
  rw [size_eq_weight, weight_insert, weight_erase_of_none h, ← size_eq_weight]

end Weight

end FiniteMap
