import Mathlib.Order.Basic
import Mathlib.Algebra.BigOperators.Group.List.Basic
import Mathlib.Tactic

/-!
# Sorted maps

Association lists in strictly descending order of their keys, so that the first entry is the one
with the highest key: lookup, update and removal, and the sum of a weight over the entries.
-/

/-- A map with its entries in descending order of the keys. -/
@[ext]
structure SortedMap (K V : Type) [LinearOrder K] where
  entries : List (K × V)
  sorted : entries.Pairwise fun first second => second.1 < first.1

namespace SortedMap

open List

variable {K V : Type} [LinearOrder K]

def empty : SortedMap K V := ⟨[], .nil⟩

def size (map : SortedMap K V) : Nat := map.entries.length

def lookup (map : SortedMap K V) (key : K) : Option V :=
  (map.entries.find? fun entry => entry.1 = key).map Prod.snd

def erase (map : SortedMap K V) (key : K) : SortedMap K V where
  entries := map.entries.filter fun entry => entry.1 ≠ key
  sorted := map.sorted.filter _

def above (map : SortedMap K V) (key : K) : SortedMap K V where
  entries := map.entries.filter fun entry => key < entry.1
  sorted := map.sorted.filter _

def insert (map : SortedMap K V) (key : K) (value : V) : SortedMap K V where
  entries := (map.entries.filter fun entry => key < entry.1) ++
    (key, value) :: map.entries.filter fun entry => entry.1 < key
  sorted := by
    refine List.pairwise_append.mpr ⟨map.sorted.filter _,
      List.pairwise_cons.mpr ⟨?_, map.sorted.filter _⟩, ?_⟩
    · intro entry hentry
      exact of_decide_eq_true (List.mem_filter.mp hentry).2
    · intro first hfirst second hsecond
      have habove := of_decide_eq_true (List.mem_filter.mp hfirst).2
      rcases List.mem_cons.mp hsecond with rfl | hbelow
      · exact habove
      · exact (of_decide_eq_true (List.mem_filter.mp hbelow).2).trans habove

/-! ## Lookup -/

theorem keys_nodup (map : SortedMap K V) : (map.entries.map Prod.fst).Nodup :=
  pairwise_map.mpr (map.sorted.imp fun h => h.ne')

variable {map : SortedMap K V}

theorem eq_of_mem {key : K} {a b : V} (h1 : (key, a) ∈ map.entries)
    (h2 : (key, b) ∈ map.entries) : a = b :=
  (Prod.mk.inj (inj_on_of_nodup_map map.keys_nodup h1 h2 rfl)).2

theorem lookup_eq_some {key : K} {v : V} :
    map.lookup key = some v ↔ (key, v) ∈ map.entries := by
  unfold lookup
  rw [Option.map_eq_some_iff]
  constructor
  · rintro ⟨⟨found, _⟩, hf, rfl⟩
    have hkey : found = key := by simpa using find?_some hf
    exact hkey ▸ mem_of_find?_eq_some hf
  · intro hmem
    cases hf : map.entries.find? fun e => e.1 = key with
    | none =>
      have hno := find?_eq_none.mp hf _ hmem
      simp at hno
    | some e =>
      have hkey : e.1 = key := by simpa using find?_some hf
      have he : (key, e.2) ∈ map.entries := hkey ▸ mem_of_find?_eq_some hf
      exact ⟨e, rfl, eq_of_mem he hmem⟩

theorem lookup_eq_none {key : K} :
    map.lookup key = none ↔ ∀ e ∈ map.entries, e.1 ≠ key := by
  unfold lookup
  simp [find?_eq_none]

theorem lookup_congr {o : SortedMap K V} {key : K}
    (h : ∀ v, (key, v) ∈ map.entries ↔ (key, v) ∈ o.entries) :
    map.lookup key = o.lookup key := by
  ext v
  rw [lookup_eq_some, lookup_eq_some, h]

theorem mem_insert {key o : K} {v found : V} :
    (o, found) ∈ (map.insert key v).entries ↔
      (o = key ∧ found = v) ∨ (o ≠ key ∧ (o, found) ∈ map.entries) := by
  unfold insert
  simp only [mem_append, mem_cons, mem_filter, decide_eq_true_eq, Prod.mk.injEq]
  rcases lt_trichotomy o key with hlt | heq | hgt
  · simp [hlt, hlt.ne, hlt.not_gt]
  · simp [heq]
  · simp [hgt, hgt.ne', hgt.not_gt]

theorem lookup_insert (map : SortedMap K V) (key other : K) (v : V) :
    (map.insert key v).lookup other = if other = key then some v else map.lookup other := by
  split
  · next heq => exact lookup_eq_some.mpr (mem_insert.mpr (.inl ⟨heq, rfl⟩))
  · next hne =>
      apply lookup_congr
      intro found
      simp [mem_insert, hne]

/-! ## Weights -/

/-- The sum of a weight over a list of entries. -/
def weightOf (weigh : K → V → Nat) (entries : List (K × V)) : Nat :=
  (entries.map fun entry => weigh entry.1 entry.2).sum

def weight (weigh : K → V → Nat) (map : SortedMap K V) : Nat := weightOf weigh map.entries

section Weight

variable {weigh : K → V → Nat}

omit [LinearOrder K] in
@[simp] theorem weightOf_nil : weightOf weigh [] = 0 := rfl

omit [LinearOrder K] in
@[simp] theorem weightOf_cons (e : K × V) (entries : List (K × V)) :
    weightOf weigh (e :: entries) = weigh e.1 e.2 + weightOf weigh entries := rfl

omit [LinearOrder K] in
@[simp] theorem weightOf_append (a b : List (K × V)) :
    weightOf weigh (a ++ b) = weightOf weigh a + weightOf weigh b := by
  simp [weightOf]

theorem weightOf_filter_key (map : SortedMap K V) (key : K) :
    weightOf weigh (map.entries.filter fun e => e.1 = key)
      = (map.lookup key).elim 0 (weigh key) := by
  cases hget : map.lookup key with
  | none =>
    have hno : (map.entries.filter fun e => e.1 = key) = [] := by
      rw [filter_eq_nil_iff]
      intro e he
      simpa using lookup_eq_none.mp hget e he
    rw [hno]
    rfl
  | some v =>
    have hmem := lookup_eq_some.mp hget
    have hsingle : (map.entries.filter fun e => e.1 = key) = [(key, v)] := by
      refine perm_singleton.mp ((perm_ext_iff_of_nodup
        ((map.keys_nodup.of_map _).filter _) (nodup_singleton _)).mpr ?_)
      intro e
      rw [mem_filter, mem_singleton, decide_eq_true_eq]
      constructor
      · rintro ⟨he, hkey⟩
        have hentry' : (key, e.2) ∈ map.entries := hkey ▸ he
        exact Prod.ext hkey (eq_of_mem hentry' hmem)
      · rintro rfl
        exact ⟨hmem, rfl⟩
    rw [hsingle]
    simp

omit [LinearOrder K] in
/-- A test divides the weight. -/
theorem weightOf_filter_add (weigh : K → V → Nat) (test : K × V → Prop) [DecidablePred test]
    (entries : List (K × V)) :
    weightOf weigh (entries.filter fun e => test e)
      + weightOf weigh (entries.filter fun e => ¬test e) = weightOf weigh entries := by
  simp only [decide_not]
  induction entries with
  | nil => rfl
  | cons e entries ih => by_cases htest : test e <;> simp [htest] <;> omega

theorem weight_erase (weigh : K → V → Nat) (map : SortedMap K V) (key : K) :
    (map.erase key).weight weigh + (map.lookup key).elim 0 (weigh key) = map.weight weigh := by
  rw [← weightOf_filter_key, Nat.add_comm]
  exact weightOf_filter_add weigh (fun e => e.1 = key) map.entries

/-- The entries around a key are those of the other keys. -/
theorem weightOf_around (weigh : K → V → Nat) (key : K) (es : List (K × V)) :
    weightOf weigh (es.filter fun e => key < e.1)
      + weightOf weigh (es.filter fun e => e.1 < key)
      = weightOf weigh (es.filter fun e => e.1 ≠ key) := by
  simp only [ne_eq, decide_not]
  induction es with
  | nil => rfl
  | cons e es ih =>
    rcases lt_trichotomy e.1 key with hlt | heq | hgt
    · simp [hlt, hlt.ne, hlt.not_gt]
      omega
    · simp [heq]
      omega
    · simp [hgt, hgt.ne', hgt.not_gt]
      omega

/-- An update replaces the weight of its key. -/
theorem weight_insert (weigh : K → V → Nat) (map : SortedMap K V) (key : K) (value : V) :
    (map.insert key value).weight weigh + (map.lookup key).elim 0 (weigh key)
      = map.weight weigh + weigh key value := by
  have herase := map.weight_erase weigh key
  have haround := weightOf_around weigh key map.entries
  unfold weight erase at herase
  unfold weight insert
  rw [weightOf_append, weightOf_cons]
  dsimp only at herase ⊢
  omega

theorem size_eq_weight (map : SortedMap K V) : map.size = map.weight fun _ _ => 1 := by
  simp [size, weight, weightOf]

theorem size_insert (map : SortedMap K V) (key : K) (v : V) :
    (map.insert key v).size = map.size + if (map.lookup key).isSome then 0 else 1 := by
  have hweight := map.weight_insert (fun _ _ => 1) key v
  rw [← size_eq_weight, ← size_eq_weight] at hweight
  cases hget : map.lookup key <;> simp [hget] at hweight ⊢ <;> omega

end Weight

end SortedMap
