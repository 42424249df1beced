import NeoX.Library.FiniteMap

/-!
# Correlations

Two partial functions that are inverse to each other, such as a table of identifiers and the
identifier that stands in each entry of another table. They stay so when a pair is removed from
both or a new pair is added to both.
-/

/-- Two partial functions that are inverse to each other. -/
def Correlated {A B : Type} (forward : A → Option B) (backward : B → Option A) : Prop :=
  ∀ left right, forward left = some right ↔ backward right = some left

namespace Correlated

variable {A B : Type} [DecidableEq A] [DecidableEq B] {forward forward' : A → Option B}
  {backward backward' : B → Option A} {left : A} {right : B}

/-- Remove a pair. -/
theorem remove (h : Correlated forward backward) (hpair : forward left = some right)
    (hforw : ∀ o, forward' o = if o = left then none else forward o)
    (hbackw : ∀ o, backward' o = if o = right then none else backward o) :
    Correlated forward' backward' := by
  intro a b
  have hback := (h left right).mp hpair
  rw [hforw, hbackw]
  split
  · next heq =>
      subst heq
      split
      · simp
      · next hne =>
          rw [← h a b, hpair, Option.some.injEq]
          simp [Ne.symm hne]
  · next hne =>
      split
      · next heq =>
          subst heq
          rw [h a b, hback, Option.some.injEq]
          simp [Ne.symm hne]
      · exact h a b

/-- Add a pair. -/
theorem add (h : Correlated forward backward) (hleft : forward left = none)
    (hright : backward right = none)
    (hforw : ∀ o, forward' o = if o = left then some right else forward o)
    (hback : ∀ o, backward' o = if o = right then some left else backward o) :
    Correlated forward' backward' := by
  intro a b
  rw [hforw, hback]
  split
  · next heq =>
      subst heq
      split
      · next heq => simp [heq]
      · next hne =>
          rw [← h a b, hleft, Option.some.injEq]
          simp [Ne.symm hne]
  · next hne =>
      split
      · next heq =>
          subst heq
          rw [h a b, hright, Option.some.injEq]
          simp [Ne.symm hne]
      · exact h a b

end Correlated

namespace FiniteMap

variable {K V : Type} [DecidableEq K]

/-- A table has no more entries than a list that contains its values, if no value stands twice. -/
theorem size_le_of_correlated [DecidableEq V] {map : FiniteMap K V} {backward : V → Option K}
    (h : Correlated (fun key => map.lookup key) backward) (values : List V)
    (hvalues : ∀ key v, map.lookup key = some v → v ∈ values) :
    map.size ≤ values.length := by
  have hnd : (map.toList.map Prod.snd).Nodup := by
    refine List.Nodup.map_on ?_ (map.keys_toList_nodup.of_map _)
    rintro ⟨a, v⟩ h1 ⟨b, o⟩ h2 rfl
    have h1 := (h a v).mp (mem_toList.mp h1)
    have h2 := (h b v).mp (mem_toList.mp h2)
    rw [Option.some.inj (h1.symm.trans h2)]
  have hsub : map.toList.map Prod.snd ⊆ values := by
    intro v hv
    obtain ⟨e, he, rfl⟩ := List.mem_map.mp hv
    exact hvalues e.1 e.2 (mem_toList.mp he)
  have hlen := (List.subperm_of_subset hnd hsub).length_le
  simpa [size, toList] using hlen

end FiniteMap
