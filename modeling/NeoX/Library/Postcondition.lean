import NeoX.Library.Fallible

/-!
# Postconditions

What a fallible computation ensures: one condition for its result and one for its failure. A
sequence is taken apart at its steps, and a loop keeps an invariant that may depend on what is left
to do.
-/

namespace Except

variable {ε α β : Type}

/-- A result satisfies `post` and a failure satisfies `fails`. -/
def Ensures (computation : Except ε α) (post : α → Prop) (fails : ε → Prop) : Prop :=
  match computation with
  | .ok value => post value
  | .error reason => fails reason

variable {fails : ε → Prop} {post : α → Prop} {value : α}

@[simp] theorem ensures_ok :
    (Except.ok value : Except ε α).Ensures post fails ↔ post value := Iff.rfl

@[simp] theorem ensures_error {reason : ε} :
    (Except.error reason : Except ε α).Ensures post fails ↔ fails reason := Iff.rfl

@[simp] theorem ofOption_some (reason : ε) (value : α) :
    ofOption reason (some value) = .ok value := rfl

/-- A computation with its errors renamed fails with a renamed error. -/
theorem mapError_ensures {ε' : Type} {computation : Except ε' α} {rename : ε' → ε}
    (h : ∀ reason, fails (rename reason)) :
    (computation.mapError rename).Ensures (fun v => computation = .ok v) fails := by
  cases computation with
  | error reason => exact h reason
  | ok v => exact rfl

namespace Ensures

variable {computation : Except ε α} {next : α → Except ε β} {post : β → Prop} {middle : α → Prop}
  {fails : ε → Prop}

theorem bind (h : computation.Ensures middle fails)
    (hn : ∀ v, middle v → (next v).Ensures post fails) :
    (computation >>= next).Ensures post fails := by
  cases computation with
  | error reason => exact h
  | ok v => exact hn v h

/-- Conditions may be weakened. -/
theorem mono {weaker : α → Prop} {weakerFails : ε → Prop} (h : computation.Ensures middle fails)
    (hpost : ∀ v, middle v → weaker v) (hfails : ∀ reason, fails reason → weakerFails reason) :
    computation.Ensures weaker weakerFails := by
  cases computation with
  | error reason => exact hfails reason h
  | ok v => exact hpost v h

theorem map {change : α → β} (h : computation.Ensures (fun v => post (change v)) fails) :
    (computation.map change).Ensures post fails := by
  cases computation with
  | error reason => exact h
  | ok v => exact h

theorem with_eq (h : computation.Ensures middle fails) :
    computation.Ensures (fun v => middle v ∧ computation = .ok v) fails := by
  cases computation with
  | error reason => exact h
  | ok v => exact ⟨h, rfl⟩

theorem of_ok (h : computation.Ensures middle fails) (hv : computation = .ok value) :
    middle value := by
  rwa [hv, ensures_ok] at h

end Ensures

/-! ## Loops -/

variable {σ ι : Type}

/-- Run a step for every item, with a state, and collect what the steps return. -/
def collect (step : σ → ι → Except ε (List α × σ)) : List ι → σ → Except ε (List α × σ)
  | [], state => .ok ([], state)
  | item :: items, state => do
      let (found, state) ← step state item
      let (rest, state) ← collect step items state
      .ok (found ++ rest, state)

/-- A loop keeps an invariant of the state and the items that are left. -/
theorem collect_ensures {step : σ → ι → Except ε (List α × σ)} (invariant : List ι → σ → Prop)
    {good : α → Prop} (hstep : ∀ item items s, invariant (item :: items) s →
      (step s item).Ensures
        (fun r => invariant items r.2 ∧ ∀ v ∈ r.1, good v) fails)
    (items : List ι) (s : σ) (h : invariant items s) :
    (collect step items s).Ensures
      (fun r => invariant [] r.2 ∧ ∀ v ∈ r.1, good v) fails := by
  induction items generalizing s with
  | nil => exact ⟨h, by simp⟩
  | cons item items ih =>
    refine (hstep item items s h).bind fun a h1 => ?_
    refine (ih a.2 h1.1).bind fun rest hr => ?_
    refine ⟨hr.1, fun v hv => ?_⟩
    rcases List.mem_append.mp hv with hv | hv
    · exact h1.2 v hv
    · exact hr.2 v hv

end Except
