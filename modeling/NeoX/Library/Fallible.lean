import Mathlib.Tactic

/-!
# Fallible computations

Rules for taking apart a successful computation in `Except`: a sequence
succeeds when every step does, a check succeeds when its condition holds.
-/

namespace Except

variable {ε ε' : Type*} {α β : Type}

theorem bind_eq_ok {a : Except ε α} {next : α → Except ε β} {result : β} :
    a >>= next = .ok result ↔ ∃ v, a = .ok v ∧ next v = .ok result := by
  cases a with
  | error reason => simp [bind, Except.bind]
  | ok v => simp [bind, Except.bind]

theorem bind_ok {first : Except ε α} {next : α → Except ε β} {result : β}
    (h : first >>= next = .ok result) : ∃ v, first = .ok v ∧ next v = .ok result :=
  bind_eq_ok.mp h

theorem of_bind {first : Except ε α} {next : α → Except ε β} {result : β}
    (h : first >>= next = .ok result) : ∃ v, next v = .ok result :=
  (bind_ok h).imp fun _ hv => hv.2

@[simp] theorem ok_bind (value : α) (next : α → Except ε β) :
    (Except.ok value : Except ε α) >>= next = next value := rfl

@[simp] theorem error_bind (reason : ε) (next : α → Except ε β) :
    (Except.error reason : Except ε α) >>= next = .error reason := rfl

@[simp] theorem pure_eq_ok (value : α) : (pure value : Except ε α) = .ok value := rfl

@[simp] theorem mapError_ok (f : ε → ε') (value : α) :
    (Except.ok value : Except ε α).mapError f = .ok value := rfl

@[simp] theorem mapError_error (f : ε → ε') (reason : ε) :
    (Except.error reason : Except ε α).mapError f = .error (f reason) := rfl

@[simp] theorem mapError_eq_ok {f : ε → ε'} {computation : Except ε α} {value : α} :
    computation.mapError f = .ok value ↔ computation = .ok value := by
  cases computation with
  | error reason => simp
  | ok found => simp

theorem mapError_bind {f : ε → ε'} {first : Except ε α} {next : α → Except ε' β} {result : β}
    (h : first.mapError f >>= next = .ok result) :
    ∃ v, first = .ok v ∧ next v = .ok result := by
  obtain ⟨v, hv, h⟩ := bind_ok h
  exact ⟨v, mapError_eq_ok.mp hv, h⟩

/-- Fail with `reason` unless `condition` holds. -/
def require (condition : Prop) [Decidable condition] (reason : ε) : Except ε Unit :=
  if condition then .ok () else .error reason

variable {condition : Prop} {reason : ε}

@[simp] theorem require_eq_ok [Decidable condition] {done : Unit} :
    require condition reason = .ok done ↔ condition := by
  unfold require
  split <;> simp [*]

theorem require_bind [Decidable condition] {next : Unit → Except ε β} {result : β}
    (h : require condition reason >>= next = .ok result) : condition ∧ next () = .ok result := by
  obtain ⟨_, hcondition, h⟩ := bind_ok h
  exact ⟨require_eq_ok.mp hcondition, h⟩

theorem require_of [Decidable condition] (reason : ε) (h : condition) :
    require condition reason = .ok () := by
  simpa using h

@[simp] theorem require_true (reason : ε) : require True reason = .ok () := rfl

theorem map_eq_ok {f : α → β} {computation : Except ε α} {result : β} :
    computation.map f = .ok result ↔ ∃ v, computation = .ok v ∧ f v = result := by
  cases computation with
  | error reason => simp [Except.map]
  | ok v => simp [Except.map]

theorem toOption_eq_some {computation : Except ε α} {value : α} :
    computation.toOption = some value ↔ computation = .ok value := by
  cases computation with
  | error reason => simp [Except.toOption]
  | ok found => simp [Except.toOption]

/-- Fail with `reason` on a missing value. -/
def ofOption (reason : ε) : Option α → Except ε α
  | none => .error reason
  | some value => .ok value

@[simp] theorem ofOption_eq_ok {found : Option α} {value : α} :
    ofOption reason found = .ok value ↔ found = some value := by
  cases found with
  | none => simp [ofOption]
  | some found => simp [ofOption]

theorem ofOption_bind {found : Option α} {next : α → Except ε β} {result : β}
    (h : ofOption reason found >>= next = .ok result) :
    ∃ v, found = some v ∧ next v = .ok result := by
  obtain ⟨v, hv, h⟩ := bind_ok h
  exact ⟨v, ofOption_eq_ok.mp hv, h⟩

/-- A computation that succeeds on every entry succeeds on the list. -/
theorem mapM_eq_ok_of_forall₂ {f : α → Except ε β} {inputs : List α} {results : List β}
    (h : List.Forall₂ (fun input r => f input = .ok r) inputs results) :
    inputs.mapM f = .ok results := by
  induction h with
  | nil => rfl
  | cons hinput _ ih => simp [List.mapM_cons, hinput, ih]

/-- A computation that succeeds on a list succeeds on every entry. -/
theorem mapM_eq_ok {f : α → Except ε β} {inputs : List α} {results : List β} :
    inputs.mapM f = .ok results ↔
      List.Forall₂ (fun input r => f input = .ok r) inputs results := by
  refine ⟨?_, mapM_eq_ok_of_forall₂⟩
  induction inputs generalizing results with
  | nil =>
    intro h
    cases h
    exact List.Forall₂.nil
  | cons input inputs ih =>
    intro h
    rw [List.mapM_cons] at h
    rcases bind_eq_ok.mp h with ⟨r, hres, h⟩
    rcases bind_eq_ok.mp h with ⟨rest, hr, h⟩
    cases h
    exact List.Forall₂.cons hres (ih hr)

theorem exists_mapM_eq_ok {f : α → Except ε β} {inputs : List α}
    (h : ∀ input ∈ inputs, ∃ r, f input = .ok r) :
    ∃ results, inputs.mapM f = .ok results := by
  induction inputs with
  | nil => exact ⟨[], rfl⟩
  | cons input inputs ih =>
    obtain ⟨r, hres⟩ := h input List.mem_cons_self
    obtain ⟨results, hresu⟩ := ih fun o ho => h o (List.mem_cons_of_mem _ ho)
    exact ⟨r :: results, by simp [List.mapM_cons, hres, hresu]⟩

end Except
