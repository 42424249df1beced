import Mathlib.Tactic

/-!
# Quiet computations

Computations that may fail and keep their state when they do, and the invariants
that they keep. A computation is quiet for an equivalence of states if it returns the same from
equivalent states and leaves a state that is equivalent to the one it began in: nothing
that only looks at states up to the equivalence can tell that it ran.
-/

/-- A computation that may fail; it has a state afterwards either way. -/
abbrev Attempt (σ ε α : Type) := ExceptT ε (StateM σ) α

namespace Attempt

variable {σ ε α β : Type}

/-- What a computation returns from a state. -/
def result (computation : Attempt σ ε α) (state : σ) : Except ε α :=
  (computation.run.run state).1

/-- The state that a computation leaves. -/
def after (computation : Attempt σ ε α) (state : σ) : σ :=
  (computation.run.run state).2

def mapError {ε' : Type} (rename : ε → ε') (computation : Attempt σ ε α) : Attempt σ ε' α :=
  ExceptT.mk fun state => ((computation.result state).mapError rename, computation.after state)

/-- Fail unless a condition holds. -/
def require (condition : Prop) [Decidable condition] (reason : ε) : Attempt σ ε Unit :=
  if condition then pure () else throw reason

def update (change : σ → σ) : Attempt σ ε Unit :=
  ExceptT.mk fun state => (.ok (), change state)

/-- What a computation returns together with its state, if it succeeds. -/
def advance (computation : Attempt σ ε α) (state : σ) : Except ε (α × σ) :=
  (computation.result state).map fun value => (value, computation.after state)

@[simp] theorem result_pure (value : α) (s : σ) :
    (pure value : Attempt σ ε α).result s = .ok value := rfl

@[simp] theorem after_pure (v : α) (state : σ) :
    (pure v : Attempt σ ε α).after state = state := rfl

@[simp] theorem result_throw (reason : ε) (s : σ) :
    (throw reason : Attempt σ ε α).result s = .error reason := rfl

@[simp] theorem after_throw (reason : ε) (state : σ) :
    (throw reason : Attempt σ ε α).after state = state := rfl

variable {first : Attempt σ ε α} {next : α → Attempt σ ε β}

/-- A sequence returns what its second part does, from the state after the first. -/
theorem bind_of_ok {s : σ} {v : α} (h : first.result s = .ok v) :
    (first >>= next).result s = (next v).result (first.after s) ∧
      (first >>= next).after s = (next v).after (first.after s) := by
  have hrun : first.run.run s = (.ok v, first.after s) := Prod.ext h rfl
  constructor
  · simp only [result, ExceptT.run_bind, StateT.run_bind, hrun]
    rfl
  · simp only [after, ExceptT.run_bind, StateT.run_bind]
    rw [hrun]
    rfl

/-- A sequence ends with its first part if that fails. -/
theorem bind_of_error {state : σ} {reason : ε} (h : first.result state = .error reason) :
    (first >>= next).result state = .error reason ∧
      (first >>= next).after state = first.after state := by
  have hrun : first.run.run state = (.error reason, first.after state) := Prod.ext h rfl
  constructor
  · simp only [result, ExceptT.run_bind, StateT.run_bind, hrun]
    rfl
  · simp only [after, ExceptT.run_bind, StateT.run_bind]
    rw [hrun]
    rfl

/-! ## Invariants -/

/-- A computation that keeps a property of the state, whether it fails or not. -/
def Keeps (invariant : σ → Prop) (computation : Attempt σ ε α) : Prop :=
  ∀ state, invariant state → invariant (computation.after state)

section Keeps

variable {invariant : σ → Prop}

theorem keeps_pure (v : α) : Keeps invariant (pure v : Attempt σ ε α) :=
  fun _ h => h

theorem keeps_require (condition : Prop) [Decidable condition] (reason : ε) :
    Keeps invariant (require condition reason : Attempt σ ε Unit) := by
  intro s h
  unfold require
  split
  · exact h
  · exact h

theorem Keeps.mapError {ε' : Type} {computation : Attempt σ ε α} (h : Keeps invariant computation)
    (rename : ε → ε') : Keeps invariant (mapError rename computation) :=
  h

theorem keeps_update {change : σ → σ} (h : ∀ s, invariant s → invariant (change s)) :
    Keeps invariant (update change : Attempt σ ε Unit) :=
  h

/-- A sequence keeps what both of its parts keep. -/
theorem Keeps.bind {first : Attempt σ ε α} {next : α → Attempt σ ε β} (h1 : Keeps invariant first)
    (hn : ∀ v, Keeps invariant (next v)) :
    Keeps invariant (first >>= next) := by
  intro s h
  cases hs : first.result s with
  | error reason =>
    rw [(bind_of_error hs).2]
    exact h1 s h
  | ok v =>
    rw [(bind_of_ok hs).2]
    exact hn v _ (h1 s h)

/-- A computation that succeeds with a value wherever a property holds, and keeps the property. -/
def Returns (invariant : σ → Prop) (computation : Attempt σ ε α) (value : α) : Prop :=
  ∀ state, invariant state → computation.result state = .ok value ∧
    invariant (computation.after state)

theorem returns_pure (v : α) : Returns invariant (pure v : Attempt σ ε α) v :=
  fun _ h => ⟨rfl, h⟩

theorem returns_require {condition : Prop} [Decidable condition] (h : condition) (reason : ε) :
    Returns invariant (require condition reason : Attempt σ ε Unit) () := by
  rw [require, if_pos h]
  exact returns_pure ()

theorem Returns.bind {v : α} {r : β} (h1 : Returns invariant first v)
    (hn : Returns invariant (next v) r) : Returns invariant (first >>= next) r := by
  intro s h
  obtain ⟨hv, hs⟩ := h1 s h
  rw [(bind_of_ok hv).1, (bind_of_ok hv).2]
  exact hn _ hs

end Keeps

/-- A sequence that succeeds is one of two parts that do. -/
theorem bind_eq_ok {s : σ} {result : β} (h : (first >>= next).result s = .ok result) :
    ∃ v, first.result s = .ok v ∧
      (next v).result (first.after s) = .ok result ∧
      (first >>= next).after s = (next v).after (first.after s) := by
  cases hs : first.result s with
  | error reason =>
    rw [(bind_of_error hs).1] at h
    cases h
  | ok v =>
    rw [(bind_of_ok hs).1] at h
    exact ⟨v, rfl, h, (bind_of_ok hs).2⟩

/-! ## Quiet computations -/

variable [Setoid σ]

/-- A computation that leaves no trace up to the equivalence of states. -/
structure Quiet (computation : Attempt σ ε α) : Prop where
  result_eq : ∀ {first second : σ}, first ≈ second →
    computation.result first = computation.result second
  after_equiv : ∀ state, computation.after state ≈ state

theorem quiet_pure (v : α) : Quiet (pure v : Attempt σ ε α) :=
  ⟨fun _ => rfl, fun s => Setoid.refl s⟩

theorem quiet_throw (reason : ε) : Quiet (throw reason : Attempt σ ε α) :=
  ⟨fun _ => rfl, fun s => Setoid.refl s⟩

theorem Quiet.bind (h1 : Quiet first) (hn : ∀ v, Quiet (next v)) :
    Quiet (first >>= next) := by
  constructor
  · intro left right hequiv
    have hsame := h1.result_eq hequiv
    cases hleft : first.result left with
    | error reason =>
      rw [(bind_of_error hleft).1, (bind_of_error (hsame.symm.trans hleft)).1]
    | ok v =>
      rw [(bind_of_ok hleft).1, (bind_of_ok (hsame.symm.trans hleft)).1]
      apply (hn v).result_eq
      exact Setoid.trans (h1.after_equiv left)
        (Setoid.trans hequiv (Setoid.symm (h1.after_equiv right)))
  · intro s
    cases hs : first.result s with
    | error reason =>
      rw [(bind_of_error hs).2]
      exact h1.after_equiv s
    | ok v =>
      rw [(bind_of_ok hs).2]
      exact Setoid.trans ((hn v).after_equiv _) (h1.after_equiv s)

theorem quiet_require (condition : Prop) [Decidable condition] (reason : ε) :
    Quiet (require condition reason : Attempt σ ε Unit) := by
  unfold require
  split
  · exact quiet_pure ()
  · exact quiet_throw reason

variable {computation : Attempt σ ε α}

theorem Quiet.mapError {ε' : Type} (h : Quiet computation) (rename : ε → ε') :
    Quiet (mapError rename computation) where
  result_eq hequiv := congrArg (Except.mapError rename) (h.result_eq hequiv)
  after_equiv state := h.after_equiv state

/-- A computation that returns the same from equivalent states and leaves equivalent states. -/
structure Respects (computation : Attempt σ ε α) : Prop where
  result_eq : ∀ {first second : σ}, first ≈ second →
    computation.result first = computation.result second
  after_equiv : ∀ {first second : σ}, first ≈ second →
    computation.after first ≈ computation.after second

theorem Quiet.respects (h : Quiet computation) :
    Respects computation where
  result_eq := h.result_eq
  after_equiv {first second} hequiv := Setoid.trans (h.after_equiv first)
    (Setoid.trans hequiv (Setoid.symm (h.after_equiv second)))

theorem Respects.bind (h1 : Respects first) (hn : ∀ v, Respects (next v)) :
    Respects (first >>= next) := by
  have hboth : ∀ {left right : σ}, left ≈ right →
      (first >>= next).result left = (first >>= next).result right ∧
        (first >>= next).after left ≈ (first >>= next).after right := by
    intro left right hequiv
    have hsame := h1.result_eq hequiv
    have hafter := h1.after_equiv hequiv
    cases hleft : first.result left with
    | error reason =>
      have hright := hsame.symm.trans hleft
      rw [(bind_of_error hleft).1, (bind_of_error hleft).2, (bind_of_error hright).1,
        (bind_of_error hright).2]
      exact ⟨rfl, hafter⟩
    | ok v =>
      have hright := hsame.symm.trans hleft
      rw [(bind_of_ok hleft).1, (bind_of_ok hleft).2, (bind_of_ok hright).1, (bind_of_ok hright).2]
      exact ⟨(hn v).result_eq hafter, (hn v).after_equiv hafter⟩
  exact ⟨fun hequiv => (hboth hequiv).1, fun hequiv => (hboth hequiv).2⟩

/-- Advancing from equivalent states. -/
theorem Respects.exists_advance (h : Respects computation) {a b left : σ} {v : α}
    (hequiv : a ≈ b) (hleft : computation.advance a = .ok (v, left)) :
    ∃ right, computation.advance b = .ok (v, right) ∧ left ≈ right := by
  unfold advance at hleft ⊢
  rw [h.result_eq hequiv] at hleft
  cases hres : computation.result b with
  | error reason =>
    rw [hres] at hleft
    cases hleft
  | ok found =>
    rw [hres] at hleft
    cases hleft
    exact ⟨_, rfl, h.after_equiv hequiv⟩

end Attempt
