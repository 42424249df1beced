import Mathlib.Tactic

/-!
# Runs of a state machine

A machine takes one step for each event. A run can be restricted to events that are
allowed in the state they find, and an invariant of every step holds in every state
that is reached.
-/

namespace Machine

variable {S E : Type*}

/-- The state after a sequence of events. -/
def run (step : S → E → S) (state : S) (events : List E) : S :=
  events.foldl step state

/-- Every event of a sequence is allowed in the state that it finds. -/
def Guarded (step : S → E → S) (allowed : S → E → Prop) : S → List E → Prop
  | _, [] => True
  | state, event :: events => allowed state event ∧ Guarded step allowed (step state event) events

@[simp] theorem run_nil (step : S → E → S) (state : S) : run step state [] = state := rfl

@[simp] theorem run_cons (step : S → E → S) (s : S) (event : E) (events : List E) :
    run step s (event :: events) = run step (step s event) events := rfl

theorem run_append (step : S → E → S) (s : S) (first second : List E) :
    run step s (first ++ second) = run step (run step s first) second := List.foldl_append

/-- What every allowed step preserves holds after every guarded run. -/
theorem invariant_of_guarded {step : S → E → S} {allowed : S → E → Prop} {invariant : S → Prop}
    (hstep : ∀ s event, invariant s → allowed s event → invariant (step s event)) {s : S}
    (hs : invariant s) {events : List E}
    (hgd : Guarded step allowed s events) : invariant (run step s events) := by
  induction events generalizing s with
  | nil => exact hs
  | cons event events ih => exact ih (hstep s event hs hgd.1) hgd.2

/-- What every step preserves holds after every run. -/
theorem invariant_run {step : S → E → S} {invariant : S → Prop}
    (hstep : ∀ s event, invariant s → invariant (step s event)) {s : S} (hs : invariant s)
    (events : List E) :
    invariant (run step s events) := by
  induction events generalizing s with
  | nil => exact hs
  | cons event events ih => exact ih (hstep s event hs)

end Machine
