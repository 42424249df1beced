import NeoX.Library.Machine

/-!
# Concurrent threads

A thread is a program that touches shared state in atomic sections only. A pool holds threads
that were started and not finished, and any of them may run its next section at any time.

Main results:

- `Thread.Keeps.bind`: the sequencing rule for invariants.
- `Pool.invariant_run`: an invariant that every section of every program keeps
  holds after every interleaving.
-/

/-- A program over shared state: it is finished, or it enters a section that updates the state
and goes on as told by the state it found. -/
inductive Thread (S A : Type) where
  | done (result : A)
  | atomic (update : S → S) (next : S → Thread S A)

namespace Thread

variable {S A B : Type}

def bind : Thread S A → (A → Thread S B) → Thread S B
  | done result, continue_ => continue_ result
  | atomic update next, continue_ => atomic update fun state => (next state).bind continue_

instance : Monad (Thread S) where
  pure := done
  bind := bind

/-- One section: its result and the state it leaves. -/
def access (enter : S → A × S) : Thread S A :=
  atomic (fun state => (enter state).2) fun state => done (enter state).1

def read (view : S → A) : Thread S A :=
  atomic id fun state => done (view state)

/-! ## Rules -/

/-- Every section keeps the invariant, whatever other threads do within it in between. -/
inductive Keeps (invariant : S → Prop) : Thread S A → Prop where
  | done (result : A) : Keeps invariant (done result)
  | atomic {update : S → S} {next : S → Thread S A}
      (hupdate : ∀ state, invariant state → invariant (update state))
      (hnext : ∀ state, invariant state → Keeps invariant (next state)) :
      Keeps invariant (atomic update next)

variable {invariant : S → Prop}

theorem keeps_pure (r : A) : Keeps invariant (pure r : Thread S A) :=
  .done r

theorem Keeps.bind {thread : Thread S A} {rest : A → Thread S B} (h : thread.Keeps invariant)
    (hr : ∀ r, (rest r).Keeps invariant) : (thread >>= rest).Keeps invariant := by
  induction h with
  | done r => exact hr r
  | atomic hupdate _ ih => exact .atomic hupdate ih

theorem keeps_access {enter : S → A × S} (h : ∀ s, invariant s → invariant (enter s).2) :
    Keeps invariant (access enter) :=
  .atomic h fun _ _ => .done _

theorem keeps_read (view : S → A) : Keeps invariant (read view) :=
  .atomic (fun _ hs => hs) fun _ _ => .done _

end Thread

/-- Shared state and the threads that were started. -/
structure Pool (S A : Type) where
  shared : S
  threads : List (Thread S A)

namespace Pool

variable {S A R : Type} (program : R → Thread S A)

inductive Event (R : Type) where
  | start (request : R)
  | advance (index : Nat)

/-- Start a request, or let one thread run its next section. -/
def step (pool : Pool S A) : Event R → Pool S A
  | .start request => { pool with threads := pool.threads ++ [program request] }
  | .advance index =>
    match pool.threads[index]? with
    | some (.atomic update next) =>
      ⟨update pool.shared, pool.threads.set index (next pool.shared)⟩
    | _ => pool

/-- The invariant holds and every started thread keeps it. -/
def Safe (invariant : S → Prop) (pool : Pool S A) : Prop :=
  invariant pool.shared ∧ ∀ thread ∈ pool.threads, thread.Keeps invariant

variable {program} {invariant : S → Prop}

theorem Safe.step {pool : Pool S A} (h : pool.Safe invariant)
    (hprog : ∀ req, (program req).Keeps invariant) (event : Event R) :
    (pool.step program event).Safe invariant := by
  cases event with
  | start req =>
    refine ⟨h.1, ?_⟩
    intro thread hmem
    rcases List.mem_append.mp hmem with hmem | hmem
    · exact h.2 thread hmem
    · rw [List.mem_singleton.mp hmem]
      exact hprog req
  | advance i =>
    unfold Pool.step
    dsimp only
    cases hthread : pool.threads[i]? with
    | none => exact h
    | some thread =>
      have hkeeps := h.2 thread (List.mem_of_getElem? hthread)
      cases hkeeps with
      | done r => exact h
      | atomic hupdate hnext =>
        refine ⟨hupdate _ h.1, ?_⟩
        intro o hmem
        rcases List.mem_or_eq_of_mem_set hmem with hmem | heq
        · exact h.2 o hmem
        · rw [heq]
          exact hnext _ h.1

/-- An invariant that every program keeps holds after every interleaving. -/
theorem invariant_run (hprog : ∀ req, (program req).Keeps invariant) {shared : S}
    (hshared : invariant shared) (events : List (Event R)) :
    invariant (Machine.run (step program) ⟨shared, []⟩ events).shared := by
  have hsafe : (Machine.run (step program) ⟨shared, []⟩ events).Safe invariant :=
    Machine.invariant_run (fun _ event hpool => hpool.step hprog event)
      ⟨hshared, fun thread hmem => absurd hmem List.not_mem_nil⟩ events
  exact hsafe.1

end Pool
