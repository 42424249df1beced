import NeoX.Library.Machine
import NeoX.Validator.RoundState

/-!
# The timer of a validator

Every arm of the timer starts a task that sleeps and then delivers the token of the arm. An arm
aborts the task of the one before, which may have delivered its token already.

Main results:

- `DbftTimer.run_current`: over every run, no token is accepted twice or after its arm is
  superseded, and the token of an armed timer is on its way.
- `DbftTimer.timeouts_meet`: in every view the primary and the backups give up together.
-/

namespace NeoX

open List

/-- The token of an arm. -/
structure DbftTimeout where
  height : UInt64
  view : UInt8
  generation : UInt64
  deriving DecidableEq

/-- The timer, with the tasks whose tokens were not received, the tokens of aborted tasks, and those
that were accepted, the last one first. -/
structure DbftTimer where
  blockPeriod : Nat
  generation : UInt64 := 0
  armed : Option DbftTimeout := none
  sleep : Option DbftTimeout := none
  tasks : List (DbftTimeout × Nat) := []
  aborted : List DbftTimeout := []
  accepted : List DbftTimeout := []

namespace DbftTimer

/-! ## Delays -/

/-- The longest duration in nanoseconds. -/
def maxDuration : Nat := 2 ^ 64 * 10 ^ 9 - 1

/-- The block period, doubled so many times. The multiplier has 32 bits. -/
def scaledBlockPeriod (blockPeriod exponent : Nat) : Nat :=
  if exponent < 32 then min (blockPeriod * 2 ^ exponent) maxDuration else maxDuration

def roundTimeout (blockPeriod : Nat) (view : UInt8) (isPrimary : Bool) : Nat :=
  if isPrimary then
    if view = 0 then blockPeriod else 0
  else
    scaledBlockPeriod blockPeriod (view.toNat + 1)

def postProposalTimeout (blockPeriod : Nat) (view : UInt8) : Nat :=
  let delay := scaledBlockPeriod blockPeriod (view.toNat + 1)
  if view = 0 then delay - blockPeriod else delay

def changeViewTimeout (blockPeriod : Nat) (newView : UInt8) : Nat :=
  scaledBlockPeriod blockPeriod (newView.toNat + 1)

/-- For every view: a primary that proposes in time changes the view when its backups do, and the
validators of later views wait at least as long. -/
theorem timeouts_meet (blockPeriod : Fin (maxDuration + 1)) (view : UInt8) :
    roundTimeout blockPeriod view true + postProposalTimeout blockPeriod view
      = roundTimeout blockPeriod view false ∧
    ∀ later, view ≤ later →
      changeViewTimeout blockPeriod view ≤ changeViewTimeout blockPeriod later := by
  have hperiod := blockPeriod.is_le
  constructor
  · unfold roundTimeout postProposalTimeout
    by_cases hview : view = 0
    · subst hview
      simp [scaledBlockPeriod]
      omega
    · simp [hview]
  · intro later hle
    have hnat : view.toNat ≤ later.toNat := hle
    have hpow : 2 ^ (view.toNat + 1) ≤ 2 ^ (later.toNat + 1) :=
      Nat.pow_le_pow_right Nat.zero_lt_two (Nat.succ_le_succ hnat)
    have hscaled := Nat.mul_le_mul_left blockPeriod.val hpow
    unfold changeViewTimeout scaledBlockPeriod
    split <;> split <;> omega

/-! ## Arms -/

variable (timer : DbftTimer)

/-- Abort the task of the last arm and count a generation. -/
def supersede (armed : Option DbftTimeout) : DbftTimer :=
  { timer with
    generation := timer.generation + 1
    aborted := timer.sleep.toList ++ timer.aborted
    armed := armed
    sleep := armed }

def disarm : DbftTimer := timer.supersede none

/-- Start a task for a new token. -/
def arm (height : UInt64) (view : UInt8) (delay : Nat) : DbftTimer :=
  let timeout := ⟨height, view, timer.generation + 1⟩
  { timer.supersede (some timeout) with tasks := (timeout, delay) :: timer.tasks }

/-- Wait for the current view of a round in which the account of the signer is a validator. -/
def reset (round : Option DbftRoundState) (account : Option Address) : DbftTimer :=
  -- The validators are sorted, so a binary search finds the only position of the account.
  match round, account.bind fun account => round.bind (·.validators.accounts.idxOf? account) with
  | some round, some localIndex =>
    let isPrimary := localIndex = (round.primaryIndex round.currentView).toNat
    timer.arm round.height round.currentView
      (roundTimeout timer.blockPeriod round.currentView isPrimary)
  | _, _ => timer.disarm

/-- Accept a token if it is the one of the last arm. -/
def consume (timeout : DbftTimeout) : Bool × DbftTimer :=
  if timer.armed = some timeout then (true, { timer with sleep := none, armed := none })
  else (false, timer)

/-- What happens to a timer: a call of the validator, or the token of a task. -/
inductive Operation where
  | reset (round : Option DbftRoundState) (account : Option Address)
  | armPostProposal (height : UInt64) (view : UInt8)
  | armRecovery (height : UInt64) (view : UInt8)
  | armContribution (height : UInt64) (view : UInt8)
  | armChangeView (height : UInt64) (view newView : UInt8)
  | receive (task : DbftTimeout × Nat)

/-- The timer after an operation. -/
def perform : Operation → DbftTimer
  | .reset round account => timer.reset round account
  | .armPostProposal height view =>
    timer.arm height view (postProposalTimeout timer.blockPeriod view)
  | .armRecovery height view => timer.arm height view (scaledBlockPeriod timer.blockPeriod 1)
  | .armContribution height view => timer.arm height view timer.blockPeriod
  | .armChangeView height view newView =>
    timer.arm height view (changeViewTimeout timer.blockPeriod newView)
  | .receive task =>
    if task ∈ timer.tasks then
      match { timer with tasks := timer.tasks.erase task }.consume task.1 with
      | (true, timer) => { timer with accepted := task.1 :: timer.accepted }
      | (false, timer) => timer
    else timer

/-- What holds after so many operations. -/
structure Current (count : Nat) : Prop where
  bounded : timer.generation.toNat ≤ count
  sleep : timer.sleep = timer.armed
  distinct : timer.accepted.Pairwise fun later earlier => earlier.generation < later.generation
  past : ∀ timeout ∈ timer.accepted ++ timer.aborted, timeout.generation ≤ timer.generation
  armed : ∀ timeout, timer.armed = some timeout →
    timeout.generation = timer.generation ∧ timeout ∈ timer.tasks.map Prod.fst ∧
    ∀ earlier ∈ timer.accepted ++ timer.aborted, earlier.generation < timeout.generation

variable {timer} {count : Nat}

/-- A new generation leaves all tokens behind. -/
theorem Current.renew (h : timer.Current count) (hcount : count + 1 < 2 ^ 64) :
    (timer.generation + 1).toNat ≤ count + 1 ∧
      ∀ timeout ∈ timer.accepted ++ (timer.sleep.toList ++ timer.aborted),
        timeout.generation < timer.generation + 1 := by
  have hbounded := h.bounded
  have hnext : (timer.generation + 1).toNat = timer.generation.toNat + 1 := by
    rw [UInt64.toNat_add, UInt64.toNat_one]
    omega
  refine ⟨by omega, fun timeout hmem => ?_⟩
  have hle : timeout.generation ≤ timer.generation := by
    rw [h.sleep] at hmem
    by_cases harmed : timer.armed = some timeout
    · exact (h.armed timeout harmed).1 ▸ UInt64.le_refl _
    · refine h.past timeout ?_
      simpa [harmed] using hmem
  rw [UInt64.lt_iff_toNat_lt, hnext]
  exact Nat.lt_succ_of_le (UInt64.le_iff_toNat_le.mp hle)

theorem Current.arm (h : timer.Current count) (hcount : count + 1 < 2 ^ 64) (height : UInt64)
    (view : UInt8) (delay : Nat) : (timer.arm height view delay).Current (count + 1) := by
  obtain ⟨hnext, hlt⟩ := h.renew hcount
  refine ⟨hnext, rfl, h.distinct, fun timeout hmem => UInt64.le_of_lt (hlt timeout hmem), ?_⟩
  rintro timeout harmed
  cases harmed
  exact ⟨rfl, mem_cons_self, hlt⟩

theorem Current.disarm (h : timer.Current count) (hcount : count + 1 < 2 ^ 64) :
    timer.disarm.Current (count + 1) := by
  obtain ⟨hnext, hlt⟩ := h.renew hcount
  exact ⟨hnext, rfl, h.distinct, fun timeout hmem => UInt64.le_of_lt (hlt timeout hmem),
    fun _ harmed => nomatch harmed⟩

theorem Current.receive (h : timer.Current count) (task : DbftTimeout × Nat) :
    (timer.perform (.receive task)).Current (count + 1) := by
  have hbounded := Nat.le_succ_of_le h.bounded
  unfold DbftTimer.perform consume
  dsimp only
  split
  · by_cases hcurrent : timer.armed = some task.1
    · obtain ⟨hlast, -, hearlier⟩ := h.armed task.1 hcurrent
      rw [if_pos hcurrent]
      refine ⟨hbounded, rfl, pairwise_cons.mpr ⟨?_, h.distinct⟩, ?_, fun _ harmed => nomatch harmed⟩
      · exact fun earlier hmem => hearlier earlier (mem_append_left _ hmem)
      · exact forall_mem_cons.mpr ⟨hlast ▸ UInt64.le_refl _, h.past⟩
    · rw [if_neg hcurrent]
      refine ⟨hbounded, h.sleep, h.distinct, h.past, fun timeout harmed => ?_⟩
      obtain ⟨hlast, hwaits, hearlier⟩ := h.armed timeout harmed
      obtain ⟨found, hfound, rfl⟩ := mem_map.mp hwaits
      have hother : found ≠ task := fun heq => hcurrent (heq ▸ harmed)
      exact ⟨hlast, mem_map_of_mem ((mem_erase_of_ne hother).mpr hfound), hearlier⟩
  · exact ⟨hbounded, h.sleep, h.distinct, h.past, h.armed⟩

theorem Current.perform (h : timer.Current count) (hcount : count + 1 < 2 ^ 64)
    (operation : Operation) : (timer.perform operation).Current (count + 1) := by
  cases operation with
  | reset round account =>
    unfold DbftTimer.perform DbftTimer.reset
    dsimp only
    split
    · exact h.arm hcount _ _ _
    · exact h.disarm hcount
  | receive task => exact h.receive task
  | _ => exact h.arm hcount _ _ _

theorem Current.run (h : timer.Current count) {operations : List Operation}
    (hcount : count + operations.length < 2 ^ 64) :
    (Machine.run DbftTimer.perform timer operations).Current (count + operations.length) := by
  induction operations generalizing count timer with
  | nil => exact h
  | cons operation operations ih =>
    rw [length_cons, Nat.add_comm operations.length, ← Nat.add_assoc] at hcount ⊢
    exact ih (h.perform (by omega) operation) hcount

/-- Over every run with fewer than `2 ^ 64` operations: tokens are accepted in the order of their
arms and at most once, only the token of the last arm is accepted, and while a timer is armed, its
token was not received, and its task not aborted. -/
theorem run_current (blockPeriod : Nat) (operations : List Operation)
    (hlength : operations.length < 2 ^ 64) : ∃ timer,
    Machine.run perform { blockPeriod := blockPeriod } operations = timer ∧
    timer.accepted.Pairwise (fun later earlier => earlier.generation < later.generation) ∧
    ∀ timeout, (timer.consume timeout).1 = true → timeout.generation = timer.generation ∧
      timeout ∈ timer.tasks.map Prod.fst ∧
      ∀ earlier ∈ timer.accepted ++ timer.aborted, earlier.generation < timeout.generation := by
  have hstart : Current { blockPeriod := blockPeriod } 0 :=
    ⟨Nat.le_refl 0, rfl, Pairwise.nil, forall_mem_nil _, fun _ harmed => nomatch harmed⟩
  have hrun := hstart.run ((Nat.zero_add _).trans_lt hlength)
  refine ⟨_, rfl, hrun.distinct, fun timeout hconsumed => hrun.armed timeout ?_⟩
  unfold consume at hconsumed
  split at hconsumed
  · assumption
  · cases hconsumed

/-- The token of the first arm comes after the second arm, and is not accepted. -/
theorem run_current_rearmed : ∃ timer, Machine.run perform { blockPeriod := 5 }
    [.armRecovery 1 0, .armRecovery 1 1, .receive (⟨1, 0, 1⟩, 10)] = timer ∧
    timer.accepted = [] ∧ ∀ timeout, (timer.consume timeout).1 = true → timeout.generation = 2 := by
  obtain ⟨timer, hrun, -, hconsumed⟩ := run_current 5
    [.armRecovery 1 0, .armRecovery 1 1, .receive (⟨1, 0, 1⟩, 10)] (by decide)
  refine ⟨timer, hrun, hrun ▸ rfl, fun timeout h => (hconsumed timeout h).1.trans ?_⟩
  exact hrun ▸ rfl

end DbftTimer

end NeoX
