import NeoX.Library.FiniteMap
import NeoX.Node.StaticPool

/-!
# The queue of key generation tasks

The tasks of a validator in a round of key generation: what each of them starts at a height, and
the results that are recorded for it.

Main results:

- `DkgTaskExecutor.apply_taskStep`: seen from one task, a call is a step of the small
  machine `TaskStep`.
- `DkgTaskExecutor.wellFormed_run`: the order holds every queued task once.
- `DkgTaskExecutor.executor_runs`: in every history no task starts at its end height,
  sends two different payloads, or starts again before its result is recorded.
-/

namespace NeoX

open List
open Except hiding ok error

/-! ## Tasks -/

/-- The calls that the contract of key generation accepts. -/
inductive DkgContractMethod where
  | share
  | reshare
  | recover
  | reshareRecovered
  deriving DecidableEq

/-- A call that is to be prepared, proved and sent before its end height. -/
structure DkgTaskPlan where
  round : UInt64
  method : DkgContractMethod
  senderIndex : UInt64
  sendHeight : UInt64
  endHeight : UInt64
  recoveryIndices : List UInt64
  deriving DecidableEq

/-- The identity of a task within a round. -/
structure DkgTaskId where
  round : UInt64
  method : DkgContractMethod
  senderIndex : UInt64
  deriving DecidableEq

def DkgTaskPlan.id (plan : DkgTaskPlan) : DkgTaskId :=
  ⟨plan.round, plan.method, plan.senderIndex⟩

/-- What a receipt says about a sent call. -/
inductive DkgReceiptState where
  | missing
  | succeeded
  | failed
  deriving DecidableEq

/-- Work that the queue asks for. -/
inductive DkgExecutorAction where
  | prepare (id : DkgTaskId) (plan : DkgTaskPlan)
  | submit (id : DkgTaskId) (destination : Address) (calldata : Bytes)
  | checkReceipt (id : DkgTaskId) (transactionHash : B256)
  | expire (id : DkgTaskId)
  deriving DecidableEq

def DkgExecutorAction.id : DkgExecutorAction → DkgTaskId
  | .prepare id _ => id
  | .submit id _ _ => id
  | .checkReceipt id _ => id
  | .expire id => id

/-- Whether an action begins preparation or submission. -/
def DkgExecutorAction.starts : DkgExecutorAction → Bool
  | .prepare _ _ => true
  | .submit _ _ _ => true
  | .checkReceipt _ _ => false
  | .expire _ => false

/-- What a recorded result led to. -/
inductive DkgExecutorOutcome where
  | prepared (id : DkgTaskId)
  | preparationFailed (id : DkgTaskId) (error : String)
  | submitted (id : DkgTaskId) (transactionHash : B256)
  | submissionFailed (id : DkgTaskId) (error : String)
  | retryScheduled (id : DkgTaskId) (receipt : DkgReceiptState)
  | confirmed (id : DkgTaskId) (transactionHash : B256)
  | receiptCheckFailed (id : DkgTaskId) (error : String)
  deriving DecidableEq

/-- Results that do not belong to the state of their task. -/
inductive DkgExecutorError where
  | unknownTask (id : DkgTaskId)
  | unexpectedState (id : DkgTaskId)
  | invalidCalldata (length : Nat)
  deriving DecidableEq

/-- The progress of a task. -/
inductive DkgExecutionState where
  | unprepared
  | preparing
  | ready (calldata : Bytes)
  | submitting (calldata : Bytes)
  | submitted (calldata : Bytes) (transactionHash : B256) (sendHeight : UInt64)
  | checking (calldata : Bytes) (transactionHash : B256) (sendHeight : UInt64)
  deriving DecidableEq

/-- A queued task. -/
structure DkgExecutionTask where
  plan : DkgTaskPlan
  state : DkgExecutionState
  deriving DecidableEq

/-- The work that a task starts at a height, with its next state. -/
def DkgExecutionTask.start (task : DkgExecutionTask) (id : DkgTaskId) (currentHeight : UInt64)
    (mayPrepare : Bool) : Option (DkgExecutorAction × DkgExecutionState) :=
  match task.state with
  | .unprepared => if mayPrepare then some (.prepare id task.plan, .preparing) else none
  | .ready calldata =>
    some (.submit id keyManagementProxyAddress calldata, .submitting calldata)
  | .submitted calldata transactionHash sendHeight =>
    -- The receipt is first read three blocks after submission.
    if min (sendHeight.toNat + 3) (2 ^ 64 - 1) ≤ currentHeight.toNat then
      some (.checkReceipt id transactionHash, .checking calldata transactionHash sendHeight)
    else none
  | .checking calldata transactionHash sendHeight =>
    some (.checkReceipt id transactionHash, .checking calldata transactionHash sendHeight)
  | .preparing => none
  | .submitting _ => none

/-! ## The queue -/

/-- The queued tasks, with the order in which they were planned. -/
structure DkgTaskExecutor where
  tasks : FiniteMap DkgTaskId DkgExecutionTask
  order : List DkgTaskId

namespace DkgTaskExecutor

def empty : DkgTaskExecutor := ⟨∅, []⟩

def has (executor : DkgTaskExecutor) (id : DkgTaskId) : Bool :=
  executor.tasks.has id

/-- Queue a plan unless its task is queued. -/
def enqueueOne (state : Nat × DkgTaskExecutor) (plan : DkgTaskPlan) : Nat × DkgTaskExecutor :=
  match state.2.tasks.lookup plan.id with
  | some _ => state
  | none => (state.1 + 1, ⟨state.2.tasks.insert plan.id ⟨plan, .unprepared⟩,
      state.2.order ++ [plan.id]⟩)

/-- Queue new plans and count them. -/
def enqueue (executor : DkgTaskExecutor) (plans : List DkgTaskPlan) : Nat × DkgTaskExecutor :=
  plans.foldl enqueueOne (0, executor)

/-- The tasks that have reached their end height. -/
def expired (executor : DkgTaskExecutor) (currentHeight : UInt64) : List DkgTaskId :=
  executor.order.filter fun id =>
    match executor.tasks.lookup id with
    | some task => task.plan.endHeight ≤ currentHeight
    | none => false

/-- The queue without the tasks that have reached their end height. -/
def removeExpired (executor : DkgTaskExecutor) (currentHeight : UInt64) : DkgTaskExecutor :=
  let tasks := (executor.expired currentHeight).foldl (fun tasks id => tasks.erase id)
    executor.tasks
  ⟨tasks, executor.order.filter fun id => tasks.has id⟩

/-- Start the work of tasks in order. A task that is not in the map is a panic. -/
def startTasks (currentHeight : UInt64) (maxPreparations : Nat) : List DkgTaskId → Nat →
    FiniteMap DkgTaskId DkgExecutionTask →
    Option (List DkgExecutorAction × FiniteMap DkgTaskId DkgExecutionTask)
  | [], _, tasks => some ([], tasks)
  | id :: order, preparations, tasks => do
      let task ← tasks.lookup id
      match task.start id currentHeight (decide (preparations < maxPreparations)) with
      | none => startTasks currentHeight maxPreparations order preparations tasks
      | some (action, state) =>
        let preparations := if task.state = .unprepared then preparations + 1 else preparations
        let (actions, tasks) ← startTasks currentHeight maxPreparations order preparations
          (tasks.insert id ⟨task.plan, state⟩)
        some (action :: actions, tasks)

/-- Drop expired tasks and start the work that the height allows, with a bound on preparations. -/
def actionsWithPreparationLimit (executor : DkgTaskExecutor) (currentHeight : UInt64)
    (maxPreparations : Nat) : Option (List DkgExecutorAction × DkgTaskExecutor) := do
  let current := executor.removeExpired currentHeight
  let (actions, tasks) ← startTasks currentHeight maxPreparations current.order 0 current.tasks
  some ((executor.expired currentHeight).map .expire ++ actions, ⟨tasks, current.order⟩)

def taskInState (executor : DkgTaskExecutor) (id : DkgTaskId)
    (expected : DkgExecutionState → Bool) : Except DkgExecutorError DkgExecutionTask := do
  let task ← ofOption (.unknownTask id) (executor.tasks.lookup id)
  require (expected task.state = true) (.unexpectedState id)
  .ok task

/-- The queue with a task in another state. -/
def setState (executor : DkgTaskExecutor) (id : DkgTaskId) (task : DkgExecutionTask)
    (state : DkgExecutionState) : DkgTaskExecutor :=
  ⟨executor.tasks.insert id ⟨task.plan, state⟩, executor.order⟩

def remove (executor : DkgTaskExecutor) (id : DkgTaskId) : DkgTaskExecutor :=
  ⟨executor.tasks.erase id, executor.order.filter (· ≠ id)⟩

/-- Record the result of preparation. A payload without a selector is an error that still returns
the task to its first state. -/
def recordPrepared (executor : DkgTaskExecutor) (id : DkgTaskId) (result : Except String Bytes) :
    Except DkgExecutorError DkgExecutorOutcome × DkgTaskExecutor :=
  match executor.taskInState id (· = .preparing) with
  | .error error => (.error error, executor)
  | .ok task =>
    match result with
    | .ok calldata =>
      if 4 ≤ calldata.length then
        (.ok (.prepared id), executor.setState id task (.ready calldata))
      else
        (.error (.invalidCalldata calldata.length), executor.setState id task .unprepared)
    | .error error => (.ok (.preparationFailed id error), executor.setState id task .unprepared)

def recordSubmitted (executor : DkgTaskExecutor) (id : DkgTaskId) (currentHeight : UInt64)
    (result : Except String B256) :
    Except DkgExecutorError DkgExecutorOutcome × DkgTaskExecutor :=
  match executor.tasks.lookup id with
  | none => (.error (.unknownTask id), executor)
  | some task =>
    match task.state with
    | .submitting calldata =>
      match result with
      | .ok transactionHash =>
        (.ok (.submitted id transactionHash),
          executor.setState id task (.submitted calldata transactionHash currentHeight))
      | .error error =>
        (.ok (.submissionFailed id error), executor.setState id task (.ready calldata))
    | _ => (.error (.unexpectedState id), executor)

/-- Record what the receipt of a task says. -/
def recordReceipt (executor : DkgTaskExecutor) (id : DkgTaskId)
    (result : Except String DkgReceiptState) :
    Except DkgExecutorError DkgExecutorOutcome × DkgTaskExecutor :=
  match executor.tasks.lookup id with
  | none => (.error (.unknownTask id), executor)
  | some task =>
    match task.state with
    | .checking calldata transactionHash _ =>
      match result with
      | .ok .succeeded => (.ok (.confirmed id transactionHash), executor.remove id)
      | .ok .missing =>
        (.ok (.retryScheduled id .missing), executor.setState id task (.ready calldata))
      | .ok .failed =>
        (.ok (.retryScheduled id .failed), executor.setState id task (.ready calldata))
      | .error error =>
        (.ok (.receiptCheckFailed id error), executor.setState id task (.ready calldata))
    | _ => (.error (.unexpectedState id), executor)

/-- Drop a task that is known to have been executed. -/
def retire (executor : DkgTaskExecutor) (id : DkgTaskId) : Bool × DkgTaskExecutor :=
  if executor.has id then (true, executor.remove id) else (false, executor)

/-! ## Histories -/

inductive Operation where
  | enqueue (plans : List DkgTaskPlan)
  | actions (currentHeight : UInt64) (maxPreparations : Nat)
  | recordPrepared (id : DkgTaskId) (result : Except String Bytes)
  | recordSubmitted (id : DkgTaskId) (currentHeight : UInt64) (result : Except String B256)
  | recordReceipt (id : DkgTaskId) (result : Except String DkgReceiptState)
  | retire (id : DkgTaskId)

/-- One call, with the actions it returns. -/
def apply (executor : DkgTaskExecutor) :
    Operation → Option (List DkgExecutorAction × DkgTaskExecutor)
  | .enqueue plans => some ([], (executor.enqueue plans).2)
  | .actions currentHeight maxPreparations =>
    executor.actionsWithPreparationLimit currentHeight maxPreparations
  | .recordPrepared id result => some ([], (executor.recordPrepared id result).2)
  | .recordSubmitted id currentHeight result =>
    some ([], (executor.recordSubmitted id currentHeight result).2)
  | .recordReceipt id result => some ([], (executor.recordReceipt id result).2)
  | .retire id => some ([], (executor.retire id).2)

/-- A history of calls, with all actions in their order. -/
def run (executor : DkgTaskExecutor) :
    List Operation → Option (List DkgExecutorAction × DkgTaskExecutor)
  | [] => some ([], executor)
  | operation :: operations => do
      let (actions, next) ← executor.apply operation
      let (later, final) ← next.run operations
      some (actions ++ later, final)

/-- A task stays queued from one call to the next. -/
def Kept (id : DkgTaskId) : DkgTaskExecutor → List Operation → Prop
  | executor, [] => executor.has id = true
  | executor, operation :: operations =>
    executor.has id = true ∧
      ∀ actions next, executor.apply operation = some (actions, next) → Kept id next operations

end DkgTaskExecutor

/-! ## One task -/

open DkgTaskExecutor (Operation)

/-- What one call can do with one task, and the actions it returns for the task. -/
inductive TaskStep (id : DkgTaskId) :
    Operation → Option DkgExecutionTask → List DkgExecutorAction → Option DkgExecutionTask → Prop
  | unchanged (operation : Operation) (task : Option DkgExecutionTask) :
      TaskStep id operation task [] task
  | enqueued {plans : List DkgTaskPlan} {plan : DkgTaskPlan} (hid : plan.id = id) :
      TaskStep id (.enqueue plans) none [] (some ⟨plan, .unprepared⟩)
  | expired {currentHeight : UInt64} {limit : Nat} {task : DkgExecutionTask}
      (h : task.plan.endHeight ≤ currentHeight) :
      TaskStep id (.actions currentHeight limit) (some task) [.expire id] none
  | started {currentHeight : UInt64} {limit : Nat} {task : DkgExecutionTask}
      {mayPrepare : Bool} {action : DkgExecutorAction} {state : DkgExecutionState}
      (h : ¬ task.plan.endHeight ≤ currentHeight)
      (hstart : task.start id currentHeight mayPrepare = some (action, state)) :
      TaskStep id (.actions currentHeight limit) (some task) [action] (some ⟨task.plan, state⟩)
  | prepared {result : Except String Bytes} {plan : DkgTaskPlan} {state : DkgExecutionState}
      (h : state = .unprepared ∨ ∃ calldata, state = .ready calldata) :
      TaskStep id (.recordPrepared id result) (some ⟨plan, .preparing⟩) [] (some ⟨plan, state⟩)
  | submitted {currentHeight : UInt64} {result : Except String B256} {plan : DkgTaskPlan}
      {calldata : Bytes} {state : DkgExecutionState}
      (h : state = .ready calldata ∨
        ∃ transactionHash, state = .submitted calldata transactionHash currentHeight) :
      TaskStep id (.recordSubmitted id currentHeight result) (some ⟨plan, .submitting calldata⟩) []
        (some ⟨plan, state⟩)
  | retried {result : Except String DkgReceiptState} {plan : DkgTaskPlan} {calldata : Bytes}
      {transactionHash : B256} {sendHeight : UInt64} :
      TaskStep id (.recordReceipt id result)
        (some ⟨plan, .checking calldata transactionHash sendHeight⟩) []
        (some ⟨plan, .ready calldata⟩)
  | confirmed {plan : DkgTaskPlan} {calldata : Bytes} {transactionHash : B256}
      {sendHeight : UInt64} :
      TaskStep id (.recordReceipt id (.ok .succeeded))
        (some ⟨plan, .checking calldata transactionHash sendHeight⟩) [] none
  | retired {task : DkgExecutionTask} : TaskStep id (.retire id) (some task) [] none

variable {operation : Operation} {action : DkgExecutorAction}
  {currentHeight : UInt64} {s : DkgExecutionState} {mayPrepare : Bool}

namespace DkgTaskExecutor

/-- The order holds every queued task once, and nothing else. -/
structure WellFormed (executor : DkgTaskExecutor) : Prop where
  nodup : executor.order.Nodup
  mem_iff : ∀ id, id ∈ executor.order ↔ executor.has id = true

variable {executor : DkgTaskExecutor} {id : DkgTaskId}

theorem has_iff : executor.has id = true ↔ ∃ task, executor.tasks.lookup id = some task :=
  FiniteMap.has_iff

theorem wellFormed_empty : empty.WellFormed :=
  ⟨nodup_nil, fun _ => ⟨fun h => absurd h not_mem_nil, fun h => nomatch h⟩⟩

variable {task : DkgExecutionTask}

theorem wellFormed_setState (h : executor.WellFormed) (hget : executor.tasks.lookup id = some task)
    (s : DkgExecutionState) :
    (executor.setState id task s).WellFormed := by
  refine ⟨h.nodup, fun o => ?_⟩
  rw [has_iff, setState, FiniteMap.lookup_insert_if, show (DkgTaskExecutor.mk _ _).order
    = executor.order from rfl, h.mem_iff, has_iff]
  by_cases ho : o = id
  · subst ho
    simp [hget]
  · simp [ho]

theorem wellFormed_remove (h : executor.WellFormed) (id : DkgTaskId) :
    (executor.remove id).WellFormed := by
  refine ⟨h.nodup.filter _, fun o => ?_⟩
  rw [has_iff]
  simp only [remove, FiniteMap.lookup_erase_if, mem_filter, h.mem_iff, has_iff]
  by_cases ho : o = id <;> simp [ho]

theorem lookup_setState (executor : DkgTaskExecutor) (id other : DkgTaskId)
    (task : DkgExecutionTask) (s : DkgExecutionState) :
    (executor.setState id task s).tasks.lookup other
      = if other = id then some ⟨task.plan, s⟩ else executor.tasks.lookup other :=
  FiniteMap.lookup_insert_if _ _ _ _

theorem lookup_remove (executor : DkgTaskExecutor) (id other : DkgTaskId) :
    (executor.remove id).tasks.lookup other
      = if other = id then none else executor.tasks.lookup other :=
  FiniteMap.lookup_erase_if _ _ _

/-! ## Starting work -/

theorem id_of_start (h : task.start id currentHeight mayPrepare = some (action, s)) :
    action.id = id := by
  obtain ⟨plan, cur⟩ := task
  cases cur <;> simp only [DkgExecutionTask.start, reduceCtorEq, Option.ite_none_right_eq_some,
    Option.some.injEq, Prod.mk.injEq] at h
  case unprepared => exact h.2.1 ▸ rfl
  case ready => exact h.1 ▸ rfl
  case submitted => exact h.2.1 ▸ rfl
  case checking => exact h.1 ▸ rfl

def actionsFor (id : DkgTaskId) (actions : List DkgExecutorAction) : List DkgExecutorAction :=
  actions.filter fun action => action.id = id

theorem mem_actionsFor {actions : List DkgExecutorAction} :
    action ∈ actionsFor id actions ↔ action ∈ actions ∧ action.id = id := by
  simp [actionsFor]

/-- What the loop over the order does with one task. -/
def Started (currentHeight : UInt64) (id : DkgTaskId) (task : DkgExecutionTask)
    (actions : List DkgExecutorAction) (next : Option DkgExecutionTask) : Prop :=
  (actions = [] ∧ next = some task) ∨
    ∃ mayPrepare action state, task.start id currentHeight mayPrepare = some (action, state) ∧
      actions = [action] ∧ next = some ⟨task.plan, state⟩

/-- The loop finds every task of the order, and treats each of them once. -/
theorem startTasks_spec (currentHeight : UInt64) (maxPreparations : Nat) {order : List DkgTaskId}
    (hnd : order.Nodup) (preparations : Nat) {tasks : FiniteMap DkgTaskId DkgExecutionTask}
    (hqueued : ∀ id ∈ order, ∃ task, tasks.lookup id = some task) :
    ∃ actions next, startTasks currentHeight maxPreparations order preparations tasks
        = some (actions, next) ∧
      (∀ id, id ∉ order → actionsFor id actions = [] ∧ next.lookup id = tasks.lookup id) ∧
      ∀ id ∈ order, ∀ task, tasks.lookup id = some task →
        Started currentHeight id task (actionsFor id actions) (next.lookup id) := by
  induction order generalizing preparations tasks with
  | nil => exact ⟨[], tasks, rfl, fun _ _ => ⟨rfl, rfl⟩, fun _ hmem => absurd hmem not_mem_nil⟩
  | cons first order ih =>
    obtain ⟨h1, hnd⟩ := nodup_cons.mp hnd
    obtain ⟨task, htask⟩ := hqueued first mem_cons_self
    rw [startTasks, htask]
    simp only [Option.bind_eq_bind, Option.bind_some]
    cases hstart : task.start first currentHeight (decide (preparations < maxPreparations)) with
    | none =>
      obtain ⟨actions, next, hloop, hothers, htasks⟩ := ih hnd preparations
        fun id hid => hqueued id (mem_cons_of_mem _ hid)
      refine ⟨actions, next, hloop, fun id hid => hothers id fun hmem =>
        hid (mem_cons_of_mem _ hmem), fun id hid current hcur => ?_⟩
      obtain rfl | hid := mem_cons.mp hid
      · cases htask.symm.trans hcur
        exact .inl ⟨(hothers id h1).1, (hothers id h1).2.trans htask⟩
      · exact htasks id hid current hcur
    | some r =>
      obtain ⟨action, s⟩ := r
      have hqueu : ∀ id ∈ order,
          ∃ current, (tasks.insert first ⟨task.plan, s⟩).lookup id = some current := by
        intro id hid
        have hne : id ≠ first := fun heq => h1 (heq ▸ hid)
        rw [FiniteMap.lookup_insert_if, if_neg hne]
        exact hqueued id (mem_cons_of_mem _ hid)
      obtain ⟨actions, next, hloop, hothers, htasks⟩ := ih hnd
        (if task.state = .unprepared then preparations + 1 else preparations) hqueu
      have hid : action.id = first := id_of_start hstart
      simp only [hloop, Option.bind_some]
      refine ⟨action :: actions, next, rfl, fun id hmem => ?_, fun id hmem current hcur => ?_⟩
      · have hne : id ≠ first := fun heq => hmem (heq ▸ mem_cons_self)
        obtain ⟨hno, hget⟩ := hothers id fun hin => hmem (mem_cons_of_mem _ hin)
        rw [FiniteMap.lookup_insert_if, if_neg hne] at hget
        refine ⟨?_, hget⟩
        rw [actionsFor, filter_cons_of_neg (by simp [hid, hne.symm])]
        exact hno
      · by_cases heq : id = first
        · subst heq
          cases htask.symm.trans hcur
          obtain ⟨hno, hget⟩ := hothers id h1
          refine .inr ⟨_, action, s, hstart, ?_, ?_⟩
          · rw [actionsFor, filter_cons_of_pos (by simp [hid])]
            exact congrArg _ hno
          · rw [hget, FiniteMap.lookup_insert_if, if_pos rfl]
        · have hin : id ∈ order := (mem_cons.mp hmem).resolve_left heq
          rw [actionsFor, filter_cons_of_neg (by simp [hid, Ne.symm heq])]
          refine htasks id hin current ?_
          rw [FiniteMap.lookup_insert_if, if_neg heq]
          exact hcur

/-! ## Expiry -/

theorem lookup_foldl_erase (ids : List DkgTaskId) (tasks : FiniteMap DkgTaskId DkgExecutionTask)
    (id : DkgTaskId) :
    (ids.foldl (fun tasks id => tasks.erase id) tasks).lookup id
      = if id ∈ ids then none else tasks.lookup id := by
  induction ids generalizing tasks with
  | nil => simp
  | cons first ids ih =>
    rw [foldl_cons, ih, FiniteMap.lookup_erase_if]
    by_cases h1 : id = first <;> by_cases hmem : id ∈ ids <;> simp [h1, hmem]

theorem mem_expired :
    id ∈ executor.expired currentHeight ↔ id ∈ executor.order ∧
      ∃ task, executor.tasks.lookup id = some task ∧ task.plan.endHeight ≤ currentHeight := by
  rw [expired, mem_filter]
  cases executor.tasks.lookup id with
  | none => simp
  | some task => simp

theorem lookup_removeExpired (executor : DkgTaskExecutor) (currentHeight : UInt64)
    (id : DkgTaskId) :
    (executor.removeExpired currentHeight).tasks.lookup id
      = if id ∈ executor.expired currentHeight then none else executor.tasks.lookup id :=
  lookup_foldl_erase _ _ _

theorem wellFormed_removeExpired (h : executor.WellFormed) (currentHeight : UInt64) :
    (executor.removeExpired currentHeight).WellFormed := by
  refine ⟨h.nodup.filter _, fun id => ?_⟩
  have horder : id ∈ (executor.removeExpired currentHeight).order ↔
      id ∈ executor.order ∧ (executor.removeExpired currentHeight).has id = true :=
    mem_filter
  rw [horder, and_iff_right_iff_imp, has_iff, lookup_removeExpired]
  rintro ⟨task, htask⟩
  split at htask
  · cases htask
  · exact (h.mem_iff id).mpr (has_iff.mpr ⟨task, htask⟩)

theorem actionsFor_expired (h : executor.WellFormed) (currentHeight : UInt64) (id : DkgTaskId) :
    actionsFor id ((executor.expired currentHeight).map .expire)
      = if id ∈ executor.expired currentHeight then [.expire id] else [] := by
  have hnd : (executor.expired currentHeight).Nodup := h.nodup.filter _
  rw [actionsFor, filter_map]
  have hfilter : (executor.expired currentHeight).filter
      ((fun action : DkgExecutorAction => decide (action.id = id)) ∘ .expire)
      = (executor.expired currentHeight).filter (· = id) := rfl
  rw [hfilter, filter_eq, hnd.count]
  split <;> rfl

/-! ## The queue seen from one task -/

theorem taskStep_setState {o : DkgTaskId}
    (h : o = id → TaskStep id operation (executor.tasks.lookup id) []
      (some ⟨task.plan, s⟩)) :
    TaskStep o operation (executor.tasks.lookup o) []
      ((executor.setState id task s).tasks.lookup o) := by
  rw [lookup_setState]
  by_cases ho : o = id
  · subst ho
    rw [if_pos rfl]
    exact h rfl
  · rw [if_neg ho]
    exact .unchanged _ _

theorem taskStep_remove {o : DkgTaskId}
    (h : o = id → TaskStep id operation (executor.tasks.lookup id) [] none) :
    TaskStep o operation (executor.tasks.lookup o) []
      ((executor.remove id).tasks.lookup o) := by
  rw [lookup_remove]
  by_cases ho : o = id
  · subst ho
    rw [if_pos rfl]
    exact h rfl
  · rw [if_neg ho]
    exact .unchanged _ _

theorem taskInState_eq_ok {expected : DkgExecutionState → Bool} :
    executor.taskInState id expected = .ok task ↔
      executor.tasks.lookup id = some task ∧ expected task.state = true := by
  constructor
  · intro h
    obtain ⟨found, hf, h⟩ := ofOption_bind h
    obtain ⟨hexpected, h⟩ := require_bind h
    cases h
    exact ⟨hf, hexpected⟩
  · intro h
    exact bind_eq_ok.mpr ⟨task, ofOption_eq_ok.mpr h.1,
      bind_eq_ok.mpr ⟨(), require_of _ h.2, rfl⟩⟩

/-- What a recorded preparation does: nothing, or one task leaves preparation. -/
theorem recordPrepared_cases (executor : DkgTaskExecutor) (id : DkgTaskId)
    (r : Except String Bytes) :
    (executor.recordPrepared id r).2 = executor ∨
      ∃ task state, executor.tasks.lookup id = some task ∧ task.state = .preparing ∧
        (state = .unprepared ∨ ∃ calldata, state = .ready calldata) ∧
        (executor.recordPrepared id r).2 = executor.setState id task state := by
  unfold recordPrepared
  split
  · exact .inl rfl
  · next task htask =>
      obtain ⟨hget, hs⟩ := taskInState_eq_ok.mp htask
      have hprep : task.state = .preparing := of_decide_eq_true hs
      right
      split
      · next calldata =>
          split
          · exact ⟨task, _, hget, hprep, .inr ⟨calldata, rfl⟩, rfl⟩
          · exact ⟨task, _, hget, hprep, .inl rfl, rfl⟩
      · exact ⟨task, _, hget, hprep, .inl rfl, rfl⟩

/-- What a recorded submission does: nothing, or one task leaves submission with its payload. -/
theorem recordSubmitted_cases (executor : DkgTaskExecutor) (id : DkgTaskId) (currentHeight : UInt64)
    (r : Except String B256) :
    (executor.recordSubmitted id currentHeight r).2 = executor ∨
      ∃ task calldata state, executor.tasks.lookup id = some task ∧
        task.state = .submitting calldata ∧
        (state = .ready calldata ∨
          ∃ transactionHash, state = .submitted calldata transactionHash currentHeight) ∧
        (executor.recordSubmitted id currentHeight r).2 = executor.setState id task state := by
  unfold recordSubmitted
  split
  · exact .inl rfl
  · next task htask =>
      split
      · next calldata hs =>
          right
          split
          · next transactionHash =>
              exact ⟨task, calldata, _, htask, hs, .inr ⟨transactionHash, rfl⟩, rfl⟩
          · exact ⟨task, calldata, _, htask, hs, .inl rfl, rfl⟩
      · exact .inl rfl

/-- What a recorded receipt does: nothing, or one task is confirmed or returns to submission. -/
theorem recordReceipt_cases (executor : DkgTaskExecutor) (id : DkgTaskId)
    (r : Except String DkgReceiptState) :
    (executor.recordReceipt id r).2 = executor ∨
      ∃ task calldata transactionHash sendHeight, executor.tasks.lookup id = some task ∧
        task.state = .checking calldata transactionHash sendHeight ∧
        ((r = .ok .succeeded ∧
            (executor.recordReceipt id r).2 = executor.remove id) ∨
          (executor.recordReceipt id r).2 = executor.setState id task (.ready calldata)) := by
  unfold recordReceipt
  split
  · exact .inl rfl
  · next task htask =>
      split
      · next calldata transactionHash sendHeight hs =>
          right
          refine ⟨task, calldata, transactionHash, sendHeight, htask, hs, ?_⟩
          split
          · exact .inl ⟨rfl, rfl⟩
          · exact .inr rfl
          · exact .inr rfl
          · exact .inr rfl
      · exact .inl rfl

/-- Queueing one plan adds its task, or finds it. -/
theorem lookup_enqueueOne (s : Nat × DkgTaskExecutor) (plan : DkgTaskPlan) (id : DkgTaskId) :
    (enqueueOne s plan).2.tasks.lookup id = s.2.tasks.lookup id ∨
      (plan.id = id ∧ s.2.tasks.lookup id = none ∧
        (enqueueOne s plan).2.tasks.lookup id = some ⟨plan, .unprepared⟩) := by
  unfold enqueueOne
  split
  · exact .inl rfl
  · next hno =>
      simp only [FiniteMap.lookup_insert_if]
      by_cases hid : id = plan.id
      · subst hid
        exact .inr ⟨rfl, hno, if_pos rfl⟩
      · exact .inl (if_neg hid)

/-- Queueing plans adds new tasks only. -/
theorem lookup_enqueue (executor : DkgTaskExecutor) (plans : List DkgTaskPlan) (id : DkgTaskId) :
    (executor.enqueue plans).2.tasks.lookup id = executor.tasks.lookup id ∨
      (executor.tasks.lookup id = none ∧ ∃ plan ∈ plans, plan.id = id ∧
        (executor.enqueue plans).2.tasks.lookup id = some ⟨plan, .unprepared⟩) := by
  unfold enqueue
  generalize 0 = count
  induction plans generalizing count executor with
  | nil => exact .inl rfl
  | cons plan plans ih =>
    rw [foldl_cons]
    have h1 := lookup_enqueueOne (count, executor) plan id
    have hr := ih (enqueueOne (count, executor) plan).2 (enqueueOne (count, executor) plan).1
    rw [Prod.mk.eta] at hr
    obtain hr | ⟨hno, later, hmem, hlater⟩ := hr
    · obtain h1 | ⟨hid, hno, hadded⟩ := h1
      · exact .inl (hr.trans h1)
      · exact .inr ⟨hno, plan, mem_cons_self, hid, hr.trans hadded⟩
    · obtain h1 | ⟨-, -, hadded⟩ := h1
      · exact .inr ⟨h1.symm.trans hno, later, mem_cons_of_mem _ hmem, hlater⟩
      · exact nomatch hadded.symm.trans hno

theorem wellFormed_enqueueOne {s : Nat × DkgTaskExecutor} (h : s.2.WellFormed)
    (plan : DkgTaskPlan) : (enqueueOne s plan).2.WellFormed := by
  unfold enqueueOne
  split
  · exact h
  · next hno =>
      have hfresh : plan.id ∉ s.2.order := by
        rw [h.mem_iff, has_iff, hno]
        rintro ⟨_, hsome⟩
        cases hsome
      refine ⟨?_, fun id => ?_⟩
      · exact nodup_append.mpr ⟨h.nodup, nodup_singleton _, fun a h1 b h2 =>
          fun heq => hfresh (mem_singleton.mp h2 ▸ heq ▸ h1)⟩
      · rw [has_iff]
        simp only [FiniteMap.lookup_insert_if, mem_append, mem_singleton, h.mem_iff, has_iff]
        by_cases hid : id = plan.id <;> simp [hid]

theorem wellFormed_enqueue (h : executor.WellFormed) (plans : List DkgTaskPlan) :
    (executor.enqueue plans).2.WellFormed := by
  unfold enqueue
  generalize 0 = count
  induction plans generalizing count executor with
  | nil => exact h
  | cons plan plans ih =>
    rw [foldl_cons]
    exact ih (wellFormed_enqueueOne h plan) _

/-- The call that starts work does not panic, and treats every task once. -/
theorem actions_spec (h : executor.WellFormed) (currentHeight : UInt64) (maxPreparations : Nat) :
    ∃ actions next, executor.actionsWithPreparationLimit currentHeight maxPreparations
        = some (actions, next) ∧ next.WellFormed ∧
      ∀ id, TaskStep id (.actions currentHeight maxPreparations) (executor.tasks.lookup id)
        (actionsFor id actions) (next.tasks.lookup id) := by
  have hcur := wellFormed_removeExpired h currentHeight
  obtain ⟨actions, tasks, hloop, hothers, htasks⟩ := startTasks_spec currentHeight maxPreparations
    hcur.nodup 0 fun id hid => has_iff.mp ((hcur.mem_iff id).mp hid)
  have hsteps : ∀ id, TaskStep id (.actions currentHeight maxPreparations)
      (executor.tasks.lookup id)
      (actionsFor id ((executor.expired currentHeight).map .expire ++ actions))
      (tasks.lookup id) := by
    intro id
    have hacti : actionsFor id ((executor.expired currentHeight).map .expire ++ actions)
        = (if id ∈ executor.expired currentHeight then [.expire id] else [])
          ++ actionsFor id actions := by
      rw [← actionsFor_expired h, actionsFor, filter_append]
      rfl
    have hget := lookup_removeExpired executor currentHeight id
    rw [hacti]
    by_cases hexpired : id ∈ executor.expired currentHeight
    · obtain ⟨-, task, htask, hend⟩ := mem_expired.mp hexpired
      rw [if_pos hexpired] at hget ⊢
      have hgone : id ∉ (executor.removeExpired currentHeight).order := by
        rw [hcur.mem_iff, has_iff, hget]
        rintro ⟨_, hsome⟩
        cases hsome
      rw [(hothers id hgone).1, (hothers id hgone).2, hget, htask]
      exact .expired hend
    · rw [if_neg hexpired] at hget ⊢
      rw [nil_append]
      by_cases hmem : id ∈ (executor.removeExpired currentHeight).order
      · obtain ⟨task, htask⟩ := has_iff.mp ((hcur.mem_iff id).mp hmem)
        have hqueued : executor.tasks.lookup id = some task := hget.symm.trans htask
        have hend : ¬ task.plan.endHeight ≤ currentHeight := fun hend =>
          hexpired (mem_expired.mpr ⟨(h.mem_iff id).mpr (has_iff.mpr ⟨task, hqueued⟩),
            task, hqueued, hend⟩)
        rw [hqueued]
        obtain ⟨hno, hn⟩ | ⟨_, action, s, hstart, hacti, hn⟩ :=
          htasks id hmem task htask
        · rw [hno, hn]
          exact .unchanged _ _
        · rw [hacti, hn]
          exact .started hend hstart
      · rw [(hothers id hmem).1, (hothers id hmem).2, hget]
        exact .unchanged _ _
  refine ⟨(executor.expired currentHeight).map .expire ++ actions,
    ⟨tasks, (executor.removeExpired currentHeight).order⟩, ?_, ?_, hsteps⟩
  · rw [actionsWithPreparationLimit]
    simp only [hloop, Option.bind_eq_bind, Option.bind_some]
  · refine ⟨hcur.nodup, fun id => ?_⟩
    rw [has_iff]
    by_cases hmem : id ∈ (executor.removeExpired currentHeight).order
    · obtain ⟨task, htask⟩ := has_iff.mp ((hcur.mem_iff id).mp hmem)
      refine ⟨fun _ => ?_, fun _ => hmem⟩
      obtain ⟨-, hn⟩ | ⟨_, _, _, -, -, hn⟩ := htasks id hmem task htask
      · exact ⟨_, hn⟩
      · exact ⟨_, hn⟩
    · refine ⟨fun hin => absurd hin hmem, fun hsome => ?_⟩
      rw [(hothers id hmem).2] at hsome
      exact (hcur.mem_iff id).mpr (has_iff.mpr hsome)

/-- No call panics, every call keeps the order and the map together, and every task takes a step
of its own machine. -/
theorem apply_taskStep (h : executor.WellFormed) (operation : Operation) :
    ∃ actions next, executor.apply operation = some (actions, next) ∧ next.WellFormed ∧
      ∀ id, TaskStep id operation (executor.tasks.lookup id) (actionsFor id actions)
        (next.tasks.lookup id) := by
  cases operation with
  | enqueue plans =>
    refine ⟨[], _, rfl, wellFormed_enqueue h plans, fun id => ?_⟩
    obtain hsame | ⟨hno, plan, -, hid, hadded⟩ := lookup_enqueue executor plans id
    · rw [hsame]
      exact .unchanged _ _
    · rw [hno, hadded]
      exact .enqueued hid
  | actions currentHeight maxPreparations => exact actions_spec h currentHeight maxPreparations
  | recordPrepared id r =>
    refine ⟨[], _, rfl, ?_⟩
    obtain hsame | ⟨task, s, htask, hprep, hs, hn⟩ :=
      recordPrepared_cases executor id r
    · rw [hsame]
      exact ⟨h, fun _ => .unchanged _ _⟩
    · rw [hn]
      refine ⟨wellFormed_setState h htask s, fun o => taskStep_setState fun _ => ?_⟩
      obtain ⟨plan, _⟩ := task
      cases hprep
      rw [htask]
      exact .prepared hs
  | recordSubmitted id currentHeight r =>
    refine ⟨[], _, rfl, ?_⟩
    obtain hsame | ⟨task, calldata, s, htask, hsubm, hs, hn⟩ :=
      recordSubmitted_cases executor id currentHeight r
    · rw [hsame]
      exact ⟨h, fun _ => .unchanged _ _⟩
    · rw [hn]
      refine ⟨wellFormed_setState h htask s, fun o => taskStep_setState fun _ => ?_⟩
      obtain ⟨plan, _⟩ := task
      cases hsubm
      rw [htask]
      exact .submitted hs
  | recordReceipt id r =>
    refine ⟨[], _, rfl, ?_⟩
    obtain hsame | ⟨task, calldata, transactionHash, sendHeight, htask, hchec, hn⟩ :=
      recordReceipt_cases executor id r
    · rw [hsame]
      exact ⟨h, fun _ => .unchanged _ _⟩
    · obtain ⟨plan, _⟩ := task
      cases hchec
      obtain ⟨rfl, hn⟩ | hn := hn
      · rw [hn]
        refine ⟨wellFormed_remove h id, fun o => taskStep_remove fun _ => ?_⟩
        rw [htask]
        exact .confirmed
      · rw [hn]
        refine ⟨wellFormed_setState h htask _, fun o => taskStep_setState fun _ => ?_⟩
        rw [htask]
        exact .retried
  | retire id =>
    refine ⟨[], _, rfl, ?_⟩
    unfold retire
    split
    · next hhas =>
        obtain ⟨task, htask⟩ := has_iff.mp hhas
        refine ⟨wellFormed_remove h id, fun o => taskStep_remove fun _ => ?_⟩
        rw [htask]
        exact .retired
    · exact ⟨h, fun _ => .unchanged _ _⟩

end DkgTaskExecutor

/-! ## One task in flight -/

/-- The payload of a task, once it is prepared. -/
def DkgExecutionState.calldata : DkgExecutionState → Option Bytes
  | .unprepared => none
  | .preparing => none
  | .ready calldata => some calldata
  | .submitting calldata => some calldata
  | .submitted calldata _ _ => some calldata
  | .checking calldata _ _ => some calldata

/-- The state of a task while an action is carried out, for actions that start work. -/
def DkgExecutorAction.inFlight : DkgExecutorAction → Option DkgExecutionState
  | .prepare _ _ => some .preparing
  | .submit _ _ calldata => some (.submitting calldata)
  | .checkReceipt _ _ => none
  | .expire _ => none

/-- Whether a call records the result of an action. -/
def DkgTaskExecutor.Operation.completes : Operation → DkgExecutorAction → Bool
  | .recordPrepared id _, .prepare other _ => id = other
  | .recordSubmitted id _ _, .submit other _ _ => id = other
  | _, _ => false

variable {calldata : Bytes} {destination : Address}

namespace TaskStep

variable {id : DkgTaskId} {operation : Operation} {task next : DkgExecutionTask}
  {actions : List DkgExecutorAction} {action : DkgExecutorAction}

/-- What a task starts, by its state. -/
theorem start_cases (h : task.start id currentHeight mayPrepare = some (action, s)) :
    (task.state = .unprepared ∧ action = .prepare id task.plan ∧ s = .preparing) ∨
    (∃ calldata, task.state = .ready calldata ∧
      action = .submit id keyManagementProxyAddress calldata ∧ s = .submitting calldata) ∨
    (∃ calldata transactionHash sendHeight,
      (task.state = .submitted calldata transactionHash sendHeight ∨
        task.state = .checking calldata transactionHash sendHeight) ∧
      action = .checkReceipt id transactionHash ∧
      s = .checking calldata transactionHash sendHeight) := by
  obtain ⟨plan, cur⟩ := task
  cases cur <;> simp only [DkgExecutionTask.start, reduceCtorEq, Option.ite_none_right_eq_some,
    Option.some.injEq, Prod.mk.injEq] at h
  case unprepared => exact .inl ⟨rfl, h.2.1.symm, h.2.2.symm⟩
  case ready calldata => exact .inr (.inl ⟨calldata, rfl, h.1.symm, h.2.symm⟩)
  case submitted calldata transactionHash sendHeight =>
    exact .inr (.inr ⟨calldata, transactionHash, sendHeight, .inl rfl, h.2.1.symm, h.2.2.symm⟩)
  case checking calldata transactionHash sendHeight =>
    exact .inr (.inr ⟨calldata, transactionHash, sendHeight, .inr rfl, h.1.symm, h.2.symm⟩)

/-- A prepared task keeps its payload and sends no other one. -/
theorem calldata_eq (h : TaskStep id operation (some task) actions (some next))
    (hcall : task.state.calldata = some calldata) :
    next.state.calldata = some calldata ∧
      ∀ destination p, .submit id destination p ∈ actions → p = calldata := by
  cases h with
  | unchanged => exact ⟨hcall, fun _ _ hmem => absurd hmem not_mem_nil⟩
  | started _ hstart =>
    obtain ⟨hs, -, -⟩ | ⟨p, hs, rfl, rfl⟩ | ⟨p, _, _, hs, rfl, rfl⟩ :=
      start_cases hstart
    · simp [hs, DkgExecutionState.calldata] at hcall
    · rw [hs] at hcall
      cases hcall
      refine ⟨rfl, fun _ _ hmem => ?_⟩
      cases mem_singleton.mp hmem
      rfl
    · refine ⟨?_, fun _ _ hmem => nomatch mem_singleton.mp hmem⟩
      obtain hs | hs := hs
      · rw [hs] at hcall
        exact hcall
      · rw [hs] at hcall
        exact hcall
  | prepared => cases hcall
  | submitted hs =>
    refine ⟨?_, fun _ _ hmem => absurd hmem not_mem_nil⟩
    obtain rfl | ⟨_, rfl⟩ := hs
    · exact hcall
    · exact hcall
  | retried => exact ⟨hcall, fun _ _ hmem => absurd hmem not_mem_nil⟩

theorem calldata_of_submit (h : TaskStep id operation (some task) actions (some next))
    (hmem : .submit id destination calldata ∈ actions) :
    next.state.calldata = some calldata := by
  cases h with
  | started _ hstart =>
    obtain ⟨-, rfl, -⟩ | ⟨p, -, rfl, rfl⟩ | ⟨_, _, _, -, rfl, -⟩ := start_cases hstart
    · cases mem_singleton.mp hmem
    · cases mem_singleton.mp hmem
      rfl
    · cases mem_singleton.mp hmem
  | unchanged => exact absurd hmem not_mem_nil
  | prepared => exact absurd hmem not_mem_nil
  | submitted => exact absurd hmem not_mem_nil
  | retried => exact absurd hmem not_mem_nil

/-- A task in flight stays so, and starts nothing, until its result is recorded. -/
theorem inFlight_eq (h : TaskStep id operation (some task) actions (some next))
    (hid : action.id = id) (hflight : action.inFlight = some task.state)
    (hpend : operation.completes action = false) :
    next.state = task.state ∧ ∀ o ∈ actions, o.starts = false := by
  cases action with
  | checkReceipt => cases hflight
  | expire => cases hflight
  | prepare =>
    cases hid
    have hs : task.state = .preparing := (Option.some.inj hflight).symm
    cases h with
    | unchanged => exact ⟨rfl, fun _ hmem => absurd hmem not_mem_nil⟩
    | started _ hstart =>
      rw [DkgExecutionTask.start, hs] at hstart
      cases hstart
    | prepared => simp [Operation.completes, DkgExecutorAction.id] at hpend
    | submitted => cases hs
    | retried => cases hs
  | submit o destination calldata =>
    cases hid
    have hs : task.state = .submitting calldata := (Option.some.inj hflight).symm
    cases h with
    | unchanged => exact ⟨rfl, fun _ hmem => absurd hmem not_mem_nil⟩
    | started _ hstart =>
      rw [DkgExecutionTask.start, hs] at hstart
      cases hstart
    | prepared => cases hs
    | submitted => simp [Operation.completes, DkgExecutorAction.id] at hpend
    | retried => cases hs

/-- Work starts only before the end height, once, and puts its task in flight. -/
theorem starts_spec {before after : Option DkgExecutionTask}
    (h : TaskStep id operation before actions after) (hmem : action ∈ actions)
    (hstarts : action.starts = true) :
    ∃ started s currentHeight limit, operation = .actions currentHeight limit ∧
      before = some started ∧ currentHeight < started.plan.endHeight ∧
      after = some ⟨started.plan, s⟩ ∧ action.inFlight = some s ∧ actions = [action] := by
  cases h with
  | started hend hstart =>
    cases mem_singleton.mp hmem
    refine ⟨_, _, _, _, rfl, rfl, UInt64.not_le.mp hend, rfl, ?_, rfl⟩
    obtain ⟨-, rfl, rfl⟩ | ⟨_, -, rfl, rfl⟩ | ⟨_, _, _, -, rfl, -⟩ := start_cases hstart
    · rfl
    · rfl
    · cases hstarts
  | expired =>
    cases mem_singleton.mp hmem
    cases hstarts
  | unchanged => exact absurd hmem not_mem_nil
  | enqueued => exact absurd hmem not_mem_nil
  | prepared => exact absurd hmem not_mem_nil
  | submitted => exact absurd hmem not_mem_nil
  | retried => exact absurd hmem not_mem_nil
  | confirmed => exact absurd hmem not_mem_nil
  | retired => exact absurd hmem not_mem_nil

end TaskStep

/-! ## All histories -/

namespace DkgTaskExecutor

variable {executor : DkgTaskExecutor}

theorem wellFormed_run (h : executor.WellFormed) (operations : List Operation) :
    ∃ actions final, executor.run operations = some (actions, final) ∧ final.WellFormed := by
  induction operations generalizing executor with
  | nil => exact ⟨[], executor, rfl, h⟩
  | cons operation operations ih =>
    obtain ⟨actions, next, happly, hn, -⟩ := apply_taskStep h operation
    obtain ⟨later, final, hrun, hfinal⟩ := ih hn
    refine ⟨actions ++ later, final, ?_, hfinal⟩
    simp only [run, happly, hrun, Option.bind_eq_bind, Option.bind_some]

variable {operations : List Operation} {actions : List DkgExecutorAction} {final : DkgTaskExecutor}

theorem run_cons_spec (h : executor.WellFormed)
    (hrun : executor.run (operation :: operations) = some (actions, final)) :
    ∃ a next later, executor.apply operation = some (a, next) ∧ next.WellFormed ∧
      next.run operations = some (later, final) ∧ actions = a ++ later ∧
      ∀ id, TaskStep id operation (executor.tasks.lookup id) (actionsFor id a)
        (next.tasks.lookup id) := by
  obtain ⟨a, next, happly, hn, hsteps⟩ := apply_taskStep h operation
  obtain ⟨later, last, hlater, -⟩ := wellFormed_run hn operations
  simp only [run, happly, hlater, Option.bind_eq_bind, Option.bind_some, Option.some.injEq,
    Prod.mk.injEq] at hrun
  exact ⟨a, next, later, happly, hn, hrun.2 ▸ hlater, hrun.1.symm, hsteps⟩

variable {id : DkgTaskId}

theorem Kept.lookup (h : Kept id executor operations) :
    ∃ task, executor.tasks.lookup id = some task := by
  cases operations with
  | nil => exact has_iff.mp h
  | cons => exact has_iff.mp h.1

/-- A prepared task that stays queued sends its payload only. -/
theorem submits_eq_calldata (h : executor.WellFormed)
    (hrun : executor.run operations = some (actions, final)) (hkept : Kept id executor operations)
    {task : DkgExecutionTask} (htask : executor.tasks.lookup id = some task)
    (hcall : task.state.calldata = some calldata) {p : Bytes}
    (hmem : .submit id destination p ∈ actions) : p = calldata := by
  induction operations generalizing executor actions task with
  | nil =>
    cases hrun
    exact absurd hmem not_mem_nil
  | cons operation operations ih =>
    obtain ⟨a, next, later, happly, hn, hlater, rfl, hsteps⟩ := run_cons_spec h hrun
    have hr := hkept.2 a next happly
    obtain ⟨following, hfoll⟩ := hr.lookup
    have hstep := hsteps id
    rw [htask, hfoll] at hstep
    obtain ⟨hkeep, hsubmit⟩ := hstep.calldata_eq hcall
    obtain hmem | hmem := mem_append.mp hmem
    · exact hsubmit _ _ (mem_actionsFor.mpr ⟨hmem, rfl⟩)
    · exact ih hn hlater hr hfoll hkeep hmem

/-- A task that stays queued sends one payload. -/
theorem submits_eq (h : executor.WellFormed)
    (hrun : executor.run operations = some (actions, final)) (hkept : Kept id executor operations)
    {a b : Address} {p other : Bytes} (hp : .submit id a p ∈ actions)
    (ho : .submit id b other ∈ actions) : p = other := by
  induction operations generalizing executor actions with
  | nil =>
    cases hrun
    exact absurd hp not_mem_nil
  | cons operation operations ih =>
    obtain ⟨now, next, later, happly, hn, hlater, rfl, hsteps⟩ := run_cons_spec h hrun
    have hr := hkept.2 now next happly
    obtain ⟨task, htask⟩ := hkept.lookup
    obtain ⟨following, hfoll⟩ := hr.lookup
    have hstep := hsteps id
    rw [htask, hfoll] at hstep
    -- After the a submission the p is fixed for all later ones.
    have hfixed : ∀ {destination : Address} {sent : Bytes},
        .submit id destination sent ∈ now → ∀ {target : Address} {again : Bytes},
        .submit id target again ∈ now ++ later → again = sent := by
      intro destination sent hsent target again hagain
      have hcall := hstep.calldata_of_submit (mem_actionsFor.mpr ⟨hsent, rfl⟩)
      obtain hagain | hagain := mem_append.mp hagain
      · have hsame := hstep.calldata_of_submit (mem_actionsFor.mpr ⟨hagain, rfl⟩)
        rw [hcall] at hsame
        exact (Option.some.inj hsame).symm
      · exact submits_eq_calldata hn hlater hr hfoll hcall hagain
    obtain hpayload' | hpayload' := mem_append.mp hp
    · exact (hfixed hpayload' ho).symm
    · obtain hother' | hother' := mem_append.mp ho
      · exact hfixed hother' hp
      · exact ih hn hlater hr hpayload' hother'

/-- A task in flight that stays queued starts nothing while its result is not recorded. -/
theorem starts_eq_false (h : executor.WellFormed)
    (hrun : executor.run operations = some (actions, final))
    (hkept : Kept action.id executor operations)
    (hpend : ∀ operation ∈ operations, operation.completes action = false) {task : DkgExecutionTask}
    (htask : executor.tasks.lookup action.id = some task)
    (hflight : action.inFlight = some task.state) :
    ∀ o ∈ actions, o.id = action.id → o.starts = false := by
  induction operations generalizing executor actions task with
  | nil =>
    cases hrun
    exact fun o hmem => absurd hmem not_mem_nil
  | cons operation operations ih =>
    obtain ⟨a, next, later, happly, hn, hlater, rfl, hsteps⟩ := run_cons_spec h hrun
    have hr := hkept.2 a next happly
    obtain ⟨following, hfoll⟩ := hr.lookup
    have hstep := hsteps action.id
    rw [htask, hfoll] at hstep
    obtain ⟨hs, hquiet⟩ :=
      hstep.inFlight_eq rfl hflight (hpend operation mem_cons_self)
    intro o hmem hid
    obtain hmem | hmem := mem_append.mp hmem
    · exact hquiet o (mem_actionsFor.mpr ⟨hmem, hid⟩)
    · exact ih hn hlater hr (fun next hn => hpend next (mem_cons_of_mem _ hn))
        hfoll (hs.symm ▸ hflight) o hmem hid

/-- Every history of calls runs without a panic. In the queue that it leads to, the order holds
every queued task once. Work is started before the end height of its task only. As long as a task
stays queued, all its submissions carry one payload. A call starts a task at most once, and the
task is not started again, as long as it stays queued, before the result is recorded. -/
theorem executor_runs (history : List Operation) :
    ∃ log executor, empty.run history = some (log, executor) ∧
      (executor.order.Nodup ∧ ∀ id, id ∈ executor.order ↔ executor.has id = true) ∧
      (∀ currentHeight maxPreparations actions next,
        executor.actionsWithPreparationLimit currentHeight maxPreparations
          = some (actions, next) →
        ∀ action ∈ actions, action.starts = true →
          ∃ task, executor.tasks.lookup action.id = some task ∧
            currentHeight < task.plan.endHeight) ∧
      (∀ id later actions final, executor.run later = some (actions, final) →
        Kept id executor later → ∀ first second payload other,
          .submit id first payload ∈ actions → .submit id second other ∈ actions →
            payload = other) ∧
      (∀ currentHeight maxPreparations actions next,
        executor.actionsWithPreparationLimit currentHeight maxPreparations
          = some (actions, next) →
        ∀ action ∈ actions, action.starts = true →
          actionsFor action.id actions = [action] ∧
          ∀ later laterActions final, next.run later = some (laterActions, final) →
            Kept action.id next later →
            (∀ operation ∈ later, operation.completes action = false) →
            ∀ other ∈ laterActions, other.id = action.id → other.starts = false) := by
  obtain ⟨log, executor, hrun, hexecutor⟩ := wellFormed_run wellFormed_empty history
  have hstarts : ∀ currentHeight maxPreparations actions next,
      executor.actionsWithPreparationLimit currentHeight maxPreparations = some (actions, next) →
      next.WellFormed ∧ ∀ action ∈ actions, action.starts = true → ∃ task state,
        executor.tasks.lookup action.id = some task ∧ currentHeight < task.plan.endHeight ∧
        next.tasks.lookup action.id = some ⟨task.plan, state⟩ ∧ action.inFlight = some state ∧
        actionsFor action.id actions = [action] := by
    intro currentHeight maxPreparations actions next hactions
    obtain ⟨found, following, hfound, hnext, hsteps⟩ :=
      actions_spec hexecutor currentHeight maxPreparations
    cases hactions.symm.trans hfound
    refine ⟨hnext, fun action hmem hstart => ?_⟩
    obtain ⟨task, state, _, _, hoperation, hbefore, hend, hafter, hflight, honce⟩ :=
      (hsteps action.id).starts_spec (mem_actionsFor.mpr ⟨hmem, rfl⟩) hstart
    cases hoperation
    exact ⟨task, state, hbefore, hend, hafter, hflight, honce⟩
  refine ⟨log, executor, hrun, ⟨hexecutor.nodup, hexecutor.mem_iff⟩, ?_, ?_, ?_⟩
  · intro currentHeight maxPreparations actions next hactions action hmem hstart
    obtain ⟨task, _, htask, hend, -⟩ :=
      (hstarts currentHeight maxPreparations actions next hactions).2 action hmem hstart
    exact ⟨task, htask, hend⟩
  · intro id later actions final hlater hkept first second payload other hpayload hother
    exact submits_eq hexecutor hlater hkept hpayload hother
  · intro currentHeight maxPreparations actions next hactions action hmem hstart
    obtain ⟨hnext, hall⟩ := hstarts currentHeight maxPreparations actions next hactions
    obtain ⟨task, state, -, -, hafter, hflight, honce⟩ := hall action hmem hstart
    exact ⟨honce, fun later laterActions final hlater hkept hpending =>
      starts_eq_false hnext hlater hkept hpending hafter hflight⟩

/-- The plan of a share that ends at height ten. -/
def examplePlan : DkgTaskPlan := ⟨1, .share, 2, 5, 10, []⟩

/-- A share that is prepared, sent, and sent again because its receipt is missing. -/
def exampleHistory : List Operation :=
  [.actions 5 1, .recordPrepared examplePlan.id (.ok [1, 2, 3, 4]), .actions 5 1,
    .recordSubmitted examplePlan.id 5 (.ok (.zero 32)), .actions 8 1,
    .recordReceipt examplePlan.id (.ok .missing), .actions 8 1]

def exampleQueue : DkgTaskExecutor := (empty.enqueue [examplePlan]).2

theorem Kept.of_apply {next : DkgTaskExecutor}
    (happly : executor.apply operation = some (actions, next)) (hhas : executor.has id = true)
    (h : Kept id next operations) : Kept id executor (operation :: operations) := by
  refine ⟨hhas, fun found following hf => ?_⟩
  cases happly.symm.trans hf
  exact h

theorem kept_exampleHistory : Kept examplePlan.id exampleQueue exampleHistory :=
  .of_apply rfl rfl (.of_apply rfl rfl (.of_apply rfl rfl (.of_apply rfl rfl
    (.of_apply rfl rfl (.of_apply rfl rfl (.of_apply rfl rfl rfl))))))

/-- The share is sent twice with one payload. -/
theorem executor_runs_retry : ∃ actions final,
    exampleQueue.run exampleHistory = some (actions, final) ∧
    ((actionsFor examplePlan.id actions).filter DkgExecutorAction.starts).length = 3 ∧
    ∀ first second payload other, .submit examplePlan.id first payload ∈ actions →
      .submit examplePlan.id second other ∈ actions → payload = other := by
  obtain ⟨log, executor, hrun, -, -, hsubmits, -⟩ := executor_runs [.enqueue [examplePlan]]
  have hstart : empty.run [.enqueue [examplePlan]] = some ([], exampleQueue) := rfl
  cases hrun.symm.trans hstart
  exact ⟨_, _, rfl, rfl, hsubmits examplePlan.id exampleHistory _ _ rfl kept_exampleHistory⟩

end DkgTaskExecutor

end NeoX
