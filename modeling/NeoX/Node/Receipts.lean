import NeoX.Node.Execution

/-!
# Receipts of a block

A block that is executed has one receipt for every transaction, with the gas that was used up to
it.

Main results:

- `executeTransaction_receipted`: a transaction that is executed adds one receipt.
- `executeBlock_receipted`: the receipts of a block are as many as its transactions,
  and their gas does not decrease.
-/

namespace NeoX

open List BlockEvm
open Except hiding ok error

section Receipts

variable [PoolFormat] [BlockEvm]

/-! ## Executors of a block -/

/-- The executors that the calls of a block lead to. -/
inductive Reached : Executor → Prop
  | create (state : StateProvider) (env : EvmEnv) (context : ExecutionContext) :
      Reached (create state env context)
  | storage {executor : Executor} (h : Reached executor) (address : Address) (key : U256) :
      Reached ((storage address key).after executor)
  | pre {executor : Executor} (h : Reached executor) :
      Reached (Attempt.after applyPreExecutionChanges executor)
  | systemCall {executor : Executor} (h : Reached executor) (caller contract : Address)
      (input : Bytes) :
      Reached ((transactSystemCall caller contract input).after executor)
  | commitState {executor : Executor} (h : Reached executor)
      (output : SystemOutput) : Reached (commitState executor output)
  | execute {executor : Executor} (h : Reached executor) (transaction : Transaction)
      (sender : Address) :
      Reached ((executeTransactionWithoutCommit transaction sender).after executor)
  | commit {executor : Executor} (h : Reached executor) {transaction : Transaction}
      {sender : Address} {output : Output}
      (hexecuted : (executeTransactionWithoutCommit transaction sender).result executor
        = .ok output) :
      Reached (commitTransaction
        ((executeTransactionWithoutCommit transaction sender).after executor) output)
  | post {executor : Executor} (h : Reached executor) :
      Reached (Attempt.after appendPostExecutionChanges executor)

/-- Receipts are added by the commit of a transaction only, and the gas of a receipt is not below
that of the receipts before it. -/
class ReceiptRules where
  create_receipts : ∀ state env context, receipts (create state env context) = []
  storage_receipts : ∀ address key executor,
    receipts ((storage address key).after executor) = receipts executor
  pre_receipts : ∀ executor, receipts
    (Attempt.after applyPreExecutionChanges executor) = receipts executor
  systemCall_receipts : ∀ caller contract input executor, receipts
    ((transactSystemCall caller contract input).after executor)
      = receipts executor
  commitState_receipts : ∀ executor output,
    receipts (commitState executor output) = receipts executor
  execute_receipts : ∀ transaction sender executor, receipts
    ((executeTransactionWithoutCommit transaction sender).after executor)
      = receipts executor
  post_receipts : ∀ executor, receipts
    (Attempt.after appendPostExecutionChanges executor) = receipts executor
  commit_receipts : ∀ {executor : Executor}, Reached executor →
    ∀ {transaction sender output},
    (executeTransactionWithoutCommit transaction sender).result executor = .ok output →
    ∃ receipt, receipts (commitTransaction
        ((executeTransactionWithoutCommit transaction sender).after executor) output)
        = receipts executor ++ [receipt] ∧
      ∀ earlier ∈ receipts executor,
        cumulativeGasUsed earlier ≤ cumulativeGasUsed receipt

/-- An executor of a block with a number of receipts whose gas does not decrease. -/
structure Receipted (count : Nat) (executor : Executor) : Prop where
  reached : Reached executor
  length_eq : (receipts executor).length = count
  ordered : (receipts executor).Pairwise fun earlier later =>
    cumulativeGasUsed earlier ≤ cumulativeGasUsed later

variable [ReceiptRules] {count : Nat}

omit [ReceiptRules] in
theorem Receipted.of_eq {executor next : Executor} (h : Receipted count executor)
    (hreac : Reached next) (hsame : receipts next = receipts executor) :
    Receipted count next :=
  ⟨hreac, by rw [hsame]; exact h.length_eq, by rw [hsame]; exact h.ordered⟩

/-! ## Calls without a receipt -/

theorem keeps_readPolicyStorage (key : U256) :
    Attempt.Keeps (Receipted count) (readPolicyStorage key) := by
  apply Attempt.Keeps.mapError
  exact fun executor h => h.of_eq (h.reached.storage _ _) (ReceiptRules.storage_receipts _ _ _)

theorem keeps_requiredTip (transaction : Transaction) (minimumTip : U256) :
    Attempt.Keeps (Receipted count) (requiredTip transaction minimumTip) := by
  unfold requiredTip
  split
  · refine (keeps_readPolicyStorage _).bind fun _ => ?_
    refine (Attempt.keeps_require _ _).bind fun _ => ?_
    refine (Attempt.keeps_require _ _).bind fun _ => ?_
    refine (Attempt.keeps_require _ _).bind fun _ => ?_
    exact (keeps_readPolicyStorage _).bind fun _ => Attempt.keeps_pure _
  · exact Attempt.keeps_pure _

theorem keeps_validatePolicy [Crypto] (env : EvmEnv) (transaction : Transaction)
    (sender : Address) :
    Attempt.Keeps (Receipted count) (validatePolicy env transaction sender) := by
  refine (keeps_readPolicyStorage _).bind fun _ => ?_
  refine (Attempt.keeps_require _ _).bind fun _ => ?_
  refine (keeps_readPolicyStorage _).bind fun _ => ?_
  exact (keeps_requiredTip transaction _).bind fun _ => Attempt.keeps_require _ _

theorem keeps_applySystemCall (contract : Address) (selector : Bytes) :
    Attempt.Keeps (Receipted count) (applySystemCall contract selector) := by
  refine Attempt.Keeps.bind (Attempt.Keeps.mapError ?_ _) fun output => ?_
  · exact fun executor h =>
      h.of_eq (h.reached.systemCall _ _ _) (ReceiptRules.systemCall_receipts _ _ _ _)
  · refine (Attempt.keeps_require _ _).bind fun _ => Attempt.keeps_update ?_
    exact fun executor h =>
      h.of_eq (h.reached.commitState output) (ReceiptRules.commitState_receipts _ _)

theorem keeps_preExecutionChanges [Crypto] (block : ExecutorBlock) (limit : UInt64) :
    Attempt.Keeps (Receipted count) (NeoXBlockExecutor.preExecutionChanges block limit) := by
  refine Attempt.Keeps.bind ?_ fun _ => Attempt.Keeps.bind ?_ fun _ =>
    Attempt.Keeps.bind ?_ fun _ => Attempt.Keeps.bind ?_ fun _ => Attempt.keeps_pure _
  · exact (keeps_readPolicyStorage _).bind fun _ => Attempt.keeps_require _ _
  · exact fun executor h => h.of_eq h.reached.pre (ReceiptRules.pre_receipts _)
  · unfold NeoXBlockExecutor.readEnvelopeLimit
    split
    · exact (keeps_readPolicyStorage _).bind fun _ => Attempt.keeps_pure _
    · exact Attempt.keeps_pure _
  · unfold applyOnPersistCalls
    split
    · exact (keeps_applySystemCall _ _).bind fun _ => keeps_applySystemCall _ _
    · exact keeps_applySystemCall _ _

theorem keeps_postExecutionChanges (spec : NeoXChainSpec) (block : ExecutorBlock) :
    Attempt.Keeps (Receipted count) (NeoXBlockExecutor.postExecutionChanges spec block) := by
  unfold NeoXBlockExecutor.postExecutionChanges
  split
  · exact fun executor h => h.of_eq h.reached.post (ReceiptRules.post_receipts _)
  · exact Attempt.keeps_pure _

/-! ## Transactions -/

variable [Crypto] {transaction : Transaction}

/-- The commit of a transaction adds its receipt. -/
theorem commit_receipted {env : EvmEnv} {sender : Address} {executor : Executor}
    {output : Output} (h : Receipted count executor)
    (hres : (NeoXBlockExecutor.checkedExecution env transaction sender).result executor
      = .ok output) :
    Receipted (count + 1) (commitTransaction
      ((NeoXBlockExecutor.checkedExecution env transaction sender).after executor) output) := by
  rcases Attempt.bind_eq_ok hres with ⟨_, -, hexecuted, hafter⟩
  have hchk : Receipted count ((validatePolicy env transaction sender).after executor) :=
    keeps_validatePolicy env transaction sender executor h
  rcases ReceiptRules.commit_receipts hchk.reached hexecuted with ⟨receipt, hrece, hgas⟩
  rw [NeoXBlockExecutor.checkedExecution, hafter]
  refine ⟨hchk.reached.commit hexecuted, ?_, ?_⟩
  · rw [hrece, length_append, hchk.length_eq, length_singleton]
  · rw [hrece]
    refine pairwise_append.mpr ⟨hchk.ordered, pairwise_singleton _ _, ?_⟩
    intro earlier hearl later hlater
    rw [mem_singleton.mp hlater]
    exact hgas earlier hearl

variable {executor : NeoXBlockExecutor} {block : ExecutorBlock} {next : NeoXBlockExecutor}

theorem attempt_receipted {envelope : Bool} {sender : Address} {output : Output}
    (h : Receipted count executor.inner)
    (hres : executor.attemptTransaction block envelope transaction sender = (.ok output, next)) :
    Receipted (count + 1) (next.commitTransaction output).inner := by
  unfold NeoXBlockExecutor.attemptTransaction at hres
  dsimp only at hres
  split at hres
  · next found hf =>
      cases hres
      exact commit_receipted h hf
  · cases hres

/-- A transaction that is executed adds one receipt. -/
theorem executeTransaction_receipted {sender : Address} (h : Receipted count executor.inner)
    (hres : executor.executeTransaction block transaction sender = (.ok (), next)) :
    Receipted (count + 1) next.inner := by
  unfold NeoXBlockExecutor.executeTransaction at hres
  split at hres
  · next output attempted hatt =>
      cases hres
      unfold NeoXBlockExecutor.executeTransactionWithoutCommit at hatt
      dsimp only at hatt
      split at hatt
      · split at hatt
        · cases hatt
        · refine attempt_receipted ?_ hatt
          exact h
      · exact attempt_receipted h hatt
  · cases hres

theorem executeAll_receipted {txs : List (Transaction × Address)} {final : NeoXBlockExecutor}
    (h : Receipted count executor.inner) (hres : executeAll block txs executor = .ok final) :
    Receipted (count + txs.length) final.inner := by
  induction txs generalizing executor count with
  | nil =>
    cases hres
    exact h
  | cons transaction txs ih =>
    rw [executeAll, foldlM_cons] at hres
    rcases bind_ok hres with ⟨next, hn, hr⟩
    split at hn
    · next executed hexecuted =>
        cases hn
        have hrest := ih (executeTransaction_receipted h hexecuted) hr
        rwa [Nat.add_assoc, Nat.add_comm 1, ← length_cons] at hrest
    · cases hn

/-- The receipts of a block are as many as its transactions, and their gas does not decrease. -/
theorem executeBlock_receipted {spec : NeoXChainSpec} {s : StateProvider} {block : RecoveredBlock}
    {output : BlockExecutionOutput} (h : executeBlock spec s block = .ok output) :
    output.result.receipts.length = (block.transactions.zip block.senders).length ∧
      output.result.receipts.Pairwise fun earlier later =>
        cumulativeGasUsed earlier ≤ cumulativeGasUsed later := by
  rcases executeBlock_eq_ok.mp h with ⟨fresh, final, hfresh, hfinal, hfinish⟩
  rcases output with ⟨bundle, r⟩
  have hcrea : Receipted 0 (executorForBlock spec s block).inner :=
    ⟨Reached.create _ _ _, by
      rw [executorForBlock, NeoXBlockExecutor.new, ReceiptRules.create_receipts, length_nil],
      by rw [executorForBlock, NeoXBlockExecutor.new, ReceiptRules.create_receipts]
         exact List.Pairwise.nil⟩
  rcases bind_ok hfresh with ⟨⟨limit, inner⟩, hadva, hfresh⟩
  cases hfresh
  rcases map_eq_ok.mp hadva with ⟨_, -, hpair⟩
  cases hpair
  have hexecuted := executeAll_receipted (keeps_preExecutionChanges _ _ _ hcrea) hfinal
  rcases bind_ok hfinish with ⟨⟨requestsHash, inner⟩, hadva, hfinish⟩
  cases hfinish
  rcases map_eq_ok.mp hadva with ⟨_, -, hpair⟩
  cases hpair
  have hpost := keeps_postExecutionChanges spec (executorBlock spec block.header) _ hexecuted
  rw [Nat.zero_add] at hpost
  exact ⟨hpost.length_eq, hpost.ordered⟩

end Receipts

/-! ## Plain transactions -/

namespace PlainChain

theorem gas_of_reached {executor : PlainExecutor} (h : Reached executor) :
    ∀ gas ∈ executor.gas, gas = 21000 := by
  induction h with
  | create => simp [create]
  | storage _ _ _ ih => exact ih
  | pre _ ih => exact ih
  | systemCall _ _ _ _ ih => exact ih
  | commitState _ _ ih => exact ih
  | execute _ _ _ ih => exact ih
  | post _ ih => exact ih
  | commit _ hexecuted ih =>
    cases hexecuted
    intro gas hmem
    rcases mem_append.mp hmem with hmem | hmem
    · exact ih gas hmem
    · exact mem_singleton.mp hmem

scoped instance receiptRules : ReceiptRules where
  create_receipts _ _ _ := rfl
  storage_receipts _ _ _ := rfl
  pre_receipts _ := rfl
  systemCall_receipts _ _ _ _ := rfl
  commitState_receipts _ _ := rfl
  execute_receipts _ _ _ := rfl
  post_receipts _ := rfl
  commit_receipts hreached _ _ _ hexecuted := by
    cases hexecuted
    refine ⟨(21000 : UInt64), rfl, fun earlier hearlier => ?_⟩
    rw [gas_of_reached hreached earlier hearlier]
    exact UInt64.le_refl _

end PlainChain

end NeoX
