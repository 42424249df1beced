import NeoX.Library.Quiet
import NeoX.Node.ContractState
import NeoX.Node.Sequence
import Mathlib.Data.UInt

/-!
# Block execution

The executor of a block around the EVM: the policy of the contracts, the number of Envelopes, and
the calls that persist a block. The EVM itself and the database below it are parameters.

Main results:

- `NeoXBlockExecutor.failed_equiv`: an execution that fails leaves no trace.
- `NeoXBlockExecutor.execute_congr`: executors that are equivalent execute alike.
- `executeAll_of_replayed`: the transactions that a replay included, executed alone,
  are accepted and lead to the same executor.
-/

namespace NeoX

open Except hiding ok error

/-! ## Chain specification -/

def neoxForkNever : UInt64 := UInt64.ofNat (2 ^ 64 - 1)

/-- The chain specification: the forks of Neo X by their block, and those of Ethereum by the
functions that tell whether they are active. -/
structure NeoXChainSpec where
  chainId : UInt64
  dkgBlock : UInt64
  antiMevBlock : UInt64
  ethSignatureBlock : UInt64
  standbyValidators : List Address
  coinbase : Address
  parisActiveAtBlock : UInt64 → Bool
  byzantiumActiveAtBlock : UInt64 → Bool
  londonActiveAtBlock : UInt64 → Bool
  shanghaiActiveAtTimestamp : UInt64 → Bool
  cancunActiveAtTimestamp : UInt64 → Bool
  pragueActiveAtTimestamp : UInt64 → Bool
  osakaActiveAtTimestamp : UInt64 → Bool
  amsterdamActiveAtTimestamp : UInt64 → Bool
  elasticityMultiplierAtTimestamp : UInt64 → UInt64
  blobParamsAtTimestamp : UInt64 → Option BlobParams
  specAt : UInt64 → UInt64 → SpecId

namespace NeoXChainSpec

/-- The height after another one, or the largest height. -/
def saturatingSucc (height : UInt64) : UInt64 :=
  if height = UInt64.ofNat (2 ^ 64 - 1) then height else height + 1

def isForkActiveAtBlock (forkBlock height : UInt64) : Bool :=
  forkBlock ≠ neoxForkNever && forkBlock ≤ height

def isAntiMevActiveAtBlock (spec : NeoXChainSpec) (height : UInt64) : Bool :=
  isForkActiveAtBlock spec.antiMevBlock height

/-- The version of the extra data, which changes one block before its fork. -/
def extraVersionAtBlock (spec : NeoXChainSpec) (height : UInt64) : ExtraVersion :=
  let next := saturatingSucc height
  if isForkActiveAtBlock spec.ethSignatureBlock height ||
      isForkActiveAtBlock spec.ethSignatureBlock next then
    .v2
  else if isForkActiveAtBlock spec.antiMevBlock height ||
      isForkActiveAtBlock spec.antiMevBlock next then
    .v1
  else
    .v0

end NeoXChainSpec

/-! ## Blocks -/

/-- The block values that execution reads. -/
structure EvmEnv where
  chainId : UInt64
  spec : SpecId
  number : UInt64
  beneficiary : Address
  timestamp : UInt64
  gasLimit : UInt64
  baseFee : UInt64
  difficulty : U256
  prevrandao : Option B256
  excessBlobGas : Option UInt64
  blobParams : Option BlobParams
  slotNumber : Option UInt64
  deriving DecidableEq

/-- Further values that are handed to the executor. -/
structure ExecutionContext where
  txCountHint : Option Nat
  parentHash : B256
  parentBeaconBlockRoot : Option B256
  withdrawals : Bool
  extraData : Bytes
  slotNumber : Option UInt64
  deriving DecidableEq

/-- The environment of a block. The mix hash commits to the next consensus and is not shown. -/
def evmEnv (spec : NeoXChainSpec) (header : Header) : EvmEnv where
  chainId := spec.chainId
  spec := spec.specAt header.timestamp header.number
  number := header.number
  beneficiary := header.beneficiary
  timestamp := header.timestamp
  gasLimit := header.gasLimit
  baseFee := header.baseFeePerGas.getD 0
  difficulty := header.difficulty
  prevrandao := some (.zero 32)
  excessBlobGas := header.excessBlobGas
  blobParams := spec.blobParamsAtTimestamp header.timestamp
  slotNumber := header.slotNumber

section Blocks

variable [PoolFormat]

/-- A block. It has no ommers, and no withdrawals in the list that is present from Shanghai on. -/
structure Block where
  header : Header
  transactions : List Transaction
  withdrawals : Bool

/-- A block with the senders of its transactions. -/
structure RecoveredBlock extends Block where
  senders : List Address

def contextForBlock (block : RecoveredBlock) : ExecutionContext where
  txCountHint := some block.transactions.length
  parentHash := block.header.parentHash
  parentBeaconBlockRoot := block.header.parentBeaconBlockRoot
  withdrawals := block.withdrawals
  extraData := block.header.extraData
  slotNumber := block.header.slotNumber

end Blocks

/-! ## The EVM -/

/-- What is wrong with a block or a transaction under the rules of Neo X. -/
inductive NeoXExecutionError where
  | invalidPolicyBaseFee (expected actual : U256)
  | envelopeNumberLimitReached (limit : UInt64)
  | envelopeGasAbovePolicy (gasLimit : UInt64) (maximumGas : U256)
  | encryptedGasBelowMinimum (innerGas : UInt32)
  | envelopeGasBelowEncrypted (gasLimit : UInt64) (innerGas : UInt32)
  | blockedSender (sender : Address)
  | gasTipBelowPolicy (sender : Address) (effectiveTip : Nat) (minimumTip : U256)
  | systemCallEvm (contract : Address) (error : String)
  | systemCallFailed (contract : Address)
  deriving DecidableEq

/-- Errors of execution; those of validation make a transaction or a block invalid. -/
inductive BlockExecutionError where
  | gasLimitMoreThanAvailable (gasLimit available : UInt64)
  | validation (error : String)
  | policy (error : NeoXExecutionError)
  | internal (error : String)
  deriving DecidableEq

/-- Results of the execution of a block. -/
structure BlockExecutionResult (ρ : Type) where
  receipts : List ρ
  requestsHash : B256
  gasUsed : UInt64
  blobGasUsed : UInt64

/-- The executor of Ethereum blocks with its EVM and database. -/
class BlockEvm [PoolFormat] where
  Executor : Type
  Output : Type
  SystemOutput : Type
  Bundle : Type
  BlockReceipt : Type
  /-- An executor for a block on a parent state. -/
  create : StateProvider → EvmEnv → ExecutionContext → Executor
  /-- Read storage in the state of the block. -/
  storage : Address → U256 → Attempt Executor String U256
  applyPreExecutionChanges : Attempt Executor BlockExecutionError Unit
  transactSystemCall : Address → Address → Bytes → Attempt Executor String SystemOutput
  isSuccess : SystemOutput → Bool
  commitState : Executor → SystemOutput → Executor
  executeTransactionWithoutCommit :
    Transaction → Address → Attempt Executor BlockExecutionError Output
  commitTransaction : Executor → Output → Executor
  /-- The queue calls of Prague; their requests, hashed. -/
  appendPostExecutionChanges : Attempt Executor BlockExecutionError B256
  emptyRequestsHash : B256
  receipts : Executor → List BlockReceipt
  enableAmsterdamEip8037 : Executor → Bool
  maxBlockGasUsed : Executor → UInt64
  cumulativeTxGasUsed : Executor → UInt64
  blobGasUsed : Executor → UInt64
  /-- The changes of all transactions that were committed. -/
  takeBundle : Executor → Bundle
  bundleStorage : Bundle → Address → U256 → Option U256
  stateRoot : StateProvider → Bundle → Except String B256
  cumulativeGasUsed : BlockReceipt → UInt64
  calculateReceiptRoot : List BlockReceipt → B256
  logsBloom : List BlockReceipt → FixedBytes 256
  calculateTransactionRoot : List Transaction → B256
  display : BlockExecutionError → String

/-- Executors that no later call tells apart: they may differ in caches and in what a journal keeps
of a transaction that was not committed. The executor does not read the number of transactions and
the extra data of its context. -/
class EquivalentExecutors [PoolFormat] [BlockEvm] where
  equivalent : Setoid BlockEvm.Executor
  create_equiv : ∀ state env first second,
    { first with txCountHint := second.txCountHint, extraData := second.extraData } = second →
    BlockEvm.create state env first ≈ BlockEvm.create state env second
  storage_quiet : ∀ address key, Attempt.Quiet (BlockEvm.storage address key)
  pre_respects : Attempt.Respects BlockEvm.applyPreExecutionChanges
  systemCall_quiet : ∀ caller contract input,
    Attempt.Quiet (BlockEvm.transactSystemCall caller contract input)
  commitState_congr : ∀ {first second : BlockEvm.Executor}, first ≈ second → ∀ output,
    BlockEvm.commitState first output ≈ BlockEvm.commitState second output
  execute_quiet : ∀ transaction sender,
    Attempt.Quiet (BlockEvm.executeTransactionWithoutCommit transaction sender)
  commit_congr : ∀ {first second : BlockEvm.Executor}, first ≈ second → ∀ output,
    BlockEvm.commitTransaction first output ≈ BlockEvm.commitTransaction second output
  post_respects : Attempt.Respects BlockEvm.appendPostExecutionChanges
  receipts_congr : ∀ {first second : BlockEvm.Executor}, first ≈ second →
    BlockEvm.receipts first = BlockEvm.receipts second
  gas_congr : ∀ {first second : BlockEvm.Executor}, first ≈ second →
    BlockEvm.enableAmsterdamEip8037 first = BlockEvm.enableAmsterdamEip8037 second ∧
    BlockEvm.maxBlockGasUsed first = BlockEvm.maxBlockGasUsed second ∧
    BlockEvm.cumulativeTxGasUsed first = BlockEvm.cumulativeTxGasUsed second ∧
    BlockEvm.blobGasUsed first = BlockEvm.blobGasUsed second
  bundle_congr : ∀ {first second : BlockEvm.Executor}, first ≈ second →
    BlockEvm.takeBundle first = BlockEvm.takeBundle second

attribute [reducible, instance] EquivalentExecutors.equivalent

/-! ## The executor of Neo X -/

section Executor

variable [Crypto] [PoolFormat] [BlockEvm]

/-- What an executor knows about its block. -/
structure ExecutorBlock where
  env : EvmEnv
  dkgBlock : UInt64
  antiMevBlock : UInt64

/-- The executor of a block. -/
structure NeoXBlockExecutor where
  inner : BlockEvm.Executor
  envelopeCount : UInt64
  envelopeLimit : UInt64

def systemAddress : Address := .ofNat 20 0xfffffffffffffffffffffffffffffffffffffffe

/-- The first four bytes of the hash of a signature. -/
def functionSelector (signature : String) : Bytes :=
  ((keccak256 signature.toUTF8.toList).bytes).take 4

def readPolicyStorage (key : U256) : Attempt BlockEvm.Executor BlockExecutionError U256 :=
  Attempt.mapError .internal (BlockEvm.storage policyProxyAddress key)

def validatePolicyBaseFee (env : EvmEnv) :
    Attempt BlockEvm.Executor BlockExecutionError Unit := do
  let expected ← readPolicyStorage (policyStorageKey policyBaseFeeSlot)
  let actual : U256 := BitVec.ofNat 256 env.baseFee.toNat
  Attempt.require (actual = expected) (.policy (.invalidPolicyBaseFee expected actual))

/-- The policy for Envelopes, with the tip that they have to pay. -/
def validateEnvelopePolicy (transaction : Transaction) (minimumTip : U256) :
    Attempt BlockEvm.Executor BlockExecutionError U256 := do
  let gasLimit := TransactionFormat.gasLimit transaction
  let innerGas := encryptedGas (TransactionFormat.input transaction)
  let maximumGas ← readPolicyStorage (policyStorageKey policyMaxEnvelopeGasLimitSlot)
  Attempt.require (gasLimit.toNat ≤ maximumGas.toNat)
    (.policy (.envelopeGasAbovePolicy gasLimit maximumGas))
  Attempt.require (minEncryptedGasLimit ≤ innerGas) (.policy (.encryptedGasBelowMinimum innerGas))
  Attempt.require (innerGas.toUInt64 ≤ gasLimit)
    (.policy (.envelopeGasBelowEncrypted gasLimit innerGas))
  let envelopeFee ← readPolicyStorage (policyStorageKey policyEnvelopeFeeSlot)
  pure (saturatingAddWord minimumTip envelopeFee)

def requiredTip (transaction : Transaction) (minGasTipCap : U256) :
    Attempt BlockEvm.Executor BlockExecutionError U256 :=
  if isEnvelopePolicy (TransactionFormat.target transaction)
      (TransactionFormat.input transaction) then
    validateEnvelopePolicy transaction minGasTipCap
  else
    pure minGasTipCap

def validatePolicy (env : EvmEnv) (transaction : Transaction) (sender : Address) :
    Attempt BlockEvm.Executor BlockExecutionError Unit := do
  let blocked ← readPolicyStorage (policyBlacklistStorageKey sender)
  Attempt.require (blocked = 0) (.policy (.blockedSender sender))
  let minGasTipCap ← readPolicyStorage (policyStorageKey policyMinGasTipCapSlot)
  let minimumTip ← requiredTip transaction minGasTipCap
  let feeCapTip := (TransactionFormat.maxFeePerGas transaction).toNat - env.baseFee.toNat
  let effectiveTip := min feeCapTip (tipOrFee transaction).toNat
  Attempt.require (minimumTip.toNat ≤ effectiveTip)
    (.policy (.gasTipBelowPolicy sender effectiveTip minimumTip))

def applySystemCall (contract : Address) (selector : Bytes) :
    Attempt BlockEvm.Executor BlockExecutionError Unit := do
  let output ← Attempt.mapError (fun error => .policy (.systemCallEvm contract error))
    (BlockEvm.transactSystemCall systemAddress contract selector)
  Attempt.require (BlockEvm.isSuccess output = true) (.policy (.systemCallFailed contract))
  Attempt.update fun executor => BlockEvm.commitState executor output

def applyOnPersistCalls (dkgActive : Bool) :
    Attempt BlockEvm.Executor BlockExecutionError Unit :=
  if dkgActive then do
    applySystemCall keyManagementProxyAddress (functionSelector "onPersistV2()")
    applySystemCall governanceProxyAddress (functionSelector "onPersistV2()")
  else
    applySystemCall governanceProxyAddress (functionSelector "onPersist()")

namespace NeoXBlockExecutor

def new (inner : BlockEvm.Executor) : NeoXBlockExecutor := ⟨inner, 0, 0⟩

/-- The limit of Envelopes: the lowest 64 bits of the policy value, and none before Anti-MEV. -/
def readEnvelopeLimit (block : ExecutorBlock) (limit : UInt64) :
    Attempt BlockEvm.Executor BlockExecutionError UInt64 :=
  if block.antiMevBlock ≤ block.env.number then do
    let limit ← readPolicyStorage (policyStorageKey policyMaxEnvelopesPerBlockSlot)
    pure (UInt64.ofNat limit.toNat)
  else
    pure limit

/-- The changes before the first transaction. They return the limit of Envelopes. -/
def preExecutionChanges (block : ExecutorBlock) (limit : UInt64) :
    Attempt BlockEvm.Executor BlockExecutionError UInt64 := do
  validatePolicyBaseFee block.env
  BlockEvm.applyPreExecutionChanges
  let limit ← readEnvelopeLimit block limit
  applyOnPersistCalls (block.dkgBlock ≤ block.env.number)
  pure limit

/-- Prepare the executor for the first transaction. -/
def applyPreExecutionChanges (block : ExecutorBlock) (executor : NeoXBlockExecutor) :
    Except BlockExecutionError NeoXBlockExecutor := do
  let (limit, inner) ← (preExecutionChanges block executor.envelopeLimit).advance executor.inner
  .ok { executor with inner := inner, envelopeLimit := limit }

/-- A count without an Envelope that failed. -/
def saturatingPred (count : UInt64) : UInt64 :=
  if count = 0 then 0 else count - 1

def checkedExecution (env : EvmEnv) (transaction : Transaction) (sender : Address) :
    Attempt BlockEvm.Executor BlockExecutionError BlockEvm.Output := do
  validatePolicy env transaction sender
  BlockEvm.executeTransactionWithoutCommit transaction sender

/-- Attempt a transaction. An Envelope that fails is not counted. -/
def attemptTransaction (block : ExecutorBlock) (envelope : Bool) (transaction : Transaction)
    (sender : Address) (executor : NeoXBlockExecutor) :
    Except BlockExecutionError BlockEvm.Output × NeoXBlockExecutor :=
  let attempt := checkedExecution block.env transaction sender
  let inner := attempt.after executor.inner
  match attempt.result executor.inner with
  | .ok output => (.ok output, { executor with inner := inner })
  | .error error =>
    (.error error, { executor with
      inner := inner
      envelopeCount :=
        if envelope then saturatingPred executor.envelopeCount else executor.envelopeCount })

/-- Execute a transaction. Envelopes are counted from the Anti-MEV block on. -/
def executeTransactionWithoutCommit (block : ExecutorBlock) (transaction : Transaction)
    (sender : Address) (executor : NeoXBlockExecutor) :
    Except BlockExecutionError BlockEvm.Output × NeoXBlockExecutor :=
  let envelope := isEnvelope (TransactionFormat.ty transaction)
    (TransactionFormat.target transaction) (TransactionFormat.input transaction)
  if envelope = true ∧ block.antiMevBlock ≤ block.env.number then
    if executor.envelopeLimit ≤ executor.envelopeCount then
      (.error (.policy (.envelopeNumberLimitReached executor.envelopeLimit)), executor)
    else
      attemptTransaction block envelope transaction sender
        { executor with envelopeCount := executor.envelopeCount + 1 }
  else
    attemptTransaction block envelope transaction sender executor

def commitTransaction (executor : NeoXBlockExecutor) (output : BlockEvm.Output) :
    NeoXBlockExecutor :=
  { executor with inner := BlockEvm.commitTransaction executor.inner output }

/-- Execute a transaction, and commit it if that succeeds. -/
def executeTransaction (block : ExecutorBlock) (transaction : Transaction) (sender : Address)
    (executor : NeoXBlockExecutor) : Except BlockExecutionError Unit × NeoXBlockExecutor :=
  match executor.executeTransactionWithoutCommit block transaction sender with
  | (.ok output, next) => (.ok (), next.commitTransaction output)
  | (.error error, next) => (.error error, next)

def postExecutionChanges (spec : NeoXChainSpec) (block : ExecutorBlock) :
    Attempt BlockEvm.Executor BlockExecutionError B256 :=
  if spec.pragueActiveAtTimestamp block.env.timestamp then
    BlockEvm.appendPostExecutionChanges
  else
    pure BlockEvm.emptyRequestsHash

def finish (spec : NeoXChainSpec) (block : ExecutorBlock) (executor : NeoXBlockExecutor) :
    Except BlockExecutionError (BlockExecutionResult BlockEvm.BlockReceipt × BlockEvm.Bundle) := do
  let (requestsHash, inner) ← (postExecutionChanges spec block).advance executor.inner
  let gasUsed :=
    if BlockEvm.enableAmsterdamEip8037 inner then BlockEvm.maxBlockGasUsed inner
    else BlockEvm.cumulativeTxGasUsed inner
  .ok (⟨BlockEvm.receipts inner, requestsHash, gasUsed, BlockEvm.blobGasUsed inner⟩,
    BlockEvm.takeBundle inner)

end NeoXBlockExecutor

def executorForBlock (spec : NeoXChainSpec) (state : StateProvider) (block : RecoveredBlock) :
    NeoXBlockExecutor :=
  .new (BlockEvm.create state (evmEnv spec block.header) (contextForBlock block))

/-- What the executor of a block knows about it. -/
def executorBlock (spec : NeoXChainSpec) (header : Header) : ExecutorBlock :=
  ⟨evmEnv spec header, spec.dkgBlock, spec.antiMevBlock⟩

def executeAll (block : ExecutorBlock) (transactions : List (Transaction × Address))
    (executor : NeoXBlockExecutor) : Except BlockExecutionError NeoXBlockExecutor :=
  transactions.foldlM (fun executor transaction =>
    match executor.executeTransaction block transaction.1 transaction.2 with
    | (.ok (), next) => .ok next
    | (.error error, _) => .error error) executor

/-- Results and state changes of a block. -/
structure BlockExecutionOutput where
  state : BlockEvm.Bundle
  result : BlockExecutionResult BlockEvm.BlockReceipt

def executeBlock (spec : NeoXChainSpec) (state : StateProvider) (block : RecoveredBlock) :
    Except BlockExecutionError BlockExecutionOutput := do
  let info := executorBlock spec block.header
  let executor ← (executorForBlock spec state block).applyPreExecutionChanges info
  let executor ← executeAll info (block.transactions.zip block.senders) executor
  let (result, bundle) ← executor.finish spec info
  .ok ⟨bundle, result⟩

/-- What a block goes through when it is executed. -/
theorem executeBlock_eq_ok {spec : NeoXChainSpec} {s : StateProvider} {block : RecoveredBlock}
    {output : BlockExecutionOutput} :
    executeBlock spec s block = .ok output ↔ ∃ fresh final,
      (executorForBlock spec s block).applyPreExecutionChanges
        (executorBlock spec block.header) = .ok fresh ∧
      executeAll (executorBlock spec block.header) (block.transactions.zip block.senders) fresh
        = .ok final ∧
      final.finish spec (executorBlock spec block.header) = .ok (output.result, output.state) := by
  constructor
  · intro h
    rcases bind_ok h with ⟨fresh, hfresh, h⟩
    rcases bind_ok h with ⟨final, hfinal, h⟩
    rcases bind_ok h with ⟨finished, hfini, h⟩
    cases h
    exact ⟨fresh, final, hfresh, hfinal, hfini⟩
  · rintro ⟨fresh, final, hfresh, hfinal, hfini⟩
    unfold executeBlock
    dsimp only
    rw [hfresh, ok_bind, hfinal, ok_bind, hfini, ok_bind]

/-! ## Equivalent executors -/

section Equivalence

variable [EquivalentExecutors]

omit [Crypto] in
/-- Executors with equivalent EVMs and the same Envelopes. -/
instance NeoXBlockExecutor.equivalent : Setoid NeoXBlockExecutor where
  r first second := first.inner ≈ second.inner ∧ first.envelopeCount = second.envelopeCount ∧
    first.envelopeLimit = second.envelopeLimit
  iseqv := {
    refl := fun executor => ⟨Setoid.refl executor.inner, rfl, rfl⟩
    symm := fun h => ⟨Setoid.symm h.1, h.2.1.symm, h.2.2.symm⟩
    trans := fun h h' => ⟨Setoid.trans h.1 h'.1, h.2.1.trans h'.2.1, h.2.2.trans h'.2.2⟩ }

omit [Crypto] in
theorem quiet_readPolicyStorage (key : U256) :
    Attempt.Quiet (readPolicyStorage key) :=
  (EquivalentExecutors.storage_quiet policyProxyAddress key).mapError _

omit [Crypto] in
theorem quiet_validateEnvelopePolicy (transaction : Transaction) (minimumTip : U256) :
    Attempt.Quiet (validateEnvelopePolicy transaction minimumTip) := by
  refine (quiet_readPolicyStorage _).bind fun _ => ?_
  refine (Attempt.quiet_require _ _).bind fun _ => ?_
  refine (Attempt.quiet_require _ _).bind fun _ => ?_
  refine (Attempt.quiet_require _ _).bind fun _ => ?_
  exact (quiet_readPolicyStorage _).bind fun _ => Attempt.quiet_pure _

theorem quiet_validatePolicy (env : EvmEnv) (transaction : Transaction) (sender : Address) :
    Attempt.Quiet (validatePolicy env transaction sender) := by
  refine (quiet_readPolicyStorage _).bind fun _ => ?_
  refine (Attempt.quiet_require _ _).bind fun _ => ?_
  refine (quiet_readPolicyStorage _).bind fun minGasTipCap => ?_
  refine Attempt.Quiet.bind ?_ fun minimumTip => Attempt.quiet_require _ _
  unfold requiredTip
  split
  · exact quiet_validateEnvelopePolicy transaction minGasTipCap
  · exact Attempt.quiet_pure _

omit [Crypto] in
theorem respects_applySystemCall (contract : Address) (selector : Bytes) :
    Attempt.Respects (applySystemCall contract selector) := by
  refine ((EquivalentExecutors.systemCall_quiet _ _ _).mapError _).respects.bind fun output => ?_
  refine (Attempt.quiet_require _ _).respects.bind fun _ => ?_
  exact ⟨fun _ => rfl, fun hequiv => EquivalentExecutors.commitState_congr hequiv output⟩

theorem respects_preExecutionChanges (block : ExecutorBlock) (limit : UInt64) :
    Attempt.Respects (NeoXBlockExecutor.preExecutionChanges block limit) := by
  have hlim : Attempt.Quiet (NeoXBlockExecutor.readEnvelopeLimit block limit) := by
    unfold NeoXBlockExecutor.readEnvelopeLimit
    split
    · exact (quiet_readPolicyStorage _).bind fun _ => Attempt.quiet_pure _
    · exact Attempt.quiet_pure _
  have hpers : ∀ active, Attempt.Respects (applyOnPersistCalls active) := by
    intro active
    unfold applyOnPersistCalls
    split
    · exact (respects_applySystemCall _ _).bind fun _ => respects_applySystemCall _ _
    · exact respects_applySystemCall _ _
  have hbase : Attempt.Quiet (validatePolicyBaseFee block.env) :=
    (quiet_readPolicyStorage _).bind fun _ => Attempt.quiet_require _ _
  refine hbase.respects.bind fun _ => ?_
  refine EquivalentExecutors.pre_respects.bind fun _ => ?_
  refine hlim.respects.bind fun _ => (hpers _).bind fun _ => ?_
  exact (Attempt.quiet_pure _).respects

variable {sender : Address}

namespace NeoXBlockExecutor

variable {block : ExecutorBlock} {first second : NeoXBlockExecutor}

theorem applyPreExecutionChanges_congr {left : NeoXBlockExecutor} (hequiv : first ≈ second)
    (h : first.applyPreExecutionChanges block = .ok left) :
    ∃ right, second.applyPreExecutionChanges block = .ok right ∧ left ≈ right := by
  rcases bind_ok h with ⟨⟨limit, inner⟩, hinner, h⟩
  cases h
  rcases (respects_preExecutionChanges block first.envelopeLimit).exists_advance hequiv.1 hinner
    with ⟨other, ho, hothers⟩
  refine ⟨{ second with inner := other, envelopeLimit := limit }, ?_, hothers, hequiv.2.1, rfl⟩
  rw [applyPreExecutionChanges, ← hequiv.2.2, ho]
  rfl

theorem quiet_checkedExecution (env : EvmEnv) (transaction : Transaction) (sender : Address) :
    Attempt.Quiet (checkedExecution env transaction sender) :=
  (quiet_validatePolicy _ _ _).bind fun _ => EquivalentExecutors.execute_quiet _ _

/-- Equivalent executors attempt a transaction with equivalent ends. -/
theorem attemptTransaction_congr (block : ExecutorBlock) (envelope : Bool)
    (transaction : Transaction) (sender : Address) (hequiv : first ≈ second) :
    (first.attemptTransaction block envelope transaction sender).1
        = (second.attemptTransaction block envelope transaction sender).1 ∧
      (first.attemptTransaction block envelope transaction sender).2
        ≈ (second.attemptTransaction block envelope transaction sender).2 := by
  have hresp := (quiet_checkedExecution block.env transaction sender).respects
  have hafter := hresp.after_equiv hequiv.1
  unfold attemptTransaction
  dsimp only
  rw [hresp.result_eq hequiv.1, hequiv.2.1, hequiv.2.2]
  cases (checkedExecution block.env transaction sender).result second.inner with
  | ok output => exact ⟨rfl, hafter, rfl, rfl⟩
  | error error => exact ⟨rfl, hafter, rfl, rfl⟩

/-- Equivalent executors execute alike. -/
theorem executeWithoutCommit_congr (block : ExecutorBlock) (transaction : Transaction)
    (sender : Address) (hequiv : first ≈ second) :
    (first.executeTransactionWithoutCommit block transaction sender).1
        = (second.executeTransactionWithoutCommit block transaction sender).1 ∧
      (first.executeTransactionWithoutCommit block transaction sender).2
        ≈ (second.executeTransactionWithoutCommit block transaction sender).2 := by
  unfold executeTransactionWithoutCommit
  dsimp only
  rw [hequiv.2.1, hequiv.2.2]
  split
  · split
    · exact ⟨rfl, hequiv⟩
    · exact attemptTransaction_congr block _ transaction sender ⟨hequiv.1, rfl, rfl⟩
  · exact attemptTransaction_congr block _ transaction sender hequiv

/-- Equivalent executors execute and commit alike. -/
theorem execute_congr (block : ExecutorBlock) (transaction : Transaction) (sender : Address)
    (hequiv : first ≈ second) :
    (first.executeTransaction block transaction sender).1
        = (second.executeTransaction block transaction sender).1 ∧
      (first.executeTransaction block transaction sender).2
        ≈ (second.executeTransaction block transaction sender).2 := by
  rcases executeWithoutCommit_congr block transaction sender hequiv with ⟨hres, hafter⟩
  unfold executeTransaction
  generalize first.executeTransactionWithoutCommit block transaction sender = left at hres hafter
  generalize second.executeTransactionWithoutCommit block transaction sender = right
    at hres hafter
  rcases left with ⟨r, left⟩
  rcases right with ⟨o, right⟩
  dsimp only at hres hafter
  subst hres
  cases r with
  | error error => exact ⟨rfl, hafter⟩
  | ok output =>
    exact ⟨rfl, EquivalentExecutors.commit_congr hafter.1 output, hafter.2⟩

/-- Before Anti-MEV no Envelope is counted. -/
def WellCounted (block : ExecutorBlock) (executor : NeoXBlockExecutor) : Prop :=
  block.antiMevBlock ≤ block.env.number ∨ executor.envelopeCount = 0

omit [Crypto] in
theorem WellCounted.of_equiv (h : first.WellCounted block) (hequiv : first ≈ second) :
    second.WellCounted block :=
  h.imp_right hequiv.2.1.symm.trans

variable {executor next : NeoXBlockExecutor}

omit [EquivalentExecutors] in
theorem wellCounted_of_pre (h0 : executor.envelopeCount = 0)
    (h : executor.applyPreExecutionChanges block = .ok next) : next.WellCounted block := by
  obtain ⟨_, h⟩ := of_bind h
  cases h
  exact .inr h0

variable {transaction : Transaction} {error : BlockExecutionError}

/-- An attempt that fails is not counted: its Envelope, if there was one, is taken off again. -/
theorem attempt_failed {envelope : Bool}
    (h : executor.attemptTransaction block envelope transaction sender = (.error error, next)) :
    next.inner ≈ executor.inner ∧ next.envelopeLimit = executor.envelopeLimit ∧
      next.envelopeCount =
        if envelope then saturatingPred executor.envelopeCount else executor.envelopeCount := by
  unfold attemptTransaction at h
  dsimp only at h
  split at h
  · cases h
  · cases h
    exact ⟨(quiet_checkedExecution block.env transaction sender).after_equiv _, rfl, rfl⟩

/-- A transaction that fails leaves no trace. -/
theorem failedWithoutCommit_equiv (hcnt : executor.WellCounted block)
    (h : executor.executeTransactionWithoutCommit block transaction sender
      = (.error error, next)) : next ≈ executor := by
  unfold executeTransactionWithoutCommit at h
  dsimp only at h
  split at h
  · next hact =>
      split at h
      · cases h
        exact Setoid.refl _
      · next hbelow =>
          rcases attempt_failed h with ⟨hinner, hlim, hc⟩
          rw [if_pos hact.1] at hc
          refine ⟨hinner, hc.trans ?_, hlim⟩
          -- The count is below the limit, so that adding one does not wrap around.
          have hlt : executor.envelopeCount < executor.envelopeLimit := UInt64.not_le.mp hbelow
          have hne : executor.envelopeCount + 1 ≠ 0 := by
            intro h0
            have hwrap := congrArg UInt64.toNat h0
            have hb := executor.envelopeLimit.toNat_lt
            rw [UInt64.lt_iff_toNat_lt] at hlt
            rw [UInt64.toNat_add] at hwrap
            simp at hwrap
            omega
          rw [saturatingPred, if_neg hne, UInt64.add_sub_cancel]
  · next hinac =>
      rcases attempt_failed h with ⟨hinner, hlim, hc⟩
      refine ⟨hinner, hc.trans ?_, hlim⟩
      split
      · next henve =>
          have h0 : executor.envelopeCount = 0 :=
            hcnt.resolve_left fun hact => hinac ⟨henve, hact⟩
          rw [h0]
          rfl
      · rfl

theorem failed_equiv (hcnt : executor.WellCounted block)
    (h : executor.executeTransaction block transaction sender = (.error error, next)) :
    next ≈ executor := by
  unfold executeTransaction at h
  split at h
  · cases h
  · next hfailed =>
      cases h
      exact failedWithoutCommit_equiv hcnt hfailed

omit [Crypto] in
theorem finish_congr (spec : NeoXChainSpec) (block : ExecutorBlock) (hequiv : first ≈ second) :
    first.finish spec block = second.finish spec block := by
  have hpost : Attempt.Respects (postExecutionChanges spec block) := by
    unfold postExecutionChanges
    split
    · exact EquivalentExecutors.post_respects
    · exact (Attempt.quiet_pure _).respects
  have hres := hpost.result_eq hequiv.1
  have hafter := hpost.after_equiv hequiv.1
  unfold finish Attempt.advance
  rw [hres]
  cases (postExecutionChanges spec block).result second.inner with
  | error error => rfl
  | ok requestsHash =>
    rcases EquivalentExecutors.gas_congr hafter with ⟨hamst, hmax, hcumu, hblob⟩
    simp only [Except.map, ok_bind, hamst, hmax, hcumu, hblob,
      EquivalentExecutors.receipts_congr hafter, EquivalentExecutors.bundle_congr hafter]

end NeoXBlockExecutor

/-! ## Execution of what was included -/

/-- The execution that reconstruction uses: an error is only kept as its text. -/
def reconstructionExecute (block : ExecutorBlock) : Execute NeoXBlockExecutor :=
  fun executor transaction sender =>
    match executor.executeTransaction block transaction sender with
    | (.ok (), next) => (.ok (), next)
    | (.error error, next) => (.error (BlockEvm.display error), next)

variable {block : ExecutorBlock} {executor next : NeoXBlockExecutor} {transaction : Transaction}

omit [EquivalentExecutors] in
theorem executeTransaction_of_ok
    (h : reconstructionExecute block executor transaction sender = (.ok (), next)) :
    executor.executeTransaction block transaction sender = (.ok (), next) := by
  unfold reconstructionExecute at h
  split at h
  · next hexec =>
      cases h
      exact hexec
  · cases h

theorem failedAttempts_equiv (hcnt : executor.WellCounted block)
    (h : Relation.ReflTransGen (FailedAttempt (reconstructionExecute block)) executor next) :
    next ≈ executor := by
  induction h with
  | refl => exact Setoid.refl _
  | tail _ hl ih =>
    rcases hl with ⟨transaction, sender, error, hfailed⟩
    unfold reconstructionExecute at hfailed
    split at hfailed
    · cases hfailed
    · next hexec =>
        cases hfailed
        have hmid := hcnt.of_equiv (Setoid.symm ih)
        exact Setoid.trans (NeoXBlockExecutor.failed_equiv hmid hexec) ih

omit [EquivalentExecutors] in
theorem executeAll_append {txs : List (Transaction × Address)} {mid : NeoXBlockExecutor}
    (h : executeAll block txs executor = .ok mid)
    (hl : mid.executeTransaction block transaction sender = (.ok (), next)) :
    executeAll block (txs ++ [(transaction, sender)]) executor = .ok next := by
  unfold executeAll at h ⊢
  rw [List.foldlM_append, h, ok_bind, List.foldlM_cons, hl]
  rfl

omit [EquivalentExecutors] in
theorem wellCounted_executeTransaction (hcnt : executor.WellCounted block)
    (h : executor.executeTransaction block transaction sender = (.ok (), next)) :
    next.WellCounted block := by
  by_cases hact : block.antiMevBlock ≤ block.env.number
  · exact .inl hact
  · refine .inr ?_
    have h0 := hcnt.resolve_left hact
    unfold NeoXBlockExecutor.executeTransaction at h
    split at h
    · next output mid hexec =>
        cases h
        unfold NeoXBlockExecutor.executeTransactionWithoutCommit at hexec
        dsimp only at hexec
        rw [if_neg (fun hboth => hact hboth.2)] at hexec
        unfold NeoXBlockExecutor.attemptTransaction at hexec
        dsimp only at hexec
        split at hexec
        · cases hexec
          exact h0
        · cases hexec
    · cases h

/-- The transactions that a replay included, executed alone by an equivalent executor, are accepted
and lead to an equivalent executor. -/
theorem executeAll_of_replayed {rs : FiniteMap Nat AntiMevEnvelopeResolution} {start : Nat}
    {outers : List (Transaction × Address)} {decisions : List AntiMevTransactionDecision}
    {before after : Replay NeoXBlockExecutor} {fresh alone : NeoXBlockExecutor}
    (h : Replayed (reconstructionExecute block) rs start outers decisions before after)
    (hcnt : before.execution.WellCounted block)
    (hsame : before.sequence.transactions.length = before.sequence.senders.length)
    (halone : executeAll block
      (before.sequence.transactions.zip before.sequence.senders) fresh = .ok alone)
    (hequiv : before.execution ≈ alone) :
    ∃ final, executeAll block (after.sequence.transactions.zip after.sequence.senders) fresh
      = .ok final ∧ after.execution ≈ final := by
  induction h generalizing alone with
  | nil => exact ⟨alone, halone, hequiv⟩
  | cons h1 _ ih =>
    cases h1 with
    | @included decision transaction attempted hfresh hi hincl hsel hatte
        hexec hseq =>
        have hatt := failedAttempts_equiv hcnt hatte
        have hokay := executeTransaction_of_ok hexec
        have hcounts := hcnt.of_equiv (Setoid.symm hatt)
        -- The executor that saw no failed attempt accepts the transaction as well.
        rcases NeoXBlockExecutor.execute_congr block transaction _
          (Setoid.trans hatt hequiv) with ⟨hres, hafter⟩
        rw [hokay] at hres hafter
        have hn : alone.executeTransaction block transaction _
            = (.ok (), (alone.executeTransaction block transaction _).2) :=
          Prod.ext hres.symm rfl
        have happe := executeAll_append halone hn
        refine ih (wellCounted_executeTransaction hcounts hokay) ?_ ?_ hafter
        · rw [hseq]
          simp only [ReconstructedSequence.include, List.length_append, List.length_singleton,
            hsame]
        · rw [hseq]
          simp only [ReconstructedSequence.include]
          rwa [List.zip_append hsame]
    | dropped hatte hseq =>
      have hatt := failedAttempts_equiv hcnt hatte
      rw [hseq] at ih
      exact ih (hcnt.of_equiv (Setoid.symm hatt)) hsame halone
        (Setoid.trans hatt hequiv)

end Equivalence

end Executor

/-! ## A chain with plain transactions -/

namespace PlainChain

/-- Hashes that tell byte strings apart by their length and the sum of their bytes. -/
scoped instance crypto : Crypto where
  keccak256 bytes := .ofNat 32 (bytes.length * 65536 + (bytes.map UInt8.toNat).sum)
  recoverAddress _ _ _ := none
  validG1 _ := true
  validG2 _ := true
  keyValidate _ := true
  sigValidate _ := true
  blsVerify _ _ _ := true
  interpolateSignatureShares _ _ := .zero 96

scoped instance curve : Curve := ScalarCurve.curve

/-- A transaction that names its sender. -/
structure PlainTransaction where
  sender : Address
  nonce : UInt64
  gasLimit : UInt64
  price : BitVec 128
  target : Option Address
  input : Bytes
  deriving DecidableEq

scoped instance poolFormat : PoolFormat where
  Transaction := PlainTransaction
  ty _ := 0
  target := PlainTransaction.target
  input := PlainTransaction.input
  nonce := PlainTransaction.nonce
  gasLimit := PlainTransaction.gasLimit
  maxFeePerGas := PlainTransaction.price
  priorityFeeOrPrice := PlainTransaction.price
  txHash transaction := .ofNat 32 transaction.nonce.toNat
  recoverSigner transaction := some transaction.sender
  decode2718Exact _ := none
  encode2718Len transaction := transaction.input.length
  isCreate _ := false
  value _ := 0
  maxPriorityFeePerGas _ := none
  accessList _ := none
  authorizationList _ := none
  blobCount _ := none

scoped instance gasRules : GasRules where
  calculateInitialTxGas _ _ _ _ _ _ _ := (21000, 0)
  nextBlockExcessBlobGasOsaka _ _ _ _ := 0

/-- An executor that reads the parent state and keeps the gas of the transactions. -/
structure PlainExecutor where
  state : StateProvider
  gas : List UInt64

/-- Every transaction uses the gas of a transfer and changes no storage. -/
scoped instance blockEvm : BlockEvm where
  Executor := PlainExecutor
  Output := UInt64
  SystemOutput := Unit
  Bundle := Unit
  BlockReceipt := UInt64
  create state _ _ := ⟨state, []⟩
  storage address key := fun executor =>
    ((executor.state.storage address key).map fun word => word.getD 0, executor)
  applyPreExecutionChanges := pure ()
  transactSystemCall _ _ _ := pure ()
  isSuccess _ := true
  commitState executor _ := executor
  executeTransactionWithoutCommit _ _ := pure 21000
  commitTransaction executor gas := { executor with gas := executor.gas ++ [gas] }
  appendPostExecutionChanges := pure (.zero 32)
  emptyRequestsHash := .zero 32
  receipts := PlainExecutor.gas
  enableAmsterdamEip8037 _ := false
  maxBlockGasUsed _ := 0
  cumulativeTxGasUsed executor := executor.gas.sum
  blobGasUsed _ := 0
  takeBundle _ := ()
  bundleStorage _ _ _ := none
  stateRoot _ _ := .ok (.zero 32)
  cumulativeGasUsed gas := gas
  calculateReceiptRoot _ := .zero 32
  logsBloom _ := .zero 256
  calculateTransactionRoot _ := .zero 32
  display _ := "invalid"

scoped instance sameExecutor : Setoid (BlockEvm.Executor) := ⟨Eq, eq_equivalence⟩

scoped instance equivalentExecutors : EquivalentExecutors where
  equivalent := sameExecutor
  create_equiv _ _ _ _ _ := rfl
  storage_quiet _ _ := ⟨fun heq => heq ▸ rfl, fun _ => rfl⟩
  pre_respects := (Attempt.quiet_pure _).respects
  systemCall_quiet _ _ _ := Attempt.quiet_pure _
  commitState_congr heq _ := heq
  execute_quiet _ _ := Attempt.quiet_pure _
  commit_congr heq _ := heq ▸ rfl
  post_respects := (Attempt.quiet_pure _).respects
  receipts_congr heq := heq ▸ rfl
  gas_congr heq := heq ▸ ⟨rfl, rfl, rfl, rfl⟩
  bundle_congr _ := rfl

def addressWord (address : Address) : U256 := BitVec.ofNat 256 address.toNat

/-- Storage of the governance contract for a validator set. -/
def governanceWord (validators : List Address) (key : U256) : Option U256 :=
  let base := dynamicArrayElementStorageKey governanceCurrentConsensusSlot 0
  if key = BitVec.ofNat 256 governanceCurrentConsensusSlot then
    some (BitVec.ofNat 256 validators.length)
  else if base ≤ key then
    (validators[(key - base).toNat]?).map addressWord
  else
    none

/-- Storage of the key management contract in a round whose commitment is the generator. Other
rounds have no commitment. -/
def keyManagementWord (round key : U256) : Option U256 :=
  let commitment := uintMappingStorageKey keyManagementAggregatedCommitmentsSlot round
  if key = BitVec.ofNat 256 keyManagementRoundNumberSlot then some round
  else if key = commitment then some 257
  else if key = wordOfBytes (keccak256 (bytesOfWord commitment)).bytes + 3 then some 2
  else none

def policyWord (key : U256) : Option U256 :=
  if key = policyStorageKey policyMaxEnvelopesPerBlockSlot then some 10
  else if key = policyStorageKey policyMaxEnvelopeGasLimitSlot then some 1000000
  else none

/-- A state with a DKG round and a validator set, in which every account is rich. -/
def plainState (round : U256) (validators : List Address) : StateProvider where
  basicAccount _ := .ok (some ⟨0, 1000000000, false⟩)
  bytecode _ := .ok []
  storage address key := .ok (
    if address = governanceProxyAddress then governanceWord validators key
    else if address = keyManagementProxyAddress then keyManagementWord round key
    else if address = policyProxyAddress then policyWord key
    else none)
  blockHash _ := .ok none

end PlainChain

end NeoX
