import NeoX.Consensus.Validation
import NeoX.Node.Execution

/-!
# The consensus engine

The rules for headers and blocks that do not need the contract state: those of Ethereum that Neo X
keeps, and its own. Every check stands where the source makes it.

Main results:

- `NeoXConsensus.validateProposalHeader_spec`: what an accepted proposal header looks
  like.
- `validateBlockPreExecution_spec`: an accepted body is the one that the
  header commits to.
- `validateBlockPostExecution_spec`: accepted results are the ones that
  the header commits to.
-/

namespace NeoX

open Except hiding ok error

/-! ## Constants -/

def emptyRootHash : B256 :=
  .ofNat 32 0x56e81f171bcc55a6ff8345e692c0f86e5b48e01b996cadc001622fb5e363b421

def emptyOmmerRootHash : B256 :=
  .ofNat 32 0x1dcc4de8dec75d7aab85b567b6ccd41ad312451b948a7413f0a142fd40d49347

def emptyRequestsHash : B256 :=
  .ofNat 32 0xe3b0c44298fc1c149afbf4c8996fb92427ae41e4649b934ca495991b7852b855

def maximumGasLimitBlock : UInt64 := UInt64.ofNat (2 ^ 63 - 1)
def minimumGasLimit : UInt64 := 5000
def gasLimitBoundDivisor : UInt64 := 1024
def dataGasPerBlob : UInt64 := 131072
def maxRlpBlockSize : Nat := 8388608
def allowedFutureBlockTimeSeconds : Nat := 15

def BlobParams.cancun : BlobParams where
  targetBlobCount := 3
  maxBlobCount := 6
  updateFraction := 3338477
  minBlobFee := 1
  maxBlobsPerTx := 6
  blobBaseCost := 0

/-- The largest extra data for a number of validators. -/
def maxDbftExtraDataSize (validatorCount : Nat) : Nat :=
  hashableExtraV1Len + validatorCount * 20 + bftHonestNodeCount validatorCount * ecdsaSignatureLen

/-! ## Errors -/

/-- Why a header or a block is not valid. -/
inductive ConsensusError where
  | extraDataExceedsMax (length : Nat)
  | headerGasUsedExceedsGasLimit (gasUsed gasLimit : UInt64)
  | headerGasLimitExceedsMax (gasLimit : UInt64)
  | baseFeeMissing
  | withdrawalsRootMissing
  | withdrawalsRootUnexpected
  | blobGasUsedMissing
  | blobGasUsedUnexpected
  | blobGasUsedNotMultipleOfBlobGasPerBlob (blobGasUsed : UInt64)
  | blobGasUsedExceedsMaxBlobGasPerBlock (blobGasUsed maximum : UInt64)
  | blobGasUsedDiff (got expected : UInt64)
  | excessBlobGasMissing
  | excessBlobGasUnexpected
  | excessBlobGasDiff (got expected parentExcess parentUsed : UInt64)
  | parentBeaconBlockRootMissing
  | parentBeaconBlockRootUnexpected
  | requestsHashMissing
  | requestsHashUnexpected
  | blockAccessListHashMissing
  | blockAccessListHashUnexpected
  | slotNumberMissing
  | slotNumberUnexpected
  | theMergeDifficultyIsNotZero
  | theMergeNonceIsNotZero
  | theMergeOmmerRootIsNotEmpty
  | timestampIsInFuture (timestamp present : UInt64)
  | timestampIsInPast (parent timestamp : UInt64)
  | parentHashMismatch (got expected : B256)
  | parentBlockNumberMismatch (parent number : UInt64)
  | gasLimitInvalidIncrease (parent child : UInt64)
  | gasLimitInvalidDecrease (parent child : UInt64)
  | gasLimitInvalidMinimum (child : UInt64)
  | bodyOmmersHashDiff (got expected : B256)
  | bodyWithdrawalsMissing
  | bodyWithdrawalsUnexpected
  | bodyWithdrawalsRootDiff (got expected : B256)
  | bodyTransactionRootDiff (got expected : B256)
  | blockTooLarge (length : Nat)
  | blockGasUsed (got expected : UInt64) (spent : List UInt64)
  | bodyReceiptRootDiff (got expected : B256)
  | bodyBloomLogDiff (got expected : FixedBytes 256)
  | bodyRequestsHashDiff (got expected : B256)
  | dbft (error : DbftValidationError)
  | systemTimeBeforeUnixEpoch
  | unexpectedExtraVersion (expected actual : ExtraVersion)
  | thresholdBeforeAntiMev
  | invalidProposalExtraLength (expected actual : Nat)
  | thresholdParentReseal
  | parentSealHashMismatch (expected actual : B256)
  | parentResealHashMismatch (expected actual : B256)
  | emptyNextConsensus
  | invalidOmmersHash (hash : B256)
  | invalidDifficulty (difficulty : U256)
  | invalidWithdrawalsRoot (root : Option B256)
  | invalidParentBeaconRoot (root : Option B256)
  | invalidRequestsHash (hash : Option B256)
  | invalidCoinbase (expected actual : Address)
  deriving DecidableEq

/-! ## Rules of Ethereum -/

def validateHeaderExtraData (header : Header) (maxSize : Nat) : Except ConsensusError Unit :=
  require (header.extraData.length ≤ maxSize) (.extraDataExceedsMax header.extraData.length)

/-- The gas of a header is within its limit, and the limit is within the largest one. -/
def validateHeaderGas (header : Header) : Except ConsensusError Unit := do
  require (header.gasUsed ≤ header.gasLimit)
    (.headerGasUsedExceedsGasLimit header.gasUsed header.gasLimit)
  require (header.gasLimit ≤ maximumGasLimitBlock)
    (.headerGasLimitExceedsMax header.gasLimit)

def validateHeaderBaseFee (spec : NeoXChainSpec) (header : Header) : Except ConsensusError Unit :=
  require (spec.londonActiveAtBlock header.number → header.baseFeePerGas.isSome)
    .baseFeeMissing

def validate4844HeaderStandalone (header : Header) (params : BlobParams) :
    Except ConsensusError Unit := do
  let blobGasUsed ← ofOption .blobGasUsedMissing header.blobGasUsed
  require header.parentBeaconBlockRoot.isSome .parentBeaconBlockRootMissing
  require (blobGasUsed % dataGasPerBlob = 0)
    (.blobGasUsedNotMultipleOfBlobGasPerBlob blobGasUsed)
  let maximum := params.maxBlobCount * dataGasPerBlob
  require (blobGasUsed ≤ maximum) (.blobGasUsedExceedsMaxBlobGasPerBlock blobGasUsed maximum)

def validateWithdrawalsField (spec : NeoXChainSpec) (header : Header) :
    Except ConsensusError Unit :=
  if spec.shanghaiActiveAtTimestamp header.timestamp then
    require header.withdrawalsRoot.isSome .withdrawalsRootMissing
  else
    require header.withdrawalsRoot.isNone .withdrawalsRootUnexpected

def validateBlobFields (spec : NeoXChainSpec) (header : Header) : Except ConsensusError Unit :=
  if spec.cancunActiveAtTimestamp header.timestamp then
    validate4844HeaderStandalone header
      ((spec.blobParamsAtTimestamp header.timestamp).getD .cancun)
  else do
    require header.blobGasUsed.isNone .blobGasUsedUnexpected
    require header.excessBlobGas.isNone .excessBlobGasUnexpected
    require header.parentBeaconBlockRoot.isNone .parentBeaconBlockRootUnexpected

def validateRequestsField (spec : NeoXChainSpec) (header : Header) : Except ConsensusError Unit :=
  if spec.pragueActiveAtTimestamp header.timestamp then
    require header.requestsHash.isSome .requestsHashMissing
  else
    require header.requestsHash.isNone .requestsHashUnexpected

def validateAccessListFields (spec : NeoXChainSpec) (header : Header) :
    Except ConsensusError Unit :=
  if spec.amsterdamActiveAtTimestamp header.timestamp then do
    require header.blockAccessListHash.isSome .blockAccessListHashMissing
    require header.slotNumber.isSome .slotNumberMissing
  else do
    require header.blockAccessListHash.isNone .blockAccessListHashUnexpected
    require header.slotNumber.isNone .slotNumberUnexpected

def validateForkFields (spec : NeoXChainSpec) (header : Header) : Except ConsensusError Unit := do
  validateWithdrawalsField spec header
  validateBlobFields spec header
  validateRequestsField spec header
  validateAccessListFields spec header

section Headers

variable [Crypto]

def Header.hash (header : Header) : B256 := keccak256 header.encode

def validateAgainstParentHashNumber (header parent : Header) : Except ConsensusError Unit := do
  require (parent.hash = header.parentHash)
    (.parentHashMismatch header.parentHash parent.hash)
  require (parent.number ≠ UInt64.ofNat (2 ^ 64 - 1))
    (.parentBlockNumberMismatch parent.number (UInt64.ofNat (2 ^ 64 - 1)))
  require (parent.number + 1 = header.number)
    (.parentBlockNumberMismatch parent.number header.number)

end Headers

/-- The gas limit of the parent that the bound is taken from; London raises it once. -/
def parentGasLimit (spec : NeoXChainSpec) (header parent : Header) : UInt64 :=
  if ¬spec.londonActiveAtBlock parent.number ∧ spec.londonActiveAtBlock header.number then
    parent.gasLimit * spec.elasticityMultiplierAtTimestamp header.timestamp
  else
    parent.gasLimit

def validateGasLimitStep (bound gasLimit : UInt64) : Except ConsensusError Unit :=
  if bound < gasLimit then
    require (gasLimit - bound < bound / gasLimitBoundDivisor)
      (.gasLimitInvalidIncrease bound gasLimit)
  else
    require (bound - gasLimit < bound / gasLimitBoundDivisor)
      (.gasLimitInvalidDecrease bound gasLimit)

/-- The gas limit does not move too far from that of the parent. -/
def validateAgainstParentGasLimit (spec : NeoXChainSpec) (header parent : Header) :
    Except ConsensusError Unit := do
  validateGasLimitStep (parentGasLimit spec header parent) header.gasLimit
  require (minimumGasLimit ≤ header.gasLimit) (.gasLimitInvalidMinimum header.gasLimit)

/-- The blob fields follow from those of the parent. -/
def validateAgainstParent4844 [GasRules] (header parent : Header) (params : BlobParams) :
    Except ConsensusError Unit := do
  let parentBlobGasUsed := parent.blobGasUsed.getD 0
  let parentExcessBlobGas := parent.excessBlobGas.getD 0
  require header.blobGasUsed.isSome .blobGasUsedMissing
  let excessBlobGas ← ofOption .excessBlobGasMissing header.excessBlobGas
  let expected := GasRules.nextBlockExcessBlobGasOsaka params parentExcessBlobGas parentBlobGasUsed
    (parent.baseFeePerGas.getD 0)
  require (expected = excessBlobGas)
    (.excessBlobGasDiff excessBlobGas expected parentExcessBlobGas parentBlobGasUsed)

/-! ## Blocks -/

variable {spec : NeoXChainSpec} {done : Unit} {header : Header}

section Blocks

variable [PoolFormat]

def blobGas (transaction : Transaction) : UInt64 :=
  ((PoolFormat.blobCount transaction).map (· * dataGasPerBlob)).getD 0

def bodyBlobGasUsed (transactions : List Transaction) : UInt64 :=
  (transactions.map blobGas).sum

/-- The length of a list or string with its RLP header. -/
def rlpLength (list : Bool) (payload : Nat) : Nat :=
  (Rlp.encodeHeader list payload).length + payload

/-- The length of a transaction in a block: a typed transaction is a string. -/
def transactionLength (transaction : Transaction) : Nat :=
  let length := PoolFormat.encode2718Len transaction
  if TransactionFormat.ty transaction = 0 then length else rlpLength false length

/-- The length of a block; the lists of ommers and withdrawals are empty. -/
def blockRlpLength (block : Block) : Nat :=
  rlpLength true (block.header.encode.length +
    rlpLength true (block.transactions.map transactionLength).sum + 1 +
      if block.withdrawals then 1 else 0)

/-- The list of withdrawals, which is empty, is the one of the header. -/
def validateShanghaiWithdrawals (block : Block) : Except ConsensusError Unit := do
  require block.withdrawals .bodyWithdrawalsMissing
  let root ← ofOption .withdrawalsRootMissing block.header.withdrawalsRoot
  require (emptyRootHash = root) (.bodyWithdrawalsRootDiff emptyRootHash root)

/-- The blob gas of the header is that of its transactions. -/
def validateCancunGas (block : Block) : Except ConsensusError Unit := do
  let used ← ofOption .blobGasUsedMissing block.header.blobGasUsed
  let total := bodyBlobGasUsed block.transactions
  require (total = used) (.blobGasUsedDiff used total)

def validateBodyWithdrawals (spec : NeoXChainSpec) (block : Block) : Except ConsensusError Unit :=
  if spec.shanghaiActiveAtTimestamp block.header.timestamp then
    validateShanghaiWithdrawals block
  else
    require (block.withdrawals = false) .bodyWithdrawalsUnexpected

def validateBodyBlobGas (spec : NeoXChainSpec) (block : Block) : Except ConsensusError Unit :=
  if spec.cancunActiveAtTimestamp block.header.timestamp then validateCancunGas block else .ok ()

/-- The fields of a body that forks add. -/
def postMergeHardforkFields (spec : NeoXChainSpec) (block : Block) :
    Except ConsensusError Unit := do
  let header := block.header
  require (header.ommersHash = emptyOmmerRootHash)
    (.bodyOmmersHashDiff emptyOmmerRootHash header.ommersHash)
  validateBodyWithdrawals spec block
  validateBodyBlobGas spec block
  require (spec.osakaActiveAtTimestamp header.timestamp →
    blockRlpLength block ≤ maxRlpBlockSize) (.blockTooLarge (blockRlpLength block))

variable [BlockEvm]

def validateBlockPreExecution (spec : NeoXChainSpec) (block : Block) :
    Except ConsensusError Unit := do
  postMergeHardforkFields spec block
  let root := BlockEvm.calculateTransactionRoot block.transactions
  require (root = block.header.transactionsRoot)
    (.bodyTransactionRootDiff root block.header.transactionsRoot)

def verifyReceipts (header : Header) (receipts : List BlockEvm.BlockReceipt) :
    Except ConsensusError Unit := do
  let root := BlockEvm.calculateReceiptRoot receipts
  let bloom := BlockEvm.logsBloom receipts
  require (root = header.receiptsRoot) (.bodyReceiptRootDiff root header.receiptsRoot)
  require (bloom = header.logsBloom) (.bodyBloomLogDiff bloom header.logsBloom)

/-- The receipts are only compared from Byzantium on. -/
def validateReceipts (spec : NeoXChainSpec) (header : Header)
    (receipts : List BlockEvm.BlockReceipt) : Except ConsensusError Unit :=
  if spec.byzantiumActiveAtBlock header.number then verifyReceipts header receipts else .ok ()

def validateRequests (spec : NeoXChainSpec) (header : Header) (actual : B256) :
    Except ConsensusError Unit :=
  if spec.pragueActiveAtTimestamp header.timestamp then do
    let requestsHash ← ofOption .requestsHashMissing header.requestsHash
    require (actual = requestsHash) (.bodyRequestsHashDiff actual requestsHash)
  else
    .ok ()

/-- The results belong to the header. No access list of the block is given, so that no block is
accepted from Amsterdam on. -/
def validateBlockPostExecution (spec : NeoXChainSpec) (header : Header)
    (result : BlockExecutionResult BlockEvm.BlockReceipt) : Except ConsensusError Unit := do
  require (header.gasUsed = result.gasUsed)
    (.blockGasUsed result.gasUsed header.gasUsed (result.receipts.map BlockEvm.cumulativeGasUsed))
  validateReceipts spec header result.receipts
  validateRequests spec header result.requestsHash
  require (spec.amsterdamActiveAtTimestamp header.timestamp = false)
    .blockAccessListHashMissing

/-- An accepted body has the transactions and the blob gas of the header. -/
theorem validateBlockPreExecution_spec {block : Block}
    (h : validateBlockPreExecution spec block = .ok done) :
    BlockEvm.calculateTransactionRoot block.transactions = block.header.transactionsRoot ∧
      (spec.cancunActiveAtTimestamp block.header.timestamp = true →
        block.header.blobGasUsed = some (bodyBlobGasUsed block.transactions)) := by
  rcases bind_ok h with ⟨_, hfields, hroot⟩
  refine ⟨require_eq_ok.mp hroot, ?_⟩
  intro hcancun
  obtain ⟨_, hfields⟩ := of_bind hfields
  obtain ⟨_, hfields⟩ := of_bind hfields
  rcases bind_ok hfields with ⟨_, hgas, -⟩
  rw [validateBodyBlobGas, if_pos hcancun] at hgas
  obtain ⟨used, hused, htot⟩ := ofOption_bind hgas
  rw [hused, require_eq_ok.mp htot]

/-- Accepted results have the gas of the header and, from Byzantium on, its receipts. -/
theorem validateBlockPostExecution_spec {r : BlockExecutionResult BlockEvm.BlockReceipt}
    (h : validateBlockPostExecution spec header r = .ok done) :
    header.gasUsed = r.gasUsed ∧
      (spec.byzantiumActiveAtBlock header.number = true →
        BlockEvm.calculateReceiptRoot r.receipts = header.receiptsRoot ∧
          BlockEvm.logsBloom r.receipts = header.logsBloom) := by
  obtain ⟨hgas, h⟩ := require_bind h
  refine ⟨hgas, ?_⟩
  intro hbyza
  rcases bind_ok h with ⟨_, hrece, -⟩
  rw [validateReceipts, if_pos hbyza] at hrece
  obtain ⟨hroot, hbloom⟩ := require_bind hrece
  exact ⟨hroot, require_eq_ok.mp hbloom⟩

end Blocks

/-! ## Rules of Neo X -/

namespace NeoXConsensus

/-- The version and the scheme of the extra data are allowed at a height. -/
def validateExtraActivation (spec : NeoXChainSpec) (height : UInt64) (version : ExtraVersion)
    (scheme : SignatureScheme) : Except ConsensusError Unit := do
  let expected := spec.extraVersionAtBlock height
  require (version = expected) (.unexpectedExtraVersion expected version)
  require (spec.isAntiMevActiveAtBlock height ∨ scheme ≠ .threshold) .thresholdBeforeAntiMev

def validateNeoxHeaderFields (spec : NeoXChainSpec) (header : Header) (isSealed : Bool) :
    Except ConsensusError Unit := do
  require (¬(isSealed ∧ header.extraData.head? = some ExtraVersion.v0.toByte ∧
    header.mixHash = .zero 32)) .emptyNextConsensus
  require (header.ommersHash = emptyOmmerRootHash) (.invalidOmmersHash header.ommersHash)
  require (0 < header.number → header.difficulty = difficultyOutOfTurn ∨
    header.difficulty = difficultyInTurn) (.invalidDifficulty header.difficulty)
  require (header.withdrawalsRoot
    = if spec.shanghaiActiveAtTimestamp header.timestamp then some emptyRootHash else none)
    (.invalidWithdrawalsRoot header.withdrawalsRoot)
  require (spec.cancunActiveAtTimestamp header.timestamp →
    header.parentBeaconBlockRoot = some emptyRootHash)
    (.invalidParentBeaconRoot header.parentBeaconBlockRoot)
  require (spec.pragueActiveAtTimestamp header.timestamp →
    header.requestsHash = some emptyRequestsHash) (.invalidRequestsHash header.requestsHash)

/-- A sealed header under the rules of Neo X. -/
def validateNeoxHeader (spec : NeoXChainSpec) (header : Header) : Except ConsensusError Unit := do
  let extra ← (DbftExtra.decode header.extraData spec.standbyValidators.length).mapError
    fun error => .dbft (.extra error)
  validateExtraActivation spec header.number extra.version extra.signatureScheme
  validateNeoxHeaderFields spec header true

/-- A proposed header under the rules of Neo X: it has no seal yet. -/
def validateNeoxProposalHeader (spec : NeoXChainSpec) (header : Header) :
    Except ConsensusError Unit := do
  let extra ← (DbftExtraPrefix.decode header.extraData).mapError fun error => .dbft (.extra error)
  let expected := extra.version.prefixLen
  require (header.extraData.length = expected)
    (.invalidProposalExtraLength expected header.extraData.length)
  validateExtraActivation spec header.number extra.version extra.signatureScheme
  validateNeoxHeaderFields spec header false

/-- A proposed header under the rules of Ethereum. The clock is not read. -/
def validateEthereumProposalHeader (spec : NeoXChainSpec) (header : Header) :
    Except ConsensusError Unit := do
  validateHeaderExtraData header (maxDbftExtraDataSize spec.standbyValidators.length)
  validateHeaderGas header
  validateHeaderBaseFee spec header
  validateForkFields spec header

/-- The rules of the merge, and those before it. -/
def validateMergeFields (spec : NeoXChainSpec) (present : UInt64) (header : Header) :
    Except ConsensusError Unit :=
  if spec.parisActiveAtBlock header.number then do
    require (header.difficulty = 0) .theMergeDifficultyIsNotZero
    require (header.nonce = .zero 8) .theMergeNonceIsNotZero
    require (header.ommersHash = emptyOmmerRootHash) .theMergeOmmerRootIsNotEmpty
  else
    require (header.timestamp.toNat ≤ present.toNat + allowedFutureBlockTimeSeconds)
      (.timestampIsInFuture header.timestamp present)

/-- A sealed header under the rules of Ethereum at a time. -/
def validateEthereumHeader (spec : NeoXChainSpec) (present : UInt64) (header : Header) :
    Except ConsensusError Unit := do
  validateMergeFields spec present header
  validateHeaderExtraData header (maxDbftExtraDataSize spec.standbyValidators.length)
  validateHeaderGas header
  validateHeaderBaseFee spec header
  validateForkFields spec header

/-- A sealed header. The clock has no value before the epoch. -/
def validateHeader (spec : NeoXChainSpec) (now : Option UInt64) (header : Header) :
    Except ConsensusError Unit := do
  let present ← ofOption .systemTimeBeforeUnixEpoch now
  require (header.timestamp ≤ present) (.timestampIsInFuture header.timestamp present)
  validateEthereumHeader spec present header
  validateNeoxHeader spec header

theorem validateForkFields_spec (h : validateForkFields spec header = .ok done)
    (hcancun : spec.cancunActiveAtTimestamp header.timestamp = false) :
    header.blobGasUsed = none := by
  obtain ⟨_, h⟩ := of_bind h
  rcases bind_ok h with ⟨_, hblob, -⟩
  rw [validateBlobFields, hcancun, if_neg Bool.false_ne_true] at hblob
  obtain ⟨hno, -⟩ := require_bind hblob
  exact Option.isNone_iff_eq_none.mp hno

variable [Crypto] [GasRules]

def validateParentBlobFields (spec : NeoXChainSpec) (header parent : Header) :
    Except ConsensusError Unit :=
  match spec.blobParamsAtTimestamp header.timestamp with
  | some params => validateAgainstParent4844 header parent params
  | none => .ok ()

def validateNeoxHeaderAgainstParentFields (spec : NeoXChainSpec) (header parent : Header) :
    Except ConsensusError Unit := do
  validateAgainstParentHashNumber header parent
  require (parent.timestamp ≤ header.timestamp)
    (.timestampIsInPast parent.timestamp header.timestamp)
  validateAgainstParentGasLimit spec header parent
  validateParentBlobFields spec header parent
  require (header.beneficiary = spec.coinbase)
    (.invalidCoinbase spec.coinbase header.beneficiary)

def validateHeaderAgainstParent (spec : NeoXChainSpec) (header parent : Header) :
    Except ConsensusError Unit := do
  validateNeoxHeaderAgainstParentFields spec header parent
  discard ((NeoX.validateHeader header parent spec.standbyValidators.length
    spec.standbyValidators.length).mapError .dbft)

def validateProposalHeader (spec : NeoXChainSpec) (header parent : Header)
    (expectedPrimary : UInt8) : Except ConsensusError Unit := do
  validateEthereumProposalHeader spec header
  validateNeoxProposalHeader spec header
  validateNeoxHeaderAgainstParentFields spec header parent
  (validateProposalPrimary header expectedPrimary spec.standbyValidators.length).mapError .dbft

/-- What an accepted proposal header looks like: its extra data is a bare prefix of the version of
its height, and it has no blob gas before Cancun. -/
theorem validateProposalHeader_spec {parent : Header} {expectedPrimary : UInt8}
    (h : validateProposalHeader spec header parent expectedPrimary = .ok done) :
    (∃ extra, DbftExtraPrefix.decode header.extraData = .ok extra ∧
      header.extraData.length = extra.version.prefixLen ∧
      extra.version = spec.extraVersionAtBlock header.number) ∧
    (spec.cancunActiveAtTimestamp header.timestamp = false → header.blobGasUsed = none) := by
  rcases bind_ok h with ⟨_, hethe, h⟩
  rcases bind_ok h with ⟨_, hneox, -⟩
  constructor
  · obtain ⟨extra, hx, hneox⟩ := mapError_bind hneox
    obtain ⟨hlen, hneox⟩ := require_bind hneox
    rcases bind_ok hneox with ⟨_, hacti, -⟩
    obtain ⟨hver, -⟩ := require_bind hacti
    exact ⟨extra, hx, hlen, hver⟩
  · obtain ⟨_, hethe⟩ := of_bind hethe
    obtain ⟨_, hethe⟩ := of_bind hethe
    rcases bind_ok hethe with ⟨_, -, hforks⟩
    exact validateForkFields_spec hforks

/-- The parent with another ECDSA witness for the same seal hash. -/
def validateParentReseal (spec : NeoXChainSpec) (now : Option UInt64)
    (canonicalParent grandparent : Header) (expectedSealHash : B256) (parentExtra : Bytes)
    (expectedParentHash : B256) : Except ConsensusError Header := do
  let canonicalExtra ← (DbftExtra.decode canonicalParent.extraData
    spec.standbyValidators.length).mapError fun error => .dbft (.extra error)
  require (canonicalExtra.signatureScheme = .ecdsa) .thresholdParentReseal
  let actualSealHash ← (ecdsaSealHash canonicalParent).mapError fun error => .dbft (.extra error)
  require (actualSealHash = expectedSealHash)
    (.parentSealHashMismatch actualSealHash expectedSealHash)
  let resealed := { canonicalParent with extraData := parentExtra }
  require (resealed.hash = expectedParentHash)
    (.parentResealHashMismatch expectedParentHash resealed.hash)
  validateHeader spec now resealed
  validateHeaderAgainstParent spec resealed grandparent
  .ok resealed

end NeoXConsensus

end NeoX
