import NeoX.Node.ConsensusEngine

/-!
# Verification of a proposal

What a backup checks before it answers a proposal: the transactions and their sidecars, the header
against its parent, the static pool, the Envelopes, execution from the parent state, and the
commitments to the next consensus that follow from the state after it.

Main results:

- `verifyProposal_spec`: what is known of a proposal that was accepted.
- `applyNextConsensusCommitments_eq`: the commitments of an accepted header are those
  that its own state after execution gives.
- `NeoXConsensus.validateParentReseal_iff`: when a resealed parent differs from the
  canonical one in its seal only.
-/

namespace NeoX

open Except hiding ok error

/-! ## Next consensus -/

section NextConsensus

variable [Crypto] [PoolFormat] [BlockEvm]

/-- The fallback commitment of the extra data, which V0 does not have. -/
def fallbackCommitment (version : ExtraVersion) (validators : List Address) : Option B256 :=
  if version = .v0 then none else some (nextConsensusHash validators)

/-- The commitment of the mix hash: the key of the next round, or nothing when it can not be read,
or the validators before Anti-MEV. -/
def expectedNextConsensus (nextAntiMev : Bool) (nextKey : Option G1Bytes)
    (validators : List Address) : B256 :=
  match nextKey with
  | some key => keccak256 key.bytes
  | none => if nextAntiMev then .zero 32 else nextConsensusHash validators

/-- Write the commitments to the next consensus into a header. -/
def applyNextConsensusCommitments (spec : NeoXChainSpec) (header : Header)
    (scheme : SignatureScheme) (nextValidators : GovernanceValidatorSet)
    (nextKey : Option G1Bytes) : Except DbftExtraError Header := do
  let version := spec.extraVersionAtBlock header.number
  let extra ← DbftExtraPrefix.new version scheme (fallbackCommitment version nextValidators.sorted)
  let nextAntiMev := spec.isAntiMevActiveAtBlock (NeoXChainSpec.saturatingSucc header.number)
  .ok { header with
    extraData := extra.encode
    mixHash := expectedNextConsensus nextAntiMev nextKey nextValidators.sorted }

/-- Storage after the execution of a block. -/
def postStorage {ε : Type} (bundle : BlockEvm.Bundle) (state : StateProvider) (address : Address)
    (failure : String → ε) : ContractStorage ε :=
  fun key =>
    match BlockEvm.bundleStorage bundle address key with
    | some value => .ok (some value)
    | none => (state.storage address key).mapError failure

/-- The keys of the next round, if Anti-MEV is active and they can be read. -/
def readNextDkgOrFallback [Curve] (antiMevActive : Bool) (parameters : DkgParameters)
    (storage : ContractStorage KeyManagementError) : Option DkgState :=
  if antiMevActive then (readDkgStateFromStorage parameters storage).toOption else none

/-- The validators after the execution of a block. -/
def readNextValidators (bundle : BlockEvm.Bundle) (state : StateProvider) :
    Except DbftStateError GovernanceValidatorSet :=
  readGovernanceValidatorSetFromStorage
    (postStorage bundle state governanceProxyAddress fun _ => .provider)

/-- The keys after the execution of a block. -/
def readNextDkg [Curve] (nextAntiMev : Bool) (parameters : DkgParameters) (bundle : BlockEvm.Bundle)
    (state : StateProvider) : Option DkgState :=
  readNextDkgOrFallback nextAntiMev parameters
    (postStorage bundle state keyManagementProxyAddress .provider)

/-- The key that a state of the next round commits to. -/
def nextPublicKey (nextDkg : Option DkgState) : Option G1Bytes :=
  nextDkg.map fun state => state.current.globalPublicKey

end NextConsensus

/-! ## Proposals -/

/-- Functions of the blob package. -/
class BlobFormat [PoolFormat] where
  Sidecar : Type
  /-- The hashes of a blob transaction. -/
  blobVersionedHashes : Transaction → Option (List B256)
  /-- Check the proofs of a sidecar against hashes. -/
  validate : Sidecar → List B256 → Except String Unit

/-- Access to the canonical chain. -/
structure Provider where
  sealedHeader : UInt64 → Except String (Option Header)
  sealedHeaderByHash : B256 → Except String (Option Header)
  stateByBlockHash : B256 → Except String StateProvider

inductive DbftProposalError where
  | transactionCount (expected actual : Nat)
  | transactionHash (index : Nat) (expected actual : B256)
  | sidecarCount (expected actual : Nat)
  | invalidSidecar (transactionIndex : Nat) (error : String)
  | invalidExtra (error : DbftExtraError)
  | unexpectedExtraVersion (expected actual : ExtraVersion)
  | thresholdBeforeAntiMev
  | genesisProposal
  | missingCanonicalParent (number : UInt64)
  | genesisParentMismatch (expected actual : B256)
  | missingParentSealHash
  | missingParentExtra
  | missingGrandparent (hash : B256)
  | parentWitness (error : ConsensusError)
  | header (error : ConsensusError)
  | preExecution (error : ConsensusError)
  | senderRecovery
  | provider (error : String)
  | poolRejection (index : Nat) (rejection : StaticPoolRejection)
  | antiMevProposal (error : AntiMevProposalError)
  | execution (error : BlockExecutionError)
  | postExecution (error : ConsensusError)
  | stateRoot (expected actual : B256)
  | governance (error : DbftStateError)
  | dkg (error : KeyManagementError)
  | dkgParameters (error : DkgMaterialError)
  | fallbackNextConsensus (expected : B256) (actual : Option B256)
  | nextConsensus (expected actual : B256)
  | heightOverflow
  | panicked (message : String)
  deriving DecidableEq

variable {spec : NeoXChainSpec} {header : Header} {now : Option UInt64}

section Verification

variable [Crypto] [Curve] [PoolFormat] [GasRules] [BlockEvm] [BlobFormat]

/-- A proposal that was accepted. -/
structure VerifiedProposal where
  parentStateHash : B256
  parentBaseFee : UInt64
  parentGasLimit : UInt64
  parentSpec : SpecId
  parentReseal : Option Header
  block : RecoveredBlock
  sidecars : List BlobFormat.Sidecar
  antiMev : Option AntiMevProposal
  execution : BlockExecutionOutput
  nextValidators : GovernanceValidatorSet
  nextDkg : Option DkgState

/-- The data that comes with a proposal. -/
structure ProposalContents where
  transactions : List Transaction
  sidecars : List BlobFormat.Sidecar

def checkTransactionHashes : Nat → List (B256 × Transaction) → Except DbftProposalError Unit
  | _, [] => .ok ()
  | index, (expected, transaction) :: rest => do
      let actual := TransactionFormat.txHash transaction
      require (expected = actual) (.transactionHash index expected actual)
      checkTransactionHashes (index + 1) rest

def validateTransactionHashes (request : DbftPrepareRequest) (transactions : List Transaction) :
    Except DbftProposalError Unit := do
  require (request.transactionHashes.length = transactions.length)
    (.transactionCount request.transactionHashes.length transactions.length)
  checkTransactionHashes 0 (request.transactionHashes.zip transactions)

def blobHashes (transactions : List Transaction) : List (List B256) :=
  (transactions.filterMap BlobFormat.blobVersionedHashes).filter (· ≠ [])

def checkSidecars : Nat → List (List B256 × BlobFormat.Sidecar) → Except DbftProposalError Unit
  | _, [] => .ok ()
  | index, (hashes, sidecar) :: rest => do
      (BlobFormat.validate sidecar hashes).mapError (.invalidSidecar index)
      checkSidecars (index + 1) rest

/-- There is a valid sidecar for every blob transaction. -/
def validateProposalSidecars (transactions : List Transaction)
    (sidecars : List BlobFormat.Sidecar) : Except DbftProposalError Unit := do
  let hashes := blobHashes transactions
  require (hashes.length = sidecars.length) (.sidecarCount hashes.length sidecars.length)
  checkSidecars 0 (hashes.zip sidecars)

/-- The parent of a proposal, whose state is that of the canonical block of its height. -/
structure ResolvedProposalParent where
  header : Header
  stateHash : B256
  reseal : Option Header

def resealProposalParent (spec : NeoXChainSpec) (now : Option UInt64) (provider : Provider)
    (request : DbftPrepareRequest) (canonicalParent : Header) :
    Except DbftProposalError ResolvedProposalParent := do
  let parentHash := request.sealingProposal.parentHash
  require (request.sealingProposal.number - 1 ≠ 0)
    (.genesisParentMismatch canonicalParent.hash parentHash)
  let sealHash ← ofOption .missingParentSealHash request.parentSealHashV0
  let parentExtra ← ofOption .missingParentExtra request.parentExtra
  let found ← (provider.sealedHeaderByHash canonicalParent.parentHash).mapError .provider
  let grandparent ← ofOption (.missingGrandparent canonicalParent.parentHash) found
  let resealed ← (NeoXConsensus.validateParentReseal spec now canonicalParent grandparent sealHash
    parentExtra parentHash).mapError .parentWitness
  .ok ⟨resealed, canonicalParent.hash, some resealed⟩

def resolveProposalParent (spec : NeoXChainSpec) (now : Option UInt64) (provider : Provider)
    (request : DbftPrepareRequest) : Except DbftProposalError ResolvedProposalParent := do
  let header := request.sealingProposal
  require (header.number ≠ 0) .genesisProposal
  let found ← (provider.sealedHeader (header.number - 1)).mapError .provider
  let canonicalParent ← ofOption (.missingCanonicalParent (header.number - 1)) found
  if header.parentHash = canonicalParent.hash then
    .ok ⟨canonicalParent, canonicalParent.hash, none⟩
  else
    resealProposalParent spec now provider request canonicalParent

/-- Add transactions to the pool from a position on. Blob transactions are left out. -/
def admitFrom : Nat → List (Transaction × Address) → StaticPoolAdmission →
    Except DbftProposalError Unit
  | _, [], _ => .ok ()
  | index, (transaction, sender) :: rest, admission =>
    if isEip4844 transaction then
      admitFrom (index + 1) rest admission
    else do
      let answer ← (admission.add sender transaction).mapError .panicked
      let admission ← answer.mapError (.poolRejection index)
      admitFrom (index + 1) rest admission

/-- The pool of the parent state admits the transactions. -/
def validateProposalPoolAdmission (block : RecoveredBlock) (head : StaticPoolHead)
    (state : StateProvider) : Except DbftProposalError Unit := do
  let admission ← (StaticPoolAdmission.new state head block.senders).mapError .provider
  admitFrom 0 (block.transactions.zip block.senders) admission

/-- The Envelopes of a block, from the Anti-MEV height on. -/
def readAntiMevProposal (spec : NeoXChainSpec) (state : StateProvider) (block : Block) :
    Except DbftProposalError (Option AntiMevProposal) :=
  if spec.isAntiMevActiveAtBlock block.header.number then do
    let validators ← (readGovernanceValidatorSet state).mapError .governance
    let parameters ← (DkgParameters.new validators.sorted.length).mapError .dkgParameters
    let dkgState ← (readDkgStateWithParameters state parameters).mapError .dkg
    let proposal ← (AntiMevProposal.fromTransactions block.transactions
      dkgState.current.round).mapError .antiMevProposal
    .ok (some proposal)
  else
    .ok none

def checkProposalExtra (spec : NeoXChainSpec) (header : Header) :
    Except DbftProposalError DbftExtraPrefix := do
  let extra ← (DbftExtraPrefix.decode header.extraData).mapError .invalidExtra
  let expectedVersion := spec.extraVersionAtBlock header.number
  require (extra.version = expectedVersion)
    (.unexpectedExtraVersion expectedVersion extra.version)
  require (spec.isAntiMevActiveAtBlock header.number ∨ extra.signatureScheme ≠ .threshold)
    .thresholdBeforeAntiMev
  .ok extra

/-- The results of execution are those of the header. -/
def executeProposal (spec : NeoXChainSpec) (state : StateProvider) (block : RecoveredBlock) :
    Except DbftProposalError BlockExecutionOutput := do
  let execution ← (executeBlock spec state block).mapError .execution
  (validateBlockPostExecution spec block.header execution.result).mapError .postExecution
  let stateRoot ← (BlockEvm.stateRoot state execution.state).mapError .provider
  require (stateRoot = block.header.stateRoot) (.stateRoot block.header.stateRoot stateRoot)
  .ok execution

/-- The commitments of the header are those of the state after execution. -/
def checkNextConsensus (spec : NeoXChainSpec) (state : StateProvider) (header : Header)
    (extra : DbftExtraPrefix) (bundle : BlockEvm.Bundle) :
    Except DbftProposalError (GovernanceValidatorSet × Option DkgState) := do
  let nextValidators ← (readNextValidators bundle state).mapError .governance
  let fallback := nextConsensusHash nextValidators.sorted
  require (extra.version = .v0 ∨ extra.fallbackNextConsensus = some fallback)
    (.fallbackNextConsensus fallback extra.fallbackNextConsensus)
  require (header.number ≠ UInt64.ofNat (2 ^ 64 - 1)) .heightOverflow
  let nextAntiMev := spec.isAntiMevActiveAtBlock (header.number + 1)
  let parameters ← (DkgParameters.new nextValidators.sorted.length).mapError .dkgParameters
  let nextDkg := readNextDkg nextAntiMev parameters bundle state
  let expected := expectedNextConsensus nextAntiMev (nextPublicKey nextDkg) nextValidators.sorted
  require (header.mixHash = expected) (.nextConsensus expected header.mixHash)
  .ok (nextValidators, nextDkg)

def verifyProposal (spec : NeoXChainSpec) (now : Option UInt64) (provider : Provider)
    (request : DbftPrepareRequest) (contents : ProposalContents) (expectedPrimary : UInt8) :
    Except DbftProposalError VerifiedProposal := do
  validateTransactionHashes request contents.transactions
  validateProposalSidecars contents.transactions contents.sidecars
  let header := request.sealingProposal
  let extra ← checkProposalExtra spec header
  let block : Block :=
    ⟨header, contents.transactions, spec.shanghaiActiveAtTimestamp header.timestamp⟩
  let parent ← resolveProposalParent spec now provider request
  (NeoXConsensus.validateProposalHeader spec header parent.header expectedPrimary).mapError .header
  (validateBlockPreExecution spec block).mapError .preExecution
  let senders ← contents.transactions.mapM fun transaction =>
    ofOption .senderRecovery (TransactionFormat.recoverSigner transaction)
  let recovered : RecoveredBlock := ⟨block, senders⟩
  let state ← (provider.stateByBlockHash parent.stateHash).mapError .provider
  let parentSpec := (evmEnv spec parent.header).spec
  validateProposalPoolAdmission recovered ⟨parent.header.gasLimit, parentSpec⟩ state
  let antiMev ← readAntiMevProposal spec state block
  let execution ← executeProposal spec state recovered
  let (nextValidators, nextDkg) ← checkNextConsensus spec state header extra execution.state
  .ok ⟨parent.stateHash, parent.header.baseFeePerGas.getD 0, parent.header.gasLimit, parentSpec,
    parent.reseal, recovered, contents.sidecars, antiMev, execution, nextValidators, nextDkg⟩

/-! ## Accepted proposals -/

variable {s : StateProvider}

omit [Curve] [GasRules] [BlobFormat] in
theorem executeProposal_spec {block : RecoveredBlock} {execution : BlockExecutionOutput}
    (h : executeProposal spec s block = .ok execution) :
    executeBlock spec s block = .ok execution ∧
      validateBlockPostExecution spec block.header execution.result = .ok () ∧
      BlockEvm.stateRoot s execution.state = .ok block.header.stateRoot := by
  obtain ⟨_, hexec, h⟩ := mapError_bind h
  obtain ⟨_, hres, h⟩ := mapError_bind h
  obtain ⟨_, hroot, h⟩ := mapError_bind h
  obtain ⟨hsame, h⟩ := require_bind h
  cases h
  exact ⟨hexec, hres, hsame ▸ hroot⟩

/-- What is known of a proposal that was accepted, with the state that it was executed on. -/
structure Accepted (spec : NeoXChainSpec) (provider : Provider) (request : DbftPrepareRequest)
    (contents : ProposalContents) (proposal : VerifiedProposal) (state : StateProvider) : Prop where
  header_eq : proposal.block.header = request.sealingProposal
  transactions_eq : proposal.block.transactions = contents.transactions
  recovered : List.Forall₂
    (fun transaction sender => TransactionFormat.recoverSigner transaction = some sender)
    contents.transactions proposal.block.senders
  opened : provider.stateByBlockHash proposal.parentStateHash = .ok state
  sidecars : validateProposalSidecars contents.transactions proposal.sidecars = .ok ()
  headed : ∃ parent primary, NeoXConsensus.validateProposalHeader spec proposal.block.header
    parent primary = .ok ()
  body : validateBlockPreExecution spec proposal.block.toBlock = .ok ()
  admitted : validateProposalPoolAdmission proposal.block
    ⟨proposal.parentGasLimit, proposal.parentSpec⟩ state = .ok ()
  antiMev : readAntiMevProposal spec state proposal.block.toBlock = .ok proposal.antiMev
  executed : executeProposal spec state proposal.block = .ok proposal.execution
  committed : ∃ extra, DbftExtraPrefix.decode proposal.block.header.extraData = .ok extra ∧
    checkNextConsensus spec state proposal.block.header extra proposal.execution.state
      = .ok (proposal.nextValidators, proposal.nextDkg)

/-- A proposal that is verified is accepted on the state of its parent. -/
theorem verifyProposal_spec {provider : Provider} {req : DbftPrepareRequest}
    {contents : ProposalContents} {expectedPrimary : UInt8} {proposal : VerifiedProposal}
    (h : verifyProposal spec now provider req contents expectedPrimary = .ok proposal) :
    ∃ state, Accepted spec provider req contents proposal state := by
  obtain ⟨_, h⟩ := of_bind h
  rcases bind_ok h with ⟨_, hside, h⟩
  rcases bind_ok h with ⟨extra, hx, h⟩
  rcases bind_ok h with ⟨parent, -, h⟩
  obtain ⟨_, hheaded, h⟩ := mapError_bind h
  obtain ⟨_, hb, h⟩ := mapError_bind h
  rcases bind_ok h with ⟨senders, hsend, h⟩
  obtain ⟨state, hs, h⟩ := mapError_bind h
  rcases bind_ok h with ⟨_, hadmi, h⟩
  rcases bind_ok h with ⟨antiMev, hanti, h⟩
  rcases bind_ok h with ⟨execution, hexecution, h⟩
  rcases bind_ok h with ⟨⟨nextValidators, nextDkg⟩, hn, h⟩
  obtain ⟨decoded, hdec, hx⟩ := mapError_bind hx
  obtain ⟨_, hx⟩ := of_bind hx
  obtain ⟨_, hx⟩ := of_bind hx
  cases hx
  cases h
  have hreco := mapM_eq_ok.mp hsend
  simp only [ofOption_eq_ok] at hreco
  exact ⟨state, {
    header_eq := rfl
    transactions_eq := rfl
    recovered := hreco
    opened := hs
    sidecars := hside
    headed := ⟨parent.header, expectedPrimary, hheaded⟩
    body := hb
    admitted := hadmi
    antiMev := hanti
    executed := hexecution
    committed := ⟨extra, hdec, hn⟩ }⟩

omit [GasRules] [BlobFormat] in
/-- The commitments that the state after execution gives are those of a header that has passed. -/
theorem applyNextConsensusCommitments_eq {extra : DbftExtraPrefix} {bundle : BlockEvm.Bundle}
    {nextValidators : GovernanceValidatorSet} {nextDkg : Option DkgState}
    (hx : DbftExtraPrefix.decode header.extraData = .ok extra)
    (hlen : header.extraData.length = extra.version.prefixLen)
    (hver : extra.version = spec.extraVersionAtBlock header.number)
    (h : checkNextConsensus spec s header extra bundle = .ok (nextValidators, nextDkg)) :
    applyNextConsensusCommitments spec header extra.signatureScheme nextValidators
      (nextPublicKey nextDkg) = .ok header := by
  rcases bind_ok h with ⟨vals, -, h⟩
  obtain ⟨hfall, h⟩ := require_bind h
  obtain ⟨hheight, h⟩ := require_bind h
  rcases bind_ok h with ⟨ps, -, h⟩
  obtain ⟨hmix, h⟩ := require_bind h
  cases h
  have hcom : fallbackCommitment extra.version nextValidators.sorted
      = extra.fallbackNextConsensus := by
    unfold fallbackCommitment
    split
    · next h0 =>
        have hval := extra.valid
        rw [h0, validPrefixFields, Bool.and_eq_true, Option.isNone_iff_eq_none] at hval
        exact hval.2.symm
    · next hne => exact (hfall.resolve_left hne).symm
  have hnew : DbftExtraPrefix.new extra.version extra.signatureScheme extra.fallbackNextConsensus
      = .ok extra := dif_pos extra.valid
  have hn : NeoXChainSpec.saturatingSucc header.number = header.number + 1 := if_neg hheight
  rw [applyNextConsensusCommitments, ← hver, hcom, hnew, ok_bind, hn,
    DbftExtraPrefix.encode_of_decode hx hlen]
  dsimp only
  rw [← hmix]

end Verification

/-! ## A proposal of one validator -/

namespace PlainChain

scoped instance blobFormat : BlobFormat where
  Sidecar := Unit
  blobVersionedHashes _ := none
  validate _ _ := .ok ()

def soloValidator : Address := .ofNat 20 7

/-- A chain of one validator with Anti-MEV from the beginning. -/
def soloSpec (byzantium : Bool) : NeoXChainSpec where
  chainId := 1
  dkgBlock := 0
  antiMevBlock := 0
  ethSignatureBlock := neoxForkNever
  standbyValidators := [soloValidator]
  coinbase := .zero 20
  parisActiveAtBlock _ := false
  byzantiumActiveAtBlock _ := byzantium
  londonActiveAtBlock _ := false
  shanghaiActiveAtTimestamp _ := false
  cancunActiveAtTimestamp _ := false
  pragueActiveAtTimestamp _ := false
  osakaActiveAtTimestamp _ := false
  amsterdamActiveAtTimestamp _ := false
  elasticityMultiplierAtTimestamp _ := 2
  blobParamsAtTimestamp _ := none
  specAt _ _ := .istanbul

def soloParent : Header where
  parentHash := .zero 32
  ommersHash := emptyOmmerRootHash
  beneficiary := .zero 20
  stateRoot := .zero 32
  transactionsRoot := .zero 32
  receiptsRoot := .zero 32
  logsBloom := .zero 256
  difficulty := difficultyInTurn
  number := 0
  gasLimit := 30000000
  gasUsed := 0
  timestamp := 0
  extraData := []
  mixHash := .zero 32
  nonce := .zero 8
  baseFeePerGas := none
  withdrawalsRoot := none
  blobGasUsed := none
  excessBlobGas := none
  parentBeaconBlockRoot := none
  requestsHash := none
  blockAccessListHash := none
  slotNumber := none

def soloEnvelope : PlainTransaction where
  sender := .ofNat 20 9
  nonce := 0
  gasLimit := 50000
  price := 1
  target := some envelopeTarget
  input :=
    let ciphertext := TpkeCiphertext.encrypt (generator1 : G1) generator1 1
    encryptedDataPrefix ++ BigEndian.toBytes 4 1 ++ BigEndian.toBytes 4 21000 ++
      List.replicate 32 0 ++ ciphertext.encryptedMessage.bytes ++
      ciphertext.randomCommitment.bytes ++ ciphertext.pairingCommitment.bytes ++
      List.replicate 112 1

/-- A header for the Envelope with a root of receipts. -/
def soloHeader (receiptsRoot : B256) : Header :=
  { soloParent with
    parentHash := soloParent.hash
    number := 1
    gasUsed := 21000
    receiptsRoot := receiptsRoot
    extraData := ExtraVersion.v1.toByte :: SignatureScheme.ecdsa.toByte ::
      (nextConsensusHash [soloValidator]).bytes
    mixHash := keccak256 (compress1 (generator1 : G1)).bytes }

/-- The canonical chain of the parent, in a DKG round. -/
def soloProvider (round : U256) : Provider where
  sealedHeader number := .ok (if number = 0 then some soloParent else none)
  sealedHeaderByHash _ := .ok none
  stateByBlockHash _ := .ok (plainState round [soloValidator])

def soloRequest (receiptsRoot : B256) : DbftPrepareRequest :=
  ⟨soloHeader receiptsRoot, [.zero 32], none, none⟩

def soloContents : ProposalContents := ⟨[soloEnvelope], []⟩

end PlainChain

/-! ## Resealed parents -/

section Reseal

variable [Crypto] [GasRules]

namespace NeoXConsensus

/-- A header passes the seal check against the commitments of its parent. -/
def SealedUnder (spec : NeoXChainSpec) (header parent : Header) : Prop :=
  ∃ extra parentExtra,
    DbftExtra.decode header.extraData spec.standbyValidators.length = .ok extra ∧
    DbftExtra.decode parent.extraData spec.standbyValidators.length = .ok parentExtra ∧
    CommitsTo parentExtra parent.mixHash extra ∧
    match extra with
    | .ecdsa _ _ validators signatures => ∃ sealHash signers,
        ecdsaSealHash header = .ok sealHash ∧ EcdsaQuorum sealHash validators signatures signers
    | .threshold _ _ _ _ => verifyThresholdSignature header extra = .ok ()

/-- A header that differs from the canonical one in the seal only and passes the seal check. -/
structure ResealOf (spec : NeoXChainSpec) (canonical grandparent resealed : Header) : Prop where
  seal_only : ∃ hashable canonicalSeal newSeal,
    DbftExtra.hashablePrefix canonical.extraData = .ok hashable ∧
    canonical.extraData = hashable ++ canonicalSeal ∧
    resealed = { canonical with extraData := hashable ++ newSeal } ∧
    DbftExtra.hashablePrefix resealed.extraData = .ok hashable
  sealHash_eq : ecdsaSealHash resealed = ecdsaSealHash canonical
  sealMessage_eq : thresholdSealMessage resealed = thresholdSealMessage canonical
  sealed : SealedUnder spec resealed grandparent

omit [GasRules] in
theorem sealedUnder_of_validateHeader {parent : Header} {verified : VerifiedSeal}
    (h : NeoX.validateHeader header parent spec.standbyValidators.length
      spec.standbyValidators.length = .ok verified) : SealedUnder spec header parent := by
  obtain ⟨extra, hx, hseal⟩ := bind_ok h
  obtain ⟨decoded, hdec, hx⟩ := mapError_bind hx
  obtain ⟨parentExtra, hpar, hx⟩ := mapError_bind hx
  obtain ⟨_, hcomm, hx⟩ := bind_ok hx
  obtain ⟨_, hx⟩ := of_bind hx
  cases hx
  refine ⟨extra, parentExtra, hdec, hpar, validateParentConsensus_eq_ok.mp hcomm, ?_⟩
  cases extra with
  | ecdsa version fallback validators sigs =>
    obtain ⟨sealHash, hsealH, hseal⟩ := mapError_bind hseal
    obtain ⟨accepted, hacc, -⟩ := bind_ok hseal
    obtain ⟨signers, hq, -⟩ := verifyEcdsaSignatures_iff.mp hacc
    exact ⟨sealHash, signers, hsealH, hq⟩
  | threshold version fallback publicKey signature =>
    obtain ⟨_, hver, -⟩ := bind_ok hseal
    exact hver

/-- A resealed parent is the canonical one with other extra data, and it passes the seal check. -/
theorem validateParentReseal_spec {canonical grandparent resealed : Header}
    {expectedSealHash expectedParentHash : B256} {parentExtra : Bytes}
    (h : validateParentReseal spec now canonical grandparent expectedSealHash parentExtra
      expectedParentHash = .ok resealed) :
    resealed = { canonical with extraData := parentExtra } ∧
      SealedUnder spec resealed grandparent ∧ ecdsaSealHash canonical = .ok expectedSealHash := by
  obtain ⟨_, h⟩ := of_bind h
  obtain ⟨_, h⟩ := of_bind h
  obtain ⟨sealHash, hsealH, h⟩ := mapError_bind h
  obtain ⟨hsame, h⟩ := require_bind h
  obtain ⟨_, h⟩ := of_bind h
  obtain ⟨_, h⟩ := of_bind h
  obtain ⟨_, hpar, h⟩ := bind_ok h
  cases h
  obtain ⟨_, hpar⟩ := of_bind hpar
  obtain ⟨verified, hver⟩ : ∃ verified, NeoX.validateHeader
      { canonical with extraData := parentExtra } grandparent spec.standbyValidators.length
      spec.standbyValidators.length = .ok verified := by
    cases hseal : NeoX.validateHeader { canonical with extraData := parentExtra } grandparent
        spec.standbyValidators.length spec.standbyValidators.length with
    | ok verified => exact ⟨verified, rfl⟩
    | error reason =>
      rw [hseal] at hpar
      cases hpar
  rw [hsame] at hsealH
  exact ⟨rfl, sealedUnder_of_validateHeader hver, hsealH⟩

omit [Crypto] [GasRules] in
theorem eq_append_of_hashablePrefix {raw hashable : Bytes}
    (h : DbftExtra.hashablePrefix raw = .ok hashable) : ∃ rest, raw = hashable ++ rest := by
  obtain ⟨_, h⟩ := of_bind h
  obtain ⟨version, -, h⟩ := bind_ok h
  obtain ⟨_, h⟩ := of_bind h
  cases h
  exact ⟨raw.drop version.prefixLen, (List.take_append_drop _ _).symm⟩

omit [Crypto] [GasRules] in
theorem unsignedHeader_congr {extraData : Bytes}
    (h : DbftExtra.hashablePrefix extraData = DbftExtra.hashablePrefix header.extraData) :
    unsignedHeader { header with extraData := extraData } = unsignedHeader header := by
  unfold unsignedHeader
  rw [h]

/-- A parent that is accepted with another witness differs from the canonical one in the seal only,
with the same seal hash and message, exactly if the witness has the same bytes under the seal. The
seal hash of the request is compared with the canonical parent, and not with the resealed one. -/
theorem validateParentReseal_iff {spec : NeoXChainSpec} {now : Option UInt64}
    {canonical grandparent resealed : Header} {expectedSealHash expectedParentHash : B256}
    {parentExtra : Bytes}
    (h : validateParentReseal spec now canonical grandparent expectedSealHash parentExtra
      expectedParentHash = .ok resealed) :
    ResealOf spec canonical grandparent resealed ↔
      DbftExtra.hashablePrefix parentExtra = DbftExtra.hashablePrefix canonical.extraData := by
  obtain ⟨rfl, hsealed, hcanonical⟩ := validateParentReseal_spec h
  constructor
  · intro hreseal
    obtain ⟨hashable, _, _, hprefix, -, -, hresealed⟩ := hreseal.seal_only
    exact hresealed.trans hprefix.symm
  · intro hsame
    have hunsigned := unsignedHeader_congr hsame
    obtain ⟨_, hfirst, -⟩ := bind_ok hcanonical
    obtain ⟨hashable, hhashable, -⟩ := bind_ok hfirst
    obtain ⟨canonicalSeal, hcanonicalSeal⟩ := eq_append_of_hashablePrefix hhashable
    obtain ⟨newSeal, hnewSeal⟩ := eq_append_of_hashablePrefix (hsame.trans hhashable)
    refine ⟨⟨hashable, canonicalSeal, newSeal, hhashable, hcanonicalSeal, ?_,
      hsame.trans hhashable⟩, ?_, ?_, hsealed⟩
    · rw [hnewSeal]
    · unfold ecdsaSealHash
      rw [hunsigned]
    · unfold thresholdSealMessage
      rw [hunsigned]

end NeoXConsensus

end Reseal

namespace SignedChain

/-- Every signature is one of the validator. -/
scoped instance crypto : Crypto :=
  { PlainChain.crypto with recoverAddress := fun _ _ _ => some PlainChain.soloValidator }

scoped instance gasRules : GasRules := PlainChain.gasRules

def signature (parity : Nat) : FixedBytes 65 := .ofNat 65 parity

def grandparent : Header :=
  { PlainChain.soloParent with
    extraData := ExtraVersion.v0.toByte :: PlainChain.soloValidator.bytes ++ (signature 0).bytes
    mixHash := nextConsensusHash [PlainChain.soloValidator] }

/-- Sealed extra data with a fallback commitment. -/
def sealedExtra (fallback : B256) (parity : Nat) : Bytes :=
  ExtraVersion.v1.toByte :: SignatureScheme.ecdsa.toByte :: fallback.bytes ++
    PlainChain.soloValidator.bytes ++ (signature parity).bytes

def parent (fallback : B256) (parity : Nat) : Header :=
  { PlainChain.soloParent with
    parentHash := grandparent.hash
    number := 1
    extraData := sealedExtra fallback parity }

def commitment : B256 := nextConsensusHash [PlainChain.soloValidator]

def sealHash : B256 := (ecdsaSealHash (parent commitment 0)).toOption.getD (.zero 32)

end SignedChain

section Example

open SignedChain

/-- Another signature is accepted as a witness of the same parent. -/
theorem validateParentReseal_iff_signature :
    NeoXConsensus.ResealOf (PlainChain.soloSpec true) (parent commitment 0) grandparent
      (parent commitment 1) := by
  have haccepted : NeoXConsensus.validateParentReseal (PlainChain.soloSpec true) (some 0)
      (parent commitment 0) grandparent sealHash (sealedExtra commitment 1)
      (parent commitment 1).hash = .ok (parent commitment 1) := by decide +kernel
  exact (NeoXConsensus.validateParentReseal_iff haccepted).mpr (by decide +kernel)

/-- A witness with another fallback commitment is accepted too: the resealed parent commits to other
validators, and its seal hash is another one. -/
theorem reseal_changes_commitment :
    ecdsaSealHash (parent commitment 0) = .ok sealHash ∧
      NeoXConsensus.validateParentReseal (PlainChain.soloSpec true) (some 0) (parent commitment 0)
        grandparent sealHash (sealedExtra (.zero 32) 0)
        (parent (.zero 32) 0).hash = .ok (parent (.zero 32) 0) ∧
      ecdsaSealHash (parent (.zero 32) 0) ≠ .ok sealHash ∧
      ¬NeoXConsensus.ResealOf (PlainChain.soloSpec true) (parent commitment 0) grandparent
        (parent (.zero 32) 0) := by
  have hcanonical : ecdsaSealHash (parent commitment 0) = .ok sealHash := by decide +kernel
  have hother : ecdsaSealHash (parent (.zero 32) 0) ≠ .ok sealHash := by decide +kernel
  refine ⟨hcanonical, by decide +kernel, hother, ?_⟩
  intro hreseal
  exact hother (hreseal.sealHash_eq.trans hcanonical)

end Example

end NeoX
