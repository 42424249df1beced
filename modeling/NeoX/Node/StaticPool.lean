import NeoX.Library.FiniteMap
import NeoX.Node.Resolution

/-!
# The static pool

The reference client keeps a scratch pool that is rooted at the parent state. A proposal is refused
when the pool refuses one of its transactions, and reconstruction drops what the pool refuses. The
pool only sees parent accounts and the transactions that it has queued before.

Main results:

- `StaticPoolAdmission.add_accounts`: admitting transactions never changes the parent
  accounts.
- `StaticPoolAdmission.new_covers`: the pool of a block has the account of every
  sender.
-/

namespace NeoX

open TransactionFormat
open Except hiding ok error

/-! ## State of contracts -/

/-- The account of an address. -/
structure Account where
  nonce : UInt64
  balance : U256
  hasBytecode : Bool
  deriving DecidableEq

/-- The state after a block, as the database below execution reads it. -/
structure StateProvider where
  basicAccount : Address → Except String (Option Account)
  bytecode : Address → Except String Bytes
  storage : Address → U256 → Except String (Option U256)
  blockHash : UInt64 → Except String (Option B256)

def governanceProxyAddress : Address :=
  .ofNat 20 0x1212000000000000000000000000000000000001
def policyProxyAddress : Address :=
  .ofNat 20 0x1212000000000000000000000000000000000002
def keyManagementProxyAddress : Address :=
  .ofNat 20 0x1212000000000000000000000000000000000008

def policyBlacklistSlot : Nat := 1
def policyMinGasTipCapSlot : Nat := 2
def policyBaseFeeSlot : Nat := 3
def policyEnvelopeFeeSlot : Nat := 5
def policyMaxEnvelopesPerBlockSlot : Nat := 6
def policyMaxEnvelopeGasLimitSlot : Nat := 7

def policyStorageKey (slot : Nat) : U256 := BitVec.ofNat 256 slot

def policyBlacklistStorageKey [Crypto] (account : Address) : U256 :=
  BitVec.ofNat 256 (BigEndian.ofBytes (keccak256 (List.replicate 12 0 ++ account.bytes ++
    BigEndian.toBytes 32 policyBlacklistSlot)).bytes)

/-- The sum of two words, or the largest word. -/
def saturatingAddWord (left right : U256) : U256 :=
  if left.toNat + right.toNat < 2 ^ 256 then left + right else BitVec.allOnes 256

/-! ## Transactions and fork rules -/

/-- Further functions of the transaction package. An authorization is the authority that is
recovered from it. -/
class PoolFormat extends TransactionFormat where
  encode2718Len : Transaction → Nat
  isCreate : Transaction → Bool
  value : Transaction → U256
  maxPriorityFeePerGas : Transaction → Option (BitVec 128)
  accessList : Transaction → Option (List (Address × List B256))
  authorizationList : Transaction → Option (List (Option Address))
  blobCount : Transaction → Option UInt64

/-- Versions of the execution rules. -/
inductive SpecId where
  | frontier
  | homestead
  | tangerine
  | spuriousDragon
  | byzantium
  | petersburg
  | istanbul
  | berlin
  | london
  | merge
  | shanghai
  | cancun
  | prague
  | osaka
  | amsterdam
  deriving DecidableEq

/-- Whether the rules of a version are in force. -/
def SpecId.isEnabledIn (spec other : SpecId) : Bool :=
  other.ctorIdx ≤ spec.ctorIdx

/-- Parameters of blobs under a fork. -/
structure BlobParams where
  targetBlobCount : UInt64
  maxBlobCount : UInt64
  updateFraction : BitVec 128
  minBlobFee : BitVec 128
  maxBlobsPerTx : UInt64
  blobBaseCost : UInt64
  deriving DecidableEq

/-- Functions of the gas rules. -/
class GasRules where
  /-- The intrinsic gas of a transaction and the floor of its calldata, from the version, the input,
  whether it creates a contract, the accounts and the storage keys of its access list, its
  authorizations, and its value and whether it is sent to its sender. -/
  calculateInitialTxGas : SpecId → Bytes → Bool → Nat → Nat → Nat → Option (U256 × Bool) →
    UInt64 × UInt64
  /-- The excess blob gas after a block with an excess, a usage and a base fee. -/
  nextBlockExcessBlobGasOsaka : BlobParams → UInt64 → UInt64 → UInt64 → UInt64

def staticPoolMaxTxSize : Nat := 4 * 32 * 1024
def staticPoolMinTip : Nat := 1
def staticPoolPriceBump : Nat := 10

def eip3860MaxInitcodeSize : Nat := 2 * 0x6000
def eip7954MaxInitcodeSize : Nat := 2 * 0x8000
def eip7825TxGasLimitCap : UInt64 := 16777216

def minEncryptedGasLimit : UInt32 := 21000

/-- Why the pool refuses a transaction. -/
inductive StaticPoolRejection where
  | blobTransaction
  | typeNotActive (ty : UInt8)
  | emptySetCodeAuthorizations
  | initCodeTooLarge (size limit : Nat)
  | gasLimitAboveTxCap (gasLimit : UInt64)
  | tipAboveFeeCap
  | nonceMax
  | intrinsicGas (gasLimit required : UInt64)
  | oversized (size : Nat)
  | gasLimitAboveParent (gasLimit parentGasLimit : UInt64)
  | tipTooLow (tip : BitVec 128)
  | alreadyKnown
  | nonceTooLow (nonce next : UInt64)
  | envelopeGasAbovePolicy (gasLimit : UInt64) (maximumGas : U256)
  | encryptedGasBelowMinimum (innerGas : UInt32)
  | envelopeGasBelowEncrypted (gasLimit : UInt64) (innerGas : UInt32)
  | tipBelowPolicy (minimumTip baseFee : U256)
  | blockedSender
  | insufficientFunds (cost balance : U256)
  | delegatedNonceGap (nonce next : UInt64)
  | authorityReserved (authority : Address)
  | replaceUnderpriced (nonce : UInt64)
  deriving DecidableEq

/-- The parent header as the pool sees it. -/
structure StaticPoolHead where
  gasLimit : UInt64
  spec : SpecId
  deriving DecidableEq

section Pool

variable [PoolFormat]

/-- Whether a transaction carries blobs. -/
def isEip4844 (transaction : Transaction) : Bool :=
  ty transaction = eip4844Type

/-- The tip cap, or the price of a transaction that has none. -/
def tipOrFee (transaction : Transaction) : BitVec 128 :=
  (PoolFormat.maxPriorityFeePerGas transaction).getD (maxFeePerGas transaction)

def typeActive (spec : SpecId) (ty : UInt8) : Bool :=
  ty = 0 || (ty = 1 && spec.isEnabledIn .berlin) || (ty = 2 && spec.isEnabledIn .london) ||
    (ty = 4 && spec.isEnabledIn .prague)

/-- The gas that a transaction requires under the rules of the parent. -/
def requiredGas [GasRules] (spec : SpecId) (transaction : Transaction) (sender : Address) :
    UInt64 :=
  let accessList := (PoolFormat.accessList transaction).getD []
  let intrinsic := GasRules.calculateInitialTxGas spec (input transaction)
    (PoolFormat.isCreate transaction) accessList.length
    (accessList.map fun entry => entry.2.length).sum
    ((PoolFormat.authorizationList transaction).getD []).length
    (if spec.isEnabledIn .amsterdam then
      some (PoolFormat.value transaction, target transaction = some sender)
    else none)
  max intrinsic.1 intrinsic.2

/-- The rules of the pool that depend on the parent header only. -/
def staticPoolAdmission [GasRules] (transaction : Transaction) (sender : Address)
    (head : StaticPoolHead) : Except StaticPoolRejection Unit := do
  let spec := head.spec
  let ty := ty transaction
  let gasLimit := gasLimit transaction
  let tip := tipOrFee transaction
  let required := requiredGas spec transaction sender
  let initcodeLimit :=
    if spec.isEnabledIn .amsterdam then eip7954MaxInitcodeSize else eip3860MaxInitcodeSize
  let inputSize := (input transaction).length
  require (isEip4844 transaction = false) .blobTransaction
  require (PoolFormat.encode2718Len transaction ≤ staticPoolMaxTxSize)
    (.oversized (PoolFormat.encode2718Len transaction))
  require (typeActive spec ty) (.typeNotActive ty)
  require (PoolFormat.isCreate transaction → spec.isEnabledIn .shanghai →
    inputSize ≤ initcodeLimit) (.initCodeTooLarge inputSize initcodeLimit)
  require (spec.isEnabledIn .osaka → ¬spec.isEnabledIn .amsterdam →
    gasLimit ≤ eip7825TxGasLimitCap) (.gasLimitAboveTxCap gasLimit)
  require (gasLimit ≤ head.gasLimit) (.gasLimitAboveParent gasLimit head.gasLimit)
  require (tip ≤ maxFeePerGas transaction) .tipAboveFeeCap
  require (nonce transaction ≠ UInt64.ofNat (2 ^ 64 - 1)) .nonceMax
  require (required ≤ gasLimit) (.intrinsicGas gasLimit required)
  require (spec.isEnabledIn .amsterdam → required ≤ eip7825TxGasLimitCap)
    (.gasLimitAboveTxCap required)
  require (staticPoolMinTip ≤ tip.toNat) (.tipTooLow tip)
  require (ty = eip7702Type → (PoolFormat.authorizationList transaction).getD [] ≠ [])
    .emptySetCodeAuthorizations

/-! ## The pool -/

/-- Policy values of the parent state. -/
structure StaticPoolPolicy where
  minGasTipCap : U256
  baseFee : U256
  envelopeFee : U256
  maxEnvelopeGasLimit : U256
  deriving DecidableEq

/-- A sender in the parent state. -/
structure ParentAccount where
  nonce : UInt64
  balance : U256
  hasCode : Bool
  blacklisted : Bool
  deriving DecidableEq

/-- A transaction in the queue of its sender. -/
structure QueuedTransaction where
  hash : B256
  maxFeePerGas : BitVec 128
  maxPriorityFeePerGas : BitVec 128
  authorities : List Address
  deriving DecidableEq

/-- The pool with its queues. -/
structure StaticPoolAdmission where
  head : StaticPoolHead
  policy : StaticPoolPolicy
  accounts : FiniteMap Address ParentAccount
  queued : FiniteMap Address (FiniteMap UInt64 QueuedTransaction)
  known : Finset B256

/-- Whether fees replace those of a queued transaction. -/
def outbids (old : QueuedTransaction) (maxFeePerGas maxPriorityFeePerGas : BitVec 128) : Bool :=
  let threshold := fun (fee : BitVec 128) => fee.toNat * (100 + staticPoolPriceBump) / 100
  old.maxFeePerGas < maxFeePerGas && old.maxPriorityFeePerGas < maxPriorityFeePerGas &&
    threshold old.maxFeePerGas ≤ maxFeePerGas.toNat &&
    threshold old.maxPriorityFeePerGas ≤ maxPriorityFeePerGas.toNat

/-- The authorities of a transaction that are recovered, each of them once. -/
def setCodeAuthorities (transaction : Transaction) : List Address :=
  (((PoolFormat.authorizationList transaction).getD []).filterMap id).foldl
    (fun authorities authority =>
      if authority ∈ authorities then authorities else authorities ++ [authority]) []

/-- The gas at the fee cap together with the value. -/
def staticPoolMaxCost (transaction : Transaction) : U256 :=
  let cost := (gasLimit transaction).toNat
    * (maxFeePerGas transaction).toNat + (PoolFormat.value transaction).toNat
  if cost < 2 ^ 256 then BitVec.ofNat 256 cost else BitVec.allOnes 256

namespace StaticPoolAdmission

def readParentAccount [Crypto] (state : StateProvider) (sender : Address) :
    Except String ParentAccount := do
  let account ← state.basicAccount sender
  let blacklisted ← state.storage policyProxyAddress (policyBlacklistStorageKey sender)
  .ok ⟨account.elim 0 Account.nonce, account.elim 0 Account.balance,
    -- The delegation limit also applies to an account that is missing.
    account.elim true Account.hasBytecode, blacklisted.getD 0 ≠ 0⟩

/-- The parent accounts of senders, after those of other senders. -/
def preloadAccounts [Crypto] (state : StateProvider) :
    FiniteMap Address ParentAccount → List Address →
      Except String (FiniteMap Address ParentAccount)
  | accounts, [] => .ok accounts
  | accounts, sender :: senders =>
    if accounts.has sender then
      preloadAccounts state accounts senders
    else do
      let account ← readParentAccount state sender
      preloadAccounts state (accounts.insert sender account) senders

/-- The empty pool of a parent state. -/
def new [Crypto] (state : StateProvider) (head : StaticPoolHead) (senders : List Address) :
    Except String StaticPoolAdmission := do
  let minGasTipCap ← state.storage policyProxyAddress (policyStorageKey policyMinGasTipCapSlot)
  let baseFee ← state.storage policyProxyAddress (policyStorageKey policyBaseFeeSlot)
  let envelopeFee ← state.storage policyProxyAddress (policyStorageKey policyEnvelopeFeeSlot)
  let maxEnvelopeGasLimit ←
    state.storage policyProxyAddress (policyStorageKey policyMaxEnvelopeGasLimitSlot)
  let accounts ← preloadAccounts state ∅ senders
  .ok ⟨head, ⟨minGasTipCap.getD 0, baseFee.getD 0, envelopeFee.getD 0,
    maxEnvelopeGasLimit.getD 0⟩, accounts, ∅, ∅⟩

def checkPolicy (policy : StaticPoolPolicy) (transaction : Transaction) (account : ParentAccount) :
    Except StaticPoolRejection Unit := do
  let input := input transaction
  let gasLimit := gasLimit transaction
  let innerGas := encryptedGas input
  let envelope := isEnvelope (ty transaction)
    (target transaction) input
  require (envelope → gasLimit.toNat ≤ policy.maxEnvelopeGasLimit.toNat)
    (.envelopeGasAbovePolicy gasLimit policy.maxEnvelopeGasLimit)
  require (envelope → minEncryptedGasLimit ≤ innerGas) (.encryptedGasBelowMinimum innerGas)
  require (envelope → innerGas.toUInt64 ≤ gasLimit)
    (.envelopeGasBelowEncrypted gasLimit innerGas)
  let minimumTip :=
    if envelope then saturatingAddWord policy.minGasTipCap policy.envelopeFee
    else policy.minGasTipCap
  let feeCap := (maxFeePerGas transaction).toNat
  let tipCap := (priorityFeeOrPrice transaction).toNat
  require (policy.baseFee.toNat ≤ feeCap ∧
      minimumTip.toNat ≤ min (feeCap - policy.baseFee.toNat) tipCap)
    (.tipBelowPolicy minimumTip policy.baseFee)
  require (account.blacklisted = false) .blockedSender

/-- Whether a queued transaction has an authorization of an account. -/
def hasQueuedAuthorization (admission : StaticPoolAdmission) (sender : Address) : Bool :=
  admission.queued.toList.any fun queue =>
    queue.2.toList.any fun queued => sender ∈ queued.2.authorities

/-- An account with more than one queued transaction. -/
def reserved (admission : StaticPoolAdmission) (authority : Address) : Bool :=
  ((admission.queued.lookup authority).map fun queue => decide (1 < queue.size)).getD false

/-- Put a transaction into the queue of its sender, in place of one with the same nonce. -/
def enqueue (admission : StaticPoolAdmission) (sender : Address) (nonce : UInt64)
    (queued : QueuedTransaction) : StaticPoolAdmission :=
  let queue := (admission.queued.lookup sender).getD ∅
  let known := match queue.lookup nonce with
    | some old => admission.known.erase old.hash
    | none => admission.known
  { admission with
    queued := admission.queued.insert sender (queue.insert nonce queued)
    known := insert queued.hash known }

/-- Check a transaction against the account of its sender and the queues, and queue it. -/
def addFrom (admission : StaticPoolAdmission) (account : ParentAccount) (sender : Address)
    (transaction : Transaction) : Except StaticPoolRejection StaticPoolAdmission := do
  let nonce := nonce transaction
  let cost := staticPoolMaxCost transaction
  let authorities := setCodeAuthorities transaction
  let queued : QueuedTransaction := ⟨txHash transaction,
    maxFeePerGas transaction, tipOrFee transaction, authorities⟩
  require (account.nonce ≤ nonce) (.nonceTooLow nonce account.nonce)
  checkPolicy admission.policy transaction account
  require (cost ≤ account.balance) (.insufficientFunds cost account.balance)
  -- The pool has no pending transactions, so that only the parent nonce is admitted here.
  require ((account.hasCode || admission.hasQueuedAuthorization sender) →
    nonce = account.nonce) (.delegatedNonceGap nonce account.nonce)
  match authorities.find? admission.reserved with
  | some authority => .error (.authorityReserved authority)
  | none =>
    match ((admission.queued.lookup sender).getD ∅).lookup nonce with
    | some old =>
      require (outbids old queued.maxFeePerGas queued.maxPriorityFeePerGas)
        (.replaceUnderpriced nonce)
      .ok (admission.enqueue sender nonce queued)
    | none => .ok (admission.enqueue sender nonce queued)

/-- Check a transaction and queue it. The outer error is the panic for a sender that was not
preloaded. -/
def add [GasRules] (admission : StaticPoolAdmission) (sender : Address)
    (transaction : Transaction) :
    Except String (Except StaticPoolRejection StaticPoolAdmission) :=
  match staticPoolAdmission transaction sender admission.head with
  | .error rejection => .ok (.error rejection)
  | .ok () =>
    if txHash transaction ∈ admission.known then
      .ok (.error .alreadyKnown)
    else do
      let account ← ofOption "admission preload covers the block's senders"
        (admission.accounts.lookup sender)
      .ok (admission.addFrom account sender transaction)

/-! ## Accounts of the pool -/

/-- The pool has the account of every sender. -/
def Covers (admission : StaticPoolAdmission) (senders : List Address) : Prop :=
  ∀ sender ∈ senders, (admission.accounts.lookup sender).isSome = true

variable {admission next : StaticPoolAdmission} {sender : Address} {transaction : Transaction}

theorem addFrom_accounts {acct : ParentAccount}
    (h : admission.addFrom acct sender transaction = .ok next) :
    next.accounts = admission.accounts := by
  iterate 4 obtain ⟨_, h⟩ := of_bind h
  split at h
  · cases h
  · split at h
    · obtain ⟨_, h⟩ := of_bind h
      cases h
      rfl
    · cases h
      rfl

theorem add_accounts [GasRules] (h : admission.add sender transaction = .ok (.ok next)) :
    next.accounts = admission.accounts := by
  unfold add at h
  split at h
  · cases h
  · split at h
    · cases h
    · rcases bind_ok h with ⟨acct, -, h⟩
      exact addFrom_accounts (Except.ok.inj h)

variable {senders : List Address}

theorem Covers.add [GasRules] (hcovers : admission.Covers senders)
    (h : admission.add sender transaction = .ok (.ok next)) : next.Covers senders := by
  intro o hmem
  rw [add_accounts h]
  exact hcovers o hmem

theorem Covers.exists_add [GasRules] (hcovers : admission.Covers senders) (hmem : sender ∈ senders)
    (transaction : Transaction) : ∃ answer, admission.add sender transaction = .ok answer := by
  rcases Option.isSome_iff_exists.mp (hcovers sender hmem) with ⟨acct, hacco⟩
  unfold StaticPoolAdmission.add
  split
  · exact ⟨_, rfl⟩
  · split
    · exact ⟨_, rfl⟩
    · rw [hacco]
      exact ⟨_, rfl⟩

omit [PoolFormat] in
theorem preloadAccounts_covers [Crypto] {s : StateProvider}
    {accounts loaded : FiniteMap Address ParentAccount}
    (h : preloadAccounts s accounts senders = .ok loaded) :
    (∀ sender, (accounts.lookup sender).isSome = true → (loaded.lookup sender).isSome = true) ∧
      ∀ sender ∈ senders, (loaded.lookup sender).isSome = true := by
  induction senders generalizing accounts with
  | nil =>
    cases h
    exact ⟨fun _ hsome => hsome, fun sender hmem => nomatch hmem⟩
  | cons a senders ih =>
    unfold preloadAccounts at h
    split at h
    · next hhas =>
        rcases ih h with ⟨hkeeps, hr⟩
        exact ⟨hkeeps, List.forall_mem_cons.mpr ⟨hkeeps a hhas, hr⟩⟩
    · rcases bind_ok h with ⟨acct, -, h⟩
      rcases ih h with ⟨hkeeps, hr⟩
      refine ⟨fun sender hsome => hkeeps sender ?_, List.forall_mem_cons.mpr ⟨hkeeps a ?_,
        hr⟩⟩
      · rw [FiniteMap.lookup_insert_if]
        split
        · rfl
        · exact hsome
      · rw [AList.lookup_insert]
        rfl

omit [PoolFormat] in
theorem new_covers [Crypto] {s : StateProvider} {head : StaticPoolHead}
    (h : new s head senders = .ok admission) : admission.Covers senders := by
  iterate 4 obtain ⟨_, h⟩ := of_bind h
  rcases bind_ok h with ⟨accounts, hacco, h⟩
  cases h
  exact (preloadAccounts_covers hacco).2

end StaticPoolAdmission

end Pool

end NeoX
