import NeoX.AntiMev.Envelope
import NeoX.Network.Payload

/-!
# Resolution of Envelopes

The Envelopes of a proposal, the keys that the decryption shares of a round open, and what every
Envelope resolves to: an inner transaction that replaces it, or the Envelope itself.

Main results:

- `AntiMevProposal.fromTransactions_spec`: the Envelopes of a proposal are in bounds,
  verified, and classified by their round.
- `AntiMevProposal.exists_resolutions`: once the keys of both rounds are open, every
  Envelope of an aligned block is resolved.
- `AntiMevProposal.resolutions_agree`: validators with different decryption shares
  resolve a proposal alike.
-/

namespace NeoX

open List
open Except hiding ok error

/-! ## Transactions -/

/-- Functions of the transaction package. -/
class TransactionFormat where
  Transaction : Type
  ty : Transaction → UInt8
  target : Transaction → Option Address
  input : Transaction → Bytes
  nonce : Transaction → UInt64
  gasLimit : Transaction → UInt64
  maxFeePerGas : Transaction → BitVec 128
  priorityFeeOrPrice : Transaction → BitVec 128
  txHash : Transaction → B256
  recoverSigner : Transaction → Option Address
  /-- Read exactly one signed transaction. -/
  decode2718Exact : Bytes → Option Transaction

export TransactionFormat (Transaction)
open TransactionFormat

/-- The part of a receipt that is read here. -/
structure Receipt where
  cumulativeGasUsed : UInt64
  deriving DecidableEq

variable {cs : List (UInt32 × DbftPreCommit)}

section Resolution

variable [Curve] [TransactionFormat]

/-! ## Envelopes of a proposal -/

/-- The key group that has to contribute shares for an Envelope. -/
inductive EnvelopeDkgEpoch where
  | current
  | previous
  deriving DecidableEq

/-- An Envelope with its position in the proposal. -/
structure AntiMevEnvelope where
  transactionIndex : Nat
  epoch : EnvelopeDkgEpoch
  dkgRound : UInt32
  encryptedGas : UInt32
  encryptedHash : B256
  encryptedKey : TpkeCiphertext
  encryptedMessage : Bytes

/-- The Envelopes of a proposal in their order. -/
structure AntiMevProposal where
  currentRound : UInt64
  envelopes : List AntiMevEnvelope

inductive AntiMevProposalError where
  | invalidCiphertext (transactionIndex : Nat) (source : TpkeError)
  deriving DecidableEq

/-- The Envelope in a transaction, unless it is an ordinary one for the current round. -/
def envelopeOf (transactionIndex : Nat) (currentRound : UInt64) (transaction : Transaction) :
    Except AntiMevProposalError (Option AntiMevEnvelope) :=
  if isEnvelope (ty transaction) (target transaction)
      (input transaction) then
    match EnvelopeData.decode (input transaction) with
    | .error _ => .ok none
    | .ok data =>
      let encodedRound := data.dkgRound.toUInt64
      if encodedRound = 0 ∨ currentRound < encodedRound then
        .ok none
      else do
        data.encryptedKey.verify.mapError (.invalidCiphertext transactionIndex)
        let epoch := if encodedRound = currentRound then .current else .previous
        .ok (some ⟨transactionIndex, epoch, data.dkgRound, data.encryptedGas, data.encryptedHash,
          data.encryptedKey, data.encryptedMessage⟩)
  else
    .ok none

def envelopesFrom (currentRound : UInt64) :
    Nat → List Transaction → Except AntiMevProposalError (List AntiMevEnvelope)
  | _, [] => .ok []
  | transactionIndex, transaction :: transactions => do
      let envelope ← envelopeOf transactionIndex currentRound transaction
      let envelopes ← envelopesFrom currentRound (transactionIndex + 1) transactions
      .ok (envelope.toList ++ envelopes)

/-! ## Resolutions -/

/-- Block data of the outer transactions, by position. -/
structure AntiMevPreBlock where
  transactions : List Transaction
  senders : List Address
  receipts : List Receipt
  parentBaseFee : UInt64

/-- Why an Envelope is kept. -/
inductive AntiMevFallbackReason where
  | aesDecryption (error : TpkeError)
  | transactionDecoding
  | unsupportedBlobTransaction
  | nonceMismatch (expected actual : UInt64)
  | underpriced (minimum actual : Int)
  | senderRecovery
  | senderMismatch (expected actual : Address)
  | hashMismatch (expected actual : B256)
  | gasMismatch (expected actual : UInt64)
  | gasNotAllocated (required allocated : UInt64)
  deriving DecidableEq

/-- What an Envelope resolves to. -/
inductive AntiMevEnvelopeResolution where
  | decrypted (transactionIndex : Nat) (transaction : Transaction)
  | fallback (transactionIndex : Nat) (reason : AntiMevFallbackReason)

/-- Errors that keep a whole proposal from being resolved. -/
inductive AntiMevResolutionError where
  | missingPreviousDkgKey
  | shareAggregation (epoch : EnvelopeDkgEpoch) (error : TpkeError)
  | dkgRoundMismatch (proposal state : UInt64)
  | blockDataLengthMismatch (transactions senders receipts : Nat)
  | envelopeIndexOutOfBounds (index transactions : Nat)
  | nonMonotonicCumulativeGas (index : Nat) (previous current : UInt64)
  deriving DecidableEq

/-- The effective tip at a base fee; it is negative for a fee cap below the base fee. -/
def signedEffectiveTip (transaction : Transaction) (baseFee : UInt64) : Int :=
  min ((maxFeePerGas transaction).toNat - (baseFee.toNat : Int))
    (priorityFeeOrPrice transaction).toNat

/-- Whether an inner transaction may replace its Envelope. -/
def validateDecryptedTransaction (envelope : AntiMevEnvelope) (decrypted outer : Transaction)
    (outerSender : Address) (allocatedGas parentBaseFee : UInt64) :
    Except AntiMevFallbackReason Unit := do
  require (ty decrypted ≠ eip4844Type) .unsupportedBlobTransaction
  require (nonce decrypted = nonce outer)
    (.nonceMismatch (nonce outer) (nonce decrypted))
  let minimum := signedEffectiveTip outer parentBaseFee
  let actual := signedEffectiveTip decrypted parentBaseFee
  require (minimum ≤ actual) (.underpriced minimum actual)
  let decryptedSender ← ofOption .senderRecovery (TransactionFormat.recoverSigner decrypted)
  require (decryptedSender = outerSender) (.senderMismatch outerSender decryptedSender)
  let actualHash := txHash decrypted
  require (actualHash = envelope.encryptedHash)
    (.hashMismatch envelope.encryptedHash actualHash)
  let expectedGas := envelope.encryptedGas.toUInt64
  let actualGas := gasLimit decrypted
  require (actualGas = expectedGas) (.gasMismatch expectedGas actualGas)
  require (actualGas ≤ allocatedGas) (.gasNotAllocated actualGas allocatedGas)

/-- The inner transaction of an Envelope under an opened key. -/
def decryptTransaction [Cipher] (key : G1Bytes) (envelope : AntiMevEnvelope) (strict : Bool) :
    Except AntiMevFallbackReason Transaction := do
  let plaintext ←
    (decryptMessageWithMode key envelope.encryptedMessage strict).mapError .aesDecryption
  ofOption .transactionDecoding (decode2718Exact plaintext)

/-- The gas of every transaction, from the cumulative gas of the receipts. -/
def gasAllocations : Nat → UInt64 → List Receipt → Except AntiMevResolutionError (List UInt64)
  | _, _, [] => .ok []
  | index, previous, receipt :: receipts => do
      let current := receipt.cumulativeGasUsed
      require (previous ≤ current) (.nonMonotonicCumulativeGas index previous current)
      let allocations ← gasAllocations (index + 1) current receipts
      .ok ((current - previous) :: allocations)

def resolveEnvelope [Cipher] (key : G1Bytes) (envelope : AntiMevEnvelope) (outer : Transaction)
    (outerSender : Address) (allocatedGas parentBaseFee : UInt64) (strict : Bool) :
    AntiMevEnvelopeResolution :=
  match decryptTransaction key envelope strict with
  | .error reason => .fallback envelope.transactionIndex reason
  | .ok transaction =>
    match validateDecryptedTransaction envelope transaction outer outerSender allocatedGas
      parentBaseFee with
    | .ok () => .decrypted envelope.transactionIndex transaction
    | .error reason => .fallback envelope.transactionIndex reason

def nextKey (epoch : EnvelopeDkgEpoch) (currentKeys previousKeys : List G1Bytes)
    (currentIndex previousIndex : Nat) : G1Bytes :=
  match epoch with
  | .current => currentKeys.getD currentIndex (.zero 48)
  | .previous => previousKeys.getD previousIndex (.zero 48)

/-- The resolutions of Envelopes, which take the keys of their round in turn. -/
def resolveEnvelopes [Cipher] (preBlock : AntiMevPreBlock) (allocations : List UInt64)
    (strict : Bool) (currentKeys previousKeys : List G1Bytes) :
    Nat → Nat → List AntiMevEnvelope →
      Except AntiMevResolutionError (List AntiMevEnvelopeResolution)
  | _, _, [] => .ok []
  | currentIndex, previousIndex, envelope :: envelopes => do
      let key := nextKey envelope.epoch currentKeys previousKeys currentIndex previousIndex
      -- The positions were checked before, so that none of these reads fails.
      let missing := AntiMevResolutionError.envelopeIndexOutOfBounds envelope.transactionIndex
        preBlock.transactions.length
      let outer ← ofOption missing preBlock.transactions[envelope.transactionIndex]?
      let sender ← ofOption missing preBlock.senders[envelope.transactionIndex]?
      let allocated ← ofOption missing allocations[envelope.transactionIndex]?
      let resolutions ← resolveEnvelopes preBlock allocations strict currentKeys previousKeys
        (if envelope.epoch = .current then currentIndex + 1 else currentIndex)
        (if envelope.epoch = .previous then previousIndex + 1 else previousIndex) envelopes
      .ok (resolveEnvelope key envelope outer sender allocated preBlock.parentBaseFee strict
        :: resolutions)

namespace AntiMevProposal

/-- The Envelopes of transactions under the current DKG round. -/
def fromTransactions (transactions : List Transaction) (currentRound : UInt64) :
    Except AntiMevProposalError AntiMevProposal := do
  let envelopes ← envelopesFrom currentRound 0 transactions
  .ok ⟨currentRound, envelopes⟩

/-- The encrypted keys for one key group, in the order of their Envelopes. -/
def ciphertexts (proposal : AntiMevProposal) (epoch : EnvelopeDkgEpoch) : List TpkeCiphertext :=
  (proposal.envelopes.filter fun envelope => envelope.epoch = epoch).map
    AntiMevEnvelope.encryptedKey

/-- The shares of a contribution for one key group. -/
def epochShares (epoch : EnvelopeDkgEpoch) (preCommit : DbftPreCommit) : List G1Bytes :=
  match epoch with
  | .current => preCommit.currentRound
  | .previous => preCommit.previousRound

def decryptEpochKeys (proposal : AntiMevProposal) (epoch : EnvelopeDkgEpoch)
    (publicKey : Option DkgPublicKey) (contributions : List (UInt32 × DbftPreCommit))
    (threshold : Nat) (parameters : DkgParameters) :
    Except AntiMevResolutionError (List G1Bytes) :=
  let ciphertexts := proposal.ciphertexts epoch
  if ciphertexts.isEmpty then
    .ok []
  else
    match publicKey with
    | none => .error .missingPreviousDkgKey
    | some publicKey =>
      (aggregateAndDecryptKeysWithParameters ciphertexts publicKey.globalPublicKey
        (contributions.map fun contribution => (contribution.1, epochShares epoch contribution.2))
        threshold parameters).mapError (.shareAggregation epoch)

/-- Open the keys of a proposal and resolve its Envelopes. -/
def decryptAndValidateWithMode [Cipher] (proposal : AntiMevProposal)
    (contributions : List (UInt32 × DbftPreCommit)) (dkgState : DkgState) (threshold : Nat)
    (preBlock : AntiMevPreBlock) (strict : Bool) :
    Except AntiMevResolutionError (List AntiMevEnvelopeResolution) := do
  require (dkgState.current.round = proposal.currentRound)
    (.dkgRoundMismatch proposal.currentRound dkgState.current.round)
  require (preBlock.transactions.length = preBlock.senders.length ∧
      preBlock.transactions.length = preBlock.receipts.length)
    (.blockDataLengthMismatch preBlock.transactions.length preBlock.senders.length
      preBlock.receipts.length)
  match proposal.envelopes.find? fun envelope =>
      preBlock.transactions.length ≤ envelope.transactionIndex with
  | some envelope =>
    .error (.envelopeIndexOutOfBounds envelope.transactionIndex preBlock.transactions.length)
  | none =>
    let allocations ← gasAllocations 0 0 preBlock.receipts
    let currentKeys ← proposal.decryptEpochKeys .current (some dkgState.current) contributions
      threshold dkgState.parameters
    let previousKeys ← proposal.decryptEpochKeys .previous dkgState.previous contributions
      threshold dkgState.parameters
    resolveEnvelopes preBlock allocations strict currentKeys previousKeys 0 0 proposal.envelopes

def decryptAndValidate [Cipher] (proposal : AntiMevProposal)
    (contributions : List (UInt32 × DbftPreCommit)) (dkgState : DkgState) (threshold : Nat)
    (preBlock : AntiMevPreBlock) :
    Except AntiMevResolutionError (List AntiMevEnvelopeResolution) :=
  proposal.decryptAndValidateWithMode contributions dkgState threshold preBlock false

/-! ## What is resolved -/

/-- The Envelope of a transaction is verified and belongs to the current or an earlier round. -/
theorem envelopeOf_spec {i : Nat} {currentRound : UInt64} {tx : Transaction}
    {envelope : AntiMevEnvelope} (h : envelopeOf i currentRound tx = .ok (some envelope)) :
    envelope.transactionIndex = i ∧ envelope.encryptedKey.verify = .ok () ∧
      envelope.dkgRound ≠ 0 ∧ envelope.dkgRound.toUInt64 ≤ currentRound ∧
      (envelope.epoch = .current ↔ envelope.dkgRound.toUInt64 = currentRound) := by
  unfold envelopeOf at h
  split at h
  case isFalse => cases h
  case isTrue =>
    split at h
    case h_1 => cases h
    case h_2 data hd =>
      dsimp only at h
      split at h
      case isTrue => cases h
      case isFalse hrd =>
        obtain ⟨_, hver, h⟩ := mapError_bind h
        cases h
        have hnonz := (EnvelopeData.decode_spec hd).2.1
        rw [not_or] at hrd
        refine ⟨rfl, hver, hnonz, UInt64.not_lt.mp hrd.2, ?_⟩
        by_cases hcur : data.dkgRound.toUInt64 = currentRound
        · simp [hcur]
        · simp [hcur]

variable {envelopes : List AntiMevEnvelope} {txs : List Transaction} {start : Nat}

theorem envelopesFrom_spec {currentRound : UInt64}
    (h : envelopesFrom currentRound start txs = .ok envelopes) :
    ∀ envelope ∈ envelopes, envelope.transactionIndex < start + txs.length ∧
      envelope.encryptedKey.verify = .ok () ∧
      envelope.dkgRound ≠ 0 ∧ envelope.dkgRound.toUInt64 ≤ currentRound ∧
      (envelope.epoch = .current ↔ envelope.dkgRound.toUInt64 = currentRound) := by
  induction txs generalizing start envelopes with
  | nil =>
    cases h
    simp
  | cons transaction txs ih =>
    rcases bind_ok h with ⟨found, hf, h⟩
    rcases bind_ok h with ⟨rest, hr, h⟩
    cases h
    intro envelope hmem
    rcases mem_append.mp hmem with hmem | hmem
    · rw [Option.mem_toList] at hmem
      rw [hmem] at hf
      rcases envelopeOf_spec hf with ⟨hi, hspec⟩
      refine ⟨?_, hspec⟩
      rw [hi, length_cons]
      omega
    · rcases ih hr envelope hmem with ⟨hi, hspec⟩
      refine ⟨?_, hspec⟩
      rw [length_cons]
      omega

/-- The positions of Envelopes increase. -/
theorem envelopesFrom_increasing {currentRound : UInt64}
    (h : envelopesFrom currentRound start txs = .ok envelopes) :
    (envelopes.map AntiMevEnvelope.transactionIndex).Pairwise (· < ·) ∧
      ∀ envelope ∈ envelopes, start ≤ envelope.transactionIndex := by
  induction txs generalizing start envelopes with
  | nil =>
    cases h
    simp
  | cons transaction txs ih =>
    rcases bind_ok h with ⟨found, hf, h⟩
    rcases bind_ok h with ⟨rest, hr, h⟩
    cases h
    rcases ih hr with ⟨hincr, hb⟩
    cases found with
    | none => exact ⟨hincr, fun envelope hmem => Nat.le_of_succ_le (hb envelope hmem)⟩
    | some a =>
      have hi := (envelopeOf_spec hf).1
      refine ⟨pairwise_cons.mpr ⟨?_, hincr⟩, ?_⟩
      · intro i hmem
        rcases mem_map.mp hmem with ⟨envelope, he, rfl⟩
        rw [hi]
        exact hb envelope he
      · intro envelope hmem
        rcases mem_cons.mp hmem with rfl | hmem
        · exact hi.ge
        · exact Nat.le_of_succ_le (hb envelope hmem)

/-- The Envelopes of a proposal are in bounds and verified, and those of the current round are told
from those of earlier rounds. -/
theorem fromTransactions_spec {currentRound : UInt64} {proposal : AntiMevProposal}
    (h : fromTransactions txs currentRound = .ok proposal) :
    proposal.currentRound = currentRound ∧
    ∀ envelope ∈ proposal.envelopes, envelope.transactionIndex < txs.length ∧
      envelope.encryptedKey.verify = .ok () ∧
      envelope.dkgRound ≠ 0 ∧ envelope.dkgRound.toUInt64 ≤ currentRound ∧
      (envelope.epoch = .current ↔ envelope.dkgRound.toUInt64 = currentRound) := by
  rcases bind_ok h with ⟨envelopes, henve, h⟩
  cases h
  refine ⟨rfl, fun envelope hmem => ?_⟩
  have hspec := envelopesFrom_spec henve envelope hmem
  rwa [Nat.zero_add] at hspec

variable {allocations : List UInt64}

omit [Curve] [TransactionFormat] in
theorem length_gasAllocations {i : Nat} {prev : UInt64} {receipts : List Receipt}
    (h : gasAllocations i prev receipts = .ok allocations) :
    allocations.length = receipts.length := by
  induction receipts generalizing i prev allocations with
  | nil =>
    cases h
    rfl
  | cons receipt receipts ih =>
    obtain ⟨_, h⟩ := of_bind h
    rcases bind_ok h with ⟨rest, hr, h⟩
    cases h
    rw [length_cons, length_cons, ih hr]

/-- Envelopes in bounds are resolved. -/
theorem exists_resolveEnvelopes [Cipher] {preBlock : AntiMevPreBlock}
    (hsend : preBlock.transactions.length = preBlock.senders.length)
    (hallo : preBlock.transactions.length = allocations.length) (strict : Bool)
    (currentKeys previousKeys : List G1Bytes) (hbounds : ∀ envelope ∈ envelopes,
      envelope.transactionIndex < preBlock.transactions.length) (currentIndex previousIndex : Nat) :
    ∃ resolutions, resolveEnvelopes preBlock allocations strict currentKeys previousKeys
      currentIndex previousIndex envelopes = .ok resolutions := by
  induction envelopes generalizing currentIndex previousIndex with
  | nil => exact ⟨[], rfl⟩
  | cons envelope envelopes ih =>
    rcases forall_mem_cons.mp hbounds with ⟨hi, hr⟩
    rcases ih hr
      (if envelope.epoch = .current then currentIndex + 1 else currentIndex)
      (if envelope.epoch = .previous then previousIndex + 1 else previousIndex) with
      ⟨resolutions, hreso⟩
    refine ⟨_, bind_eq_ok.mpr ⟨preBlock.transactions[envelope.transactionIndex], ?_,
      bind_eq_ok.mpr ⟨preBlock.senders[envelope.transactionIndex], ?_,
      bind_eq_ok.mpr ⟨allocations[envelope.transactionIndex], ?_,
      bind_eq_ok.mpr ⟨resolutions, hreso, rfl⟩⟩⟩⟩⟩
    · exact ofOption_eq_ok.mpr (getElem?_eq_getElem hi)
    · exact ofOption_eq_ok.mpr (getElem?_eq_getElem (hsend ▸ hi))
    · exact ofOption_eq_ok.mpr (getElem?_eq_getElem (hallo ▸ hi))

/-- Once the keys of both rounds are open, every Envelope of an aligned block is resolved. -/
theorem exists_resolutions [Cipher] {proposal : AntiMevProposal} {dkgState : DkgState} {t : Nat}
    {preBlock : AntiMevPreBlock} (hrd : dkgState.current.round = proposal.currentRound)
    (halig : preBlock.transactions.length = preBlock.senders.length ∧
      preBlock.transactions.length = preBlock.receipts.length)
    (hbounds : ∀ envelope ∈ proposal.envelopes,
      envelope.transactionIndex < preBlock.transactions.length)
    (hgas : gasAllocations 0 0 preBlock.receipts = .ok allocations)
    {currentKeys previousKeys : List G1Bytes}
    (hcur : proposal.decryptEpochKeys .current (some dkgState.current) cs t
      dkgState.parameters = .ok currentKeys)
    (hprev : proposal.decryptEpochKeys .previous dkgState.previous cs t
      dkgState.parameters = .ok previousKeys) (strict : Bool) :
    ∃ resolutions, proposal.decryptAndValidateWithMode cs dkgState t preBlock
      strict = .ok resolutions := by
  have hf : proposal.envelopes.find? (fun envelope =>
      preBlock.transactions.length ≤ envelope.transactionIndex) = none := by
    rw [find?_eq_none]
    intro envelope hmem
    have hi := hbounds envelope hmem
    simp only [decide_eq_true_eq]
    omega
  rw [decryptAndValidateWithMode, require_of _ hrd, ok_bind, require_of _ halig, ok_bind, hf]
  dsimp only
  rw [hgas, ok_bind, hcur, ok_bind, hprev, ok_bind]
  exact exists_resolveEnvelopes halig.1 (halig.2.trans (length_gasAllocations hgas).symm)
    strict currentKeys previousKeys hbounds 0 0

/-! ## Agreement -/

omit [TransactionFormat] in
/-- The keys of a round do not depend on the shares that open them. -/
theorem decryptEpochKeys_unique {proposal : AntiMevProposal} {epoch : EnvelopeDkgEpoch}
    {publicKey : Option DkgPublicKey} {a b : List (UInt32 × DbftPreCommit)} {t : Nat}
    {ps : DkgParameters} {firstKeys secondKeys : List G1Bytes}
    (h1 : proposal.decryptEpochKeys epoch publicKey a t ps = .ok firstKeys)
    (h2 : proposal.decryptEpochKeys epoch publicKey b t ps
      = .ok secondKeys) : firstKeys = secondKeys := by
  unfold decryptEpochKeys at h1 h2
  by_cases hempty : proposal.ciphertexts epoch = []
  · simp only [hempty, List.isEmpty_nil, if_pos] at h1 h2
    cases h1
    cases h2
    rfl
  · have hnone : ¬ (proposal.ciphertexts epoch).isEmpty = true := by
      rwa [List.isEmpty_iff]
    simp only [if_neg hnone] at h1 h2
    cases publicKey with
    | none => cases h1
    | some publicKey =>
      rw [mapError_eq_ok] at h1 h2
      rcases aggregateAndDecryptKeys_opens h1 hempty with ⟨key, hkey, hopens⟩
      rcases aggregateAndDecryptKeys_opens h2 hempty with ⟨o, ho, hopen⟩
      rw [hkey, Option.some.injEq] at ho
      rw [← ho] at hopen
      exact keys_unique hopens hopen

/-- Resolution reads nothing of the contributions but the keys they open. -/
theorem decryptAndValidateWithMode_eq_ok [Cipher] {proposal : AntiMevProposal} {dkgState : DkgState}
    {t : Nat} {preBlock : AntiMevPreBlock} {strict : Bool}
    {resolutions : List AntiMevEnvelopeResolution}
    (h : proposal.decryptAndValidateWithMode cs dkgState t preBlock strict
      = .ok resolutions) :
    ∃ allocations currentKeys previousKeys,
      gasAllocations 0 0 preBlock.receipts = .ok allocations ∧
      proposal.decryptEpochKeys .current (some dkgState.current) cs t
        dkgState.parameters = .ok currentKeys ∧
      proposal.decryptEpochKeys .previous dkgState.previous cs t
        dkgState.parameters = .ok previousKeys ∧
      resolveEnvelopes preBlock allocations strict currentKeys previousKeys 0 0 proposal.envelopes
        = .ok resolutions := by
  obtain ⟨_, h⟩ := of_bind h
  obtain ⟨_, h⟩ := of_bind h
  split at h
  case h_1 => cases h
  case h_2 =>
    rcases bind_ok h with ⟨allocations, hgas, h⟩
    rcases bind_ok h with ⟨currentKeys, hcur, h⟩
    rcases bind_ok h with ⟨previousKeys, hprev, h⟩
    exact ⟨allocations, currentKeys, previousKeys, hgas, hcur, hprev, h⟩

/-- Validators that resolve a proposal with different decryption shares resolve it alike. -/
theorem resolutions_agree [Cipher] {proposal : AntiMevProposal}
    {first second : List (UInt32 × DbftPreCommit)} {dkgState : DkgState} {threshold : Nat}
    {preBlock : AntiMevPreBlock} {strict : Bool}
    {firstResolutions secondResolutions : List AntiMevEnvelopeResolution}
    (hfirst : proposal.decryptAndValidateWithMode first dkgState threshold preBlock strict
      = .ok firstResolutions)
    (hsecond : proposal.decryptAndValidateWithMode second dkgState threshold preBlock strict
      = .ok secondResolutions) : firstResolutions = secondResolutions := by
  rcases decryptAndValidateWithMode_eq_ok hfirst with
    ⟨allocations, currentKeys, previousKeys, hgas, hcurrent, hprevious, hresolved⟩
  rcases decryptAndValidateWithMode_eq_ok hsecond with
    ⟨otherAllocations, otherCurrentKeys, otherPreviousKeys, hgasOther, hcurrentOther,
      hpreviousOther, hresolvedOther⟩
  rw [hgas] at hgasOther
  cases hgasOther
  rw [decryptEpochKeys_unique hcurrentOther hcurrent,
    decryptEpochKeys_unique hpreviousOther hprevious] at hresolvedOther
  exact Except.ok.inj (hresolved.symm.trans hresolvedOther)

end AntiMevProposal

end Resolution

/-! ## A committee of four -/

namespace RawTransactions

/-- Transactions that are their own encoding. -/
scoped instance transactionFormat : TransactionFormat where
  Transaction := Bytes
  ty _ := 0
  target _ := none
  input transaction := transaction
  nonce _ := 0
  gasLimit _ := 0
  maxFeePerGas _ := 0
  priorityFeeOrPrice _ := 0
  txHash transaction := FixedBytes.first 32 transaction
  recoverSigner _ := none
  decode2718Exact := some

/-- A cipher that leaves every block as it is. -/
scoped instance cipher : Cipher where
  sha256 bytes := FixedBytes.first 32 bytes
  decryptBlock _ block := block

end RawTransactions

section Example

open ScalarCurve RawTransactions

/-- Two Envelopes for the committee of four. -/
def exampleProposal : AntiMevProposal :=
  ⟨1, exampleCiphertexts.zipIdx.map fun entry =>
    ⟨entry.2, .current, 1, 21000, .zero 32, entry.1, List.replicate 112 1⟩⟩

def examplePreBlock : AntiMevPreBlock :=
  ⟨[[1], [2]], [.zero 20, .zero 20], [⟨21000⟩, ⟨42000⟩], 0⟩

noncomputable def exampleDkgState : DkgState :=
  ⟨⟨4, 3, 3⟩, ⟨1, .zero 128, compress1
    ((((3 : UInt64).toNat : Scalar) * examplePolynomial.eval 0) • generator1)⟩, none⟩

noncomputable def examplePreCommit (index : UInt32) : UInt32 × DbftPreCommit :=
  (index, ⟨exampleCiphertexts.map (polynomialShare examplePolynomial index), [], []⟩)

def wrongPreCommit (index : UInt32) : UInt32 × DbftPreCommit :=
  (index, ⟨[.zero 48, .zero 48], [], []⟩)

/-- Any three members of the committee resolve the proposal. -/
theorem exists_exampleResolutions {honest : List UInt32} (hidx : ∀ c ∈ cs,
      1 ≤ c.1.toNat ∧ c.1.toNat ≤ 4)
    (hnd : (cs.map Prod.fst).Nodup) (hdist : honest.Nodup)
    (henough : 3 ≤ honest.length)
    (hhonest : ∀ i ∈ honest, examplePreCommit i ∈ cs) :
    ∃ resolutions, exampleProposal.decryptAndValidateWithMode cs exampleDkgState 3
      examplePreBlock true = .ok resolutions := by
  have hparam : DkgParameters.new 4 = .ok ⟨4, 3, 3⟩ := by decide +kernel
  have hcur : exampleProposal.ciphertexts .current = exampleCiphertexts := rfl
  have hopened : ∃ keys, aggregateAndDecryptKeysWithParameters exampleCiphertexts
      exampleDkgState.current.globalPublicKey (cs.map fun c =>
        (c.1, AntiMevProposal.epochShares .current c.2)) 3 ⟨4, 3, 3⟩
      = .ok keys := by
    refine exists_decryptedKeys hparam degree_examplePolynomial verify_exampleCiphertexts ?_ ?_
      hdist henough ?_
    · intro c hmem
      rcases mem_map.mp hmem with ⟨preCommit, hpreC, rfl⟩
      exact hidx preCommit hpreC
    · rwa [map_map]
    · intro i hi
      exact mem_map_of_mem (f := fun c : UInt32 × DbftPreCommit =>
        (c.1, AntiMevProposal.epochShares .current c.2))
        (hhonest i hi)
  rcases hopened with ⟨keys, hkeys⟩
  have hgas : gasAllocations 0 0 examplePreBlock.receipts = .ok [21000, 21000] := rfl
  have hkeysC : exampleProposal.decryptEpochKeys .current (some exampleDkgState.current)
      cs 3 exampleDkgState.parameters = .ok keys := by
    rw [AntiMevProposal.decryptEpochKeys, hcur]
    exact mapError_eq_ok.mpr hkeys
  have hkeysP : exampleProposal.decryptEpochKeys .previous exampleDkgState.previous
      cs 3 exampleDkgState.parameters = .ok [] := rfl
  refine AntiMevProposal.exists_resolutions rfl ⟨rfl, rfl⟩ ?_ hgas hkeysC hkeysP true
  intro envelope hmem
  have hi : envelope.transactionIndex ∈ [0, 1] :=
    mem_map_of_mem (f := AntiMevEnvelope.transactionIndex) hmem
  revert hi
  generalize envelope.transactionIndex = i
  intro hi
  fin_cases hi <;> decide

/-- Two sets of shares, one of them with wrong shares of a member, give the same resolutions. -/
theorem resolutions_agree_committee :
    ∃ resolutions,
      exampleProposal.decryptAndValidateWithMode ([1, 2, 3].map examplePreCommit)
        exampleDkgState 3 examplePreBlock true = .ok resolutions ∧
      exampleProposal.decryptAndValidateWithMode
        (wrongPreCommit 1 :: [2, 3, 4].map examplePreCommit) exampleDkgState 3 examplePreBlock true
        = .ok resolutions := by
  have hfirst : ∃ resolutions, exampleProposal.decryptAndValidateWithMode
      ([1, 2, 3].map examplePreCommit) exampleDkgState 3 examplePreBlock true
      = .ok resolutions := by
    apply exists_exampleResolutions (by decide) (by decide)
      (by decide : ([1, 2, 3] : List UInt32).Nodup)
      (by decide)
    exact fun index hindex => List.mem_map_of_mem hindex
  have hsecond : ∃ resolutions, exampleProposal.decryptAndValidateWithMode
      (wrongPreCommit 1 :: [2, 3, 4].map examplePreCommit) exampleDkgState 3 examplePreBlock true
      = .ok resolutions := by
    apply exists_exampleResolutions (by decide) (by decide)
      (by decide : ([2, 3, 4] : List UInt32).Nodup)
      (by decide)
    exact fun index hindex => List.mem_cons_of_mem _ (List.mem_map_of_mem hindex)
  rcases hfirst with ⟨resolutions, hfirst⟩
  rcases hsecond with ⟨others, hsecond⟩
  refine ⟨resolutions, hfirst, ?_⟩
  rw [hsecond, AntiMevProposal.resolutions_agree hfirst hsecond]

end Example

end NeoX
