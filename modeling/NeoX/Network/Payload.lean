import NeoX.Network.Message

/-!
# Type-specific dBFT payloads

The bodies of the seven message kinds and their wire formats, including the
little-endian share packet of a `PreCommit` and the two encodings of a
`Commit` signature.
-/

namespace NeoX

open Except hiding ok error

open Rlp BigEndian

/-- Number of bytes of the two share counters. -/
def precommitCountPrefixLen : Nat := 8

def decryptionShareLen : Nat := 48

def maxDecryptionSharesPerBlock : Nat := 1000

/-- Entries of one kind a recovery message may carry. -/
def maxRecoveryPayloads : Nat := 256

/-- Why a compact recovery entry was refused. -/
inductive RecoveredMessageError where
  | unauthenticated (violation : DbftProtocolViolation)
  | malformed (error : Rlp.Error)
  | nestedControl
  | notRecoveryMessage
  | validatorCount (count : Nat)
  | duplicate (kind : String) (index : UInt8)
  | outside (kind : String) (index : UInt8) (count : Nat)
  | ambiguousChangeView (index : UInt8)
  | invalidChangeView (index : UInt8)
  | invalidWitness (kind : String) (index : UInt8) (violation : DbftProtocolViolation)
  deriving DecidableEq

inductive DbftPayloadError where
  | invalidRlp (error : Rlp.Error)
  | invalidChangeViewReason (reason : UInt8)
  | sharesTooShort (length : Nat)
  | tooManyShares (count : Nat)
  | invalidSharesLength (expected actual : Nat)
  | invalidDecryptionShare
  | invalidRecoveredMessage (reason : RecoveredMessageError)
  | invalidCommitLength (length : Nat)
  | invalidCommitRecoveryId (value : UInt8)
  | invalidCommitSignatureShare
  deriving DecidableEq

/-! ## Change views -/

/-- Reasons of a change-view request. -/
inductive DbftChangeViewReason where
  | timeout
  | changeAgreement
  | transactionNotFound
  | transactionRejectedByPolicy
  | transactionInvalid
  | blockRejectedByPolicy
  | unknown
  deriving DecidableEq, Repr

namespace DbftChangeViewReason

def toByte : DbftChangeViewReason → UInt8
  | timeout => 0
  | changeAgreement => 1
  | transactionNotFound => 2
  | transactionRejectedByPolicy => 3
  | transactionInvalid => 4
  | blockRejectedByPolicy => 5
  | unknown => 0xff

def ofByte (byte : UInt8) : Except DbftPayloadError DbftChangeViewReason :=
  if byte = 0 then .ok timeout
  else if byte = 1 then .ok changeAgreement
  else if byte = 2 then .ok transactionNotFound
  else if byte = 3 then .ok transactionRejectedByPolicy
  else if byte = 4 then .ok transactionInvalid
  else if byte = 5 then .ok blockRejectedByPolicy
  else if byte = 0xff then .ok unknown
  else .error (.invalidChangeViewReason byte)

/-- The reasons in the order in which recovery tries them. -/
def all : List DbftChangeViewReason :=
  [timeout, changeAgreement, transactionNotFound, transactionRejectedByPolicy,
    transactionInvalid, blockRejectedByPolicy, unknown]

theorem mem_all (reason : DbftChangeViewReason) : reason ∈ all := by
  cases reason <;> decide

theorem toByte_injective : Function.Injective toByte := by
  intro a b h
  cases a <;> cases b <;> first | rfl | cases h

theorem toByte_of_ofByte {byte : UInt8} {reason : DbftChangeViewReason}
    (h : ofByte byte = .ok reason) : reason.toByte = byte := by
  unfold ofByte at h
  repeat' split at h
  all_goals first
    | cases h; subst_vars; rfl
    | cases h

end DbftChangeViewReason

/-- Body of a change-view request. The new view is the message view plus one. -/
structure DbftChangeView where
  timestampNs : UInt64
  reasonByte : UInt8
  deriving DecidableEq

namespace DbftChangeView

/-- A change-view body with a canonical reason byte. -/
def new (timestampNs : UInt64) (reason : DbftChangeViewReason) : DbftChangeView :=
  ⟨timestampNs, reason.toByte⟩

def reason (body : DbftChangeView) : Except DbftPayloadError DbftChangeViewReason :=
  DbftChangeViewReason.ofByte body.reasonByte

def ofFields : UInt64 × UInt8 ≃ DbftChangeView where
  toFun fields := ⟨fields.1, fields.2⟩
  invFun body := (body.timestampNs, body.reasonByte)
  left_inv _ := rfl
  right_inv _ := rfl

/-- The wire format of change-view bodies. -/
def codec : Codec DbftChangeView :=
  (Codec.u64.pair Codec.u8).wrap.equiv ofFields

theorem codec_canonical : codec.Canonical :=
  (Codec.u64_canonical.pair Codec.u8_canonical).wrap.equiv _

end DbftChangeView

/-! ## Preparations -/

/-- Primary block proposal and its ordered transaction hashes. -/
structure DbftPrepareRequest where
  sealingProposal : Header
  transactionHashes : List B256
  parentSealHashV0 : Option B256
  parentExtra : Option Bytes
  deriving DecidableEq

namespace DbftPrepareRequest

def hashesCodec : Codec (List B256) := b256Codec.listOf none .overflow

/-- The parent seal hash written to the wire: zero stands in for a missing one before an
attached parent extra. -/
def effectiveParentSealHash (request : DbftPrepareRequest) : Option B256 :=
  match request.parentSealHashV0 with
  | some hash => some hash
  | none => request.parentExtra.map fun _ => .zero 32

def codec : Codec DbftPrepareRequest where
  encode request := encodeList
    (Header.codec.encode request.sealingProposal ++ hashesCodec.encode request.transactionHashes ++
      encodeOptional b256Codec request.effectiveParentSealHash ++
      encodeOptional Codec.bytes request.parentExtra)
  decode input := do
    let (payload, rest) ← decodePayload true input
    let (sealingProposal, payload) ← Header.codec.decode payload
    let (transactionHashes, payload) ← hashesCodec.decode payload
    let (parentSealHashV0, payload) ← decodeTrailing b256Codec payload
    let (parentExtra, payload) ← decodeTrailing Codec.bytes payload
    require (payload = []) (.listLengthMismatch 4 5)
    .ok (⟨sealingProposal, transactionHashes, parentSealHashV0, parentExtra⟩, rest)

end DbftPrepareRequest

/-- Backup acknowledgement of one proposal. -/
structure DbftPrepareResponse where
  preparationHash : B256
  deriving DecidableEq

namespace DbftPrepareResponse

def ofFields : B256 ≃ DbftPrepareResponse where
  toFun hash := ⟨hash⟩
  invFun body := body.preparationHash
  left_inv _ := rfl
  right_inv _ := rfl

/-- The wire format of acknowledgements. -/
def codec : Codec DbftPrepareResponse := b256Codec.wrap.equiv ofFields

theorem codec_canonical : codec.Canonical :=
  (Codec.fixed_canonical 32).wrap.equiv _

end DbftPrepareResponse

/-! ## Anti-MEV shares -/

/-- Decryption shares contributed by one validator, with the packet they came in. -/
structure DbftPreCommit where
  currentRound : List G1Bytes
  previousRound : List G1Bytes
  data : Bytes
  deriving DecidableEq

namespace DbftPreCommit

def littleEndian (bytes : Bytes) : Nat :=
  ofBytes bytes.reverse

def shareCount (body : DbftPreCommit) : Nat :=
  body.currentRound.length + body.previousRound.length

/-- The wire format of a packet before its shares are checked. -/
def packetCodec : Codec Bytes := Codec.bytes.wrap

variable [Crypto]

/-- Check that every share is a subgroup point. -/
def decodeShares (shares : List G1Bytes) : Except DbftPayloadError (List G1Bytes) := do
  require (shares.all Crypto.validG1 = true) .invalidDecryptionShare
  .ok shares

/-- Decode a fixed-width little-endian share packet. -/
def fromData (data : Bytes) : Except DbftPayloadError DbftPreCommit := do
  require (precommitCountPrefixLen ≤ data.length) (.sharesTooShort data.length)
  let currentCount := littleEndian (data.take 4)
  let previousCount := littleEndian ((data.drop 4).take 4)
  let total := currentCount + previousCount
  require (total < 2 ^ 32) (.tooManyShares (2 ^ 64 - 1))
  require (total ≤ maxDecryptionSharesPerBlock) (.tooManyShares total)
  let expected := precommitCountPrefixLen + total * decryptionShareLen
  require (data.length = expected) (.invalidSharesLength expected data.length)
  let shares := FixedBytes.chunks 48 total (data.drop precommitCountPrefixLen)
  let currentRound ← decodeShares (shares.take currentCount)
  let previousRound ← decodeShares (shares.drop currentCount)
  .ok ⟨currentRound, previousRound, data⟩

/-- The wire format of share contributions. -/
def codec : Codec DbftPreCommit where
  encode body := packetCodec.encode body.data
  decode input := do
    let (data, rest) ← packetCodec.decode input
    let body ← (fromData data).mapError fun _ => .custom "invalid dBFT PreCommit shares"
    .ok (body, rest)

theorem data_of_fromData {data : Bytes} {body : DbftPreCommit} (h : fromData data = .ok body) :
    body.data = data := by
  iterate 6 obtain ⟨_, h⟩ := of_bind h
  cases h
  rfl

theorem codec_canonical : codec.Canonical := by
  intro input body rest h
  rcases bind_ok h with ⟨⟨data, tail⟩, hd, h⟩
  obtain ⟨found, hf, h⟩ := mapError_bind h
  cases h
  have hinput := Codec.bytes_canonical.wrap _ _ _ hd
  rw [hinput, ← data_of_fromData hf]
  rfl

theorem fromData_of_decode {input rest : Bytes} {body : DbftPreCommit}
    (h : codec.decode input = .ok (body, rest)) : fromData body.data = .ok body := by
  rcases bind_ok h with ⟨⟨data, tail⟩, -, h⟩
  obtain ⟨found, hf, h⟩ := mapError_bind h
  cases h
  rw [data_of_fromData hf]
  exact hf

end DbftPreCommit

/-! ## Commits -/

/-- ECDSA block signature or threshold-signature share. -/
structure DbftCommit where
  signature : Bytes
  deriving DecidableEq

/-- Validated interpretation of a commit signature. -/
inductive DbftCommitSignature where
  | ecdsa (signature : FixedBytes 65)
  | threshold (share : G2Bytes)
  deriving DecidableEq

namespace DbftCommit

def ofFields : Bytes ≃ DbftCommit where
  toFun signature := ⟨signature⟩
  invFun body := body.signature
  left_inv _ := rfl
  right_inv _ := rfl

/-- The wire format of commit bodies. -/
def codec : Codec DbftCommit := Codec.bytes.wrap.equiv ofFields

theorem codec_canonical : codec.Canonical :=
  Codec.bytes_canonical.wrap.equiv _

/-- Validate one of the two commit encodings. -/
def validatedSignature [Crypto] (body : DbftCommit) :
    Except DbftPayloadError DbftCommitSignature :=
  match FixedBytes.ofBytes? 65 body.signature with
  | some signature => do
      require ((signatureParity signature).isSome = true)
        (.invalidCommitRecoveryId (signature.bytes.getD 64 0))
      .ok (.ecdsa signature)
  | none =>
    match FixedBytes.ofBytes? 96 body.signature with
    | some share => do
        require (Crypto.validG2 share = true) .invalidCommitSignatureShare
        .ok (.threshold share)
    | none => .error (.invalidCommitLength body.signature.length)

end DbftCommit

/-! ## Recovery -/

/-- Request for accumulated consensus state. -/
structure DbftRecoveryRequest where
  timestampNs : UInt64
  deriving DecidableEq

namespace DbftRecoveryRequest

def ofFields : UInt64 ≃ DbftRecoveryRequest where
  toFun timestamp := ⟨timestamp⟩
  invFun body := body.timestampNs
  left_inv _ := rfl
  right_inv _ := rfl

/-- The wire format of recovery requests. -/
def codec : Codec DbftRecoveryRequest := Codec.u64.wrap.equiv ofFields

end DbftRecoveryRequest

/-- Compact form of a preparation. -/
structure PreparationCompact where
  validatorIndex : UInt8
  invocationScript : Bytes
  deriving DecidableEq

/-- Compact form of a commit. -/
structure CommitCompact where
  viewNumber : UInt8
  validatorIndex : UInt8
  signature : Bytes
  invocationScript : Bytes
  deriving DecidableEq

/-- Compact form of a change view. -/
structure ChangeViewCompact where
  validatorIndex : UInt8
  originalViewNumber : UInt8
  timestampNs : UInt64
  invocationScript : Bytes
  deriving DecidableEq

/-- Compact form of a pre-commit. -/
structure PreCommitCompact where
  viewNumber : UInt8
  validatorIndex : UInt8
  data : Bytes
  invocationScript : Bytes
  deriving DecidableEq

def PreparationCompact.ofFields : UInt8 × Bytes ≃ PreparationCompact where
  toFun fields := ⟨fields.1, fields.2⟩
  invFun entry := (entry.validatorIndex, entry.invocationScript)
  left_inv _ := rfl
  right_inv _ := rfl

def CommitCompact.ofFields : UInt8 × UInt8 × Bytes × Bytes ≃ CommitCompact where
  toFun fields := ⟨fields.1, fields.2.1, fields.2.2.1, fields.2.2.2⟩
  invFun entry :=
    (entry.viewNumber, entry.validatorIndex, entry.signature, entry.invocationScript)
  left_inv _ := rfl
  right_inv _ := rfl

def ChangeViewCompact.ofFields : UInt8 × UInt8 × UInt64 × Bytes ≃ ChangeViewCompact where
  toFun fields := ⟨fields.1, fields.2.1, fields.2.2.1, fields.2.2.2⟩
  invFun entry :=
    (entry.validatorIndex, entry.originalViewNumber, entry.timestampNs, entry.invocationScript)
  left_inv _ := rfl
  right_inv _ := rfl

def PreCommitCompact.ofFields : UInt8 × UInt8 × Bytes × Bytes ≃ PreCommitCompact where
  toFun fields := ⟨fields.1, fields.2.1, fields.2.2.1, fields.2.2.2⟩
  invFun entry := (entry.viewNumber, entry.validatorIndex, entry.data, entry.invocationScript)
  left_inv _ := rfl
  right_inv _ := rfl

def PreparationCompact.codec : Codec PreparationCompact :=
  (Codec.u8.pair Codec.bytes).wrap.equiv ofFields

def CommitCompact.codec : Codec CommitCompact :=
  (Codec.u8.pair (Codec.u8.pair (Codec.bytes.pair Codec.bytes))).wrap.equiv ofFields

def ChangeViewCompact.codec : Codec ChangeViewCompact :=
  (Codec.u8.pair (Codec.u8.pair (Codec.u64.pair Codec.bytes))).wrap.equiv ofFields

def PreCommitCompact.codec : Codec PreCommitCompact :=
  (Codec.u8.pair (Codec.u8.pair (Codec.bytes.pair Codec.bytes))).wrap.equiv ofFields

/-- Aggregated recovery state. Compact entries keep their original witnesses. -/
structure DbftRecoveryMessage where
  preparations : List PreparationCompact
  commits : List CommitCompact
  changeViews : List ChangeViewCompact
  preparationHash : Option B256
  prepareRequest : Option DbftConsensusData
  preCommits : List PreCommitCompact
  deriving DecidableEq

end NeoX
