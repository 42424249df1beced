import NeoX.Network.Payload

/-!
# Recovery messages

A recovery message carries the consensus state of one validator in compact form.
`addMessage` compacts an authenticated message, `expand` rebuilds the
original messages and checks their witnesses again.

The compact form drops the validity start, the hash of each response, the reason
of a change view and the message kind, so a message is rebuilt exactly only when
these have the values that expansion fills in.
-/

namespace NeoX

open Except hiding ok error

open Rlp

/-! ## Wire format -/

namespace DbftRecoveryMessage

def new : DbftRecoveryMessage := ⟨[], [], [], none, none, []⟩

/-- Whether the embedded request slot is written. -/
def includesPrepareRequest (recovery : DbftRecoveryMessage) : Bool :=
  recovery.prepareRequest.isSome || !recovery.preCommits.isEmpty

/-- Whether the preparation hash slot is written: always when a later slot follows. -/
def includesPreparationHash (recovery : DbftRecoveryMessage) : Bool :=
  recovery.preparationHash.isSome || recovery.includesPrepareRequest

/-- A list of compact entries of at most the recovery limit. -/
def compactCodec {α : Type} (codec : Codec α) : Codec (List α) :=
  codec.listOf (some maxRecoveryPayloads) (.custom "too many compact dBFT recovery payloads")

/-- Write an optional slot, with its placeholder for a missing value. -/
def encodeSlot {α : Type} (codec : Codec α) (placeholder : Bytes) : Option α → Bytes
  | none => placeholder
  | some value => codec.encode value

/-- Read an optional slot; either placeholder stands for a missing value. -/
def decodeOptional {α : Type} (codec : Codec α) (input : Bytes) :
    Except Rlp.Error (Option α × Bytes) :=
  if input.head? = some 0x80 ∨ input.head? = some 0xc0 then
    .ok (none, input.tail)
  else do
    let (value, rest) ← codec.decode input
    .ok (some value, rest)

/-- Read an optional slot that may be cut off. -/
def decodeSlot {α : Type} (codec : Codec α) (input : Bytes) :
    Except Rlp.Error (Option α × Bytes) :=
  if input = [] then .ok (none, []) else decodeOptional codec input

/-- Read the pre-commits, which may be cut off. -/
def decodePreCommits (input : Bytes) : Except Rlp.Error (List PreCommitCompact × Bytes) :=
  if input = [] then .ok ([], []) else (compactCodec PreCommitCompact.codec).decode input

def encodeFields (recovery : DbftRecoveryMessage) : Bytes :=
  (compactCodec PreparationCompact.codec).encode recovery.preparations ++
  (compactCodec CommitCompact.codec).encode recovery.commits ++
  (compactCodec ChangeViewCompact.codec).encode recovery.changeViews ++
  (if recovery.includesPreparationHash then
    encodeSlot b256Codec [0x80] recovery.preparationHash else []) ++
  (if recovery.includesPrepareRequest then
    encodeSlot DbftConsensusData.codec [0xc0] recovery.prepareRequest else []) ++
  (if recovery.preCommits.isEmpty then [] else
    (compactCodec PreCommitCompact.codec).encode recovery.preCommits)

variable [Crypto]

/-- Limits checked on a decoded recovery message. -/
def validateLimits (recovery : DbftRecoveryMessage) : Except Rlp.Error Unit := do
  require (recovery.preparations.length ≤ maxRecoveryPayloads ∧
      recovery.commits.length ≤ maxRecoveryPayloads ∧
      recovery.changeViews.length ≤ maxRecoveryPayloads ∧
      recovery.preCommits.length ≤ maxRecoveryPayloads)
    (.custom "too many compact dBFT recovery payloads")
  require (∀ request ∈ recovery.prepareRequest, request.messageType = .prepareRequest)
    (.custom "recovery payload embeds wrong message type")
  require (∀ entry ∈ recovery.preCommits, (DbftPreCommit.fromData entry.data).isOk = true)
    (.custom "invalid recovered PreCommit shares")

/-- The wire format of recovery messages. -/
def codec : Codec DbftRecoveryMessage where
  encode recovery := encodeList recovery.encodeFields
  decode input := do
    let (payload, rest) ← decodePayload true input
    let (preparations, payload) ← (compactCodec PreparationCompact.codec).decode payload
    let (commits, payload) ← (compactCodec CommitCompact.codec).decode payload
    let (changeViews, payload) ← (compactCodec ChangeViewCompact.codec).decode payload
    let (preparationHash, payload) ← decodeSlot b256Codec payload
    let (prepareRequest, payload) ← decodeSlot DbftConsensusData.codec payload
    let (preCommits, payload) ← decodePreCommits payload
    require (payload = []) (.listLengthMismatch 6 7)
    let recovery : DbftRecoveryMessage :=
      ⟨preparations, commits, changeViews, preparationHash, prepareRequest, preCommits⟩
    recovery.validateLimits
    .ok (recovery, rest)

end DbftRecoveryMessage

/-! ## Decoded payloads -/

/-- A fully decoded body. -/
inductive DbftDecodedPayload where
  | changeView (body : DbftChangeView)
  | prepareRequest (body : DbftPrepareRequest)
  | prepareResponse (body : DbftPrepareResponse)
  | preCommit (body : DbftPreCommit)
  | commit (body : DbftCommit)
  | recoveryRequest (body : DbftRecoveryRequest)
  | recoveryMessage (body : DbftRecoveryMessage)
  deriving DecidableEq

namespace DbftDecodedPayload

def messageType : DbftDecodedPayload → DbftMessageType
  | changeView _ => .changeView
  | prepareRequest _ => .prepareRequest
  | prepareResponse _ => .prepareResponse
  | preCommit _ => .preCommit
  | commit _ => .commit
  | recoveryRequest _ => .recoveryRequest
  | recoveryMessage _ => .recoveryMessage

end DbftDecodedPayload

variable [Crypto]

/-- Decode a payload that must be exactly one value. -/
def decodePayloadAs {α : Type} (codec : Codec α) (payload : Bytes) : Except DbftPayloadError α :=
  (codec.decodeExact payload).mapError .invalidRlp

/-- Decode and validate the payload selected by the message kind. -/
def DbftConsensusData.decodedPayload (data : DbftConsensusData) :
    Except DbftPayloadError DbftDecodedPayload :=
  match data.messageType with
  | .changeView => do
      let body ← decodePayloadAs DbftChangeView.codec data.payload
      let _ ← body.reason
      .ok (.changeView body)
  | .prepareRequest => do
      .ok (.prepareRequest (← decodePayloadAs DbftPrepareRequest.codec data.payload))
  | .prepareResponse => do
      .ok (.prepareResponse (← decodePayloadAs DbftPrepareResponse.codec data.payload))
  | .preCommit => do
      .ok (.preCommit (← decodePayloadAs DbftPreCommit.codec data.payload))
  | .commit => do
      let body ← decodePayloadAs DbftCommit.codec data.payload
      let _ ← body.validatedSignature
      .ok (.commit body)
  | .recoveryRequest => do
      .ok (.recoveryRequest (← decodePayloadAs DbftRecoveryRequest.codec data.payload))
  | .recoveryMessage => do
      .ok (.recoveryMessage (← decodePayloadAs DbftRecoveryMessage.codec data.payload))

theorem DbftConsensusData.messageType_decodedPayload {data : DbftConsensusData}
    {p : DbftDecodedPayload} (h : data.decodedPayload = .ok p) :
    p.messageType = data.messageType := by
  unfold decodedPayload at h
  split at h <;> rename_i hk <;> rw [hk]
  · rcases bind_ok h with ⟨body, -, h⟩
    obtain ⟨_, h⟩ := of_bind h
    cases h
    rfl
  · rcases bind_ok h with ⟨body, -, h⟩
    cases h
    rfl
  · rcases bind_ok h with ⟨body, -, h⟩
    cases h
    rfl
  · rcases bind_ok h with ⟨body, -, h⟩
    cases h
    rfl
  · rcases bind_ok h with ⟨body, -, h⟩
    obtain ⟨_, h⟩ := of_bind h
    cases h
    rfl
  · rcases bind_ok h with ⟨body, -, h⟩
    cases h
    rfl
  · rcases bind_ok h with ⟨body, -, h⟩
    cases h
    rfl

/-! ## Compaction -/

/-- Refuse an index that already has an entry of this kind. -/
def rejectDuplicateIndex (indices : List UInt8) (index : UInt8) (kind : String) :
    Except DbftPayloadError Unit :=
  require (index ∉ indices) (.invalidRecoveredMessage (.duplicate kind index))

namespace DbftRecoveryMessage

def preparationIndices (recovery : DbftRecoveryMessage) : List UInt8 :=
  recovery.preparations.map PreparationCompact.validatorIndex

/-- Add one decoded message to the accumulator. -/
def addPayload (recovery : DbftRecoveryMessage) (message : DbftMessage) (data : DbftConsensusData) :
    DbftDecodedPayload → Except DbftPayloadError DbftRecoveryMessage
  | .prepareRequest _ => do
      rejectDuplicateIndex recovery.preparationIndices data.validatorIndex "preparation"
      -- The request's own hash overwrites a hash inferred from a response.
      .ok { recovery with
        preparationHash := some message.hash
        prepareRequest := some ⟨.prepareRequest, 0, 0, data.viewNumber, data.payload⟩
        preparations := recovery.preparations ++ [⟨data.validatorIndex, message.witness⟩] }
  | .prepareResponse response => do
      rejectDuplicateIndex recovery.preparationIndices data.validatorIndex "preparation"
      .ok { recovery with
        preparations := recovery.preparations ++ [⟨data.validatorIndex, message.witness⟩]
        preparationHash := recovery.preparationHash.or (some response.preparationHash) }
  | .changeView changeView => do
      rejectDuplicateIndex (recovery.changeViews.map ChangeViewCompact.validatorIndex)
        data.validatorIndex "change-view"
      .ok { recovery with
        changeViews := recovery.changeViews ++
          [⟨data.validatorIndex, data.viewNumber, changeView.timestampNs, message.witness⟩] }
  | .preCommit preCommit => do
      rejectDuplicateIndex (recovery.preCommits.map PreCommitCompact.validatorIndex)
        data.validatorIndex "pre-commit"
      .ok { recovery with
        preCommits := recovery.preCommits ++
          [⟨data.viewNumber, data.validatorIndex, preCommit.data, message.witness⟩] }
  | .commit commit => do
      rejectDuplicateIndex (recovery.commits.map CommitCompact.validatorIndex)
        data.validatorIndex "commit"
      .ok { recovery with
        commits := recovery.commits ++
          [⟨data.viewNumber, data.validatorIndex, commit.signature, message.witness⟩] }
  | .recoveryRequest _ | .recoveryMessage _ =>
    .error (.invalidRecoveredMessage .nestedControl)

def addMessage (recovery : DbftRecoveryMessage) (message : DbftMessage) :
    Except DbftPayloadError DbftRecoveryMessage := do
  let _ ← message.verifyWitness.mapError fun violation =>
    .invalidRecoveredMessage (.unauthenticated violation)
  let data ← message.consensusData.mapError fun error =>
    .invalidRecoveredMessage (.malformed error)
  let payload ← data.decodedPayload
  recovery.addPayload message data payload

end DbftRecoveryMessage

/-! ## Expansion -/

/-- Check that indices are distinct and name validators. -/
def validateUniqueIndices (kind : String) (validatorCount : Nat) :
    List UInt8 → List UInt8 → Except DbftPayloadError Unit
  | _, [] => .ok ()
  | seen, index :: indices => do
      require (index.toNat < validatorCount)
        (.invalidRecoveredMessage (.outside kind index validatorCount))
      require (index ∉ seen) (.invalidRecoveredMessage (.duplicate kind index))
      validateUniqueIndices kind validatorCount (index :: seen) indices

/-- The primary of a view. Heights are truncated to 32 bits as in the reference client. -/
def primaryIndexOf (height : UInt64) (view : UInt8) (validatorCount : Nat) : UInt8 :=
  UInt8.ofNat ((height.toNat % 2 ^ 32 + validatorCount - view.toNat % validatorCount)
    % validatorCount)

/-- The message that a compact entry stands for. -/
def recoveredMessage (height : UInt64) (sender : Address) (validatorIndex viewNumber : UInt8)
    (messageType : DbftMessageType) (payload witness : Bytes) : DbftMessage where
  validBlockStart := 0
  validBlockEnd := height
  sender := sender
  data := DbftConsensusData.codec.encode
    ⟨messageType, height, validatorIndex, viewNumber, payload⟩
  witness := witness

/-- Check the witness of a rebuilt message. -/
def verifyRecovered (message : DbftMessage) (kind : String) (index : UInt8) :
    Except DbftPayloadError DbftMessage := do
  let _ ← message.verifyWitness.mapError fun violation =>
    .invalidRecoveredMessage (.invalidWitness kind index violation)
  .ok message

def senderAt (validators : List Address) (index : UInt8) : Address :=
  validators.getD index.toNat (.zero 20)

def changeViewCandidate (height : UInt64) (validators : List Address) (compact : ChangeViewCompact)
    (reason : DbftChangeViewReason) : DbftMessage :=
  recoveredMessage height (senderAt validators compact.validatorIndex) compact.validatorIndex
    compact.originalViewNumber .changeView
    (DbftChangeView.codec.encode (DbftChangeView.new compact.timestampNs reason))
    compact.invocationScript

/-- Try the reasons in turn; exactly one must authenticate. -/
def authenticateChangeView (height : UInt64) (validators : List Address)
    (compact : ChangeViewCompact) :
    Option DbftMessage → List DbftChangeViewReason → Except DbftPayloadError DbftMessage
  | authenticated, [] =>
    ofOption (.invalidRecoveredMessage (.invalidChangeView compact.validatorIndex))
      authenticated
  | authenticated, reason :: reasons =>
    let candidate := changeViewCandidate height validators compact reason
    if candidate.verifyWitness.isOk then
      match authenticated with
      | some _ =>
        .error (.invalidRecoveredMessage (.ambiguousChangeView compact.validatorIndex))
      | none => authenticateChangeView height validators compact (some candidate) reasons
    else
      authenticateChangeView height validators compact authenticated reasons

def expandPreCommit (height : UInt64) (validators : List Address) (compact : PreCommitCompact) :
    Except DbftPayloadError DbftMessage := do
  let body ← DbftPreCommit.fromData compact.data
  verifyRecovered
    (recoveredMessage height (senderAt validators compact.validatorIndex) compact.validatorIndex
      compact.viewNumber .preCommit (DbftPreCommit.codec.encode body) compact.invocationScript)
    "PreCommit" compact.validatorIndex

def expandCommit (height : UInt64) (validators : List Address) (compact : CommitCompact) :
    Except DbftPayloadError DbftMessage :=
  verifyRecovered
    (recoveredMessage height (senderAt validators compact.validatorIndex) compact.validatorIndex
      compact.viewNumber .commit (DbftCommit.codec.encode ⟨compact.signature⟩)
      compact.invocationScript)
    "Commit" compact.validatorIndex

/-- Rebuild a response from the shared preparation hash. -/
def expandPrepareResponse (height : UInt64) (view : UInt8) (validators : List Address)
    (preparationHash : B256) (compact : PreparationCompact) :
    Except DbftPayloadError DbftMessage :=
  verifyRecovered
    (recoveredMessage height (senderAt validators compact.validatorIndex) compact.validatorIndex
      view .prepareResponse (DbftPrepareResponse.codec.encode ⟨preparationHash⟩)
      compact.invocationScript)
    "PrepareResponse" compact.validatorIndex

namespace DbftRecoveryMessage

/-- Rebuild the proposal when both its body and the primary's witness are present. -/
def expandPrepareRequest (recovery : DbftRecoveryMessage) (height : UInt64) (view : UInt8)
    (validators : List Address) (primary : UInt8) : Except DbftPayloadError (List DbftMessage) :=
  match recovery.prepareRequest,
      recovery.preparations.find? (fun compact => compact.validatorIndex = primary) with
  | some request, some compact => do
      let message ← verifyRecovered
        (recoveredMessage height (senderAt validators primary) primary view .prepareRequest
          request.payload compact.invocationScript)
        "PrepareRequest" primary
      .ok [message]
  | _, _ => .ok []

/-- Rebuild the responses of all preparations except the primary's. -/
def expandPrepareResponses (recovery : DbftRecoveryMessage) (height : UInt64) (view : UInt8)
    (validators : List Address) (primary : UInt8) : Except DbftPayloadError (List DbftMessage) :=
  match recovery.preparationHash with
  | none => .ok []
  | some hash =>
    (recovery.preparations.filter fun compact => compact.validatorIndex ≠ primary).mapM
      (expandPrepareResponse height view validators hash)

/-- Checks before any entry is rebuilt. -/
def checkEntries (recovery : DbftRecoveryMessage) (validatorCount : Nat) :
    Except DbftPayloadError Unit := do
  validateUniqueIndices "preparation" validatorCount [] recovery.preparationIndices
  validateUniqueIndices "pre-commit" validatorCount []
    (recovery.preCommits.map PreCommitCompact.validatorIndex)
  validateUniqueIndices "commit" validatorCount []
    (recovery.commits.map CommitCompact.validatorIndex)
  validateUniqueIndices "change-view" validatorCount []
    (recovery.changeViews.map ChangeViewCompact.validatorIndex)

/-- Rebuild and authenticate the messages of a recovery payload. -/
def expand (recovery : DbftRecoveryMessage) (outer : DbftMessage) (validators : List Address) :
    Except DbftPayloadError (List DbftMessage) := do
  let data ← outer.consensusData.mapError fun error =>
    .invalidRecoveredMessage (.malformed error)
  require (data.messageType = .recoveryMessage)
    (.invalidRecoveredMessage .notRecoveryMessage)
  require (validators ≠ [] ∧ validators.length ≤ 256)
    (.invalidRecoveredMessage (.validatorCount validators.length))
  recovery.checkEntries validators.length
  let height := data.blockIndex
  let view := data.viewNumber
  let primary := primaryIndexOf height view validators.length
  let changeViews ← recovery.changeViews.mapM fun compact =>
    authenticateChangeView height validators compact none DbftChangeViewReason.all
  let request ← recovery.expandPrepareRequest height view validators primary
  let responses ← recovery.expandPrepareResponses height view validators primary
  let preCommits ← recovery.preCommits.mapM (expandPreCommit height validators)
  let commits ← recovery.commits.mapM (expandCommit height validators)
  .ok (changeViews ++ request ++ responses ++ preCommits ++ commits)

end DbftRecoveryMessage

end NeoX
