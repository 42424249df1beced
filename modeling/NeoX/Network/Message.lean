import NeoX.Consensus.Validation

/-!
# Signed dBFT messages

The outer message with its witness and the generic inner data that names the
message kind, the height, the sender's index and the view. The inner payload
stays in its encoded form here.

Main results:

- `DbftConsensusData.codec_canonical`: inner data is accepted only in
  the form the encoder writes, so decoding and encoding give the same bytes.
- `DbftConsensusData.codec_roundTrips`: inner data around one complete
  payload item is read back.
-/

namespace NeoX

open Except hiding ok error

open Rlp

/-- Kinds of consensus messages. -/
inductive DbftMessageType where
  | changeView
  | prepareRequest
  | prepareResponse
  | preCommit
  | commit
  | recoveryRequest
  | recoveryMessage
  deriving DecidableEq, Repr

namespace DbftMessageType

/-- The wire code of a message kind. -/
def toByte : DbftMessageType → UInt8
  | changeView => 0x00
  | prepareRequest => 0x20
  | prepareResponse => 0x21
  | preCommit => 0x31
  | commit => 0x30
  | recoveryRequest => 0x40
  | recoveryMessage => 0x41

def ofByte (byte : UInt8) : Except Rlp.Error DbftMessageType :=
  if byte = 0x00 then .ok changeView
  else if byte = 0x20 then .ok prepareRequest
  else if byte = 0x21 then .ok prepareResponse
  else if byte = 0x31 then .ok preCommit
  else if byte = 0x30 then .ok commit
  else if byte = 0x40 then .ok recoveryRequest
  else if byte = 0x41 then .ok recoveryMessage
  else .error (.custom "unsupported Neo X dBFT message type")

@[simp] theorem ofByte_toByte (kind : DbftMessageType) : ofByte kind.toByte = .ok kind := by
  cases kind <;> rfl

theorem toByte_of_ofByte {byte : UInt8} {kind : DbftMessageType} (h : ofByte byte = .ok kind) :
    kind.toByte = byte := by
  unfold ofByte at h
  repeat' split at h
  all_goals first
    | cases h; subst_vars; rfl
    | cases h

end DbftMessageType

/-! ## Inner data -/

/-- Generic inner message header with the payload kept as one encoded item. -/
structure DbftConsensusData where
  messageType : DbftMessageType
  blockIndex : UInt64
  validatorIndex : UInt8
  viewNumber : UInt8
  payload : Bytes
  deriving DecidableEq

variable {data : DbftConsensusData}

namespace DbftConsensusData

/-- The five fields before the kind is interpreted. -/
def fieldsCodec : Codec (UInt8 × UInt64 × UInt8 × UInt8 × Bytes) :=
  Codec.u8.pair (Codec.u64.pair (Codec.u8.pair (Codec.u8.pair Codec.rawItem)))

/-- The fields of the inner data in wire order. -/
def fields (data : DbftConsensusData) : UInt8 × UInt64 × UInt8 × UInt8 × Bytes :=
  (data.messageType.toByte, data.blockIndex, data.validatorIndex, data.viewNumber, data.payload)

/-- The wire format of inner data. -/
def codec : Codec DbftConsensusData where
  encode data := fieldsCodec.wrap.encode data.fields
  decode input := do
    let ((kind, blockIndex, validatorIndex, viewNumber, payload), rest) ←
      fieldsCodec.wrap.decode input
    let messageType ← DbftMessageType.ofByte kind
    .ok (⟨messageType, blockIndex, validatorIndex, viewNumber, payload⟩, rest)

theorem fieldsCodec_canonical : fieldsCodec.Canonical :=
  Codec.u8_canonical.pair (Codec.u64_canonical.pair (Codec.u8_canonical.pair
    (Codec.u8_canonical.pair Codec.rawItem_canonical)))

theorem codec_canonical : codec.Canonical := by
  intro input data rest h
  rcases bind_ok h with ⟨⟨⟨kind, block, i, view, p⟩, tail⟩, hfields, h⟩
  rcases bind_ok h with ⟨messageType, hk, h⟩
  cases h
  have hinput := fieldsCodec_canonical.wrap _ _ _ hfields
  rw [hinput, ← DbftMessageType.toByte_of_ofByte hk]
  rfl

/-- A payload that is one complete item of the wire format. -/
def OneItem (payload : Bytes) : Prop :=
  ∃ list content, payload = encodePayload list content ∧ content.length < 2 ^ 64

theorem codec_roundTrips (hp : OneItem data.payload)
    (hfits : (fieldsCodec.encode data.fields).length < 2 ^ 64) : codec.RoundTrips data := by
  rcases hp with ⟨list, content, hp, hcont⟩
  have hitem : Codec.rawItem.RoundTrips data.payload := by
    rw [hp]
    exact Codec.rawItem_roundTrips hcont
  have hfields : fieldsCodec.RoundTrips data.fields := by
    refine Codec.RoundTrips.pair (Codec.u8_roundTrips _) ?_
    refine Codec.RoundTrips.pair (Codec.u64_roundTrips _) ?_
    refine Codec.RoundTrips.pair (Codec.u8_roundTrips _) ?_
    exact Codec.RoundTrips.pair (Codec.u8_roundTrips _) hitem
  intro rest
  have hdec := hfields.wrap hfits rest
  simp only [codec, hdec, ok_bind]
  simp [fields]

end DbftConsensusData

/-! ## Outer messages -/

/-- Violations found on a signed message. -/
inductive DbftProtocolViolation where
  | invalidWitnessLength (length : Nat)
  | invalidRecoveryId (value : UInt8)
  | invalidWitness
  | senderMismatch (expected recovered : Address)
  deriving DecidableEq

/-- A signed outer message. -/
@[ext]
structure DbftMessage where
  validBlockStart : UInt64
  validBlockEnd : UInt64
  sender : Address
  data : Bytes
  witness : Bytes
  deriving DecidableEq

namespace DbftMessage

/-- The fields of a message in wire order. -/
def toFields : DbftMessage ≃ UInt64 × UInt64 × Address × Bytes × Bytes where
  toFun message := (message.validBlockStart, message.validBlockEnd, message.sender,
    message.data, message.witness)
  invFun fields := ⟨fields.1, fields.2.1, fields.2.2.1, fields.2.2.2.1, fields.2.2.2.2⟩
  left_inv _ := rfl
  right_inv _ := rfl

def codec : Codec DbftMessage :=
  (Codec.u64.pair (Codec.u64.pair (addressCodec.pair
    (Codec.bytes.pair Codec.bytes)))).wrap.equiv toFields.symm

/-- Decode the inner data, which must name the height of the message. -/
def consensusData (message : DbftMessage) : Except Rlp.Error DbftConsensusData := do
  let data ← DbftConsensusData.codec.decodeExact message.data
  require (data.blockIndex = message.validBlockEnd)
    (.custom "dBFT inner block index does not match validity end")
  .ok data

variable {msg : DbftMessage}

theorem consensusData_eq_ok :
    msg.consensusData = .ok data ↔
      DbftConsensusData.codec.decodeExact msg.data = .ok data ∧
        data.blockIndex = msg.validBlockEnd := by
  constructor
  · intro h
    rcases bind_ok h with ⟨found, hf, h⟩
    rcases bind_ok h with ⟨_, hheight, h⟩
    cases h
    exact ⟨hf, require_eq_ok.mp hheight⟩
  · rintro ⟨hdec, hheight⟩
    simp [consensusData, hdec, Except.require, hheight]

theorem data_eq_of_consensusData
    (h : msg.consensusData = .ok data) : msg.data = DbftConsensusData.codec.encode data :=
  DbftConsensusData.codec_canonical.of_decodeExact (consensusData_eq_ok.mp h).1

variable [Crypto]

/-- The hash of the message with an empty witness. -/
def hash (message : DbftMessage) : B256 :=
  keccak256 (codec.encode { message with witness := [] })

/-- Recover the witness and check that it belongs to the sender. -/
def verifyWitness (message : DbftMessage) : Except DbftProtocolViolation B256 := do
  let raw ← ofOption (.invalidWitnessLength message.witness.length)
    (FixedBytes.ofBytes? 65 message.witness)
  let parity ← ofOption (.invalidRecoveryId (raw.bytes.getD 64 0)) (signatureParity raw)
  let hash := message.hash
  let recovered ← ofOption .invalidWitness
    (Crypto.recoverAddress (raw.bytes.take 64) parity hash)
  require (recovered = message.sender) (.senderMismatch message.sender recovered)
  .ok hash

/-- A verified witness is a signature of the sender over the message hash. -/
theorem verifyWitness_eq_ok {hash : B256} :
    msg.verifyWitness = .ok hash ↔
      hash = msg.hash ∧ ∃ sig : FixedBytes 65, msg.witness = sig.bytes ∧
        recoverSigner sig msg.hash = some msg.sender := by
  constructor
  · intro hver
    obtain ⟨raw, hraw, hver⟩ := ofOption_bind hver
    obtain ⟨parity, hparity, hver⟩ := ofOption_bind hver
    obtain ⟨recovered, hreco, hver⟩ := ofOption_bind hver
    obtain ⟨hsd, hver⟩ := require_bind hver
    cases hver
    refine ⟨rfl, raw, FixedBytes.ofBytes?_eq_some.mp hraw, ?_⟩
    simp [recoverSigner, hparity, hreco, hsd]
  · rintro ⟨rfl, sig, hwitn, hrecv⟩
    rcases Option.bind_eq_some_iff.mp hrecv with ⟨parity, hparity, hreco⟩
    simp [verifyWitness, hwitn, Except.ofOption, hparity, hreco, Except.require]

end DbftMessage

end NeoX
