import NeoX.AntiMev.Decryption
import Mathlib.Data.FinEnum

/-!
# Envelopes

The calldata of an Envelope transaction, and the decryption of its payload with a key point that
the committee has opened.

Main results:

- `EnvelopeData.decode_spec`: what is read of calldata that is accepted.
- `decryptMessageWithMode_legacy`: strict padding accepts no message that legacy
  padding does not accept with the same text.
-/

namespace NeoX

open Except hiding ok error

open BigEndian

/-! ## Calldata -/

def envelopeTarget : Address := .ofNat 20 0x1212000000000000000000000000000000000003

/-- The marker at the beginning of Envelope calldata. -/
def encryptedDataPrefix : Bytes := [0xff, 0xff, 0xff, 0xff]

/-- The least size of the encrypted payload. -/
def minEncryptedMessageLen : Nat := 112

/-- Where the parts of the calldata begin. -/
def roundOffset : Nat := encryptedDataPrefix.length
def gasOffset : Nat := roundOffset + 4
def hashOffset : Nat := gasOffset + 4
def ciphertextOffset : Nat := hashOffset + 32
def messageOffset : Nat := ciphertextOffset + tpkeSerializedLen

/-- The least size of Envelope calldata. -/
def minEnvelopeDataLen : Nat := messageOffset + minEncryptedMessageLen

/-- Whether calldata is recognized as an Envelope. -/
def isEnvelopeData (data : Bytes) : Bool :=
  minEnvelopeDataLen ≤ data.length && encryptedDataPrefix.isPrefixOf data

/-- Transaction types that never carry an Envelope. -/
def eip4844Type : UInt8 := 3
def eip7702Type : UInt8 := 4

/-- Whether a transaction carries an Envelope. -/
def isEnvelope (txType : UInt8) (target : Option Address) (data : Bytes) : Bool :=
  txType ≠ eip4844Type && txType ≠ eip7702Type && target = some envelopeTarget &&
    isEnvelopeData data

/-- Whether a transaction is subject to the Envelope policy, whatever its type is. -/
def isEnvelopePolicy (target : Option Address) (data : Bytes) : Bool :=
  target = some envelopeTarget && isEnvelopeData data

/-- The gas limit that calldata declares for the inner transaction. -/
def encryptedGas (data : Bytes) : UInt32 :=
  UInt32.ofNat (ofBytes ((data.drop gasOffset).take 4))

/-- The hash that calldata declares for the inner transaction. -/
def encryptedHash (data : Bytes) : B256 :=
  FixedBytes.first 32 (data.drop hashOffset)

inductive EnvelopeDecodeError where
  | notEnvelope
  | zeroDkgRound
  | tpke (error : TpkeError)
  deriving DecidableEq

section Curve

variable [Curve]

/-- The parts of Envelope calldata. -/
structure EnvelopeData where
  dkgRound : UInt32
  encryptedGas : UInt32
  encryptedHash : B256
  encryptedKey : TpkeCiphertext
  encryptedMessage : Bytes

def EnvelopeData.decode (data : Bytes) : Except EnvelopeDecodeError EnvelopeData := do
  require (isEnvelopeData data = true) .notEnvelope
  let dkgRound := UInt32.ofNat (ofBytes ((data.drop roundOffset).take 4))
  require (dkgRound ≠ 0) .zeroDkgRound
  let encryptedKey ← (TpkeCiphertext.decode
    ((data.drop ciphertextOffset).take tpkeSerializedLen)).mapError .tpke
  .ok ⟨dkgRound, NeoX.encryptedGas data, NeoX.encryptedHash data, encryptedKey,
    data.drop messageOffset⟩

/-- Accepted calldata is an Envelope of a round other than zero with a large enough payload. -/
theorem EnvelopeData.decode_spec {data : Bytes} {envelope : EnvelopeData}
    (h : EnvelopeData.decode data = .ok envelope) :
    isEnvelopeData data = true ∧ envelope.dkgRound ≠ 0 ∧
      minEncryptedMessageLen ≤ envelope.encryptedMessage.length ∧
      envelope.encryptedGas = NeoX.encryptedGas data ∧
      envelope.encryptedHash = NeoX.encryptedHash data := by
  obtain ⟨henve, h⟩ := require_bind h
  obtain ⟨hrd, h⟩ := require_bind h
  rcases bind_ok h with ⟨key, -, h⟩
  cases h
  refine ⟨henve, hrd, ?_, rfl, rfl⟩
  rw [isEnvelopeData, Bool.and_eq_true, decide_eq_true_eq, minEnvelopeDataLen] at henve
  rw [List.length_drop]
  omega

/-! ## Payloads -/

/-- Decrypt blocks, each of them chained to the encrypted block before it. -/
def decryptBlocks [Cipher] (key : B256) : FixedBytes 16 → List (FixedBytes 16) → Bytes
  | _, [] => []
  | previous, block :: blocks =>
    List.zipWith (· ^^^ ·) (Cipher.decryptBlock key block).bytes previous.bytes
      ++ decryptBlocks key block blocks

/-- Remove the padding of a text. Strict padding has one to sixteen bytes, all of which are the
number of padding bytes; legacy padding only has to fit. -/
def unpad (plaintext : Bytes) (strict : Bool) : Except TpkeError Bytes := do
  let padding := (plaintext.getLastD 0).toNat
  if strict then
    require (padding ≠ 0 ∧ padding ≤ 16 ∧ padding ≤ plaintext.length) .invalidPkcs7Padding
    require (∀ byte ∈ plaintext.drop (plaintext.length - padding), byte.toNat = padding)
      .invalidPkcs7Padding
  else
    require (padding ≤ plaintext.length) .invalidPkcs7Padding
  .ok (plaintext.take (plaintext.length - padding))

/-- Decrypt a payload with the key and the initial block that an opened point determines. -/
def decryptMessageWithMode [Cipher] (key : G1Bytes) (ciphertext : Bytes) (strict : Bool) :
    Except TpkeError Bytes := do
  require (ciphertext ≠ [] ∧ ciphertext.length % 16 = 0)
    (.invalidAesCiphertextLength ciphertext.length)
  let point ← decodeG1 key "decrypted key"
  let digest := Cipher.sha256 (serialize1 point).bytes
  unpad (decryptBlocks digest (FixedBytes.first 16 digest.bytes)
    (FixedBytes.chunks 16 (ciphertext.length / 16) ciphertext)) strict

omit [Curve] in
theorem unpad_legacy {plaintext message : Bytes} (h : unpad plaintext true = .ok message) :
    unpad plaintext false = .ok message := by
  obtain ⟨hfits, h⟩ := require_bind h
  rcases bind_ok h with ⟨_, -, hm⟩
  rw [unpad]
  dsimp only
  rw [if_neg Bool.false_ne_true, require_of _ hfits.2.2]
  exact hm

theorem decryptMessageWithMode_legacy [Cipher] {key : G1Bytes} {ct message : Bytes}
    (h : decryptMessageWithMode key ct true = .ok message) :
    decryptMessageWithMode key ct false = .ok message := by
  rcases bind_ok h with ⟨_, hlen, h⟩
  rcases bind_ok h with ⟨point, hpt, h⟩
  apply bind_eq_ok.mpr
  refine ⟨(), hlen, ?_⟩
  exact bind_eq_ok.mpr ⟨point, hpt, unpad_legacy h⟩

end Curve

end NeoX
