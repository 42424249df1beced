import NeoX.Library.Codec
import NeoX.Library.FiniteMap

/-!
# Primitive values and external cryptography

Addresses, hashes and block headers, and the cryptographic functions that the
program takes from other packages. The functions of `Crypto` are parameters
of the whole development: a result that relies on a property of one of them states
it as a hypothesis.
-/

namespace NeoX

open Rlp

/-- A twenty-byte account address. -/
abbrev Address := FixedBytes 20

instance lawfulBEqAddress : LawfulBEq Address := instLawfulBEq

/-- A 32-byte hash or storage word. -/
abbrev B256 := FixedBytes 32

/-- A 256-bit unsigned integer. -/
abbrev U256 := BitVec 256

/-- A compressed BLS12-381 G1 point. -/
abbrev G1Bytes := FixedBytes 48

/-- A compressed BLS12-381 G2 point. -/
abbrev G2Bytes := FixedBytes 96

/-! ## External functions -/

/-- Functions of the hashing, ECDSA and BLS12-381 packages. -/
class Crypto where
  /-- The Keccak-256 hash. -/
  keccak256 : Bytes → B256
  /-- Address recovery from the 64 signature bytes, the parity and the signed hash. -/
  recoverAddress : Bytes → Bool → B256 → Option Address
  /-- Whether the bytes are a compressed point of the G1 subgroup. -/
  validG1 : G1Bytes → Bool
  /-- Whether the bytes are a compressed point of the G2 subgroup. -/
  validG2 : G2Bytes → Bool
  /-- Whether the bytes are a public key: a G1 subgroup point other than infinity. -/
  keyValidate : G1Bytes → Bool
  /-- Whether the bytes are a signature: a G2 subgroup point other than infinity. -/
  sigValidate : G2Bytes → Bool
  /-- Verification of a BLS signature over a message under a public key. -/
  blsVerify : G1Bytes → G2Bytes → Bytes → Bool
  /-- Lagrange interpolation at zero of indexed G2 shares, scaled by the DKG scaler. -/
  interpolateSignatureShares : List (UInt32 × G2Bytes) → UInt64 → G2Bytes

export Crypto (keccak256)

/-! ## Block headers -/

/-- An Ethereum block header. -/
structure Header where
  parentHash : B256
  ommersHash : B256
  beneficiary : Address
  stateRoot : B256
  transactionsRoot : B256
  receiptsRoot : B256
  logsBloom : FixedBytes 256
  difficulty : U256
  number : UInt64
  gasLimit : UInt64
  gasUsed : UInt64
  timestamp : UInt64
  extraData : Bytes
  mixHash : B256
  nonce : FixedBytes 8
  baseFeePerGas : Option UInt64
  withdrawalsRoot : Option B256
  blobGasUsed : Option UInt64
  excessBlobGas : Option UInt64
  parentBeaconBlockRoot : Option B256
  requestsHash : Option B256
  blockAccessListHash : Option B256
  slotNumber : Option UInt64
  deriving DecidableEq

def b256Codec : Codec B256 := Codec.fixed 32

def addressCodec : Codec Address := Codec.fixed 20

/-- The wire format of 256-bit integers. -/
def u256Codec : Codec U256 := Codec.uint 32 BitVec.toNat (BitVec.ofNat 256)

/-- An optional trailing field is written only when it is present. -/
def encodeOptional {α : Type} (codec : Codec α) : Option α → Bytes
  | none => []
  | some value => codec.encode value

/-- An optional trailing field is present when input is left. -/
def decodeTrailing {α : Type} (codec : Codec α) (input : Bytes) :
    Except Rlp.Error (Option α × Bytes) :=
  if input = [] then
    .ok (none, [])
  else do
    let (value, rest) ← codec.decode input
    .ok (some value, rest)

namespace Header

/-- The fields of a header in wire order. -/
def encodeFields (header : Header) : Bytes :=
  b256Codec.encode header.parentHash ++ b256Codec.encode header.ommersHash ++
  addressCodec.encode header.beneficiary ++ b256Codec.encode header.stateRoot ++
  b256Codec.encode header.transactionsRoot ++ b256Codec.encode header.receiptsRoot ++
  (Codec.fixed 256).encode header.logsBloom ++ u256Codec.encode header.difficulty ++
  Codec.u64.encode header.number ++ Codec.u64.encode header.gasLimit ++
  Codec.u64.encode header.gasUsed ++ Codec.u64.encode header.timestamp ++
  Codec.bytes.encode header.extraData ++ b256Codec.encode header.mixHash ++
  (Codec.fixed 8).encode header.nonce ++ encodeOptional Codec.u64 header.baseFeePerGas ++
  encodeOptional b256Codec header.withdrawalsRoot ++
  encodeOptional Codec.u64 header.blobGasUsed ++ encodeOptional Codec.u64 header.excessBlobGas ++
  encodeOptional b256Codec header.parentBeaconBlockRoot ++
  encodeOptional b256Codec header.requestsHash ++
  encodeOptional b256Codec header.blockAccessListHash ++
  encodeOptional Codec.u64 header.slotNumber

def encode (header : Header) : Bytes :=
  encodeList header.encodeFields

/-- Read the fields of a header off a list payload. -/
def decodeFields (input : Bytes) : Except Rlp.Error (Header × Bytes) := do
  let (parentHash, input) ← b256Codec.decode input
  let (ommersHash, input) ← b256Codec.decode input
  let (beneficiary, input) ← addressCodec.decode input
  let (stateRoot, input) ← b256Codec.decode input
  let (transactionsRoot, input) ← b256Codec.decode input
  let (receiptsRoot, input) ← b256Codec.decode input
  let (logsBloom, input) ← (Codec.fixed 256).decode input
  let (difficulty, input) ← u256Codec.decode input
  let (number, input) ← Codec.u64.decode input
  let (gasLimit, input) ← Codec.u64.decode input
  let (gasUsed, input) ← Codec.u64.decode input
  let (timestamp, input) ← Codec.u64.decode input
  let (extraData, input) ← Codec.bytes.decode input
  let (mixHash, input) ← b256Codec.decode input
  let (nonce, input) ← (Codec.fixed 8).decode input
  let (baseFeePerGas, input) ← decodeTrailing Codec.u64 input
  let (withdrawalsRoot, input) ← decodeTrailing b256Codec input
  let (blobGasUsed, input) ← decodeTrailing Codec.u64 input
  let (excessBlobGas, input) ← decodeTrailing Codec.u64 input
  let (parentBeaconBlockRoot, input) ← decodeTrailing b256Codec input
  let (requestsHash, input) ← decodeTrailing b256Codec input
  let (blockAccessListHash, input) ← decodeTrailing b256Codec input
  let (slotNumber, input) ← decodeTrailing Codec.u64 input
  .ok (⟨parentHash, ommersHash, beneficiary, stateRoot, transactionsRoot, receiptsRoot,
    logsBloom, difficulty, number, gasLimit, gasUsed, timestamp, extraData, mixHash, nonce,
    baseFeePerGas, withdrawalsRoot, blobGasUsed, excessBlobGas, parentBeaconBlockRoot,
    requestsHash, blockAccessListHash, slotNumber⟩, input)

def codec : Codec Header := Codec.wrap ⟨encodeFields, decodeFields⟩

theorem length_encode_gt (header : Header) : 32 < header.encode.length := by
  have hlen := header.parentHash.length_eq
  have hlong : ∀ byte : UInt8, header.parentHash.bytes = [byte] → 0x80 ≤ byte.toNat := by
    intro byte hbyte
    rw [hbyte, List.length_singleton] at hlen
    omega
  have hfield : (b256Codec.encode header.parentHash).length
      = (encodeHeader false header.parentHash.bytes.length).length + 32 := by
    simp only [b256Codec, Codec.fixed]
    rw [encodeString_eq_header hlong, List.length_append, hlen]
  obtain ⟨a, h1, -⟩ := @encodeHeader_short false header.parentHash.bytes.length (by omega)
  rw [h1, List.length_singleton] at hfield
  obtain ⟨tail, htail⟩ : ∃ tail, header.encodeFields
      = b256Codec.encode header.parentHash ++ tail := by
    unfold encodeFields
    simp only [List.append_assoc]
    exact ⟨_, rfl⟩
  have henc : header.encode.length
      = (encodeHeader true header.encodeFields.length).length
        + ((b256Codec.encode header.parentHash).length + tail.length) := by
    rw [← List.length_append, ← htail, ← List.length_append]
    rfl
  omega

theorem b256_roundTrips (hash : B256) : b256Codec.RoundTrips hash :=
  Codec.fixed_roundTrips (by decide) hash

theorem address_roundTrips (address : Address) : addressCodec.RoundTrips address :=
  Codec.fixed_roundTrips (by decide) address

theorem u256_roundTrips (number : U256) : u256Codec.RoundTrips number :=
  Codec.uint_roundTrips (by decide) (by simpa using number.isLt) (BitVec.ofNat_toNat _ _ |>.trans
    (BitVec.setWidth_eq number))

theorem number_eq_of_encodeFields {a b : Header}
    (heq : a.encodeFields = b.encodeFields) : a.number = b.number := by
  unfold encodeFields at heq
  simp only [List.append_assoc] at heq
  have h := (b256_roundTrips _).append_inj (b256_roundTrips _) heq
  have h := (b256_roundTrips _).append_inj (b256_roundTrips _) h.2
  have h := (address_roundTrips _).append_inj (address_roundTrips _) h.2
  have h := (b256_roundTrips _).append_inj (b256_roundTrips _) h.2
  have h := (b256_roundTrips _).append_inj (b256_roundTrips _) h.2
  have h := (b256_roundTrips _).append_inj (b256_roundTrips _) h.2
  have h := (Codec.fixed_roundTrips (by decide) _).append_inj
    (Codec.fixed_roundTrips (by decide) _) h.2
  have h := (u256_roundTrips _).append_inj (u256_roundTrips _) h.2
  exact ((Codec.u64_roundTrips _).append_inj (Codec.u64_roundTrips _) h.2).1

theorem length_fixed_encode_le {size : Nat} (v : FixedBytes size) :
    ((Codec.fixed size).encode v).length ≤ size + 9 := by
  have hlen := length_encodeString_le v.bytes
  rw [v.length_eq] at hlen
  exact hlen

theorem length_uint_encode_le {α : Type} (width : Nat) (v : α → Nat) (ofValue : Nat → α)
    (number : α) : ((Codec.uint width v ofValue).encode number).length ≤ width + 9 := by
  have hlen := length_encodeString_le (BigEndian.toMinimal width (v number))
  have hmini := BigEndian.length_toMinimal_le width (v number)
  simp only [Codec.uint]
  omega

theorem length_encodeOptional_le {α : Type} {codec : Codec α} {bound : Nat}
    (hcodec : ∀ v, (codec.encode v).length ≤ bound) (v : Option α) :
    (encodeOptional codec v).length ≤ bound := by
  cases v with
  | none => exact Nat.zero_le _
  | some v => exact hcodec v

theorem length_append_le {a b : Bytes} {firstBound secondBound : Nat} (h1 : a.length ≤ firstBound)
    (h2 : b.length ≤ secondBound) :
    (a ++ b).length ≤ firstBound + secondBound := by
  rw [List.length_append]
  exact Nat.add_le_add h1 h2

theorem length_encodeFields_le (header : Header) :
    header.encodeFields.length ≤ header.extraData.length + 1000 := by
  have hhash : ∀ hash : B256, (b256Codec.encode hash).length ≤ 41 := length_fixed_encode_le
  have hword : ∀ number : UInt64, (Codec.u64.encode number).length ≤ 17 :=
    length_uint_encode_le 8 _ _
  have haddr : (addressCodec.encode header.beneficiary).length ≤ 29 := length_fixed_encode_le _
  have hdiff : (u256Codec.encode header.difficulty).length ≤ 41 :=
    length_uint_encode_le 32 _ _ _
  have hx : (Codec.bytes.encode header.extraData).length ≤ header.extraData.length + 9 :=
    length_encodeString_le _
  have hopti := length_encodeOptional_le hhash
  have hoptio := length_encodeOptional_le hword
  -- The fields are added up in wire order.
  have h := length_append_le (hhash header.parentHash) (hhash header.ommersHash)
  have h := length_append_le h haddr
  have h := length_append_le h (hhash header.stateRoot)
  have h := length_append_le h (hhash header.transactionsRoot)
  have h := length_append_le h (hhash header.receiptsRoot)
  have h := length_append_le h (length_fixed_encode_le header.logsBloom)
  have h := length_append_le h hdiff
  have h := length_append_le h (hword header.number)
  have h := length_append_le h (hword header.gasLimit)
  have h := length_append_le h (hword header.gasUsed)
  have h := length_append_le h (hword header.timestamp)
  have h := length_append_le h hx
  have h := length_append_le h (hhash header.mixHash)
  have h := length_append_le h (length_fixed_encode_le header.nonce)
  have h := length_append_le h (hoptio header.baseFeePerGas)
  have h := length_append_le h (hopti header.withdrawalsRoot)
  have h := length_append_le h (hoptio header.blobGasUsed)
  have h := length_append_le h (hoptio header.excessBlobGas)
  have h := length_append_le h (hopti header.parentBeaconBlockRoot)
  have h := length_append_le h (hopti header.requestsHash)
  have h := length_append_le h (hopti header.blockAccessListHash)
  have h := length_append_le h (hoptio header.slotNumber)
  refine Nat.le_trans h ?_
  clear h hx hdiff haddr
  omega

-- Later proofs use the facts above; unfolding the fields only slows them down.
attribute [irreducible] encodeFields

end Header

end NeoX
