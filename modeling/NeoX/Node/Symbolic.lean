import NeoX.Node.Signer
import NeoX.Validator.RoundState

/-!
# Symbolic cryptography

An executable model of the cryptographic functions in which a signature is the text
of what was signed and by whom. It satisfies the assumptions under which results of
this development are stated, so it serves to run the model on concrete inputs.

Main results:

- `recoverSigner_eq_some`: a symbolic signature recovers to an account
  exactly when it was made by that account over that hash.
- `blsVerify_eq_true`: a symbolic threshold signature verifies exactly
  when it was made over that message under that key.
-/

namespace NeoX

open List
namespace Symbolic

def hash (bytes : Bytes) : B256 :=
  .ofNat 32 (bytes.foldl (fun value byte => (value * 257 + byte.toNat + 1) % 2 ^ 256) 7)

/-- The signature of an account over a hash. -/
def sign (account : Address) (signed : B256) : FixedBytes 65 where
  bytes := account.bytes ++ signed.bytes ++ List.replicate 13 0
  length_eq := by
    simp [account.length_eq, signed.length_eq]

def recover (signature : Bytes) (parity : Bool) (signed : B256) : Option Address :=
  let account := FixedBytes.first 20 signature
  if parity = false ∧ signature = (sign account signed).bytes.take 64 then some account else none

/-- A threshold signature over a message, or a share of it, under a public key. -/
def thresholdSign (publicKey : G1Bytes) (message : Bytes) : G2Bytes where
  bytes := publicKey.bytes ++ (hash message).bytes ++ List.replicate 16 0
  length_eq := by
    simp [publicKey.length_eq, (hash message).length_eq]

/-- Equal shares interpolate to themselves. -/
def interpolate : List (UInt32 × G2Bytes) → G2Bytes
  | [] => .zero 96
  | (_, share) :: shares =>
    if shares.all (fun other => other.2 = share) then share else .zero 96

/-- The symbolic functions. -/
scoped instance crypto : Crypto where
  keccak256 := hash
  recoverAddress := recover
  validG1 _ := true
  validG2 _ := true
  keyValidate key := key ≠ .zero 48
  sigValidate signature := signature ≠ .zero 96
  blsVerify key signature message := signature = thresholdSign key message
  interpolateSignatureShares shares _ := interpolate shares

def publicKey (secret : B256) : G1Bytes where
  bytes := secret.bytes ++ List.replicate 16 0
  length_eq := by
    simp [secret.length_eq]

/-- Symbolic signing: every share of a committee secret is the whole signature. -/
scoped instance signing : Signing where
  signPrehash account signed := some (sign account signed)
  signShare message secret _ := some (thresholdSign (publicKey secret) message)

theorem blsVerify_eq_true {key : G1Bytes} {sig : G2Bytes} {message : Bytes} :
    Crypto.blsVerify key sig message = true ↔ sig = thresholdSign key message := by
  simp [Crypto.blsVerify]

theorem hash_of_thresholdSign (key : G1Bytes) (message : Bytes) :
    FixedBytes.first 32 ((thresholdSign key message).bytes.drop 48) = hash message := by
  have hdrop : (thresholdSign key message).bytes.drop 48
      = (hash message).bytes ++ replicate 16 0 := by
    simp only [thresholdSign, append_assoc]
    exact drop_left' key.length_eq
  rw [hdrop, FixedBytes.first_append]

/-! ## Inputs for concrete runs -/

/-- The account of a validator. Accounts are ordered by their index. -/
def account (index : Nat) : Address := .ofNat 20 (index + 1)

def solo : ValidatorSet where
  accounts := [account 0]
  sorted := List.pairwise_singleton _ _
  nonempty := List.cons_ne_nil _ _
  size_le := by decide

/-- A committee of four validators, which tolerates one faulty member. -/
def committee : ValidatorSet where
  accounts := [account 0, account 1, account 2, account 3]
  sorted := by decide +kernel
  nonempty := List.cons_ne_nil _ _
  size_le := by decide

/-- A header with the given number, extra data and difficulty. -/
def header (number : UInt64) (extraData : Bytes) (difficulty : U256) : Header where
  parentHash := .zero 32
  ommersHash := .zero 32
  beneficiary := .zero 20
  stateRoot := .zero 32
  transactionsRoot := .zero 32
  receiptsRoot := .zero 32
  logsBloom := .zero 256
  difficulty := difficulty
  number := number
  gasLimit := 0
  gasUsed := 0
  timestamp := 0
  extraData := extraData
  mixHash := .zero 32
  nonce := .zero 8
  baseFeePerGas := none
  withdrawalsRoot := none
  blobGasUsed := none
  excessBlobGas := none
  parentBeaconBlockRoot := none
  requestsHash := none
  blockAccessListHash := none
  slotNumber := none

/-- A signed message of a validator at a height. -/
def signed (height : UInt64) (index view : UInt8) (kind : DbftMessageType) (payload : Bytes) :
    DbftMessage :=
  let message : DbftMessage := ⟨0, height, account index.toNat,
    DbftConsensusData.codec.encode ⟨kind, height, index, view, payload⟩, []⟩
  { message with witness := (sign (account index.toNat) message.hash).bytes }

def headerCommit (index : Nat) (header : Header) : DbftCommit :=
  match ecdsaSealHash header with
  | .error _ => ⟨[]⟩
  | .ok hash => ⟨(sign (account index) hash).bytes⟩

end Symbolic
end NeoX
