import NeoX.AntiMev.Pvss
import NeoX.Node.StaticPool
import NeoX.Validator.RoundState

/-!
# State of the governance and key management contracts

The validator set and the DKG keys as they are read from contract storage.

Main results:

- `readGovernanceAddressArray_spec`: validators that are read are between one and the
  largest number, without duplicates.
- `readDkgState_spec`: keys that are read belong to the current round and the round
  before it.
-/

namespace NeoX

open Except hiding ok error

open BigEndian

/-- Storage of one contract; a slot that was never written may be missing. -/
abbrev ContractStorage (ε : Type) := U256 → Except ε (Option U256)

def wordOfBytes (bytes : Bytes) : U256 := BitVec.ofNat 256 (ofBytes bytes)

def bytesOfWord (word : U256) : Bytes := toBytes 32 word.toNat

section Layout

variable [Crypto]

def dynamicArrayElementStorageKey (slot index : Nat) : U256 :=
  wordOfBytes (keccak256 (toBytes 32 slot)).bytes + BitVec.ofNat 256 index

def mappingStorageKey (slot key : U256) : U256 :=
  wordOfBytes (keccak256 (bytesOfWord key ++ bytesOfWord slot)).bytes

def uintMappingStorageKey (slot : Nat) (key : U256) : U256 :=
  mappingStorageKey (BitVec.ofNat 256 slot) key

def nestedUintMappingStorageKey (slot : Nat) (keys : List U256) : U256 :=
  keys.foldl mappingStorageKey (BitVec.ofNat 256 slot)

end Layout

/-! ## Validators -/

def governanceCurrentConsensusSlot : Nat := 16
def governancePendingConsensusSlot : Nat := 24

/-- The validators in the order of governance and in the order of dBFT, with the one-based index in
governance of each validator in the order of dBFT. -/
structure GovernanceValidatorSet where
  original : List Address
  sorted : List Address
  dkgIndices : List UInt32
  deriving DecidableEq

section Governance

variable [Crypto]

/-- One entry of an array of addresses. -/
def readValidator (storage : ContractStorage DbftStateError) (slot index : Nat) :
    Except DbftStateError Address := do
  let found ← storage (dynamicArrayElementStorageKey slot index)
  let value ← ofOption (.missingValidator index) found
  let validator : Address := FixedBytes.first 20 ((bytesOfWord value).drop 12)
  require (validator ≠ .zero 20) (.missingValidator index)
  .ok validator

def readGovernanceAddressArray (storage : ContractStorage DbftStateError) (slot : Nat)
    (allowEmpty : Bool) : Except DbftStateError (List Address) := do
  let length := ((← storage (BitVec.ofNat 256 slot)).getD 0).toNat
  require (length < 2 ^ 64) (.invalidValidatorCount (maxValidatorCount + 1))
  if allowEmpty ∧ length = 0 then
    .ok []
  else do
    require (length ≠ 0 ∧ length ≤ maxValidatorCount) (.invalidValidatorCount length)
    let original ← (List.range length).mapM (readValidator storage slot)
    require original.Nodup .duplicateValidator
    .ok original

def readGovernanceValidatorSetFromStorage (storage : ContractStorage DbftStateError) :
    Except DbftStateError GovernanceValidatorSet := do
  let original ← readGovernanceAddressArray storage governanceCurrentConsensusSlot false
  let sorted := sortAddresses original
  .ok ⟨original, sorted, sorted.map fun validator => UInt32.ofNat (original.idxOf validator + 1)⟩

/-- The validators of the next epoch, once they are selected. -/
def readGovernancePendingValidatorsFromStorage (storage : ContractStorage DbftStateError) :
    Except DbftStateError (List Address) :=
  readGovernanceAddressArray storage governancePendingConsensusSlot true

def StateProvider.contract {ε : Type} (state : StateProvider) (address : Address)
    (failure : String → ε) : ContractStorage ε :=
  fun key => (state.storage address key).mapError failure

/-- The validators of the current epoch in a state. -/
def readGovernanceValidatorSet (state : StateProvider) :
    Except DbftStateError GovernanceValidatorSet :=
  readGovernanceValidatorSetFromStorage
    (state.contract governanceProxyAddress fun _ => .provider)

variable {storage : ContractStorage DbftStateError}

theorem readGovernanceAddressArray_spec {slot : Nat} {addresses : List Address}
    (h : readGovernanceAddressArray storage slot false = .ok addresses) :
    addresses ≠ [] ∧ addresses.length ≤ maxValidatorCount ∧ addresses.Nodup := by
  rcases bind_ok h with ⟨raw, -, h⟩
  obtain ⟨_, h⟩ := of_bind h
  rw [if_neg (fun hempty => nomatch hempty.1)] at h
  obtain ⟨hc, h⟩ := require_bind h
  rcases bind_ok h with ⟨original, horig, h⟩
  obtain ⟨hnd, h⟩ := require_bind h
  cases h
  have hlen := (mapM_eq_ok.mp horig).length_eq
  rw [List.length_range] at hlen
  refine ⟨?_, hlen ▸ hc.2, hnd⟩
  rintro rfl
  exact hc.1 hlen

theorem dkgIndices_bounds {set : GovernanceValidatorSet}
    (h : readGovernanceValidatorSetFromStorage storage = .ok set) {i : UInt32}
    (hi : i ∈ set.dkgIndices) : 1 ≤ i.toNat ∧ i.toNat ≤ set.sorted.length := by
  rcases bind_ok h with ⟨original, horig, h⟩
  cases h
  rcases readGovernanceAddressArray_spec horig with ⟨-, hc, -⟩
  rcases List.mem_map.mp hi with ⟨validator, hvali, rfl⟩
  have hpos := List.idxOf_lt_length_of_mem
    ((sortAddresses_perm original).mem_iff.mp hvali)
  have hb : maxValidatorCount = 256 := rfl
  rw [UInt32.toNat_ofNat_of_lt' (by show _ < 2 ^ 32; omega),
    (sortAddresses_perm original).length_eq]
  omega

end Governance

/-! ## DKG keys -/

def keyManagementRoundNumberSlot : Nat := 0
def keyManagementAggregatedCommitmentsSlot : Nat := 9

/-- The largest byte string that is read. -/
def maxSolidityBytesLen : Nat := 4 * 1024 * 1024

inductive KeyManagementError where
  | provider (error : String)
  | roundOverflow
  | missingCurrentRound
  | missingCommitment (round : UInt64)
  | invalidShortBytesLength (length : Nat)
  | bytesTooLarge (length : Nat)
  | invalidCommitmentLength (round : UInt64) (actual : Nat)
  | invalidCommitment (round : UInt64) (reason : TpkeError)
  deriving DecidableEq

section Keys

variable [Crypto]

/-- A byte string in storage: short ones in their own slot, longer ones in the words after the hash
of the slot. -/
def readSolidityBytes (storage : ContractStorage KeyManagementError) (slot : U256) :
    Except KeyManagementError Bytes := do
  let header := (← storage slot).getD 0
  if header.toNat % 2 = 1 then do
    let length := (header.toNat - 1) / 2
    require (length < 2 ^ 64) (.bytesTooLarge (maxSolidityBytesLen + 1))
    require (length ≤ maxSolidityBytesLen) (.bytesTooLarge length)
    let base := wordOfBytes (keccak256 (bytesOfWord slot)).bytes
    let words ← (List.range ((length + 31) / 32)).mapM fun index =>
      storage (base + BitVec.ofNat 256 index)
    .ok ((words.flatMap fun word => bytesOfWord (word.getD 0)).take length)
  else do
    let length := header.toNat % 256 / 2
    require (length ≤ 31) (.invalidShortBytesLength length)
    .ok ((bytesOfWord header).take length)

variable [Curve]

/-- The key of a round, unless the round has none. -/
def readPublicKey (storage : ContractStorage KeyManagementError) (round : UInt64)
    (parameters : DkgParameters) : Except KeyManagementError (Option DkgPublicKey) := do
  let slot := uintMappingStorageKey keyManagementAggregatedCommitmentsSlot
    (BitVec.ofNat 256 round.toNat)
  let encoded ← readSolidityBytes storage slot
  if encoded = [] then
    .ok none
  else do
    let commitment : FixedBytes 128 ← ofOption
      (.invalidCommitmentLength round encoded.length) (FixedBytes.ofBytes? 128 encoded)
    let globalPublicKey ← (globalPublicKeyFromCommitment commitment.bytes
      parameters.scaler).mapError (.invalidCommitment round)
    .ok (some ⟨round, commitment, globalPublicKey⟩)

/-- The key of the round before, which the first round does not have. -/
def readPreviousKey (storage : ContractStorage KeyManagementError) (round : UInt64)
    (parameters : DkgParameters) : Except KeyManagementError (Option DkgPublicKey) :=
  if 1 < round.toNat then readPublicKey storage (round - 1) parameters else .ok none

/-- The keys of the current round and the round before it. -/
def readDkgStateFromStorage (parameters : DkgParameters)
    (storage : ContractStorage KeyManagementError) : Except KeyManagementError DkgState := do
  let number := ((← storage (BitVec.ofNat 256 keyManagementRoundNumberSlot)).getD 0).toNat
  require (number < 2 ^ 64) .roundOverflow
  let round := UInt64.ofNat number
  require (round ≠ 0) .missingCurrentRound
  let found ← readPublicKey storage round parameters
  let current ← ofOption (.missingCommitment round) found
  let previous ← readPreviousKey storage round parameters
  .ok ⟨parameters, current, previous⟩

def readDkgStateWithParameters (state : StateProvider) (parameters : DkgParameters) :
    Except KeyManagementError DkgState :=
  readDkgStateFromStorage parameters (state.contract keyManagementProxyAddress .provider)

variable {storage : ContractStorage KeyManagementError} {ps : DkgParameters}

theorem readPublicKey_spec {round : UInt64} {key : DkgPublicKey}
    (h : readPublicKey storage round ps = .ok (some key)) :
    key.round = round ∧
      globalPublicKeyFromCommitment key.commitment.bytes ps.scaler
        = .ok key.globalPublicKey := by
  rcases bind_ok h with ⟨enc, -, h⟩
  split at h
  · cases h
  · rcases bind_ok h with ⟨com, -, h⟩
    obtain ⟨globalPublicKey, hkey, h⟩ := mapError_bind h
    cases h
    exact ⟨rfl, hkey⟩

/-- The keys that are read belong to the current round, which is not zero, and the round before. -/
theorem readDkgState_spec {s : DkgState} (h : readDkgStateFromStorage ps storage = .ok s) :
    s.parameters = ps ∧ s.current.round ≠ 0 ∧
      ∀ key, s.previous = some key → key.round = s.current.round - 1 := by
  rcases bind_ok h with ⟨number, -, h⟩
  obtain ⟨_, h⟩ := of_bind h
  obtain ⟨hrd, h⟩ := require_bind h
  rcases bind_ok h with ⟨found, hf, h⟩
  obtain ⟨cur, hcur, h⟩ := ofOption_bind h
  rcases bind_ok h with ⟨prev, hprev, h⟩
  cases h
  subst hcur
  have hcurr := (readPublicKey_spec hf).1
  refine ⟨rfl, hcurr ▸ hrd, ?_⟩
  intro key hkey
  unfold readPreviousKey at hprev
  split at hprev
  · rw [show prev = some key from hkey] at hprev
    rw [(readPublicKey_spec hprev).1, hcurr]
  · cases hprev
    cases hkey

end Keys

end NeoX
