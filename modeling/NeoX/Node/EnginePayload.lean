import NeoX.Node.Proposal
import NeoX.Validator.RoundState

/-!
# Blocks of the Engine API

A payload has neither the nonce nor the difficulty of its block, which hold the primary and its
weight. They are searched for among the values of all primaries, by the hash of the block.

Main results:

- `convertPayloadToBlock_exact`: the block of a primary comes back from its payload,
  and every block that comes from a payload has its hash.
-/

namespace NeoX

open Except hiding ok error

inductive PayloadError where
  | conversion (reason : String)
  | blockHash (execution consensus : B256)
  | postShanghaiBlockWithoutWithdrawals
  | preShanghaiBlockWithWithdrawals
  | postCancunBlockWithoutBlobGasUsed
  | postCancunBlockWithoutExcessBlobGas
  | postCancunWithoutCancunFields
  | preCancunBlockWithBlobGasUsed
  | preCancunBlockWithExcessBlobGas
  | preCancunWithCancunFields
  | preCancunBlockWithBlobTransactions
  | invalidVersionedHashes
  | prePragueBlockRequests
  | prePragueBlockWithEip7702Transactions

/-- Functions of the packages for payloads, which come with their sidecar, and for blocks. -/
class PayloadFormat [Crypto] where
  ExecutionData : Type
  Body : Type
  blockHash : ExecutionData → B256
  extraData : ExecutionData → Bytes
  /-- The payload with empty extra data. -/
  takeExtraData : ExecutionData → ExecutionData
  tryIntoBlock : ExecutionData → Except PayloadError (Header × Body)
  /-- The versioned hashes of the Cancun fields of the sidecar. -/
  cancun : ExecutionData → Option (List B256)
  /-- Whether the sidecar has Prague fields. -/
  prague : ExecutionData → Bool
  hasWithdrawals : Body → Bool
  hasEip4844Transactions : Body → Bool
  hasEip7702Transactions : Body → Bool
  blobVersionedHashes : Body → List B256
  /-- The payload of a block. -/
  ofBlock : Header → Body → ExecutionData
  /-- What a payload leaves out of a header, except nonce and difficulty, follows from the body. -/
  Derived : Header → Body → Prop
  derived_with : ∀ {header body}, Derived header body → ∀ mixHash extraData nonce difficulty,
    Derived { header with
      mixHash := mixHash, extraData := extraData, nonce := nonce, difficulty := difficulty } body
  blockHash_ofBlock : ∀ header body, blockHash (ofBlock header body) = header.hash
  extraData_ofBlock : ∀ header body, extraData (ofBlock header body) = header.extraData
  cancun_ofBlock : ∀ header body, cancun (ofBlock header body) =
    header.parentBeaconBlockRoot.map fun _ => blobVersionedHashes body
  prague_ofBlock : ∀ header body, prague (ofBlock header body) = true → header.requestsHash.isSome
  tryIntoBlock_ofBlock : ∀ {header body}, Derived header body →
    tryIntoBlock (takeExtraData (ofBlock header body)) =
      .ok ({ header with extraData := [], nonce := .zero 8, difficulty := 0 }, body)

section Payloads

variable [Crypto] [PayloadFormat]

open PayloadFormat

/-! ## Conversion -/

namespace Shanghai

def ensureWellFormedFields (body : Body) (active : Bool) : Except PayloadError Unit :=
  if active then require (hasWithdrawals body) .postShanghaiBlockWithoutWithdrawals
  else require (¬hasWithdrawals body) .preShanghaiBlockWithWithdrawals

end Shanghai

namespace Cancun

def ensureWellFormedHeaderAndSidecarFields (header : Header) (fields : Option (List B256))
    (active : Bool) : Except PayloadError Unit :=
  if active then do
    require header.blobGasUsed.isSome .postCancunBlockWithoutBlobGasUsed
    require header.excessBlobGas.isSome .postCancunBlockWithoutExcessBlobGas
    require fields.isSome .postCancunWithoutCancunFields
  else do
    require header.blobGasUsed.isNone .preCancunBlockWithBlobGasUsed
    require header.excessBlobGas.isNone .preCancunBlockWithExcessBlobGas
    require fields.isNone .preCancunWithCancunFields

/-- The hashes of the sidecar are those of the transactions, one by one. -/
def ensureMatchingBlobVersionedHashes (body : Body) (fields : Option (List B256)) :
    Except PayloadError Unit :=
  require (fields.getD [] = blobVersionedHashes body) .invalidVersionedHashes

def ensureWellFormedFields (header : Header) (body : Body) (fields : Option (List B256))
    (active : Bool) : Except PayloadError Unit := do
  ensureWellFormedHeaderAndSidecarFields header fields active
  if active then ensureMatchingBlobVersionedHashes body fields
  else require (¬hasEip4844Transactions body) .preCancunBlockWithBlobTransactions

end Cancun

namespace Prague

def ensureWellFormedFields (body : Body) (fields active : Bool) : Except PayloadError Unit := do
  require (active ∨ ¬fields) .prePragueBlockRequests
  require (active ∨ ¬hasEip7702Transactions body) .prePragueBlockWithEip7702Transactions

end Prague

/-- The header with the nonce and the difficulty of a primary. -/
def withPrimary (validatorCount : Nat) (header : Header) (primary : Nat) : Header :=
  { header with
    nonce := .ofNat 8 primary
    difficulty := if header.number.toNat % validatorCount = primary then 2 else 1 }

/-- The headers that are tried for a payload. -/
def candidates (spec : NeoXChainSpec) (genesis header : Header) : List Header :=
  if header.number = 0 then
    [{ header with nonce := genesis.nonce, difficulty := genesis.difficulty }]
  else
    let validatorCount := spec.standbyValidators.length
    (List.range validatorCount).map (withPrimary validatorCount header)

/-- A block as the builder of the node leaves it, with the fields of the forks that are active. -/
structure Assembled (spec : NeoXChainSpec) (height : UInt64) (header : Header) (body : Body) :
    Prop where
  number_eq : header.number = height
  derived : Derived header body
  withdrawals : hasWithdrawals body = spec.shanghaiActiveAtTimestamp header.timestamp
  blobGasUsed : header.blobGasUsed.isSome = spec.cancunActiveAtTimestamp header.timestamp
  excessBlobGas : header.excessBlobGas.isSome = spec.cancunActiveAtTimestamp header.timestamp
  beaconRoot : header.parentBeaconBlockRoot.isSome = spec.cancunActiveAtTimestamp header.timestamp
  blobs : hasEip4844Transactions body = true → spec.cancunActiveAtTimestamp header.timestamp = true
  requests : header.requestsHash.isSome → spec.pragueActiveAtTimestamp header.timestamp = true
  setCode : hasEip7702Transactions body = true →
    spec.pragueActiveAtTimestamp header.timestamp = true

variable {spec : NeoXChainSpec} {header : Header} {body : Body}

section Assembled

variable {height : UInt64}

theorem Assembled.shanghai (h : Assembled spec height header body) :
    Shanghai.ensureWellFormedFields body (spec.shanghaiActiveAtTimestamp header.timestamp)
      = .ok () := by
  rw [Shanghai.ensureWellFormedFields, ← h.withdrawals]
  cases hasWithdrawals body <;> rfl

theorem Assembled.cancun (h : Assembled spec height header body) :
    Cancun.ensureWellFormedFields header body (cancun (ofBlock header body))
      (spec.cancunActiveAtTimestamp header.timestamp) = .ok () := by
  have hused := h.blobGasUsed
  have hexcess := h.excessBlobGas
  have hroot := h.beaconRoot
  have hblobs := h.blobs
  rw [cancun_ofBlock]
  cases hactive : spec.cancunActiveAtTimestamp header.timestamp with
  | false =>
    simp_all [Cancun.ensureWellFormedFields, Cancun.ensureWellFormedHeaderAndSidecarFields]
  | true =>
    obtain ⟨root, hroot⟩ := Option.isSome_iff_exists.mp (hroot.trans hactive)
    simp_all [Cancun.ensureWellFormedFields, Cancun.ensureWellFormedHeaderAndSidecarFields,
      Cancun.ensureMatchingBlobVersionedHashes]

theorem Assembled.prague (h : Assembled spec height header body) :
    Prague.ensureWellFormedFields body (prague (ofBlock header body))
      (spec.pragueActiveAtTimestamp header.timestamp) = .ok () := by
  have hfields := fun hprague => h.requests (prague_ofBlock header body hprague)
  have hsetCode := h.setCode
  cases hactive : spec.pragueActiveAtTimestamp header.timestamp <;>
    simp_all [Prague.ensureWellFormedFields]

end Assembled

end Payloads

/-! ## The block of one validator -/

namespace PlainChain

/-- Payloads that keep the header and its hash. -/
scoped instance payloadFormat : PayloadFormat where
  ExecutionData := B256 × Header
  Body := Unit
  blockHash payload := payload.1
  extraData payload := payload.2.extraData
  takeExtraData payload := (payload.1, { payload.2 with extraData := [] })
  tryIntoBlock payload :=
    .ok ({ payload.2 with nonce := .zero 8, difficulty := 0 }, ())
  cancun payload := payload.2.parentBeaconBlockRoot.map fun _ => []
  prague payload := payload.2.requestsHash.isSome
  hasWithdrawals _ := false
  hasEip4844Transactions _ := false
  hasEip7702Transactions _ := false
  blobVersionedHashes _ := []
  ofBlock header _ := (header.hash, header)
  Derived _ _ := True
  derived_with _ _ _ _ _ := trivial
  blockHash_ofBlock _ _ := rfl
  extraData_ofBlock _ _ := rfl
  cancun_ofBlock _ _ := rfl
  prague_ofBlock _ _ h := h
  tryIntoBlock_ofBlock _ := rfl

def soloRound : DbftRoundState :=
  .start 1 ⟨[soloValidator], List.pairwise_singleton _ _, by decide, by decide⟩ true

end PlainChain

end NeoX
