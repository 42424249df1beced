import NeoX.Node.DutyJournal
import NeoX.Network.Recovery

/-!
# The local signer

A validator's signer journals every duty that commits it to a block before it
produces the signature. Sealing a header is one duty for each height, whatever the
view and the scheme.

Main results:

- `DbftSigner.recorded_of_commitForHeaderAt`: a sealed header is
  journaled under its height with the hash of what the seal covers.
- Theorems `DbftSigner.retains_commitForHeaderAt` and
  `DbftSigner.retains_signMessage`: no signing operation forgets or replaces a
  journaled duty.
-/

namespace NeoX

/-- Signing functions of the ECDSA and BLS12-381 packages. -/
class Signing where
  /-- A recoverable signature by the key of an account over a hash. -/
  signPrehash : Address → B256 → Option (FixedBytes 65)
  /-- A threshold-signature share of a secret over a message, negated for V1 headers. -/
  signShare : Bytes → B256 → Bool → Option G2Bytes

/-- Public identity of the DKG epoch of a managed private share. -/
structure DkgShareEpoch where
  round : UInt64
  globalPublicKey : G1Bytes
  canonicalHead : B256
  deriving DecidableEq

/-- A private DKG share, with its epoch when it is managed. -/
structure DkgPrivateShare where
  secret : B256
  epoch : Option DkgShareEpoch
  deriving DecidableEq

inductive DbftSignerError where
  | signingFailed
  | duty (error : DutyError)
  | invalidHeader (error : DbftExtraError)
  | missingDkgPrivateShare
  | missingCanonicalDkgContext
  | dkgEpochMismatch (installed expected : DkgShareEpoch)
  | thresholdSigning
  deriving DecidableEq

/-- A managed share signs only for its own epoch. -/
def DkgPrivateShare.requireEpoch (share : DkgPrivateShare) (expected : Option DkgShareEpoch) :
    Except DbftSignerError Unit :=
  match share.epoch, expected with
  | none, _ => .ok ()
  | some _, none => .error .missingCanonicalDkgContext
  | some installed, some expected =>
    Except.require (installed.round = expected.round ∧
      installed.globalPublicKey = expected.globalPublicKey) (.dkgEpochMismatch installed expected)

/-- An open journal and the bytes of its file. -/
structure OpenJournal where
  journal : DutyJournal
  file : Bytes

/-- Local dBFT identity, its active DKG share and its duty journal. -/
structure DbftSigner where
  account : Address
  currentShare : Option DkgPrivateShare
  dutyJournal : Option OpenJournal

variable [Crypto]

/-- What the seal of a header covers, by the scheme of its extra data: the seal hash or the whole
seal message. -/
def sealIdentity (header : Header) : Except DbftExtraError Bytes := do
  let extra ← DbftExtraPrefix.decode header.extraData
  match extra.signatureScheme with
  | .ecdsa => do
      let hash ← ecdsaSealHash header
      .ok hash.bytes
  | .threshold => thresholdSealMessage header

namespace DbftSigner

/-- Record a duty, if a journal is installed. -/
def recordDuty (signer : DbftSigner) (outcome : AppendOutcome) (duty : Duty) (payload : Bytes) :
    Except DbftSignerError Unit × DbftSigner :=
  match signer.dutyJournal with
  | none => (.ok (), signer)
  | some opened =>
    match opened.journal.record opened.file duty (keccak256 payload) outcome with
    | (result, journal, file) =>
      (result.mapError .duty, { signer with dutyJournal := some ⟨journal, file⟩ })

/-- Kinds of messages whose signing is a duty. -/
def journaled : DbftMessageType → Bool
  | .prepareRequest | .prepareResponse | .preCommit | .commit => true
  | _ => false

variable [Signing]

/-- Sign a hash with the validator key. -/
def recoverableWitness (signer : DbftSigner) (hash : B256) :
    Except DbftSignerError (FixedBytes 65) :=
  Except.ofOption .signingFailed (Signing.signPrehash signer.account hash)

/-- Encode and sign one consensus payload. -/
def signMessage (signer : DbftSigner) (outcome : AppendOutcome) (blockIndex : UInt64)
    (validatorIndex viewNumber : UInt8) (messageType : DbftMessageType) (payload : Bytes) :
    Except DbftSignerError DbftMessage × DbftSigner :=
  let encoded := DbftConsensusData.codec.encode
    ⟨messageType, blockIndex, validatorIndex, viewNumber, payload⟩
  let message : DbftMessage := ⟨0, blockIndex, signer.account, encoded, []⟩
  let signed := do
    let witness ← signer.recoverableWitness message.hash
    .ok { message with witness := witness.bytes }
  if journaled messageType then
    match signer.recordDuty outcome ⟨blockIndex, viewNumber, messageType.toByte⟩ encoded with
    | (.error error, signer) => (.error error, signer)
    | (.ok (), signer) => (signed, signer)
  else
    (signed, signer)

/-- The signature of a header whose duty has been recorded. -/
def sealSignature (signer : DbftSigner) (header : Header) (extra : DbftExtraPrefix)
    (epoch : Option DkgShareEpoch) : Except DbftSignerError DbftCommit :=
  match extra.signatureScheme with
  | .ecdsa => do
      let hash ← (ecdsaSealHash header).mapError .invalidHeader
      let witness ← signer.recoverableWitness hash
      .ok ⟨witness.bytes⟩
  | .threshold => do
      let share ← Except.ofOption .missingDkgPrivateShare signer.currentShare
      share.requireEpoch epoch
      let message ← (thresholdSealMessage header).mapError .invalidHeader
      let signature ← Except.ofOption .thresholdSigning
        (Signing.signShare message share.secret (extra.version = .v1))
      .ok ⟨signature.bytes⟩

/-- Sign a finalized header with the scheme of its extra data. -/
def commitForHeaderAt (signer : DbftSigner) (outcome : AppendOutcome) (header : Header)
    (epoch : Option DkgShareEpoch) : Except DbftSignerError DbftCommit × DbftSigner :=
  match DbftExtraPrefix.decode header.extraData, sealIdentity header with
  | .error error, _ => (.error (.invalidHeader error), signer)
  | .ok _, .error error => (.error (.invalidHeader error), signer)
  | .ok extra, .ok identity =>
    match signer.recordDuty outcome (headerCommitDuty header.number) identity with
    | (.error error, signer) => (.error error, signer)
    | (.ok (), signer) => (signer.sealSignature header extra epoch, signer)

end DbftSigner

/-! ## Journaled duties -/

namespace DbftSigner

def recorded (signer : DbftSigner) (duty : Duty) : Option Bytes := do
  let opened ← signer.dutyJournal
  opened.journal.signed.lookup duty.key

/-- The later signer still has a journal and everything recorded in it. -/
structure Retains (signer next : DbftSigner) : Prop where
  journal : signer.dutyJournal.isSome → next.dutyJournal.isSome
  recorded : ∀ duty hash, signer.recorded duty = some hash → next.recorded duty = some hash

omit [Crypto] in
theorem Retains.refl (signer : DbftSigner) : Retains signer signer :=
  ⟨id, fun _ _ h => h⟩

theorem retains_recordDuty (signer : DbftSigner) (out : AppendOutcome) (duty : Duty)
    (p : Bytes) : Retains signer (signer.recordDuty out duty p).2 := by
  unfold recordDuty
  cases hj : signer.dutyJournal with
  | none => exact Retains.refl signer
  | some opened =>
    refine ⟨fun _ => rfl, ?_⟩
    intro o hash hrec
    simp only [recorded, hj, Option.bind_eq_bind, Option.bind_some] at hrec ⊢
    exact DutyJournal.lookup_record hrec _ _ _ _

theorem recorded_of_recordDuty {signer : DbftSigner} {out : AppendOutcome} {duty : Duty} {p : Bytes}
    (hj : signer.dutyJournal.isSome) (hok : (signer.recordDuty out duty p).1 = .ok ()) :
    (signer.recordDuty out duty p).2.recorded duty
      = some (hexEncode (keccak256 p)) := by
  rcases Option.isSome_iff_exists.mp hj with ⟨opened, hopened⟩
  simp only [recordDuty, hopened, Except.mapError_eq_ok] at hok
  simp only [recordDuty, hopened, recorded, Option.bind_eq_bind, Option.bind_some]
  exact DutyJournal.lookup_record_of_ok hok

variable [Signing]

theorem retains_signMessage (signer : DbftSigner) (out : AppendOutcome) (blockIndex : UInt64)
    (validatorIndex viewNumber : UInt8) (messageType : DbftMessageType) (p : Bytes) :
    Retains signer
      (signer.signMessage out blockIndex validatorIndex viewNumber messageType p).2 := by
  unfold signMessage
  dsimp only
  split
  · have hreta := signer.retains_recordDuty out
      ⟨blockIndex, viewNumber, messageType.toByte⟩
      (DbftConsensusData.codec.encode ⟨messageType, blockIndex, validatorIndex, viewNumber, p⟩)
    split
    · rename_i error next hrec
      rwa [hrec] at hreta
    · rename_i next hrec
      rwa [hrec] at hreta
  · exact Retains.refl signer

theorem retains_commitForHeaderAt (signer : DbftSigner) (out : AppendOutcome) (header : Header)
    (epoch : Option DkgShareEpoch) :
    Retains signer (signer.commitForHeaderAt out header epoch).2 := by
  unfold commitForHeaderAt
  split
  · exact Retains.refl signer
  · exact Retains.refl signer
  · rename_i extra identity hx hidentity
    have hreta := signer.retains_recordDuty out (headerCommitDuty header.number) identity
    split
    · rename_i error next hrec
      rwa [hrec] at hreta
    · rename_i next hrec
      rwa [hrec] at hreta

/-- A signer with a journal seals a header only after it has recorded what the seal covers as the
one header of its height. -/
theorem recorded_of_commitForHeaderAt {signer : DbftSigner} {out : AppendOutcome} {header : Header}
    {epoch : Option DkgShareEpoch} {commit : DbftCommit} (hj : signer.dutyJournal.isSome)
    (hok : (signer.commitForHeaderAt out header epoch).1 = .ok commit) :
    ∃ identity, sealIdentity header = .ok identity ∧
      (signer.commitForHeaderAt out header epoch).2.recorded (headerCommitDuty header.number)
        = some (hexEncode (keccak256 identity)) := by
  unfold commitForHeaderAt at hok ⊢
  cases hx : DbftExtraPrefix.decode header.extraData with
  | error error =>
    rw [hx] at hok
    cases hok
  | ok extra =>
    cases hiden : sealIdentity header with
    | error error =>
      rw [hx, hiden] at hok
      cases hok
    | ok identity =>
      rw [hx, hiden] at hok
      refine ⟨identity, rfl, ?_⟩
      have hrec := @recorded_of_recordDuty _ signer out
        (headerCommitDuty header.number) identity hj
      dsimp only at hok ⊢
      rcases hrecord : signer.recordDuty out (headerCommitDuty header.number) identity with
        ⟨result, next⟩
      rw [hrecord] at hok hrec
      cases result with
      | error error => cases hok
      | ok done => exact hrec rfl

end DbftSigner

end NeoX
