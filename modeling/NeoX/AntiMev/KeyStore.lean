import NeoX.AntiMev.Pvss

/-!
# The DKG key store

The key groups of a validator and their transitions: the start of a share or recovery period, the
material a validator prepares, the shares it receives, and the change of an epoch.

Main results:

- `DkgKeyGroup.settle_eq_ok`: a receiver that settles has the sum of the shares of all
  senders, under the key of the aggregate commitment.
- `DkgKeyGroup.storeReceived_spec`: a stored share is recorded in its place, and
  nothing else changes.
-/

namespace NeoX

open Except hiding ok error

/-! ## Share messages -/

/-- Functions of the packages that encrypt share messages. -/
class Ecies where
  /-- Whether the bytes are a private key. -/
  validPrivateKey : B256 → Bool
  /-- The first coordinate that a private key shares with an ephemeral point. -/
  sharedX : B256 → FixedBytes 64 → Option B256
  /-- The SHA3-256 hash. -/
  sha3 : Bytes → B256
  /-- Authenticated decryption with AES-256-GCM. -/
  openMessage : B256 → FixedBytes 12 → Bytes → Option Bytes

section Store

variable [Ecies]

def decryptDkgShareMessage (messagePrivateKey : B256) (message : Bytes) :
    Except DkgMaterialError DkgSecretScalar := do
  require (message.length = 124) (.wrongEciesMessageLength message.length)
  require (Ecies.validPrivateKey messagePrivateKey = true) .invalidMessagePrivateKey
  let point := FixedBytes.first 64 message
  let sharedX ← ofOption .invalidEciesEphemeralPoint (Ecies.sharedX messagePrivateKey point)
  let key := Ecies.sha3 (sharedX.bytes ++ point.bytes)
  let plaintext ← ofOption .eciesAuthentication
    (Ecies.openMessage key (FixedBytes.first 12 (message.drop 64)) (message.drop 76))
  let scalar ← ofOption (.invalidEciesPlaintextLength plaintext.length)
    (FixedBytes.ofBytes? 32 plaintext)
  DkgSecretScalar.new scalar

/-- A valid private key for share messages. -/
@[ext]
structure DkgMessagePrivateKey where
  bytes : B256
  valid : Ecies.validPrivateKey bytes = true

/-! ## Key groups -/

inductive DkgStateError where
  | invalidMessagePrivateKey
  | validatorAddressMismatch (expected actual : Address)
  | material (error : DkgMaterialError)
  | groupUnavailable (group : String)
  | invalidParticipantIndex (index : UInt64)
  | invalidMessageCount (actual expected : Nat)
  | conflictingReceivedShare (index : UInt64)
  | settledLocalSecretUnavailable
  | invalidRecoveryCount (actual limit : Nat)
  | duplicateRecoveryIndex (index : UInt64)
  | missingRecoverySource (index : UInt64)
  | insufficientRecoveryShares (actual expected : Nat)
  | pendingSecretNotConfirmed
  | selfPvssMembershipMismatch
  | missingReceivedShare (position : Nat)
  | missingPreviousCommitment
  | invalidAggregatedCommitment (error : TpkeError)
  | roundOverflow
  deriving DecidableEq

/-- The local secret of a validator and the shares it received, one for each member. -/
@[ext]
structure DkgKeyGroup (parameters : DkgParameters) where
  localSecret : Option (DkgPolynomial parameters)
  pendingSecrets : List (DkgPolynomial parameters)
  receivedSecrets : List (Option DkgSecretScalar)
  globalPublicKey : Option G1Bytes
  localPrivateKey : Option DkgSecretScalar
  length_received : receivedSecrets.length = parameters.participants

variable {parameters : DkgParameters}

namespace DkgKeyGroup

def new (parameters : DkgParameters) : DkgKeyGroup parameters where
  localSecret := none
  pendingSecrets := []
  receivedSecrets := List.replicate parameters.participants none
  globalPublicKey := none
  localPrivateKey := none
  length_received := List.length_replicate

/-- A group for the key of another group. -/
def reshareTemplate (previous : DkgKeyGroup parameters) : DkgKeyGroup parameters where
  localSecret := none
  pendingSecrets := []
  receivedSecrets := List.replicate previous.receivedSecrets.length none
  globalPublicKey := previous.globalPublicKey
  localPrivateKey := none
  length_received := by rw [List.length_replicate, previous.length_received]

/-- Record a share of a sender, once. The flag says whether it is new. -/
def storeReceived (group : DkgKeyGroup parameters) (fromIndex : UInt64) (share : DkgSecretScalar) :
    Except DkgStateError (Bool × DkgKeyGroup parameters) := do
  require (fromIndex ≠ 0 ∧ fromIndex.toNat ≤ group.receivedSecrets.length)
    (.invalidParticipantIndex fromIndex)
  match group.receivedSecrets[fromIndex.toNat - 1]? with
  | some (some existing) =>
    require (existing = share) (.conflictingReceivedShare fromIndex)
    .ok (false, group)
  | _ =>
    let receivedSecrets := group.receivedSecrets.set (fromIndex.toNat - 1) (some share)
    .ok (true, { group with
      receivedSecrets := receivedSecrets
      length_received := by rw [List.length_set, group.length_received] })

variable [Curve]

/-- Make the pending secret with the commitments of an announcement the local one. -/
def confirmLocalSecret (group : DkgKeyGroup parameters) (pvss : DkgPvss parameters) :
    Except DkgStateError (DkgKeyGroup parameters) := do
  let secret ← ofOption .pendingSecretNotConfirmed
    (group.pendingSecrets.find? fun secret => secret.commitment = pvss.commitment)
  .ok { group with localSecret := some secret }

/-- All received shares; every sender has to have one. -/
def collectReceived : Nat → List (Option DkgSecretScalar) →
    Except DkgStateError (List DkgSecretScalar)
  | _, [] => .ok []
  | position, share :: shares => do
      let share ← ofOption (.missingReceivedShare (position + 1)) share
      let shares ← collectReceived (position + 1) shares
      .ok (share :: shares)

/-- Derive the global key and, for a receiver, the local share. -/
def settle (group : DkgKeyGroup parameters) (aggregatedCommitment : Bytes) (isReceiver : Bool) :
    Except DkgStateError (DkgKeyGroup parameters) := do
  let globalPublicKey ← (globalPublicKeyFromCommitment aggregatedCommitment
    parameters.scaler).mapError .invalidAggregatedCommitment
  if isReceiver then
    let shares ← collectReceived 0 group.receivedSecrets
    let localPrivateKey ← (DkgSecretScalar.aggregate shares).mapError .material
    .ok { group with
      globalPublicKey := some globalPublicKey
      localPrivateKey := some localPrivateKey }
  else
    .ok { group with
      globalPublicKey := some globalPublicKey
      localPrivateKey := none }

end DkgKeyGroup

/-! ## The store -/

/-- The key groups of a validator in a committee. -/
@[ext]
structure DkgKeyStore (parameters : DkgParameters) where
  round : UInt64
  validatorAddress : Option Address
  messagePrivateKey : DkgMessagePrivateKey
  recovering : Option (DkgKeyGroup parameters)
  resharing : Option (DkgKeyGroup parameters)
  reshared : Option (DkgKeyGroup parameters)
  sharing : Option (DkgKeyGroup parameters)
  shared : Option (DkgKeyGroup parameters)

/-- What an epoch does. -/
inductive DkgEpochChange where
  | reverted
  | advanced (round : UInt64)
  deriving DecidableEq

def validateIndex (index : UInt64) (parameters : DkgParameters) : Except DkgStateError Unit :=
  require (1 ≤ index.toNat ∧ index.toNat ≤ parameters.participants)
    (.invalidParticipantIndex index)

/-- Check the indices of missing members. -/
def validateRecoveryIndices (parameters : DkgParameters) :
    List UInt64 → List UInt64 → Except DkgStateError Unit
  | _, [] => .ok ()
  | prior, index :: indices => do
      validateIndex index parameters
      require (index ∉ prior) (.duplicateRecoveryIndex index)
      validateRecoveryIndices parameters (index :: prior) indices

namespace DkgKeyStore

/-- A store before the first round. -/
def newWithParameters (messagePrivateKey : DkgMessagePrivateKey) (parameters : DkgParameters) :
    DkgKeyStore parameters :=
  ⟨0, none, messagePrivateKey, none, none, none, none, none⟩

/-- A store of the same validator without key groups. -/
def detachedReplayBaseline (store : DkgKeyStore parameters) (priorRound : UInt64) :
    DkgKeyStore parameters :=
  ⟨priorRound, store.validatorAddress, store.messagePrivateKey, none, none, none, none, none⟩

def bindValidatorAddress (store : DkgKeyStore parameters) (address : Address) :
    Except DkgStateError (DkgKeyStore parameters) :=
  match store.validatorAddress with
  | some expected => do
      require (expected = address) (.validatorAddressMismatch expected address)
      .ok store
  | none => .ok { store with validatorAddress := some address }

def currentPrivateShare (store : DkgKeyStore parameters) : Option DkgSecretScalar :=
  store.shared.bind DkgKeyGroup.localPrivateKey

def previousPrivateShare (store : DkgKeyStore parameters) : Option DkgSecretScalar :=
  store.reshared.bind DkgKeyGroup.localPrivateKey

def currentGlobalPublicKey (store : DkgKeyStore parameters) : Option G1Bytes :=
  store.shared.bind DkgKeyGroup.globalPublicKey

def previousGlobalPublicKey (store : DkgKeyStore parameters) : Option G1Bytes :=
  store.reshared.bind DkgKeyGroup.globalPublicKey

def onSharePeriodStart (store : DkgKeyStore parameters) (forceReshare : Bool) :
    DkgKeyStore parameters :=
  let template := store.shared.map DkgKeyGroup.reshareTemplate
  { store with
    resharing := if template.isNone ∧ forceReshare = true then some (DkgKeyGroup.new parameters)
      else template
    sharing := some (DkgKeyGroup.new parameters)
    recovering := none }

def onRecoverPeriodStart (store : DkgKeyStore parameters) : DkgKeyStore parameters :=
  { store with recovering := some (DkgKeyGroup.new parameters) }

def revertRound (store : DkgKeyStore parameters) : DkgKeyStore parameters :=
  { store with resharing := none, sharing := none, recovering := none }

variable [Curve]

/-- Prepare the announcement of the next round and keep its polynomial pending. -/
def prepareShare [Cipher] [PredictableScalars] (store : DkgKeyStore parameters) (chainId : U256)
    (entropy : Entropy) : Except DkgStateError (DkgPvssMaterial × DkgKeyStore parameters) := do
  require (store.round ≠ UInt64.ofNat (2 ^ 64 - 1)) .roundOverflow
  let polynomial ← (DkgPolynomial.deterministicWithParameters store.messagePrivateKey.bytes chainId
    (store.round + 1) parameters).mapError .material
  let material ← (polynomial.generatePvss entropy).mapError .material
  let sharing ← ofOption (.groupUnavailable "sharing") store.sharing
  let pendingSecrets :=
    if polynomial ∈ sharing.pendingSecrets then sharing.pendingSecrets
    else sharing.pendingSecrets ++ [polynomial]
  .ok (material, { store with sharing := some { sharing with pendingSecrets := pendingSecrets } })

/-- Prepare the announcement that transfers the settled secret. -/
def prepareReshare (store : DkgKeyStore parameters) (entropy : Entropy) :
    Except DkgStateError DkgPvssMaterial := do
  require (store.resharing.isSome = true) (.groupUnavailable "resharing")
  let localSecret ← ofOption .settledLocalSecretUnavailable
    (store.shared.bind DkgKeyGroup.localSecret)
  let renovated ← (localSecret.renovate entropy).mapError .material
  (renovated.generatePvss entropy).mapError .material

/-- The shares of the round before for missing members. -/
def prepareRecovery (store : DkgKeyStore parameters) (recoveryIndices : List UInt64) :
    Except DkgStateError (List DkgSecretScalar) := do
  let limit := parameters.participants - parameters.threshold
  require (1 ≤ recoveryIndices.length ∧ recoveryIndices.length ≤ limit)
    (.invalidRecoveryCount recoveryIndices.length limit)
  validateRecoveryIndices parameters [] recoveryIndices
  let shared ← ofOption (.groupUnavailable "shared") store.shared
  recoveryIndices.mapM fun index =>
    ofOption (.missingRecoverySource index)
      (shared.receivedSecrets.getD (index.toNat - 1) none)

/-- Recover the constant of a missing member and prepare the announcement that transfers it. -/
def prepareRecoveredReshare (store : DkgKeyStore parameters) (entropy : Entropy) :
    Except DkgStateError (DkgPvssMaterial × DkgKeyStore parameters) := do
  let recovering ← ofOption (.groupUnavailable "recovering") store.recovering
  let shares := recovering.receivedSecrets.zipIdx.filterMap fun entry =>
    entry.1.map fun share => (UInt64.ofNat (entry.2 + 1), share)
  require (parameters.threshold ≤ shares.length)
    (.insufficientRecoveryShares shares.length parameters.threshold)
  let polynomial : DkgPolynomial parameters ←
    (DkgPolynomial.recoverAndRenovateWithParameters shares entropy).mapError .material
  let material ← (polynomial.generatePvss entropy).mapError .material
  .ok (material, { store with
    recovering := some { recovering with localSecret := some polynomial } })

/-- Decrypt the share for a member and check it against the announcement. -/
def decryptReceivedShare (store : DkgKeyStore parameters) (selfIndex : UInt64)
    (messages : List Bytes) (pvss : Bytes) : Except DkgStateError DkgSecretScalar := do
  validateIndex selfIndex parameters
  require (messages.length = parameters.participants)
    (.invalidMessageCount messages.length parameters.participants)
  let pvss ← (DkgPvss.decodeWithParameters pvss parameters).mapError .material
  let share ← (decryptDkgShareMessage store.messagePrivateKey.bytes
    (messages.getD (selfIndex.toNat - 1) [])).mapError .material
  (pvss.verifyShare selfIndex share).mapError .material
  .ok share

/-- Record the share of a sender for the next key. -/
def receiveShare (store : DkgKeyStore parameters) (selfIndex fromIndex : UInt64)
    (messages : List Bytes) (pvss : Bytes) :
    Except DkgStateError (Bool × DkgKeyStore parameters) := do
  let sharing ← ofOption (.groupUnavailable "sharing") store.sharing
  let share ← store.decryptReceivedShare selfIndex messages pvss
  let (fresh, sharing) ← sharing.storeReceived fromIndex share
  .ok (fresh, { store with sharing := some sharing })

/-- Record the share of a sender for the key of the epoch before. -/
def receiveReshare (store : DkgKeyStore parameters) (selfIndex fromIndex : UInt64)
    (messages : List Bytes) (pvss : Bytes) :
    Except DkgStateError (Bool × DkgKeyStore parameters) := do
  let resharing ← ofOption (.groupUnavailable "resharing") store.resharing
  let share ← store.decryptReceivedShare selfIndex messages pvss
  let (fresh, resharing) ← resharing.storeReceived fromIndex share
  .ok (fresh, { store with resharing := some resharing })

def receiveRecovery (store : DkgKeyStore parameters) (fromIndex : UInt64) (message pvss : Bytes) :
    Except DkgStateError (Bool × DkgKeyStore parameters) := do
  let recovering ← ofOption (.groupUnavailable "recovering") store.recovering
  validateIndex fromIndex parameters
  let pvss ← (DkgPvss.decodeWithParameters pvss parameters).mapError .material
  let share ← (decryptDkgShareMessage store.messagePrivateKey.bytes message).mapError .material
  (pvss.verifyShare fromIndex share).mapError .material
  let (fresh, recovering) ← recovering.storeReceived fromIndex share
  .ok (fresh, { store with recovering := some recovering })

/-- The group of the next key. An announcement that matches no pending secret leaves the local
secret open. -/
def confirmSelf (sharing : DkgKeyGroup parameters) (selfPvss : Bytes) (isMemberOfNewGroup : Bool) :
    Except DkgStateError (DkgKeyGroup parameters) :=
  if isMemberOfNewGroup then do
    let pvss ← (DkgPvss.decodeWithParameters selfPvss parameters).mapError .material
    match sharing.confirmLocalSecret pvss with
    | .ok confirmed => .ok confirmed
    | .error _ => .ok sharing
  else
    .ok sharing

def settleResharing (resharing : Option (DkgKeyGroup parameters)) (previousCommitment : Bytes)
    (isMemberOfNewGroup : Bool) : Except DkgStateError (Option (DkgKeyGroup parameters)) :=
  match resharing with
  | none => .ok none
  | some resharing => do
      require (previousCommitment.isEmpty = false) .missingPreviousCommitment
      let reshared ← resharing.settle previousCommitment isMemberOfNewGroup
      .ok (some reshared)

/-- Settle a round, or drop it when it has no aggregate commitment. -/
def onEpochChange (store : DkgKeyStore parameters)
    (selfPvss aggregatedCommitment previousCommitment : Bytes) (isMemberOfNewGroup : Bool) :
    Except DkgStateError (DkgEpochChange × DkgKeyStore parameters) :=
  if aggregatedCommitment.isEmpty then
    .ok (.reverted, store.revertRound)
  else do
    require (selfPvss.isEmpty ≠ isMemberOfNewGroup) .selfPvssMembershipMismatch
    let sharing ← ofOption (.groupUnavailable "sharing") store.sharing
    let confirmed ← confirmSelf sharing selfPvss isMemberOfNewGroup
    let nextShared ← confirmed.settle aggregatedCommitment isMemberOfNewGroup
    let nextReshared ← settleResharing store.resharing previousCommitment isMemberOfNewGroup
    require (store.round ≠ UInt64.ofNat (2 ^ 64 - 1)) .roundOverflow
    .ok (.advanced (store.round + 1), { store with
      round := store.round + 1
      recovering := none
      resharing := none
      reshared := nextReshared
      sharing := none
      shared := some nextShared })

end DkgKeyStore

/-! ## What a group settles to -/

namespace DkgKeyGroup

variable [Curve]

omit [Ecies] [Curve] in
theorem collectReceived_eq_ok {start : Nat} {received : List (Option DkgSecretScalar)}
    {shares : List DkgSecretScalar} :
    collectReceived start received = .ok shares ↔ received = shares.map some := by
  induction received generalizing start shares with
  | nil =>
    cases shares with
    | nil => simp [collectReceived]
    | cons found rest => simp [collectReceived]
  | cons share received ih =>
    rw [collectReceived, bind_eq_ok]
    constructor
    · rintro ⟨found, hf, h⟩
      rcases bind_ok h with ⟨rest, hr, h⟩
      cases h
      rw [ofOption_eq_ok] at hf
      rw [hf, ih.mp hr, List.map_cons]
    · intro h
      cases shares with
      | nil => cases h
      | cons found rest =>
        rw [List.map_cons, List.cons.injEq] at h
        exact ⟨found, ofOption_eq_ok.mpr h.1,
          bind_eq_ok.mpr ⟨rest, ih.mpr h.2, rfl⟩⟩

/-- A receiver that settles has a share of every sender, and its own share is their sum. -/
structure Settled (group settled : DkgKeyGroup parameters) (commitment : Bytes) : Prop where
  global_eq : ∃ key, globalPublicKeyFromCommitment commitment parameters.scaler = .ok key ∧
    settled.globalPublicKey = some key
  local_eq : ∃ (shares : List DkgSecretScalar) (share : DkgSecretScalar),
    group.receivedSecrets = shares.map some ∧
    settled.localPrivateKey = some share ∧ share.value = (shares.map DkgSecretScalar.value).sum

variable {group : DkgKeyGroup parameters}
variable {settled : DkgKeyGroup parameters}

omit [Ecies] in
theorem settle_eq_ok {commitment : Bytes}
    (h : group.settle commitment true = .ok settled) : group.Settled settled commitment := by
  obtain ⟨key, hkey, h⟩ := mapError_bind h
  rw [if_pos rfl] at h
  rcases bind_ok h with ⟨shares, hshs, h⟩
  obtain ⟨share, hsh, h⟩ := mapError_bind h
  cases h
  exact ⟨⟨key, hkey, rfl⟩, shares, share, collectReceived_eq_ok.mp hshs, rfl,
    (DkgSecretScalar.aggregate_eq_ok.mp hsh).2⟩

omit [Ecies] in
/-- A receiver with all shares settles, unless the key or its share is zero. -/
theorem exists_settle {shares : List DkgSecretScalar}
    (hrecv : group.receivedSecrets = shares.map some)
    (hsum : (shares.map DkgSecretScalar.value).sum ≠ 0) {point : G1} (hpt : point ≠ 0)
    (hscaler : parameters.scaler ≠ 0) :
    ∃ settled, group.settle (contractCommitment point).bytes true = .ok settled := by
  have hne : shares ≠ [] := by
    rintro rfl
    exact hsum rfl
  have hsh : DkgSecretScalar.aggregate shares = .ok ⟨_, hsum⟩ :=
    DkgSecretScalar.aggregate_eq_ok.mpr ⟨hne, rfl⟩
  rw [settle, globalPublicKeyFromCommitment_eq_ok.mpr ⟨hscaler, hpt, rfl⟩,
    collectReceived_eq_ok.mpr hrecv, mapError_ok, ok_bind, if_pos rfl, ok_bind, hsh]
  exact ⟨_, rfl⟩

omit [Ecies] in
theorem localSecret_settle {com : Bytes} {isReceiver : Bool}
    (h : group.settle com isReceiver = .ok settled) :
    settled.localSecret = group.localSecret := by
  rcases bind_ok h with ⟨key, -, h⟩
  split at h
  · rcases bind_ok h with ⟨shares, -, h⟩
    rcases bind_ok h with ⟨share, -, h⟩
    cases h
    rfl
  · cases h
    rfl

/-- The group with the share of a sender. -/
def record (group : DkgKeyGroup parameters) (fromIndex : UInt64) (share : DkgSecretScalar) :
    DkgKeyGroup parameters where
  localSecret := group.localSecret
  pendingSecrets := group.pendingSecrets
  receivedSecrets := group.receivedSecrets.set (fromIndex.toNat - 1) (some share)
  globalPublicKey := group.globalPublicKey
  localPrivateKey := group.localPrivateKey
  length_received := by rw [List.length_set, group.length_received]

/-- The group with one share of several senders. -/
def recordAll (group : DkgKeyGroup parameters) (share : DkgSecretScalar) (senders : List UInt64) :
    DkgKeyGroup parameters :=
  senders.foldl (fun group sender => group.record sender share) group

variable {fromIndex : UInt64} {share : DkgSecretScalar}

omit [Ecies] [Curve] in
/-- A share that is stored, or that was there before, is in its place afterwards. -/
theorem storeReceived_spec {next : DkgKeyGroup parameters} {fresh : Bool}
    (h : group.storeReceived fromIndex share = .ok (fresh, next)) :
    (1 ≤ fromIndex.toNat ∧ fromIndex.toNat ≤ parameters.participants) ∧
      (∀ old, group.receivedSecrets[fromIndex.toNat - 1]? = some (some old) →
        old = share) ∧
      next = group.record fromIndex share := by
  rcases bind_ok h with ⟨_, hr, h⟩
  rw [require_eq_ok, group.length_received] at hr
  have hpos : fromIndex.toNat ≠ 0 := fun h0 => hr.1 (UInt64.toNat_inj.mp h0)
  refine ⟨⟨Nat.one_le_iff_ne_zero.mpr hpos, hr.2⟩, ?_⟩
  split at h
  · next old hexisting =>
      obtain ⟨hsame, h⟩ := require_bind h
      cases h
      rcases List.getElem?_eq_some_iff.mp hexisting with ⟨hlt, hsl⟩
      refine ⟨fun o ho => ?_, ?_⟩
      · rw [hexisting, Option.some.injEq, Option.some.injEq] at ho
        rw [← ho, hsame]
      · ext1
        · rfl
        · rfl
        · show group.receivedSecrets
            = group.receivedSecrets.set (fromIndex.toNat - 1) (some share)
          rw [← hsame, ← hsl, List.set_getElem_self]
        · rfl
        · rfl
  · next hempty =>
      cases h
      exact ⟨fun old hexisting => absurd hexisting (hempty old), rfl⟩

omit [Ecies] [Curve] in
/-- A share of a member is stored unless another one is in its place. -/
theorem storeReceived_of (hr : 1 ≤ fromIndex.toNat ∧ fromIndex.toNat ≤ parameters.participants)
    (hsl : ∀ old, group.receivedSecrets[fromIndex.toNat - 1]? = some (some old) →
      old = share) :
    ∃ fresh, group.storeReceived fromIndex share = .ok (fresh, group.record fromIndex share) := by
  have hstored : ∃ fresh next, group.storeReceived fromIndex share = .ok (fresh, next) := by
    have hi : fromIndex ≠ 0 ∧ fromIndex.toNat ≤ group.receivedSecrets.length := by
      refine ⟨?_, group.length_received ▸ hr.2⟩
      rintro rfl
      exact absurd hr.1 (by decide)
    rw [storeReceived, require_of _ hi, ok_bind]
    split
    · next old hexisting =>
        rw [require_of _ (hsl old hexisting), ok_bind]
        exact ⟨_, _, rfl⟩
    · exact ⟨_, _, rfl⟩
  rcases hstored with ⟨fresh, next, hstored⟩
  exact ⟨fresh, (storeReceived_spec hstored).2.2 ▸ hstored⟩

/-- The shares that a group holds satisfy a predicate of the sender's position. -/
def Recorded (accepted : Nat → DkgSecretScalar → Prop) (group : DkgKeyGroup parameters) : Prop :=
  ∀ position share, group.receivedSecrets[position]? = some (some share) → accepted position share

variable {accepted : Nat → DkgSecretScalar → Prop}

omit [Ecies] [Curve] in
theorem recorded_replicate {count : Nat}
    (h : group.receivedSecrets = List.replicate count none) : group.Recorded accepted := by
  intro pos share hsh
  simp [h, List.getElem?_replicate] at hsh

omit [Ecies] [Curve] in
theorem recorded_record (hg : group.Recorded accepted)
    (hsh : accepted (fromIndex.toNat - 1) share) :
    (group.record fromIndex share).Recorded accepted := by
  intro pos o ho
  rw [record, List.getElem?_set] at ho
  split at ho
  · next heq =>
      split at ho
      · rw [Option.some.injEq, Option.some.injEq] at ho
        rw [← heq, ← ho]
        exact hsh
      · cases ho
  · exact hg pos o ho

omit [Ecies] [Curve] in
theorem receivedSecrets_record_self
    (hr : 1 ≤ fromIndex.toNat ∧ fromIndex.toNat ≤ parameters.participants)
    (share : DkgSecretScalar) :
    (group.record fromIndex share).receivedSecrets[fromIndex.toNat - 1]? = some (some share) := by
  apply List.getElem?_set_self
  rw [group.length_received]
  omega

omit [Ecies] [Curve] in
theorem receivedSecrets_record_of_some
    (hsl : ∀ old, group.receivedSecrets[fromIndex.toNat - 1]? = some (some old) →
      old = share) {pos : Nat} {o : DkgSecretScalar}
    (ho : group.receivedSecrets[pos]? = some (some o)) :
    (group.record fromIndex share).receivedSecrets[pos]? = some (some o) := by
  rw [record, List.getElem?_set]
  split
  · next heq =>
      subst heq
      rw [if_pos (List.getElem?_eq_some_iff.mp ho).1, hsl o ho]
  · exact ho

omit [Ecies] in
/-- Confirmation changes the local secret only, to a pending one with the announced commitment. -/
theorem confirmSelf_spec {sharing confirmed : DkgKeyGroup parameters} {selfPvss : Bytes}
    {isMemberOfNewGroup : Bool}
    (h : DkgKeyStore.confirmSelf sharing selfPvss isMemberOfNewGroup = .ok confirmed) :
    confirmed.receivedSecrets = sharing.receivedSecrets ∧
      ∀ pvss secret, DkgPvss.decodeWithParameters selfPvss parameters = .ok pvss →
        sharing.localSecret = none → confirmed.localSecret = some secret →
        secret.commitment = pvss.commitment := by
  unfold DkgKeyStore.confirmSelf at h
  split at h
  · obtain ⟨pvss, hpvss, h⟩ := mapError_bind h
    split at h
    · next found hf =>
        cases h
        obtain ⟨secret, hsec, hf⟩ := ofOption_bind hf
        cases hf
        refine ⟨rfl, fun o chosen ho _ hchosen => ?_⟩
        cases hpvss.symm.trans ho
        cases hchosen
        have hf := List.find?_some hsec
        exact of_decide_eq_true hf
    · cases h
      exact ⟨rfl, fun _ _ _ hno hsome => absurd (hno.symm.trans hsome) (by simp)⟩
  · cases h
    exact ⟨rfl, fun _ _ _ hno hsome => absurd (hno.symm.trans hsome) (by simp)⟩

end DkgKeyGroup

end Store

end NeoX
