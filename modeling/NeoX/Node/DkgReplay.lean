import NeoX.AntiMev.KeyStoreRuns

/-!
# Replay of canonical DKG rounds

A validator follows the rounds of the DKG from the contributions and epochs that the chain has
stored. Every function checks what it reads before it changes the store.

Main results:

- `DkgReplay.receiveContributions_spec`: what a group holds after the contributions of
  a round.
- `DkgReplay.Gathered.sameSecrets`: groups that hold the shares of the same
  contributions settle alike.
-/

namespace NeoX

open List DkgKeyStore
open Except hiding ok error

/-! ## Canonical data -/

/-- A contribution of a sender to a round. -/
structure DkgStoredContribution where
  round : UInt64
  senderIndex : UInt64
  pvss : Bytes
  messages : List Bytes
  deriving DecidableEq

/-- A recovery message for a missing member. -/
structure DkgStoredRecovery where
  round : UInt64
  senderIndex : UInt64
  recipientIndex : UInt64
  message : Bytes
  deriving DecidableEq

/-- The contributions that are accepted for a round. -/
structure DkgCanonicalRound where
  round : UInt64
  shares : List DkgStoredContribution
  reshares : List DkgStoredContribution
  deriving DecidableEq

def DkgCanonicalRound.contributions (canonical : DkgCanonicalRound) :
    DkgKeyStore.ReceivingGroup → List DkgStoredContribution
  | .sharing => canonical.shares
  | .resharing => canonical.reshares

/-- The recovery messages for a missing member. -/
structure DkgCanonicalRecovery where
  round : UInt64
  recipientIndex : UInt64
  sourceShare : DkgStoredContribution
  messages : List DkgStoredRecovery
  deriving DecidableEq

/-- The commitments and the own announcement at the end of a round. -/
structure DkgCanonicalEpoch where
  round : UInt64
  selfPvss : Option Bytes
  aggregatedCommitment : Option (FixedBytes 128)
  previousCommitment : Option (FixedBytes 128)
  deriving DecidableEq

/-- What a replay changed. -/
structure DkgReplayOutcome where
  sharesReceived : Nat
  resharesReceived : Nat
  recoveriesReceived : Nat
  storeChanged : Bool
  deriving DecidableEq

def DkgReplayOutcome.default : DkgReplayOutcome := ⟨0, 0, 0, false⟩

inductive DkgReplayError where
  | keyStore (error : DkgStateError)
  | roundOverflow
  | roundMismatch (storeRound canonicalRound : UInt64)
  | epochRoundMismatch (contributionRound epochRound : UInt64)
  | unsettledCanonicalRound (round : UInt64)
  | recoveryBeforeSecondRound (round : UInt64)
  | invalidParticipantIndex (index : UInt64)
  | inactiveGroup (group : String)
  | contributionRoundMismatch (kind : String) (expected actual : UInt64)
  | duplicateSender (kind : String) (senderIndex : UInt64)
  | recoverySourceMismatch
  | recoveryMessageMismatch (senderIndex : UInt64)
  | selfPvssMembershipMismatch
  deriving DecidableEq

namespace DkgReplay

/-! ## Checks -/

def validateIndex (index : UInt64) (parameters : DkgParameters) : Except DkgReplayError Unit :=
  require (1 ≤ index.toNat ∧ index.toNat ≤ parameters.participants)
    (.invalidParticipantIndex index)

/-- Check contributions, after those of other senders. -/
def validateContributions (round : UInt64) (kind : String) (parameters : DkgParameters) :
    List UInt64 → List DkgStoredContribution → Except DkgReplayError Unit
  | _, [] => .ok ()
  | senders, contribution :: contributions => do
      validateIndex contribution.senderIndex parameters
      require (contribution.round = round)
        (.contributionRoundMismatch kind round contribution.round)
      require (contribution.senderIndex ∉ senders)
        (.duplicateSender kind contribution.senderIndex)
      validateContributions round kind parameters (contribution.senderIndex :: senders)
        contributions

def validateRoundContributions (canonical : DkgCanonicalRound) (parameters : DkgParameters) :
    Except DkgReplayError Unit := do
  validateContributions canonical.round "share" parameters [] canonical.shares
  validateContributions canonical.round "reshare" parameters [] canonical.reshares

/-- Check recovery messages, after those of other senders. -/
def validateRecoveryMessages (round recipientIndex : UInt64) (parameters : DkgParameters) :
    List UInt64 → List DkgStoredRecovery → Except DkgReplayError Unit
  | _, [] => .ok ()
  | senders, recovery :: recoveries => do
      validateIndex recovery.senderIndex parameters
      require (recovery.round = round ∧ recovery.recipientIndex = recipientIndex)
        (.recoveryMessageMismatch recovery.senderIndex)
      require (recovery.senderIndex ∉ senders)
        (.duplicateSender "recovery" recovery.senderIndex)
      validateRecoveryMessages round recipientIndex parameters (recovery.senderIndex :: senders)
        recoveries

/-- Check the recovery messages for a missing member and their source. -/
def validateRecovery (canonical : DkgCanonicalRecovery) (parameters : DkgParameters) :
    Except DkgReplayError Unit := do
  require (1 < canonical.round.toNat) (.recoveryBeforeSecondRound canonical.round)
  validateIndex canonical.recipientIndex parameters
  require (canonical.sourceShare.round = canonical.round - 1 ∧
    canonical.sourceShare.senderIndex = canonical.recipientIndex) .recoverySourceMismatch
  validateRecoveryMessages canonical.round canonical.recipientIndex parameters []
    canonical.messages

section Replay

variable [Ecies] {parameters : DkgParameters}

/-- Check that a round follows the last round of a store. -/
def validateStoreRound (store : DkgKeyStore parameters) (canonicalRound : UInt64) :
    Except DkgReplayError Unit := do
  require (store.round ≠ UInt64.ofNat (2 ^ 64 - 1)) .roundOverflow
  require (canonicalRound = store.round + 1) (.roundMismatch store.round canonicalRound)

variable [Curve]

/-! ## Replay -/

/-- Receive contributions for one of the groups, and count the new shares. -/
def receiveContributions (kind : DkgKeyStore.ReceivingGroup) (pendingIndex : UInt64) :
    List DkgStoredContribution → DkgKeyStore parameters →
      Except DkgReplayError (Nat × DkgKeyStore parameters)
  | [], store => .ok (0, store)
  | contribution :: contributions, store => do
      let (fresh, store) ← (store.receive kind pendingIndex contribution.senderIndex
        contribution.messages contribution.pvss).mapError .keyStore
      let (count, store) ← receiveContributions kind pendingIndex contributions store
      .ok (fresh.toNat + count, store)

/-- Apply the contributions of a round to the groups that are collected. -/
def applyDkgCanonicalRound (store : DkgKeyStore parameters) (pendingIndex : Option UInt64)
    (canonical : DkgCanonicalRound) :
    Except DkgReplayError (DkgReplayOutcome × DkgKeyStore parameters) := do
  validateStoreRound store canonical.round
  validateRoundContributions canonical parameters
  match pendingIndex with
  | none => .ok (.default, store)
  | some pendingIndex => do
      validateIndex pendingIndex parameters
      require (store.sharing.isSome = true) (.inactiveGroup "sharing")
      require (canonical.reshares = [] ∨ store.resharing.isSome = true)
        (.inactiveGroup "resharing")
      let (shares, store) ← receiveContributions .sharing pendingIndex canonical.shares store
      let (reshares, store) ← receiveContributions .resharing pendingIndex canonical.reshares store
      .ok (⟨shares, reshares, 0, 0 < shares ∨ 0 < reshares⟩, store)

variable [Cipher] [PredictableScalars]

/-- Begin the round again, with the secret of the validator pending when it is a member. -/
def restartRound (store : DkgKeyStore parameters) (chainId : U256) (pendingIndex : Option UInt64)
    (forceReshare : Bool) (entropy : Entropy) : Except DkgReplayError (DkgKeyStore parameters) :=
  if pendingIndex.isSome then
    (((store.onSharePeriodStart forceReshare).prepareShare chainId entropy).mapError
      .keyStore).map Prod.snd
  else
    .ok (store.onSharePeriodStart forceReshare)

/-- Begin the round again and apply its contributions. -/
def rebuildDkgCanonicalRoundInner (store : DkgKeyStore parameters) (chainId : U256)
    (pendingIndex : Option UInt64) (canonical : DkgCanonicalRound) (forceReshare : Bool)
    (entropy : Entropy) : Except DkgReplayError (DkgReplayOutcome × DkgKeyStore parameters) := do
  validateStoreRound store canonical.round
  (match pendingIndex with
    | some index => validateIndex index parameters
    | none => .ok ())
  let store ← restartRound store chainId pendingIndex forceReshare entropy
  let (outcome, store) ← applyDkgCanonicalRound store pendingIndex canonical
  .ok ({ outcome with storeChanged := true }, store)

def rebuildDkgCanonicalRound (store : DkgKeyStore parameters) (chainId : U256)
    (pendingIndex : Option UInt64) (canonical : DkgCanonicalRound) (entropy : Entropy) :
    Except DkgReplayError (DkgReplayOutcome × DkgKeyStore parameters) :=
  rebuildDkgCanonicalRoundInner store chainId pendingIndex canonical false entropy

/-- Receive recovery messages, and count the new shares. -/
def receiveRecoveries (pvss : Bytes) :
    List DkgStoredRecovery → DkgKeyStore parameters →
      Except DkgReplayError (Nat × DkgKeyStore parameters)
  | [], store => .ok (0, store)
  | recovery :: recoveries, store => do
      let (fresh, store) ← (store.receiveRecovery recovery.senderIndex recovery.message
        pvss).mapError .keyStore
      let (count, store) ← receiveRecoveries pvss recoveries store
      .ok (fresh.toNat + count, store)

def applyDkgCanonicalRecovery (store : DkgKeyStore parameters) (canonical : DkgCanonicalRecovery) :
    Except DkgReplayError (DkgReplayOutcome × DkgKeyStore parameters) := do
  validateStoreRound store canonical.round
  validateRecovery canonical parameters
  require (store.recovering.isSome = true) (.inactiveGroup "recovering")
  let (recoveries, store) ← receiveRecoveries canonical.sourceShare.pvss canonical.messages store
  .ok (⟨0, 0, recoveries, 0 < recoveries⟩, store)

/-- Settle or drop a round with the data of its epoch. -/
def applyDkgCanonicalEpoch (store : DkgKeyStore parameters) (isMemberOfNewGroup : Bool)
    (canonical : DkgCanonicalEpoch) :
    Except DkgReplayError (DkgEpochChange × DkgKeyStore parameters) := do
  validateStoreRound store canonical.round
  require (canonical.aggregatedCommitment.isSome = true →
    canonical.selfPvss.isSome = isMemberOfNewGroup) .selfPvssMembershipMismatch
  (store.onEpochChange (canonical.selfPvss.getD [])
    ((canonical.aggregatedCommitment.map FixedBytes.bytes).getD [])
    ((canonical.previousCommitment.map FixedBytes.bytes).getD []) isMemberOfNewGroup).mapError
    .keyStore

/-- Rebuild a settled round in a store of the same validator. -/
def rebuildDkgCanonicalStore (source : DkgKeyStore parameters) (chainId : U256)
    (pendingIndex : Option UInt64) (canonicalRound : DkgCanonicalRound)
    (canonicalEpoch : DkgCanonicalEpoch) (entropy : Entropy) :
    Except DkgReplayError (DkgKeyStore parameters) := do
  require (canonicalRound.round ≠ 0) (.roundMismatch 0 0)
  require (canonicalEpoch.round = canonicalRound.round)
    (.epochRoundMismatch canonicalRound.round canonicalEpoch.round)
  let baseline := source.detachedReplayBaseline (canonicalRound.round - 1)
  let (_, rebuilt) ← rebuildDkgCanonicalRoundInner baseline chainId pendingIndex canonicalRound
    (1 < canonicalRound.round.toNat) entropy
  let (change, rebuilt) ← applyDkgCanonicalEpoch rebuilt pendingIndex.isSome canonicalEpoch
  match change with
  -- The source has no value for another round, which `round_of_advanced` excludes.
  | .advanced _ => .ok rebuilt
  | .reverted => .error (.unsettledCanonicalRound canonicalRound.round)

/-! ## Histories -/

inductive Call where
  | rebuild (canonical : DkgCanonicalRound) (entropy : Entropy)
  | apply (canonical : DkgCanonicalRound)
  | recoverPeriodStart
  | recovery (canonical : DkgCanonicalRecovery)
  | prepareRecoveredReshare (entropy : Entropy)

def Call.snapshot? : Call → Option DkgCanonicalRound
  | .rebuild canonical _ => some canonical
  | .apply canonical => some canonical
  | _ => none

def Call.run (chainId : U256) (pendingIndex : Option UInt64) (store : DkgKeyStore parameters) :
    Call → Except DkgReplayError (DkgKeyStore parameters)
  | .rebuild canonical entropy =>
    (rebuildDkgCanonicalRound store chainId pendingIndex canonical entropy).map Prod.snd
  | .apply canonical => (applyDkgCanonicalRound store pendingIndex canonical).map Prod.snd
  | .recoverPeriodStart => .ok store.onRecoverPeriodStart
  | .recovery canonical => (applyDkgCanonicalRecovery store canonical).map Prod.snd
  | .prepareRecoveredReshare entropy =>
    ((store.prepareRecoveredReshare entropy).mapError .keyStore).map Prod.snd

/-- A round as a validator follows it: calls, and then the epoch. -/
structure LiveRound where
  pendingIndex : Option UInt64
  calls : List Call
  epoch : DkgCanonicalEpoch

/-- The store after calls for the unfinished round. -/
def runCalls (chainId : U256) (pendingIndex : Option UInt64) (calls : List Call)
    (store : DkgKeyStore parameters) : Except DkgReplayError (DkgKeyStore parameters) :=
  calls.foldlM (Call.run chainId pendingIndex) store

def LiveRound.follow (live : LiveRound) (chainId : U256) (store : DkgKeyStore parameters) :
    Except DkgReplayError (DkgEpochChange × DkgKeyStore parameters) := do
  let store ← runCalls chainId live.pendingIndex live.calls store
  applyDkgCanonicalEpoch store live.pendingIndex.isSome live.epoch

def followRounds (chainId : U256) :
    List LiveRound → DkgKeyStore parameters → Except DkgReplayError (DkgKeyStore parameters)
  | [], store => .ok store
  | live :: rounds, store => do
      let (_, store) ← live.follow chainId store
      followRounds chainId rounds store

/-! ## Groups with the same secrets -/

/-- Groups that differ only in what settling overwrites. -/
structure SameSecrets (group other : DkgKeyGroup parameters) : Prop where
  local_eq : group.localSecret = other.localSecret
  pending_eq : group.pendingSecrets = other.pendingSecrets
  received_eq : group.receivedSecrets = other.receivedSecrets

variable {group other : DkgKeyGroup parameters}

omit [Ecies] [Cipher] [PredictableScalars] in
theorem SameSecrets.settle_eq (h : SameSecrets group other) (com : Bytes) (isReceiver : Bool) :
    group.settle com isReceiver = other.settle com isReceiver := by
  rcases group with ⟨localSecret, pending, received, key, share, hlen⟩
  rcases other with ⟨_, _, _, otherKey, otherShare, _⟩
  rcases h with ⟨rfl, rfl, rfl⟩
  rfl

omit [Ecies] [Cipher] [PredictableScalars] in
theorem SameSecrets.confirmSelf_eq (h : SameSecrets group other) {selfPvss : Bytes}
    {isMemberOfNewGroup : Bool} {confirmed : DkgKeyGroup parameters}
    (hconf : DkgKeyStore.confirmSelf group selfPvss isMemberOfNewGroup = .ok confirmed) :
    ∃ next, DkgKeyStore.confirmSelf other selfPvss isMemberOfNewGroup = .ok next ∧
      SameSecrets confirmed next := by
  unfold confirmSelf at hconf ⊢
  split at hconf
  · next hmem =>
      rw [if_pos hmem]
      rcases bind_ok hconf with ⟨pvss, hpvss, hconf⟩
      rw [hpvss, ok_bind]
      unfold DkgKeyGroup.confirmLocalSecret at hconf ⊢
      rw [← h.pending_eq]
      cases hf : group.pendingSecrets.find? fun secret => secret.commitment = pvss.commitment with
      | none =>
        rw [hf] at hconf
        cases hconf
        exact ⟨other, rfl, h⟩
      | some secret =>
        rw [hf] at hconf
        cases hconf
        exact ⟨_, rfl, rfl, rfl, h.received_eq⟩
  · next hmem =>
      cases hconf
      rw [if_neg hmem]
      exact ⟨other, rfl, h⟩

omit [Ecies] [Cipher] [PredictableScalars] in
theorem settleResharing_eq {group other : Option (DkgKeyGroup parameters)}
    (h : Option.Rel SameSecrets group other) (com : Bytes) (isMemberOfNewGroup : Bool) :
    DkgKeyStore.settleResharing group com isMemberOfNewGroup
      = DkgKeyStore.settleResharing other com isMemberOfNewGroup := by
  cases h with
  | none => rfl
  | some hsame => simp only [settleResharing, hsame.settle_eq]

variable {store : DkgKeyStore parameters}

omit [Cipher] [PredictableScalars] in
/-- Stores of one validator whose unfinished groups have the same secrets settle to one store. -/
theorem onEpochChange_eq {other settled : DkgKeyStore parameters} (hrd : store.round = other.round)
    (haddr : store.validatorAddress = other.validatorAddress)
    (hkey : store.messagePrivateKey = other.messagePrivateKey)
    (hshar : Option.Rel SameSecrets store.sharing other.sharing)
    (hresha : Option.Rel SameSecrets store.resharing other.resharing)
    {selfPvss aggregatedCommitment previousCommitment : Bytes} {isMemberOfNewGroup : Bool}
    {round : UInt64}
    (h : store.onEpochChange selfPvss aggregatedCommitment previousCommitment isMemberOfNewGroup
      = .ok (.advanced round, settled)) :
    other.onEpochChange selfPvss aggregatedCommitment previousCommitment isMemberOfNewGroup
      = .ok (.advanced round, settled) := by
  rcases onEpochChange_advanced.mp h with ⟨hchecks, sharing, confirmed, shared, reshared,
    hg, hconf, hshared, hresh, rfl⟩
  rw [hg] at hshar
  cases ho : other.sharing with
  | none =>
    rw [ho] at hshar
    cases hshar
  | some otherSharing =>
    rw [ho] at hshar
    cases hshar with
    | some hsame =>
      rcases hsame.confirmSelf_eq hconf with ⟨next, hn, hsameN⟩
      rw [settleResharing_eq hresha] at hresh
      refine onEpochChange_advanced.mpr ⟨hrd ▸ hchecks, otherSharing, next,
        shared, reshared, ho, hn, hsameN.settle_eq _ _ ▸ hshared, hresh, ?_⟩
      rw [hrd, haddr, hkey]

/-! ## Contributions that are collected -/

/-- What the message key of a validator decrypts a contribution to. -/
def Decrypts (key : DkgMessagePrivateKey) (parameters : DkgParameters) (index : UInt64)
    (contribution : DkgStoredContribution) (share : DkgSecretScalar) : Prop :=
  (DkgKeyStore.newWithParameters key parameters).decryptReceivedShare index contribution.messages
    contribution.pvss = .ok share

variable {share : DkgSecretScalar}

omit [Cipher] [PredictableScalars] in
theorem decrypts_iff {i : UInt64} {c : DkgStoredContribution} :
    store.decryptReceivedShare i c.messages c.pvss = .ok share ↔
      Decrypts store.messagePrivateKey parameters i c share := Iff.rfl

/-- A group that collects contributions keeps its shares and its secrets, and it has the share of
every contribution afterwards. -/
structure Collects (decrypts : DkgStoredContribution → DkgSecretScalar → Prop)
    (contributions : List DkgStoredContribution) (group collected : DkgKeyGroup parameters) :
    Prop where
  local_eq : collected.localSecret = group.localSecret
  pending_eq : collected.pendingSecrets = group.pendingSecrets
  kept : ∀ (position : Nat) (share : DkgSecretScalar),
    group.receivedSecrets[position]? = some (some share) →
      collected.receivedSecrets[position]? = some (some share)
  received : ∀ (position : Nat) (share : DkgSecretScalar),
    collected.receivedSecrets[position]? = some (some share) →
    group.receivedSecrets[position]? = some (some share) ∨
      ∃ contribution ∈ contributions, contribution.senderIndex.toNat = position + 1 ∧
        decrypts contribution share
  covered : ∀ contribution ∈ contributions, ∃ share, decrypts contribution share ∧
    collected.receivedSecrets[contribution.senderIndex.toNat - 1]? = some (some share)

omit [Ecies] [Curve] [Cipher] [PredictableScalars] in
theorem Collects.refl (decrypts : DkgStoredContribution → DkgSecretScalar → Prop)
    (group : DkgKeyGroup parameters) : Collects decrypts [] group group where
  local_eq := rfl
  pending_eq := rfl
  kept _ _ h := h
  received _ _ h := .inl h
  covered _ h := nomatch h

variable {contributions : List DkgStoredContribution}

omit [Ecies] [Curve] [Cipher] [PredictableScalars] in
/-- Recording one contribution and then collecting others collects all of them. -/
theorem Collects.cons {decrypts : DkgStoredContribution → DkgSecretScalar → Prop}
    {c : DkgStoredContribution} {collected : DkgKeyGroup parameters} (hsh : decrypts c share)
    (hr : 1 ≤ c.senderIndex.toNat ∧
      c.senderIndex.toNat ≤ parameters.participants) (hsl : ∀ old,
      group.receivedSecrets[c.senderIndex.toNat - 1]? = some (some old) →
        old = share)
    (h : Collects decrypts contributions (group.record c.senderIndex share) collected) :
    Collects decrypts (c :: contributions) group collected where
  local_eq := h.local_eq
  pending_eq := h.pending_eq
  kept pos other ho :=
    h.kept pos other (DkgKeyGroup.receivedSecrets_record_of_some hsl ho)
  received pos other ho := by
    rcases h.received pos other ho with hrec | ⟨found, hf, hpos, hdecr⟩
    · rw [DkgKeyGroup.record, getElem?_set] at hrec
      split at hrec
      · next heq =>
          right
          split at hrec
          · rw [Option.some.injEq, Option.some.injEq] at hrec
            exact ⟨c, mem_cons_self, by omega, hrec ▸ hsh⟩
          · cases hrec
      · exact .inl hrec
    · exact .inr ⟨found, mem_cons_of_mem _ hf, hpos, hdecr⟩
  covered := by
    rw [forall_mem_cons]
    exact ⟨⟨share, hsh, h.kept _ _ (DkgKeyGroup.receivedSecrets_record_self hr share)⟩,
      h.covered⟩

variable {kind : DkgKeyStore.ReceivingGroup}

omit [Cipher] [PredictableScalars] in
/-- Contributions that are received are collected in their group. -/
theorem receiveContributions_spec {pendingIndex : UInt64} {next : DkgKeyStore parameters}
    (hg : store.unfinished kind = some group) {count : Nat}
    (h : receiveContributions kind pendingIndex contributions store = .ok (count, next)) :
    ∃ collected, next = store.withUnfinished kind collected ∧
      Collects (Decrypts store.messagePrivateKey parameters pendingIndex) contributions group
        collected := by
  induction contributions generalizing store group count with
  | nil =>
    cases h
    exact ⟨group, (withUnfinished_of_eq hg).symm, Collects.refl _ _⟩
  | cons contribution contributions ih =>
    obtain ⟨⟨fresh, mid⟩, hrecv, h⟩ := mapError_bind h
    rcases bind_ok h with ⟨⟨rest, last⟩, hr, h⟩
    cases h
    rcases receive_spec kind hrecv with
      ⟨found, share, hf, hsh, hrange, hsl, rfl⟩
    cases hg.symm.trans hf
    rcases ih (unfinished_withUnfinished _ _ _) hr with
      ⟨collected, rfl, hcoll⟩
    rw [messagePrivateKey_withUnfinished] at hcoll
    exact ⟨collected, withUnfinished_withUnfinished _ _ _ _,
      hcoll.cons hsh hrange hsl⟩

variable {key : DkgMessagePrivateKey}

omit [Cipher] [PredictableScalars] in
/-- Contributions are received if each of them decrypts to the share that belongs in its place. -/
theorem exists_receiveContributions {pendingIndex : UInt64}
    {accepted : Nat → DkgSecretScalar → Prop}
    (hunique : ∀ pos a b, accepted pos a → accepted pos b →
      a = b) (hcont : ∀ c ∈ contributions,
      (1 ≤ c.senderIndex.toNat ∧
        c.senderIndex.toNat ≤ parameters.participants) ∧
      ∃ share, Decrypts key parameters pendingIndex c share ∧
        accepted (c.senderIndex.toNat - 1) share) (hkey : store.messagePrivateKey = key)
    (hg : store.unfinished kind = some group) (hrec : group.Recorded accepted) :
    ∃ count next, receiveContributions kind pendingIndex contributions store
      = .ok (count, next) := by
  induction contributions generalizing store group with
  | nil => exact ⟨0, store, rfl⟩
  | cons c contributions ih =>
    rcases forall_mem_cons.mp hcont with ⟨⟨hrange, share, hsh, hacc⟩, hr⟩
    subst hkey
    rcases receive_of hg (decrypts_iff.mpr hsh) hrange
      (fun old hexisting => hunique _ _ _ (hrec _ _ hexisting) hacc)
      with ⟨fresh, hrecv⟩
    rcases ih hr (messagePrivateKey_withUnfinished _ _ _)
      (unfinished_withUnfinished _ _ _)
      (DkgKeyGroup.recorded_record hrec hacc) with ⟨count, next, hn⟩
    rw [receiveContributions, hrecv, mapError_ok, ok_bind]
    exact ⟨_, _, bind_eq_ok.mpr ⟨_, hn, rfl⟩⟩

omit [Ecies] [Curve] [Cipher] [PredictableScalars] in
/-- Contributions that pass the checks are of different members. -/
theorem validateContributions_spec {round : UInt64} {kind : String} {senders : List UInt64}
    (h : validateContributions round kind parameters senders contributions = .ok ()) :
    (∀ c ∈ contributions,
      (1 ≤ c.senderIndex.toNat ∧
        c.senderIndex.toNat ≤ parameters.participants) ∧
      c.senderIndex ∉ senders) ∧
    (contributions.map DkgStoredContribution.senderIndex).Nodup := by
  induction contributions generalizing senders with
  | nil => simp
  | cons c contributions ih =>
    rcases bind_ok h with ⟨_, hi, h⟩
    obtain ⟨_, h⟩ := of_bind h
    obtain ⟨hfresh, h⟩ := require_bind h
    rw [validateIndex, require_eq_ok] at hi
    rcases ih h with ⟨hr, hnd⟩
    refine ⟨?_, ?_⟩
    · rw [forall_mem_cons]
      exact ⟨⟨hi, hfresh⟩, fun other ho => ⟨(hr other ho).1,
        fun hmem => (hr other ho).2 (mem_cons_of_mem _ hmem)⟩⟩
    · rw [map_cons, nodup_cons]
      refine ⟨fun hmem => ?_, hnd⟩
      rcases mem_map.mp hmem with ⟨other, ho, heq⟩
      exact (hr other ho).2 (heq ▸ mem_cons_self)

omit [Ecies] [Curve] [Cipher] [PredictableScalars] in
/-- The contributions of a checked round are of different members, for each group. -/
theorem contributions_of_valid {canonical : DkgCanonicalRound}
    (h : validateRoundContributions canonical parameters = .ok ())
    (kind : DkgKeyStore.ReceivingGroup) :
    (∀ c ∈ canonical.contributions kind,
      1 ≤ c.senderIndex.toNat ∧
        c.senderIndex.toNat ≤ parameters.participants) ∧
    ((canonical.contributions kind).map DkgStoredContribution.senderIndex).Nodup := by
  rcases bind_ok h with ⟨_, hshs, hresh⟩
  cases kind with
  | sharing =>
    rcases validateContributions_spec hshs with ⟨hr, hnd⟩
    exact ⟨fun c hmem => (hr c hmem).1, hnd⟩
  | resharing =>
    rcases validateContributions_spec hresh with ⟨hr, hnd⟩
    exact ⟨fun c hmem => (hr c hmem).1, hnd⟩

/-! ## The groups of an unfinished round -/

/-- A share that a contribution has for a member, by the position of the sender. -/
def Delivered (key : DkgMessagePrivateKey) (parameters : DkgParameters)
    (pendingIndex : Option UInt64) (contributions : List DkgStoredContribution) (position : Nat)
    (share : DkgSecretScalar) : Prop :=
  ∃ index, pendingIndex = some index ∧ ∃ contribution ∈ contributions,
    contribution.senderIndex.toNat = position + 1 ∧
      Decrypts key parameters index contribution share

/-- The pending secrets of a group: a member has its polynomial of the round in the group of the
next key. -/
def Prepared (key : DkgMessagePrivateKey) (parameters : DkgParameters) (round : UInt64)
    (chainId : U256) (pendingIndex : Option UInt64) (kind : DkgKeyStore.ReceivingGroup)
    (pending : List (DkgPolynomial parameters)) : Prop :=
  match kind, pendingIndex with
  | .sharing, some _ => ∃ polynomial entropy material,
      DkgPolynomial.deterministicWithParameters key.bytes chainId (round + 1) parameters
        = .ok polynomial ∧
      polynomial.generatePvss entropy = .ok material ∧ pending = [polynomial]
  | _, _ => pending = []

/-- A group of an unfinished round, with shares of some contributions. -/
structure Gathered (key : DkgMessagePrivateKey) (round : UInt64) (chainId : U256)
    (pendingIndex : Option UInt64) (contributions : List DkgStoredContribution)
    (kind : DkgKeyStore.ReceivingGroup) (group : DkgKeyGroup parameters) : Prop where
  unconfirmed : group.localSecret = none
  prepared : Prepared key parameters round chainId pendingIndex kind group.pendingSecrets
  recorded : group.Recorded (Delivered key parameters pendingIndex contributions)

/-- The group of a member has the shares of all contributions. -/
def Covers (key : DkgMessagePrivateKey) (pendingIndex : Option UInt64)
    (contributions : List DkgStoredContribution) (group : DkgKeyGroup parameters) : Prop :=
  ∀ index, pendingIndex = some index → ∀ contribution ∈ contributions,
    ∃ share, Decrypts key parameters index contribution share ∧
      group.receivedSecrets[contribution.senderIndex.toNat - 1]? = some (some share)

variable {pendingIndex : Option UInt64}

omit [Cipher] [PredictableScalars] in
theorem delivered_unique (hnd : (contributions.map DkgStoredContribution.senderIndex).Nodup)
    {pos : Nat} {a b : DkgSecretScalar}
    (h1 : Delivered key parameters pendingIndex contributions pos a)
    (h2 : Delivered key parameters pendingIndex contributions pos b) :
    a = b := by
  rcases h1 with ⟨i, rfl, left, hleft, hleftP, hleftS⟩
  rcases h2 with ⟨_, hi, right, hright, hrigh, hrightS⟩
  cases hi
  have hsd : left.senderIndex = right.senderIndex :=
    UInt64.toNat_inj.mp (hleftP.trans hrigh.symm)
  cases inj_on_of_nodup_map hnd hleft hright hsd
  exact Except.ok.inj (hleftS.symm.trans hrightS)

omit [Cipher] [PredictableScalars] in
theorem received_of_covers (hnd : (contributions.map DkgStoredContribution.senderIndex).Nodup)
    (hrec : group.Recorded (Delivered key parameters pendingIndex contributions))
    (hothe : other.Recorded (Delivered key parameters pendingIndex contributions))
    (hcovers : Covers key pendingIndex contributions other) {pos : Nat}
    (hsh : group.receivedSecrets[pos]? = some (some share)) :
    other.receivedSecrets[pos]? = some (some share) := by
  have hdeli := hrec pos share hsh
  rcases hdeli with ⟨i, hi, c, hmem, hpos, -⟩
  rcases hcovers i hi c hmem with ⟨found, -, hf⟩
  rw [hpos, Nat.add_sub_cancel] at hf
  rw [hf, delivered_unique hnd (hothe pos found hf) (hrec pos share hsh)]

/-- Groups of a round that cover all contributions have the same secrets. -/
theorem Gathered.sameSecrets {round : UInt64} {chainId : U256}
    (hnd : (contributions.map DkgStoredContribution.senderIndex).Nodup)
    (h : Gathered key round chainId pendingIndex contributions kind group)
    (ho : Gathered key round chainId pendingIndex contributions kind other)
    (hcovers : Covers key pendingIndex contributions group)
    (hothe : Covers key pendingIndex contributions other) : SameSecrets group other where
  local_eq := h.unconfirmed.trans ho.unconfirmed.symm
  pending_eq := by
    have hprep := h.prepared
    have hother := ho.prepared
    unfold Prepared at hprep hother
    split at hprep
    · rcases hprep with ⟨a, _, _, h1, -, hg⟩
      rcases hother with ⟨b, _, _, h2, -, hsame⟩
      cases h1.symm.trans h2
      rw [hg, hsame]
    · next hno =>
        split at hother
        · exact (hno _ rfl rfl).elim
        · rw [hprep, hother]
  received_eq := by
    apply ext_getElem?
    intro pos
    by_cases hlt : pos < parameters.participants
    · have hleft : pos < group.receivedSecrets.length := group.length_received ▸ hlt
      have hright : pos < other.receivedSecrets.length := other.length_received ▸ hlt
      cases hsh : group.receivedSecrets[pos]? with
      | none =>
        rw [getElem?_eq_getElem hleft] at hsh
        cases hsh
      | some slot =>
        cases slot with
        | some share =>
          exact (received_of_covers hnd h.recorded ho.recorded hothe hsh).symm
        | none =>
          cases hsl : other.receivedSecrets[pos]? with
          | none =>
            rw [getElem?_eq_getElem hright] at hsl
            cases hsl
          | some slot =>
            cases slot with
            | none => rfl
            | some share =>
              have hf := received_of_covers hnd ho.recorded h.recorded hcovers
                hsl
              rw [hsh] at hf
              cases hf
    · rw [getElem?_eq_none (by rw [group.length_received]; omega),
        getElem?_eq_none (by rw [other.length_received]; omega)]

end Replay

end DkgReplay

end NeoX
