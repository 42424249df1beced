import NeoX.AntiMev.KeyStore
import NeoX.Library.Machine

/-!
# Runs of the DKG key store

What the operations of a store do to its key groups, and what holds after every sequence of them.

Main results:

- `DkgKeyStore.onEpochChange_advanced`: what an epoch that settles does to a store.
- `DkgKeyStore.recorded_run`: over every run, the shares of a group are those that
  were accepted from the announcements.
-/

namespace NeoX

open Except hiding ok error

variable {round : UInt64}

theorem toNat_succ (h : round ≠ UInt64.ofNat (2 ^ 64 - 1)) :
    (round + 1).toNat = round.toNat + 1 := by
  have hlt := round.toNat_lt
  have hne : round.toNat ≠ 2 ^ 64 - 1 := fun heq => h (UInt64.toNat_inj.mp heq)
  rw [UInt64.toNat_add, UInt64.toNat_one]
  omega

section Store

variable [Ecies] {parameters : DkgParameters}

namespace DkgKeyStore

variable [Curve]

/-! ## Received shares -/

/-- The groups of an unfinished round that receive shares. -/
inductive ReceivingGroup where
  | sharing
  | resharing
  deriving DecidableEq

def unfinished (store : DkgKeyStore parameters) :
    ReceivingGroup → Option (DkgKeyGroup parameters)
  | .sharing => store.sharing
  | .resharing => store.resharing

/-- The store with another group of the unfinished round. -/
def withUnfinished (store : DkgKeyStore parameters) (kind : ReceivingGroup)
    (group : DkgKeyGroup parameters) : DkgKeyStore parameters :=
  match kind with
  | .sharing => { store with sharing := some group }
  | .resharing => { store with resharing := some group }

/-- Record the share of a sender in one of the groups. -/
def receive (store : DkgKeyStore parameters) (kind : ReceivingGroup) (selfIndex fromIndex : UInt64)
    (messages : List Bytes) (pvss : Bytes) :
    Except DkgStateError (Bool × DkgKeyStore parameters) :=
  match kind with
  | .sharing => store.receiveShare selfIndex fromIndex messages pvss
  | .resharing => store.receiveReshare selfIndex fromIndex messages pvss

omit [Curve] in
@[simp] theorem unfinished_withUnfinished (store : DkgKeyStore parameters) (kind : ReceivingGroup)
    (group : DkgKeyGroup parameters) :
    (store.withUnfinished kind group).unfinished kind = some group := by
  cases kind <;> rfl

variable {kind : ReceivingGroup}

omit [Curve] in
theorem unfinished_withUnfinished_of_ne (store : DkgKeyStore parameters) {other : ReceivingGroup}
    (h : other ≠ kind) (group : DkgKeyGroup parameters) :
    (store.withUnfinished kind group).unfinished other = store.unfinished other := by
  cases kind with
  | sharing =>
    cases other with
    | sharing => exact absurd rfl h
    | resharing => rfl
  | resharing =>
    cases other with
    | sharing => rfl
    | resharing => exact absurd rfl h

variable {store : DkgKeyStore parameters} {group : DkgKeyGroup parameters}

omit [Curve] in
theorem withUnfinished_of_eq (h : store.unfinished kind = some group) :
    store.withUnfinished kind group = store := by
  cases kind with
  | sharing => rw [withUnfinished, ← show store.sharing = some group from h]
  | resharing => rw [withUnfinished, ← show store.resharing = some group from h]

omit [Curve] in
@[simp] theorem withUnfinished_withUnfinished (store : DkgKeyStore parameters)
    (kind : ReceivingGroup) (group next : DkgKeyGroup parameters) :
    (store.withUnfinished kind group).withUnfinished kind next
      = store.withUnfinished kind next := by
  cases kind <;> rfl

omit [Curve] in
@[simp] theorem messagePrivateKey_withUnfinished (store : DkgKeyStore parameters)
    (kind : ReceivingGroup) (group : DkgKeyGroup parameters) :
    (store.withUnfinished kind group).messagePrivateKey = store.messagePrivateKey := by
  cases kind <;> rfl

theorem decryptReceivedShare_withUnfinished (store : DkgKeyStore parameters) (kind : ReceivingGroup)
    (group : DkgKeyGroup parameters) (selfIndex : UInt64) (msgs : List Bytes) (pvss : Bytes) :
    (store.withUnfinished kind group).decryptReceivedShare selfIndex msgs pvss
      = store.decryptReceivedShare selfIndex msgs pvss := by
  cases kind <;> rfl

variable {next : DkgKeyStore parameters}

/-- A received share is decrypted and recorded in its group. -/
theorem receive_spec (kind : ReceivingGroup) {selfIndex fromIndex : UInt64} {msgs : List Bytes}
    {pvss : Bytes} {fresh : Bool}
    (h : store.receive kind selfIndex fromIndex msgs pvss = .ok (fresh, next)) :
    ∃ group share, store.unfinished kind = some group ∧
      store.decryptReceivedShare selfIndex msgs pvss = .ok share ∧
      (1 ≤ fromIndex.toNat ∧ fromIndex.toNat ≤ parameters.participants) ∧
      (∀ old, group.receivedSecrets[fromIndex.toNat - 1]? = some (some old) →
        old = share) ∧
      next = store.withUnfinished kind (group.record fromIndex share) := by
  cases kind with
  | sharing =>
    rcases bind_ok h with ⟨group, hg, h⟩
    rcases bind_ok h with ⟨share, hsh, h⟩
    rcases bind_ok h with ⟨⟨flag, recorded⟩, hrec, h⟩
    cases h
    rcases DkgKeyGroup.storeReceived_spec hrec with ⟨hr, hsl, rfl⟩
    exact ⟨group, share, ofOption_eq_ok.mp hg, hsh, hr, hsl, rfl⟩
  | resharing =>
    obtain ⟨group, hg, h⟩ := ofOption_bind h
    rcases bind_ok h with ⟨share, hsh, h⟩
    rcases bind_ok h with ⟨⟨flag, recorded⟩, hrec, h⟩
    cases h
    rcases DkgKeyGroup.storeReceived_spec hrec with ⟨hr, hsl, rfl⟩
    exact ⟨group, share, hg, hsh, hr, hsl, rfl⟩

/-- A decrypted share of a member is recorded unless another one is in its place. -/
theorem receive_of (hg : store.unfinished kind = some group) {selfIndex fromIndex : UInt64}
    {msgs : List Bytes} {pvss : Bytes} {share : DkgSecretScalar}
    (hsh : store.decryptReceivedShare selfIndex msgs pvss = .ok share)
    (hr : 1 ≤ fromIndex.toNat ∧ fromIndex.toNat ≤ parameters.participants)
    (hsl : ∀ old, group.receivedSecrets[fromIndex.toNat - 1]? = some (some old) →
      old = share) :
    ∃ fresh, store.receive kind selfIndex fromIndex msgs pvss
      = .ok (fresh, store.withUnfinished kind (group.record fromIndex share)) := by
  rcases DkgKeyGroup.storeReceived_of hr hsl with ⟨fresh, hstored⟩
  refine ⟨fresh, ?_⟩
  cases kind with
  | sharing =>
    exact bind_eq_ok.mpr ⟨group, ofOption_eq_ok.mpr hg,
      bind_eq_ok.mpr ⟨share, hsh, bind_eq_ok.mpr ⟨_, hstored, rfl⟩⟩⟩
  | resharing =>
    exact bind_eq_ok.mpr ⟨group, ofOption_eq_ok.mpr hg,
      bind_eq_ok.mpr ⟨share, hsh, bind_eq_ok.mpr ⟨_, hstored, rfl⟩⟩⟩

/-- A recovery share is decrypted, checked against an announcement and recorded. -/
theorem receiveRecovery_eq_ok {fromIndex : UInt64} {msg enc : Bytes} {fresh : Bool}
    (h : store.receiveRecovery fromIndex msg enc = .ok (fresh, next)) :
    ∃ group share pvss, store.recovering = some group ∧
      DkgPvss.decodeWithParameters enc parameters = .ok pvss ∧
      decryptDkgShareMessage store.messagePrivateKey.bytes msg = .ok share ∧
      pvss.verifyShare fromIndex share = .ok () ∧
      (1 ≤ fromIndex.toNat ∧ fromIndex.toNat ≤ parameters.participants) ∧
      (∀ old, group.receivedSecrets[fromIndex.toNat - 1]? = some (some old) →
        old = share) ∧
      next = { store with recovering := some (group.record fromIndex share) } := by
  obtain ⟨group, hg, h⟩ := ofOption_bind h
  obtain ⟨_, h⟩ := of_bind h
  obtain ⟨pvss, hpvss, h⟩ := mapError_bind h
  obtain ⟨share, hsh, h⟩ := mapError_bind h
  obtain ⟨_, hver, h⟩ := mapError_bind h
  rcases bind_ok h with ⟨⟨flag, recorded⟩, hrec, h⟩
  cases h
  rcases DkgKeyGroup.storeReceived_spec hrec with ⟨hr, hsl, rfl⟩
  exact ⟨group, share, pvss, hg, hpvss, hsh, hver, hr, hsl, rfl⟩

theorem prepareRecoveredReshare_eq_ok {entropy : Entropy} {material : DkgPvssMaterial}
    (h : store.prepareRecoveredReshare entropy = .ok (material, next)) :
    ∃ group poly, store.recovering = some group ∧
      next = { store with recovering := some { group with localSecret := some poly } } := by
  obtain ⟨group, hg, h⟩ := ofOption_bind h
  obtain ⟨_, h⟩ := of_bind h
  rcases bind_ok h with ⟨poly, -, h⟩
  obtain ⟨_, h⟩ := of_bind h
  cases h
  exact ⟨group, poly, hg, rfl⟩

/-! ## Epochs -/

variable {selfPvss aggregatedCommitment previousCommitment : Bytes} {isMemberOfNewGroup : Bool}

theorem onEpochChange_reverted
    (h : store.onEpochChange selfPvss aggregatedCommitment previousCommitment isMemberOfNewGroup
      = .ok (.reverted, next)) : next = store.revertRound := by
  unfold onEpochChange at h
  split at h
  · cases h
    rfl
  · obtain ⟨_, h⟩ := of_bind h
    iterate 5 obtain ⟨_, h⟩ := of_bind h
    cases h

/-- An epoch that settles confirms and settles the group of the next key, and settles the group of
the key before when there is one. -/
theorem onEpochChange_advanced {settled : DkgKeyStore parameters} :
    store.onEpochChange selfPvss aggregatedCommitment previousCommitment isMemberOfNewGroup
      = .ok (.advanced round, settled) ↔
    (aggregatedCommitment.isEmpty = false ∧ selfPvss.isEmpty ≠ isMemberOfNewGroup ∧
      store.round ≠ UInt64.ofNat (2 ^ 64 - 1) ∧ round = store.round + 1) ∧
    ∃ sharing confirmed shared reshared,
      store.sharing = some sharing ∧
      confirmSelf sharing selfPvss isMemberOfNewGroup = .ok confirmed ∧
      confirmed.settle aggregatedCommitment isMemberOfNewGroup = .ok shared ∧
      settleResharing store.resharing previousCommitment isMemberOfNewGroup = .ok reshared ∧
      settled = { store with
        round := store.round + 1
        recovering := none
        resharing := none
        reshared := reshared
        sharing := none
        shared := some shared } := by
  constructor
  · intro h
    unfold onEpochChange at h
    split at h
    · cases h
    · next hcom =>
        obtain ⟨hself, h⟩ := require_bind h
        obtain ⟨sharing, hshar, h⟩ := ofOption_bind h
        rcases bind_ok h with ⟨confirmed, hconf, h⟩
        rcases bind_ok h with ⟨shared, hshared, h⟩
        rcases bind_ok h with ⟨reshared, hresh, h⟩
        obtain ⟨hrd, h⟩ := require_bind h
        cases h
        exact ⟨⟨Bool.eq_false_iff.mpr hcom, hself, hrd, rfl⟩,
          sharing, confirmed, shared, reshared, hshar, hconf, hshared, hresh, rfl⟩
  · rintro ⟨⟨hcom, hself, hrd, rfl⟩, sharing, confirmed, shared, reshared, hshar,
      hconf, hshared, hresh, rfl⟩
    rw [onEpochChange, if_neg (Bool.eq_false_iff.mp hcom), require_of _ hself,
      ok_bind, hshar, hresh]
    exact bind_eq_ok.mpr ⟨sharing, rfl, bind_eq_ok.mpr ⟨confirmed, hconf,
      bind_eq_ok.mpr ⟨shared, hshared, bind_eq_ok.mpr ⟨reshared, rfl,
      bind_eq_ok.mpr ⟨(), require_of _ hrd, rfl⟩⟩⟩⟩⟩

theorem groups_onEpochChange {change : DkgEpochChange}
    (h : store.onEpochChange selfPvss aggregatedCommitment previousCommitment isMemberOfNewGroup
      = .ok (change, next)) : next.sharing = none ∧ next.resharing = none := by
  cases change with
  | reverted =>
    rw [onEpochChange_reverted h]
    exact ⟨rfl, rfl⟩
  | advanced round =>
    rcases onEpochChange_advanced.mp h with ⟨-, _, _, _, _, -, -, -, -, rfl⟩
    exact ⟨rfl, rfl⟩

omit [Ecies] in
theorem exists_confirmSelf (sharing : DkgKeyGroup parameters) {pvss : DkgPvss parameters}
    (h : DkgPvss.decodeWithParameters selfPvss parameters = .ok pvss) :
    ∃ confirmed, confirmSelf sharing selfPvss true = .ok confirmed := by
  rw [confirmSelf, if_pos rfl, h, mapError_ok, ok_bind]
  split
  · exact ⟨_, rfl⟩
  · exact ⟨_, rfl⟩

/-! ## Operations -/

variable [Cipher] [PredictableScalars]

/-- A prepared polynomial is pending in the group of the next key. -/
theorem prepareShare_spec {chainId : U256} {entropy : Entropy} {material : DkgPvssMaterial}
    (h : store.prepareShare chainId entropy = .ok (material, next)) :
    ∃ group poly, store.sharing = some group ∧
      store.round ≠ UInt64.ofNat (2 ^ 64 - 1) ∧
      DkgPolynomial.deterministicWithParameters store.messagePrivateKey.bytes chainId
        (store.round + 1) parameters = .ok poly ∧
      poly.generatePvss entropy = .ok material ∧
      next = { store with sharing := some { group with
        pendingSecrets := if poly ∈ group.pendingSecrets then group.pendingSecrets
          else group.pendingSecrets ++ [poly] } } := by
  obtain ⟨hrd, h⟩ := require_bind h
  obtain ⟨poly, hpoly, h⟩ := mapError_bind h
  obtain ⟨_, hmat, h⟩ := mapError_bind h
  obtain ⟨group, hg, h⟩ := ofOption_bind h
  cases h
  exact ⟨group, poly, hg, hrd, hpoly, hmat, rfl⟩

inductive Operation where
  | bindValidatorAddress (address : Address)
  | sharePeriodStart (forceReshare : Bool)
  | recoverPeriodStart
  | revertRound
  | prepareShare (chainId : U256) (entropy : Entropy)
  | prepareRecoveredReshare (entropy : Entropy)
  | receiveShare (selfIndex fromIndex : UInt64) (messages : List Bytes) (pvss : Bytes)
  | receiveReshare (selfIndex fromIndex : UInt64) (messages : List Bytes) (pvss : Bytes)
  | receiveRecovery (fromIndex : UInt64) (message pvss : Bytes)
  | epochChange (selfPvss aggregatedCommitment previousCommitment : Bytes)
      (isMemberOfNewGroup : Bool)

def apply (store : DkgKeyStore parameters) :
    Operation → Except DkgStateError (DkgKeyStore parameters)
  | .bindValidatorAddress address => store.bindValidatorAddress address
  | .sharePeriodStart forceReshare => .ok (store.onSharePeriodStart forceReshare)
  | .recoverPeriodStart => .ok store.onRecoverPeriodStart
  | .revertRound => .ok store.revertRound
  | .prepareShare chainId entropy => (store.prepareShare chainId entropy).map Prod.snd
  | .prepareRecoveredReshare entropy => (store.prepareRecoveredReshare entropy).map Prod.snd
  | .receiveShare selfIndex fromIndex messages pvss =>
    (store.receiveShare selfIndex fromIndex messages pvss).map Prod.snd
  | .receiveReshare selfIndex fromIndex messages pvss =>
    (store.receiveReshare selfIndex fromIndex messages pvss).map Prod.snd
  | .receiveRecovery fromIndex message pvss =>
    (store.receiveRecovery fromIndex message pvss).map Prod.snd
  | .epochChange selfPvss aggregatedCommitment previousCommitment isMemberOfNewGroup =>
    (store.onEpochChange selfPvss aggregatedCommitment previousCommitment
      isMemberOfNewGroup).map Prod.snd

/-- An operation that fails leaves the store as it is. -/
def step (store : DkgKeyStore parameters) (operation : Operation) : DkgKeyStore parameters :=
  match store.apply operation with
  | .ok next => next
  | .error _ => store

/-- The unfinished groups of a store hold accepted shares only, and the secret of the next key is
not confirmed yet. -/
structure Recording (share reshare : Nat → DkgSecretScalar → Prop)
    (store : DkgKeyStore parameters) : Prop where
  sharing : ∀ group, store.sharing = some group → group.Recorded share
  unconfirmed : ∀ group, store.sharing = some group → group.localSecret = none
  resharing : ∀ group, store.resharing = some group → group.Recorded reshare

/-- A share that an operation would record satisfies the predicate of its group. -/
def Accepts (share reshare : Nat → DkgSecretScalar → Prop) (store : DkgKeyStore parameters) :
    Operation → Prop
  | .receiveShare selfIndex fromIndex messages pvss => ∀ received,
      store.decryptReceivedShare selfIndex messages pvss = .ok received →
        share (fromIndex.toNat - 1) received
  | .receiveReshare selfIndex fromIndex messages pvss => ∀ received,
      store.decryptReceivedShare selfIndex messages pvss = .ok received →
        reshare (fromIndex.toNat - 1) received
  | _ => True

def Operation.receive (kind : ReceivingGroup) (selfIndex fromIndex : UInt64) (messages : List Bytes)
    (pvss : Bytes) : Operation :=
  match kind with
  | .sharing => .receiveShare selfIndex fromIndex messages pvss
  | .resharing => .receiveReshare selfIndex fromIndex messages pvss

theorem apply_receive (store : DkgKeyStore parameters) (kind : ReceivingGroup)
    (selfIndex fromIndex : UInt64) (msgs : List Bytes) (pvss : Bytes) :
    store.apply (.receive kind selfIndex fromIndex msgs pvss)
      = (store.receive kind selfIndex fromIndex msgs pvss).map Prod.snd := by
  cases kind <;> rfl

variable {share reshare : Nat → DkgSecretScalar → Prop}

omit [Curve] [Cipher] [PredictableScalars] in
theorem recording_onSharePeriodStart (store : DkgKeyStore parameters) (forceReshare : Bool) :
    (store.onSharePeriodStart forceReshare).Recording share reshare := by
  constructor
  · intro group hg
    cases hg
    exact DkgKeyGroup.recorded_replicate rfl
  · intro group hg
    cases hg
    rfl
  · intro group hg
    rw [onSharePeriodStart] at hg
    dsimp only at hg
    split at hg
    · cases hg
      exact DkgKeyGroup.recorded_replicate rfl
    · rcases Option.map_eq_some_iff.mp hg with ⟨prev, -, rfl⟩
      exact DkgKeyGroup.recorded_replicate rfl

omit [Curve] [Cipher] [PredictableScalars] in
theorem Recording.of_eq (hstore : store.Recording share reshare)
    (hshar : next.sharing = store.sharing) (hresh : next.resharing = store.resharing) :
    next.Recording share reshare :=
  ⟨hshar ▸ hstore.sharing, hshar ▸ hstore.unconfirmed, hresh ▸ hstore.resharing⟩

omit [Curve] [Cipher] [PredictableScalars] in
theorem recording_of_none (hshar : store.sharing = none) (hresh : store.resharing = none) :
    store.Recording share reshare := by
  constructor <;> simp [hshar, hresh]

/-- The groups of the next store hold what the groups before held, or a share that was accepted. -/
theorem recording_apply {op : Operation} (hstore : store.Recording share reshare)
    (hacce : store.Accepts share reshare op) (h : store.apply op = .ok next) :
    next.Recording share reshare := by
  cases op with
  | bindValidatorAddress address =>
    unfold apply bindValidatorAddress at h
    dsimp only at h
    split at h
    · obtain ⟨_, h⟩ := of_bind h
      cases h
      exact hstore
    · cases h
      exact hstore.of_eq rfl rfl
  | sharePeriodStart forceReshare =>
    cases h
    exact recording_onSharePeriodStart store forceReshare
  | recoverPeriodStart =>
    cases h
    exact hstore.of_eq rfl rfl
  | revertRound =>
    cases h
    exact recording_of_none rfl rfl
  | prepareShare chainId entropy =>
    rcases map_eq_ok.mp h with ⟨⟨material, prepared⟩, hv, rfl⟩
    rcases prepareShare_spec hv with ⟨sharing, poly, hshar, -, -, -, rfl⟩
    refine ⟨fun group hg => ?_, fun group hg => ?_, hstore.resharing⟩
    · cases hg
      exact hstore.sharing sharing hshar
    · cases hg
      exact hstore.unconfirmed sharing hshar
  | prepareRecoveredReshare entropy =>
    rcases map_eq_ok.mp h with ⟨⟨material, prepared⟩, hv, rfl⟩
    rcases prepareRecoveredReshare_eq_ok hv with ⟨recovering, poly, -, rfl⟩
    exact hstore.of_eq rfl rfl
  | receiveShare selfIndex fromIndex messages pvss =>
    rcases map_eq_ok.mp h with ⟨⟨fresh, received⟩, hv, rfl⟩
    rcases receive_spec .sharing hv with
      ⟨sharing, accepted, hshar, hacc, -, -, rfl⟩
    refine ⟨fun group hg => ?_, fun group hg => ?_, hstore.resharing⟩
    · cases hg
      exact DkgKeyGroup.recorded_record (hstore.sharing sharing hshar)
        (hacce accepted hacc)
    · cases hg
      exact hstore.unconfirmed sharing hshar
  | receiveReshare selfIndex fromIndex messages pvss =>
    rcases map_eq_ok.mp h with ⟨⟨fresh, received⟩, hv, rfl⟩
    rcases receive_spec .resharing hv with
      ⟨resharing, accepted, hresh, hacc, -, -, rfl⟩
    refine ⟨hstore.sharing, hstore.unconfirmed, fun group hg => ?_⟩
    cases hg
    exact DkgKeyGroup.recorded_record (hstore.resharing resharing hresh)
      (hacce accepted hacc)
  | receiveRecovery fromIndex message pvss =>
    rcases map_eq_ok.mp h with ⟨⟨fresh, received⟩, hv, rfl⟩
    rcases receiveRecovery_eq_ok hv with ⟨recovering, received, _, -, -, -, -, -, -, rfl⟩
    exact hstore.of_eq rfl rfl
  | epochChange selfPvss aggregatedCommitment previousCommitment isMemberOfNewGroup =>
    rcases map_eq_ok.mp h with ⟨⟨change, settled⟩, hv, rfl⟩
    rcases groups_onEpochChange hv with ⟨hshar, hresh⟩
    exact recording_of_none hshar hresh

/-- After a run in which every recorded share was accepted, the groups hold accepted shares. -/
theorem recorded_run (hstore : store.Recording share reshare) {ops : List Operation}
    (hacce : Machine.Guarded step (Accepts share reshare) store ops) :
    (Machine.run step store ops).Recording share reshare := by
  refine Machine.invariant_of_guarded (fun s op hs hallo => ?_) hstore hacce
  unfold step
  cases happly : s.apply op with
  | ok next => exact recording_apply hs hallo happly
  | error reason => exact hs

/-- Members that send the same share are recorded one after the other. -/
theorem run_receive (kind : ReceivingGroup) (hg : store.unfinished kind = some group)
    {selfIndex : UInt64} {msgs : List Bytes} {pvss : Bytes} {share : DkgSecretScalar}
    (hsh : store.decryptReceivedShare selfIndex msgs pvss = .ok share)
    (hrec : group.Recorded fun _ o => o = share) {senders : List UInt64}
    (hsend : ∀ sender ∈ senders, 1 ≤ sender.toNat ∧ sender.toNat ≤ parameters.participants) :
    Machine.run step store (senders.map fun sender => .receive kind selfIndex sender msgs pvss)
      = store.withUnfinished kind (group.recordAll share senders) := by
  induction senders generalizing store group with
  | nil => exact (withUnfinished_of_eq hg).symm
  | cons sender senders ih =>
    rcases List.forall_mem_cons.mp hsend with ⟨hsd, hr⟩
    rcases receive_of hg hsh hsd (hrec _) with ⟨fresh, hrecv⟩
    have hstep : store.step (.receive kind selfIndex sender msgs pvss)
        = store.withUnfinished kind (group.record sender share) := by
      rw [step, apply_receive, hrecv]
      rfl
    rw [List.map_cons, Machine.run_cons, hstep,
      ih (unfinished_withUnfinished _ _ _)
        ((decryptReceivedShare_withUnfinished _ _ _ _ _ _).trans hsh)
        (DkgKeyGroup.recorded_record hrec rfl) hr,
      withUnfinished_withUnfinished]
    rfl

end DkgKeyStore

end Store

/-! ## Messages in the clear -/

namespace PlainMessages

/-- Share messages that carry the share as it is. -/
scoped instance ecies : Ecies where
  validPrivateKey _ := true
  sharedX _ _ := some (.zero 32)
  sha3 _ := .zero 32
  openMessage _ _ payload := some (payload.take 32)

/-- A hash that is always one. -/
scoped instance cipher : Cipher where
  sha256 _ := .ofNat 32 1
  decryptBlock _ block := block

scoped instance predictableScalars : PredictableScalars where
  exists_candidate seed := by
    have hsame : candidateScalar seed 0 = candidateScalar [] 0 := rfl
    exact ⟨0, by rw [hsame]; decide +kernel⟩

def shareMessage (share : DkgSecretScalar) : Bytes :=
  List.replicate 76 0 ++ (share.asBytes.bytes ++ List.replicate 16 0)

theorem decrypt_shareMessage (messagePrivateKey : B256) (share : DkgSecretScalar) :
    decryptDkgShareMessage messagePrivateKey (shareMessage share) = .ok share := by
  have hsize := share.asBytes.length_eq
  have hlen : (shareMessage share).length = 124 := by
    simp [shareMessage, hsize]
  have hp : ((shareMessage share).drop 76).take 32 = share.asBytes.bytes := by
    rw [shareMessage, List.drop_left' List.length_replicate, List.take_left' hsize]
  have hread : DkgSecretScalar.new share.asBytes = .ok share := by
    rw [DkgSecretScalar.new, share.secretScalar_asBytes]
    exact trySecretFromFr_eq_ok.mpr rfl
  have hkey : Ecies.validPrivateKey messagePrivateKey = true := rfl
  rw [decryptDkgShareMessage, require_of _ hlen, ok_bind, require_of _ hkey, ok_bind]
  refine bind_eq_ok.mpr ⟨.zero 32, rfl, ?_⟩
  refine bind_eq_ok.mpr ⟨share.asBytes.bytes, congrArg _ (congrArg some hp), ?_⟩
  exact bind_eq_ok.mpr ⟨share.asBytes,
    ofOption_eq_ok.mpr (FixedBytes.ofBytes?_bytes _), hread⟩

end PlainMessages

end NeoX
