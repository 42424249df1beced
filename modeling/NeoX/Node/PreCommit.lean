import NeoX.AntiMev.Committee
import NeoX.AntiMev.KeyGeneration
import NeoX.Node.Proposal
import NeoX.Node.Receipts
import NeoX.Node.Signer

/-!
# PreCommits of an Anti-MEV proposal

What a validator contributes to open the Envelopes of a verified proposal: a packet with its
decryption shares for the Envelopes of the current DKG round and for those of earlier rounds.

Main results:

- `DbftPreCommit.fromData_encodeDecryptionShares`: the packet of a validator is read
  back.
- `antimevPrecommit_eq_ok`: a validator with correct shares has a packet exactly if
  the key of the round before exists as soon as an Envelope needs it, and the Envelopes are not too
  many.
- `accepted_finishes_iff`: an accepted proposal can be finished by honest validators
  exactly under that condition.
-/

namespace NeoX

open List
open Except hiding ok error

open BigEndian

/-! ## Packets -/

inductive DecryptionShareCodecError where
  | tooShort (actual : Nat)
  | tooManyShares (total : Nat)
  | wrongLength (expected actual : Nat)
  | invalidShare
  deriving DecidableEq

/-- The packet of the shares for both rounds, after their little-endian counts. -/
def encodeDecryptionShares (current previous : List G1Bytes) :
    Except DecryptionShareCodecError Bytes := do
  let total := current.length + previous.length
  require (total ≤ maxDecryptionSharesPerBlock) (.tooManyShares total)
  .ok ((toBytes 4 current.length).reverse ++ (toBytes 4 previous.length).reverse ++
    (current ++ previous).flatMap FixedBytes.bytes)

theorem DbftPreCommit.littleEndian_reverse {value : Nat} (h : value < 2 ^ 32) :
    DbftPreCommit.littleEndian (toBytes 4 value).reverse = value := by
  rw [DbftPreCommit.littleEndian, reverse_reverse, ofBytes_toBytes, Nat.mod_eq_of_lt (by omega)]

/-- A packet is read back if its shares are points. -/
theorem DbftPreCommit.fromData_encodeDecryptionShares [Crypto] {cur prev : List G1Bytes}
    {enc : Bytes} (h : encodeDecryptionShares cur prev = .ok enc)
    (hval : ∀ share ∈ cur ++ prev, Crypto.validG1 share = true) :
    DbftPreCommit.fromData enc = .ok ⟨cur, prev, enc⟩ := by
  obtain ⟨hc, h⟩ := require_bind h
  have hsmall : cur.length + prev.length ≤ 1000 := hc
  cases h
  have hshs : ((cur ++ prev).flatMap FixedBytes.bytes).length
      = (cur.length + prev.length) * 48 := by
    rw [FixedBytes.length_flatMap_bytes, length_append]
  have hchunks := FixedBytes.chunks_flatMap (cur ++ prev) []
  rw [append_nil, length_append] at hchunks
  generalize (cur ++ prev).flatMap FixedBytes.bytes = packed at hshs hchunks ⊢
  have h1 : ((toBytes 4 cur.length).reverse ++ (toBytes 4 prev.length).reverse
      ++ packed).take 4 = (toBytes 4 cur.length).reverse := by
    rw [append_assoc, take_left' (by simp)]
  have h2 : (((toBytes 4 cur.length).reverse ++ (toBytes 4 prev.length).reverse
      ++ packed).drop 4).take 4 = (toBytes 4 prev.length).reverse := by
    rw [append_assoc, drop_left' (by simp), take_left' (by simp)]
  have hpacked : ((toBytes 4 cur.length).reverse ++ (toBytes 4 prev.length).reverse
      ++ packed).drop precommitCountPrefixLen = packed := drop_left' (by simp; rfl)
  have hlen : ((toBytes 4 cur.length).reverse ++ (toBytes 4 prev.length).reverse
      ++ packed).length = precommitCountPrefixLen
        + (cur.length + prev.length) * decryptionShareLen := by
    rw [length_append, length_append, length_reverse, length_reverse,
      length_toBytes, length_toBytes, hshs]
    rfl
  generalize (toBytes 4 cur.length).reverse ++ (toBytes 4 prev.length).reverse ++ packed
    = data at h1 h2 hpacked hlen ⊢
  have hcur : cur.all Crypto.validG1 = true :=
    all_eq_true.mpr fun share hmem => hval share (mem_append_left _ hmem)
  have hprev : prev.all Crypto.validG1 = true :=
    all_eq_true.mpr fun share hmem => hval share (mem_append_right _ hmem)
  rw [DbftPreCommit.fromData, h1, h2,
    DbftPreCommit.littleEndian_reverse (by omega), DbftPreCommit.littleEndian_reverse (by omega)]
  dsimp only
  rw [require_of _ (hlen ▸ Nat.le_add_right _ _), ok_bind,
    require_of _ (show cur.length + prev.length < 2 ^ 32 by omega), ok_bind,
    require_of _ hc, ok_bind, require_of _ hlen, ok_bind, hpacked,
    hchunks, take_left' rfl, drop_left' rfl, DbftPreCommit.decodeShares,
    require_of _ hcur, DbftPreCommit.decodeShares, require_of _ hprev]
  rfl

section PreCommit

variable [Curve]

/-! ## Shares of a validator -/

/-- The private shares of the current and the previous round. -/
structure DkgPrivateShares where
  current : Option DkgPrivateShare
  previous : Option DkgPrivateShare
  deriving DecidableEq

/-- Failures of the signer that makes decryption shares. -/
inductive DecryptionShareError where
  | signer (error : DbftSignerError)
  | missingPreviousDkgPrivateShare
  | decryptionShare (error : TpkeError)
  deriving DecidableEq

/-- The decryption shares of a private share, in the order of the ciphertexts. -/
def decryptionShares (ciphertexts : List TpkeCiphertext) (share : DkgPrivateShare) :
    Except DecryptionShareError (List G1Bytes) :=
  ciphertexts.mapM fun ciphertext =>
    (ciphertext.decryptionShare share.secret).mapError .decryptionShare

/-- The decryption shares of an installed private share, for the epoch of a key. -/
def decryptionSharesForEpoch (missing : DecryptionShareError) (found : Option DkgPrivateShare)
    (epoch : Option DkgShareEpoch) (ciphertexts : List TpkeCiphertext) :
    Except DecryptionShareError (List G1Bytes) := do
  let share ← ofOption missing found
  (share.requireEpoch epoch).mapError .signer
  decryptionShares ciphertexts share

namespace DkgPrivateShares

def currentDecryptionSharesAt (shares : DkgPrivateShares) (epoch : DkgShareEpoch)
    (ciphertexts : List TpkeCiphertext) : Except DecryptionShareError (List G1Bytes) :=
  decryptionSharesForEpoch (.signer .missingDkgPrivateShare) shares.current (some epoch) ciphertexts

def previousDecryptionSharesAt (shares : DkgPrivateShares) (epoch : DkgShareEpoch)
    (ciphertexts : List TpkeCiphertext) : Except DecryptionShareError (List G1Bytes) :=
  decryptionSharesForEpoch .missingPreviousDkgPrivateShare shares.previous (some epoch) ciphertexts

end DkgPrivateShares

/-- Why a validator has no PreCommit. -/
inductive PreCommitFailure where
  | currentShares (error : DecryptionShareError)
  | previousShares (error : DecryptionShareError)
  | missingPreviousDkg
  | encoding (error : DecryptionShareCodecError)
  | payload (error : DbftPayloadError)
  deriving DecidableEq

def DkgPublicKey.epochAt (key : DkgPublicKey) (head : B256) : DkgShareEpoch :=
  ⟨key.round, key.globalPublicKey, head⟩

def currentShares (shares : DkgPrivateShares) (proposal : AntiMevProposal) (dkgState : DkgState)
    (head : B256) : Except PreCommitFailure (List G1Bytes) :=
  let ciphertexts := proposal.ciphertexts .current
  if ciphertexts.isEmpty then
    .ok []
  else
    (shares.currentDecryptionSharesAt (dkgState.current.epochAt head) ciphertexts).mapError
      .currentShares

/-- The shares for the Envelopes of earlier rounds. -/
def previousShares (shares : DkgPrivateShares) (proposal : AntiMevProposal) (dkgState : DkgState)
    (head : B256) : Except PreCommitFailure (List G1Bytes) :=
  let ciphertexts := proposal.ciphertexts .previous
  if ciphertexts.isEmpty then
    .ok []
  else
    match dkgState.previous with
    | none => .error .missingPreviousDkg
    | some previous =>
      (shares.previousDecryptionSharesAt (previous.epochAt head) ciphertexts).mapError
        .previousShares

/-- The PreCommit of a validator for the Envelopes of a proposal. -/
def antimevPrecommit [Crypto] (shares : DkgPrivateShares) (proposal : AntiMevProposal)
    (dkgState : DkgState) (head : B256) : Except PreCommitFailure DbftPreCommit := do
  let current ← currentShares shares proposal dkgState head
  let previous ← previousShares shares proposal dkgState head
  let encoded ← (encodeDecryptionShares current previous).mapError .encoding
  (DbftPreCommit.fromData encoded).mapError .payload

/-! ## Validators with correct shares -/

/-- A private share that is the value of a polynomial, and usable for a key. -/
def HoldsShare (key : DkgPublicKey) (head : B256) (p : Polynomial Scalar) (index : UInt32)
    (found : Option DkgPrivateShare) : Prop :=
  ∃ share, found = some share ∧ secretScalar share.secret = some (p.eval (index.toNat : Scalar)) ∧
    share.requireEpoch (some (key.epochAt head)) = .ok ()

/-- A key whose secret a polynomial shares. -/
def SharedBy (parameters : DkgParameters) (key : DkgPublicKey) (p : Polynomial Scalar) : Prop :=
  p.degree < parameters.threshold ∧ key.globalPublicKey = committeeKey parameters (p.eval 0)

/-- Validators, by their DKG index, that hold correct shares of the keys of a state. -/
structure HonestValidators (indices : List UInt32) (dkgState : DkgState) (head : B256)
    (p q : Polynomial Scalar) (members : List (UInt32 × DkgPrivateShares)) : Prop where
  nodup : (members.map Prod.fst).Nodup
  mem_indices : ∀ member ∈ members, member.1 ∈ indices
  current_key : SharedBy dkgState.parameters dkgState.current p
  current_share : ∀ member ∈ members,
    HoldsShare dkgState.current head p member.1 member.2.current
  previous_key : ∀ key, dkgState.previous = some key → SharedBy dkgState.parameters key q
  previous_share : ∀ key, dkgState.previous = some key → ∀ member ∈ members,
    HoldsShare key head q member.1 member.2.previous

variable {head : B256} {p : Polynomial Scalar}

theorem decryptionSharesForEpoch_eq {key : DkgPublicKey} {i : UInt32}
    {found : Option DkgPrivateShare} (h : HoldsShare key head p i found)
    (missing : DecryptionShareError) (cts : List TpkeCiphertext) :
    decryptionSharesForEpoch missing found (some (key.epochAt head)) cts
      = .ok (cts.map (polynomialShare p i)) := by
  rcases h with ⟨share, rfl, hsec, hepoch⟩
  rw [decryptionSharesForEpoch, Except.ofOption, ok_bind, hepoch, mapError_ok, ok_bind]
  apply mapM_eq_ok_of_forall₂
  rw [forall₂_map_right_iff, forall₂_same]
  intro ct _
  rw [TpkeCiphertext.decryptionShare, hsec, TpkeCiphertext.decodeG1_randomCommitment]
  rfl

variable {shares : DkgPrivateShares} {dkgState : DkgState}

theorem currentShares_eq {i : UInt32} (h : HoldsShare dkgState.current head p i shares.current)
    (proposal : AntiMevProposal) :
    currentShares shares proposal dkgState head
      = .ok ((proposal.ciphertexts .current).map (polynomialShare p i)) := by
  unfold currentShares
  dsimp only
  split
  · next hempty =>
      rw [isEmpty_iff.mp hempty]
      rfl
  · exact mapError_eq_ok.mpr (decryptionSharesForEpoch_eq h _ _)

variable {q : Polynomial Scalar} {proposal : AntiMevProposal}

/-- A validator makes the shares of its polynomial for earlier rounds, if there is a key. -/
theorem previousShares_eq {i : UInt32}
    (h : ∀ key, dkgState.previous = some key → HoldsShare key head q i shares.previous)
    (hkey : dkgState.previous.isSome = true ∨ proposal.ciphertexts .previous = []) :
    previousShares shares proposal dkgState head
      = .ok ((proposal.ciphertexts .previous).map (polynomialShare q i)) := by
  unfold previousShares
  dsimp only
  split
  · next hempty =>
      rw [List.isEmpty_iff.mp hempty]
      rfl
  · next hne =>
      rw [List.isEmpty_iff] at hne
      rcases Option.isSome_iff_exists.mp (hkey.resolve_right hne) with ⟨key, hprev⟩
      rw [hprev]
      exact mapError_eq_ok.mpr (decryptionSharesForEpoch_eq (h key hprev) _ _)

theorem previousShares_spec {made : List G1Bytes}
    (h : previousShares shares proposal dkgState head = .ok made) :
    dkgState.previous.isSome = true ∨ proposal.ciphertexts .previous = [] := by
  unfold previousShares at h
  dsimp only at h
  split at h
  · next hempty => exact Or.inr (isEmpty_iff.mp hempty)
  · split at h
    · cases h
    · next key hkey => exact Or.inl (by rw [hkey, Option.isSome_some])

/-- Compressed points are accepted in packets. -/
class PacketPoints [Crypto] : Prop where
  validG1_compress1 : ∀ point : G1, Crypto.validG1 (compress1 point) = true

variable {members : List (UInt32 × DkgPrivateShares)}

/-- A validator with correct shares has a PreCommit exactly if the key of the round before exists
where an Envelope needs it, and the Envelopes are not too many. -/
theorem antimevPrecommit_eq_ok [Crypto] [PacketPoints] {idx : List UInt32}
    (hhonest : HonestValidators idx dkgState head p q members) {member : UInt32 × DkgPrivateShares}
    (hmember : member ∈ members) {preCommit : DbftPreCommit} :
    antimevPrecommit member.2 proposal dkgState head = .ok preCommit ↔
      (dkgState.previous.isSome = true ∨ proposal.ciphertexts .previous = []) ∧
      encodeDecryptionShares ((proposal.ciphertexts .current).map (polynomialShare p member.1))
        ((proposal.ciphertexts .previous).map (polynomialShare q member.1)) = .ok preCommit.data ∧
      preCommit.currentRound = (proposal.ciphertexts .current).map (polynomialShare p member.1) ∧
      preCommit.previousRound
        = (proposal.ciphertexts .previous).map (polynomialShare q member.1) := by
  have hcur := currentShares_eq (hhonest.current_share member hmember) proposal
  have hholds := fun key hkey => hhonest.previous_share key hkey member hmember
  have hval : ∀ share ∈ (proposal.ciphertexts .current).map (polynomialShare p member.1)
      ++ (proposal.ciphertexts .previous).map (polynomialShare q member.1),
      Crypto.validG1 share = true := by
    intro share hmem
    rcases mem_append.mp hmem with hmem | hmem
    · rcases mem_map.mp hmem with ⟨ct, -, rfl⟩
      exact PacketPoints.validG1_compress1 _
    · rcases mem_map.mp hmem with ⟨ct, -, rfl⟩
      exact PacketPoints.validG1_compress1 _
  rw [antimevPrecommit, hcur, ok_bind]
  constructor
  · intro h
    rcases bind_ok h with ⟨made, hmade, h⟩
    have hkey := previousShares_spec hmade
    rw [previousShares_eq hholds hkey] at hmade
    cases hmade
    obtain ⟨enc, henco, h⟩ := mapError_bind h
    rw [mapError_eq_ok] at h
    rw [DbftPreCommit.fromData_encodeDecryptionShares henco hval] at h
    cases h
    exact ⟨hkey, henco, rfl, rfl⟩
  · rintro ⟨hkey, henco, h1, h2⟩
    rw [previousShares_eq hholds hkey, ok_bind, henco, mapError_ok, ok_bind,
      DbftPreCommit.fromData_encodeDecryptionShares henco hval, ← h1, ← h2]
    rfl

/-! ## Opened keys -/

variable {parameters : DkgParameters}

omit [Curve] in
theorem DkgParameters.threshold_eq {participants : Nat}
    (h : DkgParameters.new participants = .ok parameters) :
    parameters.threshold = bftHonestNodeCount participants := by
  obtain ⟨_, h⟩ := of_bind h
  obtain ⟨_, h⟩ := of_bind h
  cases h
  rfl

/-- A quorum of correct shares opens the keys of a round. -/
theorem exists_epochKeys {participants : Nat}
    (hparam : DkgParameters.new participants = .ok parameters) {key : DkgPublicKey}
    (hkey : SharedBy parameters key p)
    (hver : ∀ envelope ∈ proposal.envelopes, envelope.encryptedKey.verify = .ok ())
    {cs : List (UInt32 × DbftPreCommit)} (hidx : ∀ c ∈ cs,
      1 ≤ c.1.toNat ∧ c.1.toNat ≤ participants)
    (hnd : (cs.map Prod.fst).Nodup)
    (henough : parameters.threshold ≤ cs.length) (epoch : EnvelopeDkgEpoch)
    (hshs : ∀ c ∈ cs, AntiMevProposal.epochShares epoch c.2
      = (proposal.ciphertexts epoch).map (polynomialShare p c.1)) :
    ∃ keys, proposal.decryptEpochKeys epoch (some key) cs parameters.threshold parameters
      = .ok keys := by
  have hciph : ∀ ct ∈ proposal.ciphertexts epoch, ct.verify = .ok () := by
    intro ct hmem
    rcases mem_map.mp hmem with ⟨envelope, henve, rfl⟩
    exact hver envelope (mem_of_mem_filter henve)
  have hopened : ∃ keys, aggregateAndDecryptKeysWithParameters (proposal.ciphertexts epoch)
      key.globalPublicKey (cs.map fun c =>
        (c.1, AntiMevProposal.epochShares epoch c.2)) parameters.threshold
      parameters = .ok keys := by
    rw [hkey.2]
    refine exists_decryptedKeys hparam hkey.1 hciph ?_ ?_ hnd
      (by rwa [length_map]) ?_
    · intro c hmem
      rcases mem_map.mp hmem with ⟨found, hf, rfl⟩
      exact hidx found hf
    · rwa [map_map]
    · intro i hmem
      rcases mem_map.mp hmem with ⟨c, hcont, rfl⟩
      refine mem_map.mpr ⟨c, hcont, ?_⟩
      rw [hshs c hcont]
  unfold AntiMevProposal.decryptEpochKeys
  dsimp only
  split
  · exact ⟨[], rfl⟩
  · rcases hopened with ⟨keys, hkeys⟩
    exact ⟨keys, mapError_eq_ok.mpr hkeys⟩

omit [Curve] in
theorem exists_gasAllocations {receipts : List Receipt} {i : Nat} {prev : UInt64}
    (h1 : ∀ receipt ∈ receipts, prev ≤ receipt.cumulativeGasUsed)
    (horde : receipts.Pairwise fun earlier later =>
      earlier.cumulativeGasUsed ≤ later.cumulativeGasUsed) :
    ∃ allocations, gasAllocations i prev receipts = .ok allocations := by
  induction receipts generalizing i prev with
  | nil => exact ⟨[], rfl⟩
  | cons receipt receipts ih =>
    rcases pairwise_cons.mp horde with ⟨hlater, hr⟩
    rcases @ih (i + 1) receipt.cumulativeGasUsed hlater hr with ⟨allocations, hallo⟩
    exact ⟨_, bind_eq_ok.mpr ⟨(), require_of _ (h1 receipt mem_cons_self),
      bind_eq_ok.mpr ⟨allocations, hallo, rfl⟩⟩⟩

/-! ## Envelopes of the transactions -/

variable [PoolFormat]

/-- The round of the Envelope in a transaction, unless it is an ordinary one for the current
round. -/
def envelopeRound (currentRound : UInt64) (transaction : Transaction) : Option UInt64 :=
  if isEnvelope (TransactionFormat.ty transaction) (TransactionFormat.target transaction)
      (TransactionFormat.input transaction) then
    match EnvelopeData.decode (TransactionFormat.input transaction) with
    | .error _ => none
    | .ok data =>
      let encodedRound := data.dkgRound.toUInt64
      if encodedRound = 0 ∨ currentRound < encodedRound then none else some encodedRound
  else
    none

variable {currentRound : UInt64}

theorem envelopeRound_of_envelopeOf {i : Nat} {tx : Transaction} {envelope : Option AntiMevEnvelope}
    (h : envelopeOf i currentRound tx = .ok envelope) :
    envelopeRound currentRound tx
      = envelope.map fun envelope => envelope.dkgRound.toUInt64 := by
  unfold envelopeOf at h
  unfold envelopeRound
  split at h
  · next hk =>
      rw [if_pos hk]
      cases hd : EnvelopeData.decode (TransactionFormat.input tx) with
      | error reason =>
        rw [hd] at h
        cases h
        rfl
      | ok data =>
        rw [hd] at h
        dsimp only at h ⊢
        split at h
        · next hrd =>
            cases h
            rw [if_pos hrd]
            rfl
        · next hrd =>
            obtain ⟨_, h⟩ := of_bind h
            cases h
            rw [if_neg hrd]
            rfl
  · next hk =>
      cases h
      rw [if_neg hk]
      rfl

variable {transactions : List Transaction}

/-- The Envelopes that are found have the rounds of the transactions. -/
theorem rounds_of_envelopesFrom {start : Nat} {envelopes : List AntiMevEnvelope}
    (h : envelopesFrom currentRound start transactions = .ok envelopes) :
    envelopes.map (fun envelope => envelope.dkgRound.toUInt64)
      = transactions.filterMap (envelopeRound currentRound) := by
  induction transactions generalizing start envelopes with
  | nil =>
    cases h
    rfl
  | cons transaction transactions ih =>
    rcases bind_ok h with ⟨found, hf, h⟩
    rcases bind_ok h with ⟨rest, hr, h⟩
    cases h
    have hrd := envelopeRound_of_envelopeOf hf
    cases found with
    | none => rw [filterMap_cons_none hrd]; exact ih hr
    | some envelope =>
      rw [filterMap_cons_some hrd, ← ih hr]
      rfl

omit [PoolFormat] in
theorem length_ciphertexts (proposal : AntiMevProposal) :
    (proposal.ciphertexts .current).length + (proposal.ciphertexts .previous).length
      = proposal.envelopes.length := by
  rw [AntiMevProposal.ciphertexts, AntiMevProposal.ciphertexts, length_map, length_map]
  induction proposal.envelopes with
  | nil => rfl
  | cons envelope envelopes ih =>
    cases hepoch : envelope.epoch with
    | current => simp [hepoch]; omega
    | previous => simp [hepoch]; omega

/-- No Envelope needs the key of the round before exactly if all are for the current round. -/
theorem ciphertexts_previous_eq_nil
    (h : AntiMevProposal.fromTransactions transactions currentRound = .ok proposal) :
    proposal.ciphertexts .previous = [] ↔
      ∀ round ∈ transactions.filterMap (envelopeRound currentRound), round = currentRound := by
  have hspec := (AntiMevProposal.fromTransactions_spec h).2
  rcases bind_ok h with ⟨envelopes, henve, h⟩
  cases h
  rw [← rounds_of_envelopesFrom henve, forall_mem_map, AntiMevProposal.ciphertexts,
    map_eq_nil_iff, filter_eq_nil_iff]
  refine forall₂_congr fun envelope hmem => ?_
  rw [← (hspec envelope hmem).2.2.2.2]
  cases envelope.epoch with
  | current => simp
  | previous => simp

/-! ## Accepted proposals -/

variable [Crypto] [GasRules] [BlockEvm] [BlobFormat]

def VerifiedProposal.preBlock (proposal : VerifiedProposal) : AntiMevPreBlock where
  transactions := proposal.block.transactions
  senders := proposal.block.senders
  receipts := proposal.execution.result.receipts.map fun receipt =>
    ⟨BlockEvm.cumulativeGasUsed receipt⟩
  parentBaseFee := proposal.parentBaseFee

omit [GasRules] [BlockEvm] [BlobFormat] in
/-- The Envelopes of a block are those of its transactions in the current round. -/
theorem fromTransactions_of_read {spec : NeoXChainSpec} {s : StateProvider} {block : Block}
    {antiMev : Option AntiMevProposal}
    (hact : spec.isAntiMevActiveAtBlock block.header.number = true) {vals : GovernanceValidatorSet}
    (hvals : readGovernanceValidatorSet s = .ok vals)
    (hparam : DkgParameters.new vals.sorted.length = .ok parameters)
    (hdkg : readDkgStateWithParameters s parameters = .ok dkgState)
    (h : readAntiMevProposal spec s block = .ok antiMev) :
    ∃ proposal, antiMev = some proposal ∧
      AntiMevProposal.fromTransactions block.transactions dkgState.current.round
        = .ok proposal := by
  rw [readAntiMevProposal, if_pos hact, hvals, mapError_ok, ok_bind,
    hparam, mapError_ok, ok_bind, hdkg, mapError_ok, ok_bind] at h
  obtain ⟨proposal, hprop, h⟩ := mapError_bind h
  cases h
  exact ⟨proposal, rfl, hprop⟩

/-- The block data of an accepted proposal are aligned, and its gas is allocated. -/
theorem preBlock_of_accepted [ReceiptRules] {spec : NeoXChainSpec} {provider : Provider}
    {req : DbftPrepareRequest} {contents : ProposalContents} {proposal : VerifiedProposal}
    {s : StateProvider} (h : Accepted spec provider req contents proposal s) :
    (proposal.preBlock.transactions.length = proposal.preBlock.senders.length ∧
      proposal.preBlock.transactions.length = proposal.preBlock.receipts.length) ∧
    ∃ allocations, gasAllocations 0 0 proposal.preBlock.receipts = .ok allocations := by
  rcases executeProposal_spec h.executed with ⟨hexec, -, -⟩
  rcases executeBlock_receipted hexec with ⟨hc, horde⟩
  have hsend : proposal.block.transactions.length = proposal.block.senders.length := by
    rw [h.transactions_eq]
    exact h.recovered.length_eq
  refine ⟨⟨hsend, ?_⟩, exists_gasAllocations ?_ ?_⟩
  · rw [VerifiedProposal.preBlock, length_map, hc, length_zip, hsend, Nat.min_self]
  · exact fun receipt _ => UInt64.zero_le
  · exact pairwise_map.mpr horde

/-- What has to hold of a state and the transactions of a proposal, so that validators can open its
Envelopes: the round before has a key if an Envelope is not for the current round, and the shares of
all Envelopes fit into a packet. -/
def Openable (dkgState : DkgState) (transactions : List Transaction) : Prop :=
  (dkgState.previous.isSome = true ∨
    ∀ round ∈ transactions.filterMap (envelopeRound dkgState.current.round),
      round = dkgState.current.round) ∧
  (transactions.filterMap (envelopeRound dkgState.current.round)).length
    ≤ maxDecryptionSharesPerBlock

variable {antiMev : AntiMevProposal}

omit [Crypto] [GasRules] [BlockEvm] [BlobFormat] in
theorem openable_iff
    (h : AntiMevProposal.fromTransactions transactions dkgState.current.round = .ok antiMev) :
    Openable dkgState transactions ↔
      (dkgState.previous.isSome = true ∨ antiMev.ciphertexts .previous = []) ∧
      (antiMev.ciphertexts .current).length + (antiMev.ciphertexts .previous).length
        ≤ maxDecryptionSharesPerBlock := by
  rw [Openable, ciphertexts_previous_eq_nil h, length_ciphertexts]
  rcases bind_ok h with ⟨envelopes, henve, h⟩
  cases h
  rw [← rounds_of_envelopesFrom henve, length_map]

omit [GasRules] [BlockEvm] [BlobFormat] in
/-- An honest validator has a PreCommit exactly if the Envelopes can be opened. -/
theorem exists_antimevPrecommit_iff [PacketPoints] {idx : List UInt32}
    (hhonest : HonestValidators idx dkgState head p q members) {member : UInt32 × DkgPrivateShares}
    (hmem : member ∈ members)
    (h : AntiMevProposal.fromTransactions transactions dkgState.current.round = .ok antiMev) :
    (∃ preCommit, antimevPrecommit member.2 antiMev dkgState head = .ok preCommit) ↔
      Openable dkgState transactions := by
  rw [openable_iff h]
  constructor
  · rintro ⟨preCommit, hpreC⟩
    rcases (antimevPrecommit_eq_ok hhonest hmem).mp hpreC with ⟨hkey, henco, -, -⟩
    rcases bind_ok henco with ⟨_, hc, -⟩
    rw [require_eq_ok, length_map, length_map] at hc
    exact ⟨hkey, hc⟩
  · rintro ⟨hkey, hc⟩
    have henco : ∃ data, encodeDecryptionShares
        ((antiMev.ciphertexts .current).map (polynomialShare p member.1))
        ((antiMev.ciphertexts .previous).map (polynomialShare q member.1)) = .ok data := by
      refine ⟨_, bind_eq_ok.mpr ⟨(), require_of _ ?_, rfl⟩⟩
      rwa [length_map, length_map]
    rcases henco with ⟨data, hd⟩
    exact ⟨⟨_, _, data⟩, (antimevPrecommit_eq_ok hhonest hmem).mpr ⟨hkey, hd, rfl, rfl⟩⟩

/-- Any quorum of PreCommits of honest validators resolves the Envelopes of an accepted
proposal. -/
theorem quorum_resolves [ReceiptRules] [PacketPoints] [Cipher] {spec : NeoXChainSpec}
    {provider : Provider} {req : DbftPrepareRequest} {contents : ProposalContents}
    {proposal : VerifiedProposal} {s : StateProvider}
    (hacc : Accepted spec provider req contents proposal s) {vals : GovernanceValidatorSet}
    (hvals : readGovernanceValidatorSet s = .ok vals)
    (hparam : DkgParameters.new vals.sorted.length = .ok parameters)
    (hdkg : readDkgStateWithParameters s parameters = .ok dkgState)
    (hanti : AntiMevProposal.fromTransactions contents.transactions dkgState.current.round
      = .ok antiMev)
    (hhonest : HonestValidators vals.dkgIndices dkgState proposal.parentStateHash p q members)
    {quorum : List (UInt32 × DbftPreCommit)} (hnd : (quorum.map Prod.fst).Nodup)
    (henough : bftHonestNodeCount vals.sorted.length ≤ quorum.length)
    (hmade : ∀ c ∈ quorum, ∃ member ∈ members, member.1 = c.1 ∧
      antimevPrecommit member.2 antiMev dkgState proposal.parentStateHash = .ok c.2)
    (hkey : dkgState.previous.isSome = true ∨ antiMev.ciphertexts .previous = []) (strict : Bool) :
    ∃ resolutions, antiMev.decryptAndValidateWithMode quorum dkgState
      (bftHonestNodeCount vals.sorted.length) proposal.preBlock strict = .ok resolutions := by
  cases (readDkgState_spec hdkg).1
  have ht := DkgParameters.threshold_eq hparam
  rcases AntiMevProposal.fromTransactions_spec hanti with ⟨hrd, henve⟩
  have hver : ∀ envelope ∈ antiMev.envelopes, envelope.encryptedKey.verify = .ok () :=
    fun envelope hmem => (henve envelope hmem).2.1
  have hidx : ∀ c ∈ quorum,
      1 ≤ c.1.toNat ∧ c.1.toNat ≤ vals.sorted.length := by
    intro c hmem
    rcases hmade c hmem with ⟨member, hmember, hi, -⟩
    exact dkgIndices_bounds hvals (hi ▸ hhonest.mem_indices member hmember)
  have hshs : ∀ c ∈ quorum,
      c.2.currentRound
        = (antiMev.ciphertexts .current).map (polynomialShare p c.1) ∧
      c.2.previousRound
        = (antiMev.ciphertexts .previous).map (polynomialShare q c.1) := by
    intro c hmem
    rcases hmade c hmem with ⟨member, hmember, hi, hpreC⟩
    rw [← hi]
    exact ((antimevPrecommit_eq_ok hhonest hmember).mp hpreC).2.2
  rw [← ht] at henough
  rcases exists_epochKeys hparam hhonest.current_key hver hidx hnd henough .current
    (fun c hmem => (hshs c hmem).1) with ⟨currentKeys, hcur⟩
  have hprev : ∃ keys, antiMev.decryptEpochKeys .previous dkgState.previous quorum
      dkgState.parameters.threshold dkgState.parameters = .ok keys := by
    rcases hkey with hsome | hempty
    · rcases Option.isSome_iff_exists.mp hsome with ⟨key, hf⟩
      rw [hf]
      exact exists_epochKeys hparam (hhonest.previous_key key hf) hver hidx
        hnd henough .previous (fun c hmem => (hshs c hmem).2)
    · refine ⟨[], ?_⟩
      unfold AntiMevProposal.decryptEpochKeys
      rw [hempty]
      rfl
  rcases hprev with ⟨previousKeys, hprev⟩
  rcases preBlock_of_accepted hacc with ⟨halig, allocations, hgas⟩
  rw [← ht]
  refine AntiMevProposal.exists_resolutions hrd.symm halig ?_ hgas hcur hprev strict
  intro envelope hmem
  rw [VerifiedProposal.preBlock, hacc.transactions_eq]
  exact (henve envelope hmem).1

/-- For every proposal that is accepted at an Anti-MEV height, every DKG state of its parent and all
honest validators with correct shares: all of them have a PreCommit, and any quorum of these
PreCommits resolves the pre-block, exactly if the Envelopes can be opened. -/
theorem accepted_finishes_iff [ReceiptRules] [PacketPoints] [Cipher] {spec : NeoXChainSpec}
    {now : Option UInt64} {provider : Provider} {request : DbftPrepareRequest}
    {contents : ProposalContents} {expectedPrimary : UInt8} {proposal : VerifiedProposal}
    (hverified : verifyProposal spec now provider request contents expectedPrimary = .ok proposal)
    (hactive : spec.isAntiMevActiveAtBlock request.sealingProposal.number = true)
    {state : StateProvider}
    (hstate : provider.stateByBlockHash proposal.parentStateHash = .ok state)
    {validators : GovernanceValidatorSet} {parameters : DkgParameters} {dkgState : DkgState}
    (hvalidators : readGovernanceValidatorSet state = .ok validators)
    (hparameters : DkgParameters.new validators.sorted.length = .ok parameters)
    (hdkg : readDkgStateWithParameters state parameters = .ok dkgState) {p q : Polynomial Scalar}
    {members : List (UInt32 × DkgPrivateShares)}
    (hhonest : HonestValidators validators.dkgIndices dkgState proposal.parentStateHash p q members)
    (hsome : members ≠ []) (strict : Bool) :
    (∃ antiMev, proposal.antiMev = some antiMev ∧
      (∀ member ∈ members, ∃ preCommit,
        antimevPrecommit member.2 antiMev dkgState proposal.parentStateHash = .ok preCommit) ∧
      ∀ quorum : List (UInt32 × DbftPreCommit), (quorum.map Prod.fst).Nodup →
        bftHonestNodeCount validators.sorted.length ≤ quorum.length →
        (∀ contribution ∈ quorum, ∃ member ∈ members, member.1 = contribution.1 ∧
          antimevPrecommit member.2 antiMev dkgState proposal.parentStateHash
            = .ok contribution.2) →
        ∃ resolutions, antiMev.decryptAndValidateWithMode quorum dkgState
          (bftHonestNodeCount validators.sorted.length) proposal.preBlock strict
            = .ok resolutions) ↔
      Openable dkgState contents.transactions := by
  rcases verifyProposal_spec hverified with ⟨accepted, haccepted⟩
  cases haccepted.opened.symm.trans hstate
  rw [← haccepted.header_eq] at hactive
  rcases fromTransactions_of_read hactive hvalidators hparameters hdkg haccepted.antiMev with
    ⟨antiMev, hsomeAntiMev, hantiMev⟩
  rw [haccepted.transactions_eq] at hantiMev
  constructor
  · rintro ⟨found, hfound, hproduced, -⟩
    cases hsomeAntiMev.symm.trans hfound
    rcases List.exists_mem_of_ne_nil members hsome with ⟨member, hmember⟩
    exact (exists_antimevPrecommit_iff hhonest hmember hantiMev).mp (hproduced member hmember)
  · intro hopenable
    refine ⟨antiMev, hsomeAntiMev, ?_, ?_⟩
    · exact fun member hmember =>
        (exists_antimevPrecommit_iff hhonest hmember hantiMev).mpr hopenable
    · intro quorum hnodup henough hmade
      exact quorum_resolves haccepted hvalidators hparameters hdkg hantiMev hhonest hnodup henough
        hmade ((openable_iff hantiMev).mp hopenable).1 strict

end PreCommit

/-! ## The Envelope of one validator -/

namespace PlainChain

scoped instance cipher : Cipher := RawTransactions.cipher

scoped instance packetPoints : PacketPoints := ⟨fun _ => rfl⟩

/-- The keys of a round whose commitment is the generator, without a key of the round before. -/
def soloDkgState (round : UInt64) : DkgState :=
  ⟨⟨1, 1, 1⟩, ⟨round, .ofNat 128 2, compress1 (generator1 : G1)⟩, none⟩

def soloShares : DkgPrivateShares := ⟨some ⟨.ofNat 32 1, none⟩, none⟩

end PlainChain

section Example

open PlainChain

theorem solo_honest (round : UInt64) (head : B256) :
    HonestValidators [1] (soloDkgState round) head 1 1 [(1, soloShares)] where
  nodup := nodup_singleton _
  mem_indices := by simp
  current_key := by
    refine ⟨?_, ?_⟩
    · rw [Polynomial.degree_one]
      exact (by decide : (0 : WithBot ℕ) < ((1 : ℕ) : WithBot ℕ))
    · rw [Polynomial.eval_one]
      exact (by decide +kernel : compress1 (generator1 : G1) = committeeKey ⟨1, 1, 1⟩ 1)
  current_share := by
    intro member hmem
    rw [mem_singleton.mp hmem]
    refine ⟨⟨.ofNat 32 1, none⟩, rfl, ?_, rfl⟩
    rw [Polynomial.eval_one]
    decide +kernel
  previous_key := fun key hkey => nomatch hkey
  previous_share := fun key hkey => nomatch hkey

/-- In the first round the validator opens the Envelope. -/
theorem accepted_finishes_firstRound :
    ∃ proposal antiMev preCommit resolutions,
      verifyProposal (soloSpec true) none (soloProvider 1) (soloRequest (.zero 32))
        soloContents 0 = .ok proposal ∧
      proposal.antiMev = some antiMev ∧
      antimevPrecommit soloShares antiMev (soloDkgState 1) proposal.parentStateHash
        = .ok preCommit ∧
      antiMev.decryptAndValidateWithMode [(1, preCommit)] (soloDkgState 1) 1 proposal.preBlock true
        = .ok resolutions := by
  have hsome : (verifyProposal (soloSpec true) none (soloProvider 1)
      (soloRequest (.zero 32)) soloContents 0).toOption.isSome = true := by
    decide +kernel
  cases hverified : verifyProposal (soloSpec true) none (soloProvider 1)
      (soloRequest (.zero 32)) soloContents 0 with
  | error reason =>
    rw [hverified] at hsome
    cases hsome
  | ok proposal =>
    have hvalidators : readGovernanceValidatorSet (plainState 1 [soloValidator])
        = .ok ⟨[soloValidator], [soloValidator], [1]⟩ := by decide +kernel
    have hdkg : readDkgStateWithParameters (plainState 1 [soloValidator]) ⟨1, 1, 1⟩
        = .ok (soloDkgState 1) := by decide +kernel
    have hrounds : soloContents.transactions.filterMap
        (envelopeRound (soloDkgState 1).current.round) = [1] := by decide +kernel
    have hopenable : Openable (soloDkgState 1) soloContents.transactions := by
      unfold Openable
      rw [hrounds]
      exact ⟨.inr (by simp [soloDkgState]), by decide⟩
    rcases (accepted_finishes_iff hverified (by decide) rfl hvalidators
      (by decide +kernel) hdkg (solo_honest 1 proposal.parentStateHash) (by simp) true).mpr
      hopenable with ⟨antiMev, hantiMev, hproduced, hquorum⟩
    rcases hproduced (1, soloShares) List.mem_cons_self with ⟨preCommit, hpreCommit⟩
    rcases hquorum [(1, preCommit)] (by simp) (by decide : bftHonestNodeCount 1 ≤ 1) (by
      intro contribution hmem
      rw [List.mem_singleton.mp hmem]
      exact ⟨(1, soloShares), List.mem_cons_self, rfl, hpreCommit⟩) with
      ⟨resolutions, hresolutions⟩
    exact ⟨proposal, antiMev, preCommit, resolutions, rfl, hantiMev, hpreCommit, hresolutions⟩

/-- In a second round after a round without a key, the proposal with an Envelope of the first round
is accepted and its validator has no PreCommit. -/
theorem accepted_without_precommit :
    ∃ proposal antiMev,
      verifyProposal (soloSpec true) none (soloProvider 2) (soloRequest (.zero 32))
        soloContents 0 = .ok proposal ∧
      (soloSpec true).isAntiMevActiveAtBlock
        (soloRequest (.zero 32)).sealingProposal.number = true ∧
      DkgParameters.new 1 = .ok ⟨1, 1, 1⟩ ∧
      readDkgStateWithParameters (plainState 2 [soloValidator]) ⟨1, 1, 1⟩
        = .ok (soloDkgState 2) ∧
      HonestValidators [1] (soloDkgState 2) proposal.parentStateHash 1 1 [(1, soloShares)] ∧
      proposal.antiMev = some antiMev ∧
      antimevPrecommit soloShares antiMev (soloDkgState 2) proposal.parentStateHash
        = .error .missingPreviousDkg := by
  have hfailed : ((verifyProposal (soloSpec true) none (soloProvider 2)
      (soloRequest (.zero 32)) soloContents 0).toOption.bind fun proposal =>
        proposal.antiMev.map fun antiMev =>
          decide (antimevPrecommit soloShares antiMev (soloDkgState 2) proposal.parentStateHash
            = .error .missingPreviousDkg)) = some true := by decide +kernel
  have hdkg : readDkgStateWithParameters (plainState 2 [soloValidator]) ⟨1, 1, 1⟩
      = .ok (soloDkgState 2) := by decide +kernel
  cases hverified : verifyProposal (soloSpec true) none (soloProvider 2)
      (soloRequest (.zero 32)) soloContents 0 with
  | error reason =>
    rw [hverified] at hfailed
    cases hfailed
  | ok proposal =>
    rw [hverified] at hfailed
    rcases Option.map_eq_some_iff.mp hfailed with ⟨antiMev, hantiMev, hfailed⟩
    exact ⟨proposal, antiMev, rfl, by decide, by decide +kernel, hdkg, solo_honest 2 _, hantiMev,
      of_decide_eq_true hfailed⟩

end Example

end NeoX
