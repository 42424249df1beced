import NeoX.Library.Postcondition
import NeoX.Node.PreCommit
import NeoX.Node.Reconstruction

/-!
# Reconstruction of accepted proposals

A proposal that was accepted is reconstructed from the resolutions of its Envelopes: the resolutions
match the Envelopes, the pool has the accounts of all senders, the sidecars match the blob
transactions, and the extra data can be rebuilt. What remains are failures of the state, of system
calls and of the storage of the next consensus.

Main results:

- `replayFrom_blobFree`: no blob transaction stays in a replayed sequence.
- `reconstruct_total`: how the reconstruction of an accepted proposal can fail.
-/

namespace NeoX

open List
open Except hiding ok error

/-- Failures of the state, of system calls, and of the storage of the next consensus. -/
def AntiMevReconstructionError.IsExternal : AntiMevReconstructionError → Prop
  | .provider _ => True
  | .execution _ => True
  | .governance _ => True
  | .dkgParameters _ => True
  | _ => False

/-- The functions of the packages agree on which transactions carry blobs, and the EVM refuses a
blob transaction without blobs. -/
class BlobRules [PoolFormat] [BlockEvm] [BlobFormat] : Prop where
  blobCount_isSome : ∀ transaction,
    (PoolFormat.blobCount transaction).isSome = isEip4844 transaction
  versionedHashes_isSome : ∀ transaction,
    (BlobFormat.blobVersionedHashes transaction).isSome = isEip4844 transaction
  execute_blobs : ∀ {transaction sender} {executor : BlockEvm.Executor} {output},
    (BlockEvm.executeTransactionWithoutCommit transaction sender).result executor = .ok output →
    BlobFormat.blobVersionedHashes transaction ≠ some []

/-! ## Resolutions -/

section Resolutions

variable [Curve] [PoolFormat] [Cipher]

theorem transactionIndex_resolveEnvelope (key : G1Bytes) (envelope : AntiMevEnvelope)
    (outer : Transaction) (outerSender : Address) (allocatedGas parentBaseFee : UInt64)
    (strict : Bool) :
    (resolveEnvelope key envelope outer outerSender allocatedGas parentBaseFee
      strict).transactionIndex = envelope.transactionIndex := by
  unfold resolveEnvelope
  split
  · rfl
  · split
    · rfl
    · rfl

/-- Envelopes are resolved one by one, each at its own position. -/
theorem transactionIndices_resolveEnvelopes {preBlock : AntiMevPreBlock} {allocations : List UInt64}
    {strict : Bool} {currentKeys previousKeys : List G1Bytes} {currentIndex previousIndex : Nat}
    {envelopes : List AntiMevEnvelope} {rs : List AntiMevEnvelopeResolution}
    (h : resolveEnvelopes preBlock allocations strict currentKeys previousKeys currentIndex
      previousIndex envelopes = .ok rs) :
    rs.map AntiMevEnvelopeResolution.transactionIndex
      = envelopes.map AntiMevEnvelope.transactionIndex := by
  induction envelopes generalizing currentIndex previousIndex rs with
  | nil =>
    cases h
    rfl
  | cons envelope envelopes ih =>
    rcases bind_ok h with ⟨outer, -, h⟩
    rcases bind_ok h with ⟨sender, -, h⟩
    rcases bind_ok h with ⟨allocated, -, h⟩
    rcases bind_ok h with ⟨rest, hr, h⟩
    cases h
    rw [map_cons, map_cons, transactionIndex_resolveEnvelope, ih hr]

end Resolutions

/-! ## Blob transactions -/

section BlobFree

variable [PoolFormat] [GasRules] {σ : Type} {execute : Execute σ} {replay next : Replay σ}
  {outer transaction : Transaction} {sender : Address} {transactionIndex : Nat}

theorem StaticPoolAdmission.isEip4844_of_add {admission after : StaticPoolAdmission}
    (h : admission.add sender transaction = .ok (.ok after)) : isEip4844 transaction = false := by
  unfold StaticPoolAdmission.add at h
  split at h
  · cases h
  · next hadmi =>
      obtain ⟨hplain, -⟩ := require_bind hadmi
      exact hplain

/-- A sequence without blob transactions. -/
def Replay.BlobFree (replay : Replay σ) : Prop :=
  ∀ transaction ∈ replay.sequence.transactions, isEip4844 transaction = false

omit [GasRules] in
theorem Replay.BlobFree.include (h : replay.BlobFree) (hplain : isEip4844 transaction = false)
    {decision : AntiMevTransactionDecision}
    (hseq : next.sequence = replay.sequence.include transaction sender decision) :
    next.BlobFree := by
  intro o ho
  rw [hseq] at ho
  rcases mem_append.mp ho with ho | ho
  · exact h o ho
  · rw [mem_singleton.mp ho]
    exact hplain

theorem Replay.BlobFree.includeOuter {included : AntiMevTransactionDecision}
    {failure : String → AntiMevDropReason} (h : replay.BlobFree)
    (hn : replay.includeOuter execute transactionIndex outer sender included failure
      = .ok next) : next.BlobFree := by
  rcases bind_ok hn with ⟨answer, hanswer, hn⟩
  cases answer with
  | error rejection =>
    cases hn
    exact h
  | ok admission =>
    dsimp only at hn
    split at hn
    · cases hn
      exact h.include (StaticPoolAdmission.isEip4844_of_add hanswer) rfl
    · cases hn
      exact h

theorem Replay.BlobFree.includeDecrypted (h : replay.BlobFree)
    (hn : replay.includeDecrypted execute transactionIndex outer transaction sender
      = .ok next) : next.BlobFree := by
  rcases bind_ok hn with ⟨answer, hanswer, hn⟩
  cases answer with
  | error rejection => exact h.includeOuter hn
  | ok admission =>
    dsimp only at hn
    split at hn
    · cases hn
      exact h.include (StaticPoolAdmission.isEip4844_of_add hanswer) rfl
    · next execution _ =>
        have hfailed : Replay.BlobFree
            { replay with admission := admission, execution := execution } := h
        exact hfailed.includeOuter hn

variable {envelopeIndices : List Nat}

theorem Replay.BlobFree.replayTransaction (h : replay.BlobFree)
    (hn : replayTransaction execute envelopeIndices replay transactionIndex outer sender
      = .ok next) : next.BlobFree := by
  unfold NeoX.replayTransaction at hn
  split at hn
  · cases hn
    exact h
  · generalize htaken : replay.takeResolution envelopeIndices transactionIndex = taken at hn
    rcases taken with ⟨found, mid⟩
    have hmid : mid.BlobFree := by
      unfold Replay.BlobFree
      rw [(takeResolution_spec htaken).1]
      exact h
    cases found with
    | none => exact hmid.includeOuter hn
    | some resolution =>
      cases resolution with
      | decrypted position transaction => exact hmid.includeDecrypted hn
      | fallback position reason => exact hmid.includeOuter hn

theorem replayFrom_blobFree {outers : List (Transaction × Address)} {start : Nat}
    (h : replay.BlobFree) (hn : replayFrom execute envelopeIndices start outers replay = .ok next) :
    next.BlobFree := by
  induction outers generalizing start replay with
  | nil =>
    cases hn
    exact h
  | cons first outers ih =>
    rcases bind_ok hn with ⟨mid, hmid, hn⟩
    exact ih (h.replayTransaction hmid) hn

end BlobFree

/-! ## Executed transactions -/

section Executed

variable [Crypto] [PoolFormat] [BlockEvm] {block : ExecutorBlock}
  {executor next : NeoXBlockExecutor} {transaction : Transaction} {sender : Address}

theorem evm_of_attemptTransaction {envelope : Bool} {output : BlockEvm.Output}
    (h : executor.attemptTransaction block envelope transaction sender = (.ok output, next)) :
    ∃ inner, (BlockEvm.executeTransactionWithoutCommit transaction sender).result inner
      = .ok output := by
  unfold NeoXBlockExecutor.attemptTransaction at h
  dsimp only at h
  split at h
  · next found hf =>
      cases h
      rcases Attempt.bind_eq_ok hf with ⟨_, -, hexec, -⟩
      exact ⟨_, hexec⟩
  · cases h

/-- A transaction that is executed has passed the EVM. -/
theorem evm_of_executeTransaction
    (h : executor.executeTransaction block transaction sender = (.ok (), next)) :
    ∃ inner output, (BlockEvm.executeTransactionWithoutCommit transaction sender).result inner
      = .ok output := by
  unfold NeoXBlockExecutor.executeTransaction at h
  split at h
  · next output attempted hatt =>
      unfold NeoXBlockExecutor.executeTransactionWithoutCommit at hatt
      dsimp only at hatt
      split at hatt
      · split at hatt
        · cases hatt
        · rcases evm_of_attemptTransaction hatt with ⟨inner, hinner⟩
          exact ⟨inner, output, hinner⟩
      · rcases evm_of_attemptTransaction hatt with ⟨inner, hinner⟩
        exact ⟨inner, output, hinner⟩
  · cases h

theorem evm_of_executeAll {txs : List (Transaction × Address)}
    (h : executeAll block txs executor = .ok next) :
    ∀ e ∈ txs, ∃ inner output,
      (BlockEvm.executeTransactionWithoutCommit e.1 e.2).result inner = .ok output := by
  induction txs generalizing executor with
  | nil => simp
  | cons first txs ih =>
    rw [executeAll, foldlM_cons] at h
    rcases bind_ok h with ⟨mid, hmid, h⟩
    split at hmid
    · next executed hexec =>
        cases hmid
        exact forall_mem_cons.mpr ⟨evm_of_executeTransaction hexec, ih h⟩
    · cases hmid

end Executed

/-! ## Sidecars -/

section Sidecars

variable [PoolFormat] [BlockEvm] [BlobFormat] [BlobRules]

/-- Both ways to count blob transactions agree on transactions that the EVM executes. -/
theorem length_blobTransactionHashes {txs : List Transaction}
    (h : ∀ transaction ∈ txs, BlobFormat.blobVersionedHashes transaction ≠ some []) :
    (blobTransactionHashes txs).length = (blobHashes txs).length := by
  induction txs with
  | nil => rfl
  | cons transaction txs ih =>
    rcases forall_mem_cons.mp h with ⟨h1, hr⟩
    have ih := ih hr
    have hsome := (BlobRules.blobCount_isSome transaction).trans
      (BlobRules.versionedHashes_isSome transaction).symm
    unfold blobTransactionHashes blobHashes at ih ⊢
    cases hhashes : BlobFormat.blobVersionedHashes transaction with
    | none =>
      rw [hhashes] at hsome
      rw [filterMap_cons_none hhashes, filter_cons_of_neg (by simp [hsome]), ih]
    | some hashes =>
      rw [hhashes] at hsome
      have hne : hashes ≠ [] := fun heq => h1 (heq ▸ hhashes)
      rw [filterMap_cons_some hhashes, filter_cons_of_pos (by simp [hsome]),
        filter_cons_of_pos (by simp [hne]), map_cons, length_cons, ih,
        length_cons]

theorem blobTransactionHashes_eq_nil {txs : List Transaction}
    (h : ∀ transaction ∈ txs, isEip4844 transaction = false) :
    blobTransactionHashes txs = [] := by
  unfold blobTransactionHashes
  rw [map_eq_nil_iff, filter_eq_nil_iff]
  intro transaction hmem
  rw [BlobRules.blobCount_isSome, h transaction hmem]
  exact Bool.false_ne_true

/-- The sidecars of an executed block are those of its blob transactions, and none is missing in a
sequence without blob transactions. -/
theorem retainBlobSidecars_of_blobFree {outer final : List Transaction}
    {sidecars : List BlobFormat.Sidecar}
    (hexec : ∀ transaction ∈ outer, BlobFormat.blobVersionedHashes transaction ≠ some [])
    (hside : validateProposalSidecars outer sidecars = .ok ())
    (hfinal : ∀ transaction ∈ final, isEip4844 transaction = false) :
    retainBlobSidecars outer final sidecars = .ok [] := by
  rcases bind_ok hside with ⟨_, hc, -⟩
  rw [require_eq_ok, ← length_blobTransactionHashes hexec] at hc
  rw [retainBlobSidecars, require_of _ hc, ok_bind, blobTransactionHashes_eq_nil hfinal]
  rfl

end Sidecars

/-! ## Accepted proposals -/

section Total

variable [Crypto] [Curve] [PoolFormat] [GasRules] [BlockEvm] [BlobFormat]

omit [Curve] [PoolFormat] [GasRules] [BlockEvm] [BlobFormat] in
/-- Extra data that was accepted can be rebuilt for any validators. -/
theorem exists_applyNextConsensusCommitments {spec : NeoXChainSpec} {header : Header}
    {extra : DbftExtraPrefix} (hver : extra.version = spec.extraVersionAtBlock header.number)
    (nextValidators : GovernanceValidatorSet) (key : Option G1Bytes) :
    ∃ next, applyNextConsensusCommitments spec header extra.signatureScheme nextValidators key
      = .ok next := by
  have hval : validPrefixFields extra.version extra.signatureScheme
      (fallbackCommitment extra.version nextValidators.sorted) = true := by
    have hold := extra.valid
    cases hk : extra.version with
    | v0 =>
      rw [hk, validPrefixFields, Bool.and_eq_true] at hold
      rw [validPrefixFields, hold.1]
      rfl
    | v1 => rfl
    | v2 => rfl
  rw [applyNextConsensusCommitments, ← hver, DbftExtraPrefix.new, dif_pos hval]
  exact ⟨_, rfl⟩

omit [GasRules] [BlobFormat] in
/-- The next consensus of a header that was accepted depends on the storage only. -/
theorem recomputeNextConsensus_ensures {spec : NeoXChainSpec} (header : Header)
    {extra : DbftExtraPrefix} (hx : DbftExtraPrefix.decode header.extraData = .ok extra)
    (hver : extra.version = spec.extraVersionAtBlock header.number)
    (hheight : header.number ≠ UInt64.ofNat (2 ^ 64 - 1)) (s : StateProvider)
    (bundle : BlockEvm.Bundle) :
    (recomputeNextConsensus spec s bundle header).Ensures (fun _ => True)
      AntiMevReconstructionError.IsExternal := by
  unfold recomputeNextConsensus
  refine (mapError_ensures fun _ => trivial).bind fun nextValidators _ => ?_
  rw [require_of _ hheight, ok_bind]
  refine (mapError_ensures fun _ => trivial).bind fun ps _ => ?_
  rw [hx, mapError_ok, ok_bind]
  rcases exists_applyNextConsensusCommitments hver nextValidators (nextPublicKey (readNextDkg
    (spec.isAntiMevActiveAtBlock (header.number + 1)) ps bundle s)) with ⟨next, hn⟩
  rw [hn]
  trivial

/-- The pool of a block has the accounts of its senders, so that only the state and the calls before
the first transaction can fail in a replay. -/
theorem replayProposal_ensures (spec : NeoXChainSpec) (s : StateProvider)
    (proposal : VerifiedProposal) (envelopeIndices : List Nat)
    (rs : FiniteMap Nat AntiMevEnvelopeResolution) :
    (replayProposal spec s proposal envelopeIndices rs).Ensures Replay.BlobFree
      AntiMevReconstructionError.IsExternal := by
  unfold replayProposal
  refine (mapError_ensures fun _ => trivial).bind fun admission hadmi => ?_
  refine (mapError_ensures fun _ => trivial).bind fun executor _ => ?_
  have hcovers := StaticPoolAdmission.new_covers hadmi
  have hreplay : ∃ next, replayFrom (reconstructionExecute
      (executorBlock spec proposal.block.header)) envelopeIndices 0
      (proposal.block.transactions.zip proposal.block.senders)
      ⟨.empty, 0, admission, rs, executor⟩ = .ok next :=
    exists_replayFrom (fun e hmem => (of_mem_zip hmem).2) 0 _ hcovers
  rcases hreplay with ⟨next, hn⟩
  rw [executeSequence, hn]
  exact replayFrom_blobFree (by simp [Replay.BlobFree, ReconstructedSequence.empty]) hn

/-- For every proposal that is accepted at an Anti-MEV height and all resolutions of its Envelopes:
whatever state the reconstruction finds, it fails only when the state, a system call or the storage
of the next consensus does. -/
theorem reconstruct_total [BlobRules] [Cipher] {spec : NeoXChainSpec} {now : Option UInt64}
    {provider : Provider} {request : DbftPrepareRequest} {contents : ProposalContents}
    {expectedPrimary : UInt8} {proposal : VerifiedProposal}
    (hverified : verifyProposal spec now provider request contents expectedPrimary = .ok proposal)
    (hactive : spec.isAntiMevActiveAtBlock proposal.block.header.number = true) :
    ∃ antiMev, proposal.antiMev = some antiMev ∧
      ∀ contributions dkgState threshold strict resolutions,
        antiMev.decryptAndValidateWithMode contributions dkgState threshold proposal.preBlock strict
          = .ok resolutions →
        ∀ (later : Provider) error,
          reconstructAntimevProposal spec later proposal resolutions = .error error →
          error.IsExternal := by
  rcases verifyProposal_spec hverified with ⟨state, haccepted⟩
  rcases readAntiMevProposal_spec hactive haccepted.antiMev with ⟨antiMev, hantiMev, hnodup⟩
  refine ⟨antiMev, hantiMev, fun contributions dkgState threshold strict resolutions hresolved later
    error herror => ?_⟩
  rcases AntiMevProposal.decryptAndValidateWithMode_eq_ok hresolved with
    ⟨allocations, currentKeys, previousKeys, -, -, -, hresolutions⟩
  rcases indexResolutions_of_perm hnodup
    (List.Perm.of_eq (transactionIndices_resolveEnvelopes hresolutions)) with ⟨indexed, hindexed, -⟩
  have hblobs : ∀ transaction ∈ proposal.block.transactions,
      BlobFormat.blobVersionedHashes transaction ≠ some [] := by
    rcases executeBlock_eq_ok.mp (executeProposal_spec haccepted.executed).1 with
      ⟨fresh, final, -, hfinal, -⟩
    have hlength : proposal.block.transactions.length ≤ proposal.block.senders.length := by
      rw [haccepted.transactions_eq]
      exact haccepted.recovered.length_eq.le
    intro transaction hmem
    rw [← List.map_fst_zip hlength] at hmem
    rcases List.mem_map.mp hmem with ⟨entry, hentry, rfl⟩
    rcases evm_of_executeAll hfinal entry hentry with ⟨inner, output, houtput⟩
    exact BlobRules.execute_blobs houtput
  rcases haccepted.headed with ⟨parent, primary, hheaded⟩
  rcases NeoXConsensus.validateProposalHeader_spec hheaded with
    ⟨⟨extra, hextra, -, hversion⟩, -⟩
  have hheight : proposal.block.header.number ≠ UInt64.ofNat (2 ^ 64 - 1) := by
    rcases haccepted.committed with ⟨_, -, hcommitted⟩
    obtain ⟨_, hcommitted⟩ := of_bind hcommitted
    obtain ⟨_, hcommitted⟩ := of_bind hcommitted
    rcases bind_ok hcommitted with ⟨_, hheight, -⟩
    exact require_eq_ok.mp hheight
  suffices h : (reconstructAntimevProposal spec later proposal resolutions).Ensures (fun _ => True)
      AntiMevReconstructionError.IsExternal by
    rwa [herror] at h
  rw [reconstructAntimevProposal, hantiMev, ofOption_some, ok_bind]
  dsimp only
  rw [hindexed, ok_bind]
  refine (mapError_ensures fun _ => trivial).bind fun opened _ => ?_
  refine (replayProposal_ensures spec opened proposal _ indexed).bind fun replay hreplay => ?_
  refine (mapError_ensures fun _ => trivial).bind fun finished _ => ?_
  refine (mapError_ensures fun _ => trivial).bind fun stateRoot _ => ?_
  rw [retainBlobSidecars_of_blobFree hblobs (haccepted.transactions_eq ▸ haccepted.sidecars)
    hreplay, ok_bind]
  -- the final header keeps the extra data and the height of the pre-block
  refine (recomputeNextConsensus_ensures (finalHeader proposal.block.header
    replay.sequence.transactions stateRoot finished.1) hextra hversion hheight opened
    finished.2).bind ?_
  intro _ _
  trivial

end Total

/-! ## A proposal of one validator -/

section Example

open PlainChain

theorem PlainChain.blobRules : BlobRules where
  blobCount_isSome _ := rfl
  versionedHashes_isSome _ := rfl
  execute_blobs _ h := nomatch h

/-- The decryption share of the validator resolves the Envelope, and the reconstruction can not fail
in another way. -/
theorem reconstruct_total_solo :
    ∃ proposal antiMev resolutions,
      verifyProposal (soloSpec true) none (soloProvider 1) (soloRequest (.zero 32))
        soloContents 0 = .ok proposal ∧
      proposal.antiMev = some antiMev ∧ resolutions ≠ [] ∧
      ∀ error, reconstructAntimevProposal (soloSpec true) (soloProvider 1) proposal resolutions
        = .error error → error.IsExternal := by
  have hsome : ((verifyProposal (soloSpec true) none (soloProvider 1)
      (soloRequest (.zero 32)) soloContents 0).toOption.bind fun proposal =>
        proposal.antiMev.bind fun antiMev =>
          (antimevPrecommit soloShares antiMev (soloDkgState 1)
            proposal.parentStateHash).toOption.bind fun preCommit =>
            (antiMev.decryptAndValidateWithMode [(1, preCommit)] (soloDkgState 1) 1
              proposal.preBlock true).toOption.map fun resolutions => resolutions.length)
      = some 1 := by decide +kernel
  rcases Option.bind_eq_some_iff.mp hsome with ⟨proposal, hproposal, hsome⟩
  rcases Option.bind_eq_some_iff.mp hsome with ⟨antiMev, hantiMev, hsome⟩
  rcases Option.bind_eq_some_iff.mp hsome with ⟨preCommit, -, hsome⟩
  rcases Option.map_eq_some_iff.mp hsome with ⟨resolutions, hresolutions, hlength⟩
  rw [toOption_eq_some] at hproposal hresolutions
  have := PlainChain.blobRules
  rcases reconstruct_total hproposal (by rw [(solo_block hproposal).1]; decide) with
    ⟨found, hfound, htotal⟩
  cases hantiMev.symm.trans hfound
  refine ⟨proposal, antiMev, resolutions, hproposal, hantiMev, ?_, ?_⟩
  · rintro rfl
    cases hlength
  · exact htotal _ _ _ _ _ hresolutions (soloProvider 1)

end Example

end NeoX
