import NeoX.Node.Proposal

/-!
# Reconstruction of a block

The final block of a round with Anti-MEV: the pre-block is replayed from its parent state with the
resolved Envelopes, and the header gets the results.

Main results:

- `reconstruct_reexecutes`: a fresh executor that executes the final transactions alone
  has the results of the final header.
- `reconstruct_of_fallbacks`: a pre-block whose Envelopes all fall back is
  reconstructed to itself.
-/

namespace NeoX

open List
open Except hiding ok error

/-! ## Resolutions and sidecars -/

inductive AntiMevReconstructionError where
  | missingMetadata
  | resolutionCount (expected actual : Nat)
  | duplicateEnvelope (transactionIndex : Nat)
  | duplicateResolution (transactionIndex : Nat)
  | unexpectedResolution (transactionIndex : Nat)
  | provider (error : String)
  | execution (error : BlockExecutionError)
  | governance (error : DbftStateError)
  | dkgParameters (error : DkgMaterialError)
  | extra (error : DbftExtraError)
  | heightOverflow
  | blobSidecarCount (expected actual : Nat)
  | missingBlobSidecar (transactionHash : B256)
  | panicked (message : String)
  deriving DecidableEq

section Reconstruction

variable [Crypto] [Curve] [PoolFormat] [GasRules] [BlockEvm] [BlobFormat]

def AntiMevEnvelopeResolution.transactionIndex : AntiMevEnvelopeResolution → Nat
  | .decrypted transactionIndex _ => transactionIndex
  | .fallback transactionIndex _ => transactionIndex

def collectEnvelopeIndices : List Nat → Finset Nat → Except AntiMevReconstructionError (Finset Nat)
  | [], indices => .ok indices
  | index :: rest, indices => do
      require (index ∉ indices) (.duplicateEnvelope index)
      collectEnvelopeIndices rest (insert index indices)

def insertResolutions (indices : Finset Nat) :
    List AntiMevEnvelopeResolution → FiniteMap Nat AntiMevEnvelopeResolution →
      Except AntiMevReconstructionError (FiniteMap Nat AntiMevEnvelopeResolution)
  | [], indexed => .ok indexed
  | resolution :: rest, indexed => do
      let index := resolution.transactionIndex
      require (index ∈ indices) (.unexpectedResolution index)
      require (indexed.lookup index).isNone (.duplicateResolution index)
      insertResolutions indices rest (indexed.insert index resolution)

/-- There is exactly one resolution for every Envelope. -/
def indexResolutions (proposal : AntiMevProposal) (resolutions : List AntiMevEnvelopeResolution) :
    Except AntiMevReconstructionError (FiniteMap Nat AntiMevEnvelopeResolution) := do
  require (resolutions.length = proposal.envelopes.length)
    (.resolutionCount proposal.envelopes.length resolutions.length)
  let indices ← collectEnvelopeIndices
    (proposal.envelopes.map AntiMevEnvelope.transactionIndex) ∅
  insertResolutions indices resolutions ∅

def blobTransactionHashes (transactions : List Transaction) : List B256 :=
  (transactions.filter fun transaction => (PoolFormat.blobCount transaction).isSome).map
    TransactionFormat.txHash

/-- Take the sidecars of transactions out of a map. -/
def takeSidecars : List B256 → FiniteMap B256 BlobFormat.Sidecar →
    Except AntiMevReconstructionError (List BlobFormat.Sidecar)
  | [], _ => .ok []
  | hash :: rest, sidecars => do
      let sidecar ← ofOption (.missingBlobSidecar hash) (sidecars.lookup hash)
      let retained ← takeSidecars rest (sidecars.erase hash)
      .ok (sidecar :: retained)

def retainBlobSidecars (outer final : List Transaction) (sidecars : List BlobFormat.Sidecar) :
    Except AntiMevReconstructionError (List BlobFormat.Sidecar) := do
  let outerHashes := blobTransactionHashes outer
  require (outerHashes.length = sidecars.length)
    (.blobSidecarCount outerHashes.length sidecars.length)
  let byTransaction := (outerHashes.zip sidecars).foldl
    (fun map (entry : B256 × BlobFormat.Sidecar) => map.insert entry.1 entry.2)
    (∅ : FiniteMap B256 BlobFormat.Sidecar)
  takeSidecars (blobTransactionHashes final) byTransaction

/-! ## The final block -/

/-- The final proposal with a decision for every outer transaction. -/
structure AntiMevReconstruction where
  proposal : VerifiedProposal
  decisions : List AntiMevTransactionDecision

/-- The commitments to the next consensus of a final header, from the state after its block. -/
def recomputeNextConsensus (spec : NeoXChainSpec) (state : StateProvider) (bundle : BlockEvm.Bundle)
    (header : Header) :
    Except AntiMevReconstructionError (Header × GovernanceValidatorSet × Option DkgState) := do
  let nextValidators ← (readNextValidators bundle state).mapError .governance
  require (header.number ≠ UInt64.ofNat (2 ^ 64 - 1)) .heightOverflow
  let parameters ← (DkgParameters.new nextValidators.sorted.length).mapError .dkgParameters
  let nextDkg := readNextDkg (spec.isAntiMevActiveAtBlock (header.number + 1)) parameters bundle
    state
  let extra ← (DbftExtraPrefix.decode header.extraData).mapError .extra
  let header ← (applyNextConsensusCommitments spec header extra.signatureScheme nextValidators
    (nextPublicKey nextDkg)).mapError .extra
  .ok (header, nextValidators, nextDkg)

/-- The header of a pre-block with the results of the final transactions. -/
def finalHeader (header : Header) (transactions : List Transaction) (stateRoot : B256)
    (result : BlockExecutionResult BlockEvm.BlockReceipt) : Header :=
  { header with
    stateRoot := stateRoot
    transactionsRoot := BlockEvm.calculateTransactionRoot transactions
    receiptsRoot := BlockEvm.calculateReceiptRoot result.receipts
    logsBloom := BlockEvm.logsBloom result.receipts
    gasUsed := result.gasUsed
    blobGasUsed := header.blobGasUsed.map fun _ => bodyBlobGasUsed transactions }

def replayProposal (spec : NeoXChainSpec) (state : StateProvider) (proposal : VerifiedProposal)
    (envelopeIndices : List Nat) (resolutions : FiniteMap Nat AntiMevEnvelopeResolution) :
    Except AntiMevReconstructionError (Replay NeoXBlockExecutor) := do
  let block := proposal.block
  let info := executorBlock spec block.header
  let admission ← (StaticPoolAdmission.new state ⟨proposal.parentGasLimit, proposal.parentSpec⟩
    block.senders).mapError .provider
  let executor ← ((executorForBlock spec state block).applyPreExecutionChanges info).mapError
    .execution
  (executeSequence block.transactions block.senders envelopeIndices admission resolutions
    (reconstructionExecute info) executor).mapError .panicked

/-- Reconstruct the final block of a proposal from the resolutions of its Envelopes. -/
def reconstructAntimevProposal (spec : NeoXChainSpec) (provider : Provider)
    (proposal : VerifiedProposal) (resolutions : List AntiMevEnvelopeResolution) :
    Except AntiMevReconstructionError AntiMevReconstruction := do
  let antiMev ← ofOption .missingMetadata proposal.antiMev
  let envelopeIndices := antiMev.envelopes.map AntiMevEnvelope.transactionIndex
  let resolutions ← indexResolutions antiMev resolutions
  let state ← (provider.stateByBlockHash proposal.parentStateHash).mapError .provider
  let block := proposal.block
  let replay ← replayProposal spec state proposal envelopeIndices resolutions
  let sequence := replay.sequence
  let (result, bundle) ← (replay.execution.finish spec
    (executorBlock spec block.header)).mapError .execution
  let stateRoot ← (BlockEvm.stateRoot state bundle).mapError .provider
  let sidecars ← retainBlobSidecars block.transactions sequence.transactions proposal.sidecars
  let header := finalHeader block.header sequence.transactions stateRoot result
  let (header, nextValidators, nextDkg) ← recomputeNextConsensus spec state bundle header
  .ok ⟨{ proposal with
    block := ⟨⟨header, sequence.transactions, block.withdrawals⟩, sequence.senders⟩
    sidecars := sidecars
    execution := ⟨bundle, result⟩
    nextValidators := nextValidators
    nextDkg := nextDkg }, sequence.decisions⟩

/-! ## Execution of the final block -/

variable {spec : NeoXChainSpec} {state : StateProvider}

omit [GasRules] [BlobFormat] in
theorem recomputeNextConsensus_spec {bundle : BlockEvm.Bundle} {header next : Header}
    {nextValidators : GovernanceValidatorSet} {nextDkg : Option DkgState}
    (h : recomputeNextConsensus spec state bundle header = .ok (next, nextValidators, nextDkg)) :
    next = { header with extraData := next.extraData, mixHash := next.mixHash } := by
  iterate 4 obtain ⟨_, h⟩ := of_bind h
  obtain ⟨_, happ, h⟩ := mapError_bind h
  cases h
  obtain ⟨_, happ⟩ := of_bind happ
  cases happ
  rfl

/-- What the steps of a reconstruction have computed. -/
structure Reconstructed (spec : NeoXChainSpec) (state : StateProvider) (proposal : VerifiedProposal)
    (replay : Replay NeoXBlockExecutor) (final : VerifiedProposal) : Prop where
  replayed : ∃ envelopeIndices resolutions,
    replayProposal spec state proposal envelopeIndices resolutions = .ok replay
  finished : replay.execution.finish spec (executorBlock spec proposal.block.header)
    = .ok (final.execution.result, final.execution.state)
  rooted : ∃ stateRoot, BlockEvm.stateRoot state final.execution.state = .ok stateRoot ∧
    final.block.header = { finalHeader proposal.block.header replay.sequence.transactions stateRoot
      final.execution.result with
        extraData := final.block.header.extraData
        mixHash := final.block.header.mixHash }
  body : final.block = ⟨⟨final.block.header, replay.sequence.transactions,
    proposal.block.withdrawals⟩, replay.sequence.senders⟩

variable {proposal : VerifiedProposal} {provider : Provider}

theorem reconstructAntimevProposal_spec {rs : List AntiMevEnvelopeResolution}
    {reconstruction : AntiMevReconstruction}
    (h : reconstructAntimevProposal spec provider proposal rs = .ok reconstruction) :
    ∃ state replay, provider.stateByBlockHash proposal.parentStateHash = .ok state ∧
      Reconstructed spec state proposal replay reconstruction.proposal := by
  rcases bind_ok h with ⟨antiMev, -, h⟩
  rcases bind_ok h with ⟨indexed, -, h⟩
  obtain ⟨state, hs, h⟩ := mapError_bind h
  rcases bind_ok h with ⟨replay, hreplay, h⟩
  obtain ⟨⟨r, bundle⟩, hfinish, h⟩ := mapError_bind h
  obtain ⟨stateRoot, hroot, h⟩ := mapError_bind h
  rcases bind_ok h with ⟨sidecars, -, h⟩
  rcases bind_ok h with ⟨⟨header, nextValidators, nextDkg⟩, hn, h⟩
  cases h
  exact ⟨state, replay, hs, {
    replayed := ⟨_, _, hreplay⟩
    finished := hfinish
    rooted := ⟨stateRoot, hroot, recomputeNextConsensus_spec hn⟩
    body := rfl }⟩

/-- A header that records the results of its transactions on a parent state. -/
structure Records (state : StateProvider) (block : Block) (execution : BlockExecutionOutput) :
    Prop where
  stateRoot : BlockEvm.stateRoot state execution.state = .ok block.header.stateRoot
  transactionsRoot :
    block.header.transactionsRoot = BlockEvm.calculateTransactionRoot block.transactions
  receiptsRoot :
    block.header.receiptsRoot = BlockEvm.calculateReceiptRoot execution.result.receipts
  logsBloom : block.header.logsBloom = BlockEvm.logsBloom execution.result.receipts
  gasUsed : block.header.gasUsed = execution.result.gasUsed

variable {replay : Replay NeoXBlockExecutor} {final : VerifiedProposal}

theorem Reconstructed.records (h : Reconstructed spec state proposal replay final) :
    Records state final.block.toBlock final.execution := by
  rcases h.rooted with ⟨stateRoot, hroot, hh⟩
  have hb := h.body
  have htxs : final.block.transactions = replay.sequence.transactions := by rw [hb]
  constructor
  · rw [hh]
    exact hroot
  · rw [htxs, hh]
    rfl
  · rw [hh]
    rfl
  · rw [hh]
    rfl
  · rw [hh]
    rfl

section Reexecution

variable [EquivalentExecutors]

/-- The final block has the environment of the pre-block and an equivalent executor. -/
theorem Reconstructed.executor_equiv {spec : NeoXChainSpec} {state : StateProvider}
    {proposal : VerifiedProposal} (h : Reconstructed spec state proposal replay final) :
    executorBlock spec final.block.header = executorBlock spec proposal.block.header ∧
      executorForBlock spec state proposal.block ≈ executorForBlock spec state final.block := by
  rcases h.rooted with ⟨stateRoot, -, hh⟩
  have henv : evmEnv spec final.block.header = evmEnv spec proposal.block.header := by
    rw [hh]
    rfl
  constructor
  · unfold executorBlock
    rw [henv]
  · refine ⟨?_, rfl, rfl⟩
    unfold executorForBlock
    rw [henv]
    apply EquivalentExecutors.create_equiv
    unfold contextForBlock
    rw [h.body, hh]
    rfl

/-- For every proposal and every list of resolutions that is reconstructed: a fresh executor on the
same parent state accepts the final transactions alone, and has exactly the receipts, the gas and
the state that the final header records. -/
theorem reconstruct_reexecutes {spec : NeoXChainSpec} {provider : Provider}
    {proposal : VerifiedProposal} {resolutions : List AntiMevEnvelopeResolution}
    {reconstruction : AntiMevReconstruction}
    (h : reconstructAntimevProposal spec provider proposal resolutions = .ok reconstruction) :
    ∃ state, provider.stateByBlockHash proposal.parentStateHash = .ok state ∧
      executeBlock spec state reconstruction.proposal.block
        = .ok reconstruction.proposal.execution ∧
      Records state reconstruction.proposal.block.toBlock reconstruction.proposal.execution := by
  rcases reconstructAntimevProposal_spec h with ⟨state, replay, hstate, hfinal⟩
  refine ⟨state, hstate, ?_, hfinal.records⟩
  rcases hfinal.replayed with ⟨envelopeIndices, indexed, hreplay⟩
  rcases bind_ok hreplay with ⟨admission, -, hreplay⟩
  obtain ⟨executor, hexecutor, hreplay⟩ := mapError_bind hreplay
  rw [mapError_eq_ok] at hreplay
  rcases hfinal.executor_equiv with ⟨hinfo, hstart⟩
  rcases NeoXBlockExecutor.applyPreExecutionChanges_congr hstart hexecutor with
    ⟨fresh, hfresh, hequiv⟩
  rcases replayFrom_spec (fun _ _ hlookup => hlookup) hreplay with ⟨decisions, hreplayed⟩
  have hcounted := NeoXBlockExecutor.wellCounted_of_pre rfl hexecutor
  rcases executeAll_of_replayed hreplayed hcounted rfl rfl hequiv with ⟨last, hall, hsame⟩
  rw [executeBlock_eq_ok, hinfo]
  refine ⟨fresh, last, hfresh, ?_, ?_⟩
  · rw [hfinal.body]
    exact hall
  · rw [← NeoXBlockExecutor.finish_congr spec _ hsame]
    exact hfinal.finished

end Reexecution

/-! ## Envelopes that all fall back -/

omit [Crypto] [Curve] [PoolFormat] [GasRules] [BlockEvm] [BlobFormat] in
theorem collectEnvelopeIndices_of_nodup (envelopeIndices : List Nat) (indices : Finset Nat)
    (hnd : envelopeIndices.Nodup) (hfresh : ∀ i ∈ envelopeIndices, i ∉ indices) :
    ∃ collected, collectEnvelopeIndices envelopeIndices indices = .ok collected ∧
      (∀ i ∈ envelopeIndices, i ∈ collected) ∧ indices ⊆ collected := by
  induction envelopeIndices generalizing indices with
  | nil => exact ⟨indices, rfl, by simp, Finset.Subset.refl _⟩
  | cons i rest ih =>
    rw [nodup_cons] at hnd
    have hr : ∀ o ∈ rest, o ∉ insert i indices := by
      intro o hmem
      rw [Finset.mem_insert, not_or]
      exact ⟨fun heq => hnd.1 (heq ▸ hmem), hfresh o (mem_cons_of_mem _ hmem)⟩
    rcases ih (insert i indices) hnd.2 hr with ⟨collected, hcoll, hall, hsub⟩
    refine ⟨collected, ?_, ?_, (Finset.subset_insert _ _).trans hsub⟩
    · rw [collectEnvelopeIndices, require_of _ (hfresh i mem_cons_self), ok_bind, hcoll]
    · intro o hmem
      rcases mem_cons.mp hmem with rfl | hmem
      · exact hsub (Finset.mem_insert_self _ _)
      · exact hall o hmem

omit [Crypto] [Curve] [GasRules] [BlockEvm] [BlobFormat] in
theorem insertResolutions_of_nodup {idx : Finset Nat} (rs : List AntiMevEnvelopeResolution)
    (indexed : FiniteMap Nat AntiMevEnvelopeResolution)
    (hnd : (rs.map AntiMevEnvelopeResolution.transactionIndex).Nodup)
    (hknown : ∀ resolution ∈ rs, resolution.transactionIndex ∈ idx)
    (hfresh : ∀ resolution ∈ rs, indexed.lookup resolution.transactionIndex = none) :
    ∃ r, insertResolutions idx rs indexed = .ok r ∧
      ∀ position resolution, r.lookup position = some resolution →
        resolution ∈ rs ∨ indexed.lookup position = some resolution := by
  induction rs generalizing indexed with
  | nil => exact ⟨indexed, rfl, fun _ _ => .inr⟩
  | cons a rest ih =>
    rw [map_cons, nodup_cons] at hnd
    have hget : ∀ position, (indexed.insert a.transactionIndex a).lookup position
        = if position = a.transactionIndex then some a else indexed.lookup position :=
      fun position => FiniteMap.lookup_insert_if _ _ _ _
    have hr : ∀ resolution ∈ rest, (indexed.insert a.transactionIndex a).lookup
        resolution.transactionIndex = none := by
      intro resolution hmem
      have hne : resolution.transactionIndex ≠ a.transactionIndex := fun heq =>
        hnd.1 (heq ▸ mem_map_of_mem hmem)
      rw [hget, if_neg hne]
      exact hfresh resolution (mem_cons_of_mem _ hmem)
    rcases ih (indexed.insert a.transactionIndex a) hnd.2
      (fun resolution hmem => hknown resolution (mem_cons_of_mem _ hmem)) hr with
      ⟨r, hres, hspec⟩
    refine ⟨r, ?_, ?_⟩
    · have hno : (indexed.lookup a.transactionIndex).isNone = true := by
        rw [hfresh a mem_cons_self]
        rfl
      rw [insertResolutions, require_of _ (hknown a mem_cons_self), ok_bind,
        require_of _ hno, ok_bind, hres]
    · intro position resolution hsome
      rcases hspec position resolution hsome with hmem | hf
      · exact .inl (mem_cons_of_mem _ hmem)
      · rw [hget] at hf
        split at hf
        · cases hf
          exact .inl mem_cons_self
        · exact .inr hf

omit [Crypto] [GasRules] [BlockEvm] [BlobFormat] in
/-- One resolution for every Envelope is indexed, and nothing else. -/
theorem indexResolutions_of_perm {proposal : AntiMevProposal}
    {resolutions : List AntiMevEnvelopeResolution}
    (hnd : (proposal.envelopes.map AntiMevEnvelope.transactionIndex).Nodup)
    (hperm : (resolutions.map AntiMevEnvelopeResolution.transactionIndex).Perm
      (proposal.envelopes.map AntiMevEnvelope.transactionIndex)) :
    ∃ indexed, indexResolutions proposal resolutions = .ok indexed ∧
      ∀ pos resolution, indexed.lookup pos = some resolution →
        resolution ∈ resolutions := by
  have hlen : resolutions.length = proposal.envelopes.length := by
    have heq := hperm.length_eq
    rwa [length_map, length_map] at heq
  rcases collectEnvelopeIndices_of_nodup _ ∅ hnd (fun i _ => Finset.notMem_empty i) with
    ⟨collected, hcoll, hall, -⟩
  rcases insertResolutions_of_nodup resolutions ∅ (hperm.nodup_iff.mpr hnd)
    (fun resolution hmem => hall _ (hperm.mem_iff.mp (mem_map_of_mem hmem)))
    (fun _ _ => rfl) with ⟨indexed, hinde, hspec⟩
  refine ⟨indexed, ?_, ?_⟩
  · rw [indexResolutions, require_of _ hlen, ok_bind, hcoll, ok_bind, hinde]
  · intro pos resolution hsome
    exact (hspec pos resolution hsome).resolve_right (fun hempty => nomatch hempty)

omit [Curve] [BlobFormat] in
/-- Transactions that verification admits and executes pass as they are. -/
theorem passes_of_admitted {block : ExecutorBlock} (outers : List (Transaction × Address)) (i : Nat)
    {admission : StaticPoolAdmission} {exec final : NeoXBlockExecutor}
    (hplain : ∀ e ∈ outers, isEip4844 e.1 = false) (hadmi : admitFrom i outers admission = .ok ())
    (hexec : executeAll block outers exec = .ok final) :
    Passes (reconstructionExecute block) admission exec outers final := by
  induction outers generalizing i admission exec with
  | nil =>
    cases hexec
    exact .nil
  | cons e rest ih =>
    rcases e with ⟨outer, sender⟩
    have h1 := hplain (outer, sender) mem_cons_self
    rw [admitFrom, if_neg (by rw [h1]; exact Bool.false_ne_true)] at hadmi
    obtain ⟨answer, hanswer, hadmi⟩ := mapError_bind hadmi
    obtain ⟨next, hn, hadmi⟩ := mapError_bind hadmi
    subst hn
    unfold executeAll at hexec
    rw [foldlM_cons] at hexec
    rcases bind_ok hexec with ⟨mid, hmid, hexec⟩
    have hstep : reconstructionExecute block exec outer sender = (.ok (), mid) := by
      unfold reconstructionExecute
      split at hmid
      · next hok =>
          cases hmid
          rw [hok]
      · cases hmid
    exact .cons hanswer hstep
      (ih (i + 1) (fun e hmem => hplain e (mem_cons_of_mem _ hmem)) hadmi
        hexec)

/-- A transaction without blobs; the functions of the packages agree on it. -/
def IsPlain (transaction : Transaction) : Prop :=
  isEip4844 transaction = false ∧ PoolFormat.blobCount transaction = none ∧
    BlobFormat.blobVersionedHashes transaction = none

omit [Crypto] [Curve] [GasRules] [BlockEvm] in
theorem plain_transactions {txs : List Transaction} (hplain : ∀ tx ∈ txs, IsPlain tx) :
    blobHashes txs = [] ∧ blobTransactionHashes txs = [] ∧
      bodyBlobGasUsed txs = 0 := by
  induction txs with
  | nil => exact ⟨rfl, rfl, rfl⟩
  | cons tx txs ih =>
    rcases ih (fun o hmem => hplain o (mem_cons_of_mem _ hmem)) with
      ⟨hhashes, htxs, hgas⟩
    rcases hplain tx mem_cons_self with ⟨-, hc, hvers⟩
    refine ⟨?_, ?_, ?_⟩
    · rw [blobHashes, filterMap_cons_none hvers]
      exact hhashes
    · rw [blobTransactionHashes, filter_cons_of_neg (by rw [hc]; exact Bool.false_ne_true)]
      exact htxs
    · rw [bodyBlobGasUsed, map_cons, sum_cons, blobGas, hc]
      exact (UInt64.zero_add _).trans hgas

omit [Crypto] [Curve] [GasRules] [BlockEvm] in
theorem retainBlobSidecars_of_plain {txs : List Transaction} {sidecars : List BlobFormat.Sidecar}
    (hplain : ∀ tx ∈ txs, IsPlain tx) (hside : validateProposalSidecars txs sidecars = .ok ()) :
    retainBlobSidecars txs txs sidecars = .ok sidecars := by
  rcases plain_transactions hplain with ⟨hhashes, htxs, -⟩
  rcases bind_ok hside with ⟨_, hc, -⟩
  rw [require_eq_ok, hhashes] at hc
  have hnil : sidecars = [] := eq_nil_of_length_eq_zero hc.symm
  rw [retainBlobSidecars, htxs, hnil]
  rfl

omit [Crypto] [Curve] [GasRules] [BlobFormat] in
/-- An accepted header is the final header of its own transactions and results. -/
theorem finalHeader_eq {block : Block} {r : BlockExecutionResult BlockEvm.BlockReceipt}
    (hbyza : spec.byzantiumActiveAtBlock block.header.number = true)
    (hbefore : spec.cancunActiveAtTimestamp block.header.timestamp = false →
      block.header.blobGasUsed = none) (hb : validateBlockPreExecution spec block = .ok ())
    (hres : validateBlockPostExecution spec block.header r = .ok ()) :
    finalHeader block.header block.transactions block.header.stateRoot r = block.header := by
  rcases validateBlockPreExecution_spec hb with ⟨htxs, hcancun⟩
  rcases validateBlockPostExecution_spec hres with ⟨hgas, hrece⟩
  rcases hrece hbyza with ⟨hrecei, hbloom⟩
  have hblobs : (block.header.blobGasUsed.map fun _ => bodyBlobGasUsed block.transactions)
      = block.header.blobGasUsed := by
    cases hact : spec.cancunActiveAtTimestamp block.header.timestamp with
    | false => rw [hbefore hact, Option.map_none]
    | true => rw [hcancun hact, Option.map_some]
  rw [finalHeader, htxs, hrecei, hbloom, hblobs, ← hgas]

omit [GasRules] [BlobFormat] in
/-- The commitments of an accepted header are recomputed to themselves. -/
theorem recomputeNextConsensus_eq {header : Header} {extra : DbftExtraPrefix}
    {bundle : BlockEvm.Bundle} {nextValidators : GovernanceValidatorSet} {nextDkg : Option DkgState}
    (hx : DbftExtraPrefix.decode header.extraData = .ok extra)
    (hlen : header.extraData.length = extra.version.prefixLen)
    (hver : extra.version = spec.extraVersionAtBlock header.number)
    (h : checkNextConsensus spec state header extra bundle = .ok (nextValidators, nextDkg)) :
    recomputeNextConsensus spec state bundle header = .ok (header, nextValidators, nextDkg) := by
  have happ := applyNextConsensusCommitments_eq hx hlen hver h
  obtain ⟨vals, hvals, h⟩ := mapError_bind h
  obtain ⟨_, h⟩ := of_bind h
  obtain ⟨hheight, h⟩ := require_bind h
  obtain ⟨ps, hparam, h⟩ := mapError_bind h
  obtain ⟨_, h⟩ := of_bind h
  cases h
  rw [recomputeNextConsensus, hvals, mapError_ok, ok_bind, require_of _ hheight, ok_bind, hparam,
    mapError_ok, ok_bind, hx, mapError_ok, ok_bind, happ, mapError_ok, ok_bind]

/-- The pre-block of an accepted proposal without blobs is replayed to itself when no Envelope
resolves to an inner transaction. -/
theorem replayProposal_of_fallbacks {req : DbftPrepareRequest} {contents : ProposalContents}
    (hacc : Accepted spec provider req contents proposal state)
    (hplain : ∀ tx ∈ proposal.block.transactions, IsPlain tx) (envelopeIndices : List Nat)
    {rs : FiniteMap Nat AntiMevEnvelopeResolution} (hkept : ∀ pos i tx,
      rs.lookup pos ≠ some (.decrypted i tx)) :
    ∃ replay, replayProposal spec state proposal envelopeIndices rs = .ok replay ∧
      replay.sequence.transactions = proposal.block.transactions ∧
      replay.sequence.senders = proposal.block.senders ∧
      replay.execution.finish spec (executorBlock spec proposal.block.header)
        = .ok (proposal.execution.result, proposal.execution.state) := by
  have hlen : proposal.block.transactions.length = proposal.block.senders.length := by
    rw [hacc.transactions_eq]
    exact hacc.recovered.length_eq
  obtain ⟨admission, hadmi, hadmit⟩ := mapError_bind hacc.admitted
  rcases executeBlock_eq_ok.mp (executeProposal_spec hacc.executed).1 with
    ⟨fresh, final, hfresh, hfinal, hfini⟩
  have hpasses := passes_of_admitted _ 0
    (fun e hmem => (hplain e.1 (of_mem_zip hmem).1).1) hadmit hfinal
  rcases replayFrom_of_passes envelopeIndices _ 0
    ⟨.empty, 0, admission, rs, fresh⟩ rfl hkept hpasses with
    ⟨replay, hreplay, rfl, htxs, hsend⟩
  refine ⟨replay, ?_, ?_, ?_, hfini⟩
  · rw [replayProposal, hadmi, mapError_ok, ok_bind, hfresh, mapError_ok,
      ok_bind, executeSequence, hreplay, mapError_ok]
  · rw [htxs, map_fst_zip hlen.le]
    rfl
  · rw [hsend, map_snd_zip hlen.ge]
    rfl

omit [GasRules] [BlockEvm] [BlobFormat] in
/-- At an Anti-MEV height the Envelopes of a block are read, and their positions are distinct. -/
theorem readAntiMevProposal_spec {block : Block} {antiMev : Option AntiMevProposal}
    (hact : spec.isAntiMevActiveAtBlock block.header.number = true)
    (h : readAntiMevProposal spec state block = .ok antiMev) :
    ∃ proposal, antiMev = some proposal ∧
      (proposal.envelopes.map AntiMevEnvelope.transactionIndex).Nodup := by
  rw [readAntiMevProposal, if_pos hact] at h
  iterate 3 obtain ⟨_, h⟩ := of_bind h
  obtain ⟨proposal, hprop, h⟩ := mapError_bind h
  rcases bind_ok hprop with ⟨envelopes, henve, hprop⟩
  cases hprop
  cases h
  refine ⟨_, rfl, (AntiMevProposal.envelopesFrom_increasing henve).1.imp ?_⟩
  intro a b hlt
  exact hlt.ne

/-- For every proposal without blob transactions that is accepted at an Anti-MEV height: if every
Envelope resolves to a fallback, the final block is the pre-block, with all that was verified of
it. -/
theorem reconstruct_of_fallbacks {spec : NeoXChainSpec} {now : Option UInt64} {provider : Provider}
    {request : DbftPrepareRequest} {contents : ProposalContents} {expectedPrimary : UInt8}
    {proposal : VerifiedProposal}
    (hverified : verifyProposal spec now provider request contents expectedPrimary = .ok proposal)
    (hactive : spec.isAntiMevActiveAtBlock proposal.block.header.number = true)
    (hbyzantium : spec.byzantiumActiveAtBlock proposal.block.header.number = true)
    (hplain : ∀ transaction ∈ proposal.block.transactions, IsPlain transaction) :
    ∃ antiMev, proposal.antiMev = some antiMev ∧
      ∀ resolutions : List AntiMevEnvelopeResolution,
        (resolutions.map AntiMevEnvelopeResolution.transactionIndex).Perm
          (antiMev.envelopes.map AntiMevEnvelope.transactionIndex) →
        (∀ resolution ∈ resolutions, ∃ index reason, resolution = .fallback index reason) →
        ∃ decisions, reconstructAntimevProposal spec provider proposal resolutions
          = .ok ⟨proposal, decisions⟩ := by
  rcases verifyProposal_spec hverified with ⟨state, haccepted⟩
  rcases readAntiMevProposal_spec hactive haccepted.antiMev with ⟨antiMev, hantiMev, hnodup⟩
  refine ⟨antiMev, hantiMev, fun resolutions hperm hfallback => ?_⟩
  rcases indexResolutions_of_perm hnodup hperm with ⟨indexed, hindexed, hmember⟩
  have hkept : ∀ position index transaction,
      indexed.lookup position ≠ some (.decrypted index transaction) := by
    intro position index transaction hsome
    rcases hfallback _ (hmember position _ hsome) with ⟨_, _, hcontra⟩
    cases hcontra
  rcases replayProposal_of_fallbacks haccepted hplain
    (antiMev.envelopes.map AntiMevEnvelope.transactionIndex) hkept with
    ⟨replay, hreplay, htransactions, hsenders, hfinished⟩
  rcases haccepted.headed with ⟨parent, primary, hheaded⟩
  rcases NeoXConsensus.validateProposalHeader_spec hheaded with
    ⟨⟨prefixed, hprefixed, hlength, hversion⟩, hcancun⟩
  rcases haccepted.committed with ⟨extra, hextra, hcommitted⟩
  cases hprefixed.symm.trans hextra
  rcases executeProposal_spec haccepted.executed with ⟨-, hresult, hroot⟩
  have hheader := finalHeader_eq hbyzantium hcancun haccepted.body hresult
  have hnext := recomputeNextConsensus_eq hextra hlength hversion hcommitted
  have hsidecars := retainBlobSidecars_of_plain hplain
    (haccepted.transactions_eq ▸ haccepted.sidecars)
  refine ⟨replay.sequence.decisions, ?_⟩
  rw [reconstructAntimevProposal, hantiMev, Except.ofOption, ok_bind]
  dsimp only
  rw [hindexed, ok_bind, haccepted.opened, mapError_ok, ok_bind, hreplay,
    ok_bind, hfinished, mapError_ok, ok_bind]
  dsimp only
  rw [hroot, mapError_ok, ok_bind, htransactions, hsenders, hsidecars, ok_bind,
    hheader, hnext, ok_bind, ← hantiMev]

end Reconstruction

/-! ## Reconstructions of one validator -/

section Example

open PlainChain

/-- What a proposal of the validator is reconstructed to, under rules with or without Byzantium. -/
def soloReconstruction (byzantium : Bool) (receiptsRoot : B256)
    (resolution : AntiMevEnvelopeResolution) : Option (VerifiedProposal × AntiMevReconstruction) :=
  match verifyProposal (soloSpec byzantium) none (soloProvider 1) (soloRequest receiptsRoot)
      soloContents 0 with
  | .error _ => none
  | .ok proposal =>
    match reconstructAntimevProposal (soloSpec byzantium) (soloProvider 1) proposal
      [resolution] with
    | .error _ => none
    | .ok reconstruction => some (proposal, reconstruction)

variable {receiptsRoot : B256} {byzantium : Bool}

theorem soloReconstruction_eq_some {resolution : AntiMevEnvelopeResolution}
    {proposal : VerifiedProposal} {reconstruction : AntiMevReconstruction}
    (h : soloReconstruction byzantium receiptsRoot resolution = some (proposal, reconstruction)) :
    verifyProposal (soloSpec byzantium) none (soloProvider 1) (soloRequest receiptsRoot)
        soloContents 0
        = .ok proposal ∧
      reconstructAntimevProposal (soloSpec byzantium) (soloProvider 1) proposal [resolution]
        = .ok reconstruction := by
  unfold soloReconstruction at h
  split at h
  · cases h
  · next hver =>
      split at h
      · cases h
      · next hreco =>
          cases h
          exact ⟨hver, hreco⟩

def soloInner : PlainTransaction := { soloEnvelope with target := none, input := [] }

/-- The Envelope is replaced by its inner transaction, and the final block executes alone. -/
theorem reconstruct_reexecutes_solo :
    ∃ proposal reconstruction,
      soloReconstruction true (.zero 32) (.decrypted 0 soloInner)
        = some (proposal, reconstruction) ∧
      ∃ state, executeBlock (soloSpec true) state reconstruction.proposal.block
          = .ok reconstruction.proposal.execution ∧
        Records state reconstruction.proposal.block.toBlock reconstruction.proposal.execution := by
  have hsome : (soloReconstruction true (.zero 32) (.decrypted 0 soloInner)).isSome
      = true := by decide +kernel
  rcases Option.isSome_iff_exists.mp hsome with ⟨⟨proposal, reconstruction⟩, hsolo⟩
  refine ⟨proposal, reconstruction, hsolo, ?_⟩
  rcases reconstruct_reexecutes (soloReconstruction_eq_some hsolo).2 with
    ⟨state, -, hexecuted, hrecords⟩
  exact ⟨state, hexecuted, hrecords⟩

theorem solo_block {proposal : VerifiedProposal}
    (h : verifyProposal (soloSpec byzantium) none (soloProvider 1) (soloRequest receiptsRoot)
      soloContents 0 = .ok proposal) :
    proposal.block.header = soloHeader receiptsRoot ∧
      ∀ transaction ∈ proposal.block.transactions, IsPlain transaction := by
  rcases verifyProposal_spec h with ⟨state, hacc⟩
  refine ⟨hacc.header_eq, ?_⟩
  rw [hacc.transactions_eq]
  intro transaction hmem
  exact ⟨rfl, rfl, rfl⟩

/-- An Envelope that falls back gives the pre-block again. -/
theorem reconstruct_of_fallbacks_solo :
    ∃ proposal decisions,
      verifyProposal (soloSpec true) none (soloProvider 1) (soloRequest (.zero 32))
        soloContents 0 = .ok proposal ∧
      reconstructAntimevProposal (soloSpec true) (soloProvider 1) proposal
        [.fallback 0 .transactionDecoding] = .ok ⟨proposal, decisions⟩ := by
  have hindices : ((soloReconstruction true (.zero 32)
      (.fallback 0 .transactionDecoding)).map fun entry => entry.1.antiMev.map fun antiMev =>
        antiMev.envelopes.map AntiMevEnvelope.transactionIndex) = some (some [0]) := by
    decide +kernel
  rcases Option.map_eq_some_iff.mp hindices with ⟨⟨proposal, reconstruction⟩, hsolo, hentry⟩
  have hverified := (soloReconstruction_eq_some hsolo).1
  rcases solo_block hverified with ⟨hheader, hplain⟩
  rcases reconstruct_of_fallbacks hverified (by rw [hheader]; decide) rfl hplain with
    ⟨antiMev, hantiMev, hfallbacks⟩
  rw [hantiMev, Option.map_some, Option.some_inj] at hentry
  rcases hfallbacks [.fallback 0 .transactionDecoding] (by rw [hentry]; exact List.Perm.refl _)
    (by simp) with ⟨decisions, hdecisions⟩
  exact ⟨proposal, decisions, hverified, hdecisions⟩

/-- Before Byzantium the receipts of a proposal are not compared, and the final header differs. -/
theorem reconstruct_fallbacks_beforeByzantium :
    ∃ proposal reconstruction,
      verifyProposal (soloSpec false) none (soloProvider 1) (soloRequest (.ofNat 32 1))
        soloContents 0 = .ok proposal ∧
      (soloSpec false).isAntiMevActiveAtBlock proposal.block.header.number = true ∧
      (∀ transaction ∈ proposal.block.transactions, IsPlain transaction) ∧
      reconstructAntimevProposal (soloSpec false) (soloProvider 1) proposal
        [.fallback 0 .transactionDecoding] = .ok reconstruction ∧
      reconstruction.proposal.block.header ≠ proposal.block.header := by
  have hroots : ((soloReconstruction false (.ofNat 32 1)
      (.fallback 0 .transactionDecoding)).map fun entry =>
        decide (entry.2.proposal.block.header.receiptsRoot = entry.1.block.header.receiptsRoot))
      = some false := by decide +kernel
  rcases Option.map_eq_some_iff.mp hroots with ⟨⟨proposal, reconstruction⟩, hsolo, hentry⟩
  rcases soloReconstruction_eq_some hsolo with ⟨hverified, hreconstructed⟩
  rcases solo_block hverified with ⟨hheader, hplain⟩
  refine ⟨proposal, reconstruction, hverified, by rw [hheader]; decide, hplain, hreconstructed, ?_⟩
  intro hsame
  exact of_decide_eq_false hentry (congrArg Header.receiptsRoot hsame)

end Example

end NeoX
