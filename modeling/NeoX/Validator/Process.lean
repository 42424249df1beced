import NeoX.Validator.RoundState

/-!
# Operations of a round

Message processing, the finalization of a proposal's header, the commit quorum
check, and the assembly of recovery messages and sealed headers.
-/

namespace NeoX

open Except hiding ok error
namespace DbftRoundState

variable [Crypto]

/-! ## The commit quorum -/

/-- Entries of a map ordered by validator index. -/
def sortedByIndex {α : Type} (entries : List (UInt8 × α)) : List (UInt8 × α) :=
  entries.insertionSort fun first second => first.1 ≤ second.1

/-- Collect signatures of validators over the seal hash at their own index, up to a quorum. -/
def collectEcdsaSignatures (validators : List Address) (quorum : Nat) (sealHash : B256) :
    List (FixedBytes 65) → List (UInt8 × DbftCommit) → Option (List (FixedBytes 65))
  | _, [] => none
  | signatures, (index, commit) :: commits =>
    match commit.validatedSignature with
    | .ok (.ecdsa raw) =>
      match recoverSigner raw sealHash with
      | none => collectEcdsaSignatures validators quorum sealHash signatures commits
      | some recovered =>
        let signatures :=
          if validators[index.toNat]? = some recovered then signatures ++ [raw]
          else signatures
        if signatures.length = quorum then
          some signatures
        else
          collectEcdsaSignatures validators quorum sealHash signatures commits
    | _ => collectEcdsaSignatures validators quorum sealHash signatures commits

/-- Threshold shares of the commits, paired with their DKG index. -/
def thresholdShares (dkgIndices : List UInt32) (commits : List (UInt8 × DbftCommit)) :
    List (UInt32 × G2Bytes) :=
  commits.filterMap fun entry =>
    match entry.2.validatedSignature with
    | .ok (.threshold share) => some (dkgIndices.getD entry.1.toNat 0, share)
    | _ => none

/-- Verify the commits of a view against its final header. -/
def verifyCommitQuorum (round : DbftRoundState) (view : UInt8) :
    Except DbftStateError (Option DbftVerifiedCommitSeal) :=
  match round.views.lookup view with
  | none => .ok none
  | some state =>
    match state.finalHeader with
    | none => .ok none
    | some header =>
      if state.commits.size < round.quorum then
        .ok none
      else do
        let extra ← (DbftExtraPrefix.decode header.extraData).mapError .invalidFinalExtra
        let commits := sortedByIndex state.commits.toList
        match extra.signatureScheme with
        | .ecdsa => do
            let sealHash ← (ecdsaSealHash header).mapError .invalidFinalExtra
            .ok ((collectEcdsaSignatures round.validators.accounts round.quorum sealHash []
              commits).map .ecdsa)
        | .threshold => do
            let dkgState ← ofOption .missingDkgState round.dkgState
            let dkgIndices ← ofOption .missingDkgState round.dkgIndices
            let shares := thresholdShares dkgIndices commits
            if shares.length < round.quorum then
              .ok none
            else do
              let message ← (thresholdSealMessage header).mapError .invalidFinalExtra
              match aggregateAndVerifySignatureShares message dkgState.current.globalPublicKey
                  shares round.quorum dkgState.parameters.scaler (extra.version = .v1)
                  dkgState.parameters.participants with
              | .ok signature => .ok (some (.threshold signature))
              | .error (.notEnoughSignatureShares ..) => .ok none
              | .error .signatureAggregationFailed => .ok none
              | .error error => .error (.tpke error)

/-- Recompute the stored seal of a view; a failing check leaves the old seal in place. -/
def refreshVerifiedSeal (round : DbftRoundState) (view : UInt8) : Transition Unit :=
  match round.verifyCommitQuorum view with
  | .error error => (.error error, round)
  | .ok verifiedSeal =>
    match round.views.lookup view with
    | none => (.ok (), round)
    | some state =>
      (.ok (), { round with
        views := round.views.insert view { state with verifiedSeal := verifiedSeal } })

/-- The strongest verified progress of one view. -/
def progress (round : DbftRoundState) (view : UInt8) : DbftRoundProgress :=
  match round.views.lookup view with
  | none => .accepted
  | some state =>
    match state.proposal with
    | none => .accepted
    | some proposal =>
      let proposalHash := proposal.hash
      let preparedVotes := 1 +
        (state.responses.toList.filter fun entry => entry.2 = proposalHash).length
      if preparedVotes < round.quorum then
        .accepted
      else if round.antiMev ∧
          (state.preBlockEnvelopeCount = none ∨ state.preCommits.size < round.quorum) then
        .prepared view proposalHash preparedVotes
      else if state.verifiedSeal.isSome then
        .committed view state.commits.size
      else if round.antiMev then
        .preCommitted view state.preCommits.size
      else
        .prepared view proposalHash preparedVotes

/-! ## Header finalization -/

/-- Whether a final header differs from the signed template only in execution outputs. -/
def proposalHeaderMatches (proposal finalHeader : Header) : Except DbftStateError Bool := do
  let proposalExtra ← (DbftExtra.hashablePrefix proposal.extraData).mapError .invalidFinalExtra
  let finalExtra ← (DbftExtra.hashablePrefix finalHeader.extraData).mapError .invalidFinalExtra
  let proposal := { proposal with
    stateRoot := finalHeader.stateRoot
    transactionsRoot := finalHeader.transactionsRoot
    receiptsRoot := finalHeader.receiptsRoot
    logsBloom := finalHeader.logsBloom
    gasUsed := finalHeader.gasUsed
    extraData := proposalExtra }
  .ok (proposal = { finalHeader with extraData := finalExtra })

/-- Check a header against the height and the signed proposal of a view. -/
def validateProposalHeader (round : DbftRoundState) (view : UInt8) (header : Header) :
    Except DbftStateError Unit := do
  require (header.number = round.height) (.proposalHeight round.height header.number)
  let proposal ← ofOption (.missingProposal view) (round.proposal view)
  let data ← proposal.consensusData.mapError .invalidPayload
  match ← data.decodedPayload.mapError .payload with
  | .prepareRequest request => do
      let matching ← proposalHeaderMatches request.sealingProposal header
      require (matching = true) (.finalHeaderMismatch view)
  | _ => .error (.missingProposal view)

/-- Install the Envelope count of the executed pre-block and drop larger contributions. -/
def finalizePreBlock (round : DbftRoundState) (view : UInt8) (header : Header)
    (envelopeCount : Nat) : Transition DbftRoundProgress :=
  if ¬ round.antiMev then
    (.error .preBlockBeforeAntiMev, round)
  else
    match round.validateProposalHeader view header with
    | .error error => (.error error, round)
    | .ok () =>
      -- The view has an entry here, since it holds the proposal just checked.
      let previous := ((round.views.lookup view).getD {}).preBlockEnvelopeCount
      if previous ≠ none ∧ previous ≠ some envelopeCount then
        (.error (.envelopeCountChanged view (previous.getD 0) envelopeCount), round)
      else
        let round := round.updateView view fun state => { state with
          preBlockEnvelopeCount := some envelopeCount
          preCommits := state.preCommits.retain fun _ body => body.shareCount ≤ envelopeCount }
        (.ok (round.progress view), round)

/-- Install the executed header and verify the commits already seen. -/
def finalizeProposal (round : DbftRoundState) (view : UInt8) (header : Header) :
    Transition DbftRoundProgress :=
  match round.validateProposalHeader view header with
  | .error error => (.error error, round)
  | .ok () =>
    let round := round.updateView view fun state => { state with finalHeader := some header }
    match round.refreshVerifiedSeal view with
    | (.error error, round) => (.error error, round)
    | (.ok (), round) => (.ok (round.progress view), round)

/-- The sealed extra of a verified quorum of the header's scheme. -/
def sealedExtra (round : DbftRoundState) (extra : DbftExtraPrefix)
    (verifiedSeal : DbftVerifiedCommitSeal) : Except DbftStateError DbftExtra :=
  match extra.signatureScheme, verifiedSeal with
  | .ecdsa, .ecdsa signatures =>
    .ok (.ecdsa extra.version extra.fallbackNextConsensus round.validators.accounts signatures)
  | .threshold, .threshold signature => do
      let dkgState ← ofOption .missingDkgState round.dkgState
      let fallback ← ofOption (.invalidFinalExtra .invalidPrefixFields)
        extra.fallbackNextConsensus
      .ok (.threshold extra.version fallback dkgState.current.globalPublicKey signature)
  | _, _ => .error .commitSealSchemeMismatch

/-- Check the seal of a header with the functions of an importing node. -/
def verifySeal (header : Header) (extra : DbftExtra) :
    DbftVerifiedCommitSeal → Except DbftStateError Unit
  | .ecdsa _ => do
      let sealHash ← (ecdsaSealHash header).mapError .invalidFinalExtra
      let _ ← (verifyEcdsaSignatures sealHash extra).mapError .invalidFinalSeal
      .ok ()
  | .threshold _ => (verifyThresholdSignature header extra).mapError .invalidFinalSeal

/-- Install the verified quorum into the final header and check the complete seal again. -/
def sealedHeader (round : DbftRoundState) (view : UInt8) : Except DbftStateError Header := do
  let state ← ofOption (.missingProposal view) (round.views.lookup view)
  let header ← ofOption (.missingFinalHeader view) state.finalHeader
  let verifiedSeal ← ofOption (.missingVerifiedCommitSeal view) state.verifiedSeal
  let extra ← (DbftExtraPrefix.decode header.extraData).mapError .invalidFinalExtra
  let sealedExtra ← round.sealedExtra extra verifiedSeal
  let extraData ← sealedExtra.tryEncode.mapError .invalidFinalExtra
  let header := { header with extraData := extraData }
  verifySeal header sealedExtra verifiedSeal
  .ok header

/-! ## Recovery messages -/

/-- Retained messages that satisfy a test, ordered by validator index. -/
def retainedBy (round : DbftRoundState) (test : MessageKey → Bool) : List DbftMessage :=
  ((round.messages.toList.filter fun entry => test entry.1).insertionSort
    fun first second => first.1.index ≤ second.1.index).map Prod.snd

def addMessages (recovery : DbftRecoveryMessage) :
    List DbftMessage → Except DbftStateError DbftRecoveryMessage
  | [] => .ok recovery
  | message :: messages => do
      let recovery ← (recovery.addMessage message).mapError .payload
      addMessages recovery messages

/-- Keep the first entry of every validator index. -/
def firstPerIndex : Option UInt8 → List (MessageKey × DbftMessage) → List DbftMessage
  | _, [] => []
  | previous, (key, message) :: entries =>
    if previous = some key.index then
      firstPerIndex previous entries
    else
      message :: firstPerIndex (some key.index) entries

/-- For every validator its earliest retained contribution of a kind. -/
def contributions (round : DbftRoundState) (kind : DbftMessageType) : List DbftMessage :=
  firstPerIndex none
    ((round.messages.toList.filter fun entry => entry.1.kind = kind).insertionSort
      fun first second => first.1.index < second.1.index ∨
        (first.1.index = second.1.index ∧ first.1.view ≤ second.1.view))

def currentPreparations (round : DbftRoundState) : List DbftMessage :=
  round.retainedBy fun key => key.view = round.currentView &&
    (key.kind = .prepareRequest || key.kind = .prepareResponse)

/-- Change views that were sent in exactly the view before the current one. -/
def previousChangeViews (round : DbftRoundState) : List DbftMessage :=
  if round.currentView = 0 then []
  else round.retainedBy fun key => key.view = round.currentView - 1 && key.kind = .changeView

/-- The messages that a recovery message of this validator carries. -/
def compacted (round : DbftRoundState) (localIndex : UInt8) : List DbftMessage :=
  round.currentPreparations ++ round.previousChangeViews ++
    (if round.hasAnyPreCommit localIndex then round.contributions .preCommit else []) ++
    (if round.hasAnyCommit localIndex then round.contributions .commit else [])

/-- Compact the authenticated state of a validator. -/
def recoveryMessage (round : DbftRoundState) (localIndex : UInt8) :
    Except DbftStateError DbftRecoveryMessage :=
  addMessages DbftRecoveryMessage.new (round.compacted localIndex)

/-! ## Message processing -/

/-- Kinds exempt from duplicate detection: change views and recovery control. -/
def untracked : DbftMessageType → Bool
  | .changeView | .recoveryRequest | .recoveryMessage => true
  | _ => false

/-- The view a message may carry, given the current view. -/
def viewAllowed (round : DbftRoundState) (data : DbftConsensusData) : Bool :=
  match data.messageType with
  | .prepareRequest | .prepareResponse => data.viewNumber = round.currentView
  | .preCommit | .commit => data.viewNumber ≤ round.currentView
  | _ => true

/-- Authenticate a message and check its height, sender and view. -/
def authenticate (round : DbftRoundState) (message : DbftMessage) :
    Except DbftStateError (DbftConsensusData × DbftDecodedPayload) := do
  let _ ← message.verifyWitness.mapError .protocol
  require (message.validBlockEnd = round.height ∧ message.validBlockStart ≤ round.height)
    (.wrongHeight round.height message.validBlockStart message.validBlockEnd)
  let data ← message.consensusData.mapError .invalidPayload
  let payload ← data.decodedPayload.mapError .payload
  let expected ← ofOption (.validatorIndexOutOfBounds data.validatorIndex round.count)
    round.validators.accounts[data.validatorIndex.toNat]?
  require (expected = message.sender)
    (.unauthorizedValidator data.validatorIndex expected message.sender)
  require (round.viewAllowed data = true) (.wrongView round.currentView data.viewNumber)
  .ok (data, payload)

/-- The hash already seen in the slot of a tracked message. -/
def priorHash (round : DbftRoundState) (data : DbftConsensusData) : Option B256 :=
  if untracked data.messageType then none else round.seen.lookup data.key

/-- Retain an authenticated message; this happens before its payload is judged. -/
def record (round : DbftRoundState) (message : DbftMessage) (data : DbftConsensusData) :
    DbftRoundState :=
  { round with
    seen := if untracked data.messageType then round.seen
      else round.seen.insert data.key message.hash
    messages := round.messages.insert data.key message }

/-- Tally a change view and move to its target once a quorum asks for it or beyond. -/
def applyChangeView (round : DbftRoundState) (message : DbftMessage) (data : DbftConsensusData) :
    Transition DbftRoundProgress :=
  if data.viewNumber = 255 then
    (.error .viewOverflow, round)
  else
    let target := data.viewNumber + 1
    if target ≤ round.currentView then
      (.ok .accepted, round)
    else if ∃ latest ∈ round.changeViews.lookup data.validatorIndex, target < latest.1 then
      (.ok .accepted, round)
    else
      let changeViews : FiniteMap UInt8 (UInt8 × DbftMessage) :=
        round.changeViews.insert data.validatorIndex (target, message)
      let votes := (changeViews.toList.filter fun entry => target ≤ entry.2.1).length
      let round := { round with changeViews := changeViews }
      if votes ≥ round.quorum then
        let round := { round.updateView target id with currentView := target }
        (.ok (.viewChanged target votes), round)
      else
        (.ok .accepted, round)

/-- Accept the proposal of the view's primary. -/
def applyPrepareRequest (round : DbftRoundState) (message : DbftMessage) (data : DbftConsensusData)
    (request : DbftPrepareRequest) : Transition DbftRoundProgress :=
  if data.validatorIndex ≠ round.primaryIndex data.viewNumber then
    (.error (.wrongPrimary (round.primaryIndex data.viewNumber) data.validatorIndex), round)
  else if request.sealingProposal.number ≠ round.height then
    (.error (.proposalHeight round.height request.sealingProposal.number), round)
  else
    let round := round.updateView data.viewNumber fun state =>
      { state with proposal := some message }
    (.ok (round.progress data.viewNumber), round)

/-- Count a backup's acknowledgement. -/
def applyPrepareResponse (round : DbftRoundState) (data : DbftConsensusData)
    (response : DbftPrepareResponse) : Transition DbftRoundProgress :=
  if data.validatorIndex = round.primaryIndex data.viewNumber then
    (.error (.primarySentPrepareResponse data.validatorIndex), round)
  else
    let round := round.updateView data.viewNumber fun state =>
      { state with
        responses := state.responses.insert data.validatorIndex response.preparationHash }
    (.ok (round.progress data.viewNumber), round)

/-- The Envelope count already installed for a view. -/
def envelopeCount (round : DbftRoundState) (view : UInt8) : Option Nat := do
  let state ← round.views.lookup view
  state.preBlockEnvelopeCount

def applyPreCommit (round : DbftRoundState) (data : DbftConsensusData) (body : DbftPreCommit) :
    Transition DbftRoundProgress :=
  if ¬ round.antiMev then
    (.error .preCommitBeforeAntiMev, round)
  else
    let envelopes := round.envelopeCount data.viewNumber
    if ∃ limit ∈ envelopes, limit < body.shareCount then
      (.error (.tooManyPreCommitShares data.validatorIndex body.shareCount (envelopes.getD 0)),
        round)
    else
      let round := round.updateView data.viewNumber fun state =>
        { state with preCommits := state.preCommits.insert data.validatorIndex body }
      (.ok (round.progress data.viewNumber), round)

/-- Accept a commit and verify the quorum again. -/
def applyCommit (round : DbftRoundState) (data : DbftConsensusData) (body : DbftCommit) :
    Transition DbftRoundProgress :=
  let round := round.updateView data.viewNumber fun state =>
    { state with commits := state.commits.insert data.validatorIndex body }
  match round.refreshVerifiedSeal data.viewNumber with
  | (.error error, round) => (.error error, round)
  | (.ok (), round) => (.ok (round.progress data.viewNumber), round)

/-- Apply a recorded payload. A recovery message never gets here. -/
def applyPayload (round : DbftRoundState) (message : DbftMessage) (data : DbftConsensusData) :
    DbftDecodedPayload → Transition DbftRoundProgress
  | .changeView _ => round.applyChangeView message data
  | .prepareRequest request => round.applyPrepareRequest message data request
  | .prepareResponse response => round.applyPrepareResponse data response
  | .preCommit body => round.applyPreCommit data body
  | .commit body => round.applyCommit data body
  | .recoveryRequest _ | .recoveryMessage _ => (.ok .accepted, round)

/-- How a recovery message is replayed, given the state, the message, its data and its body. -/
abbrev Replay :=
  DbftRoundState → DbftMessage → DbftConsensusData → DbftRecoveryMessage →
    Transition DbftRoundProgress

/-- Authenticate and apply one message, replaying recovery messages as told. -/
def processWith (replay : Replay) (round : DbftRoundState) (message : DbftMessage) :
    Transition DbftRoundProgress :=
  match round.authenticate message with
  | .error error => (.error error, round)
  | .ok (data, payload) =>
    match round.priorHash data with
    | some prior =>
      if prior = message.hash then (.ok .duplicate, round)
      else (.error (.equivocation data.key prior message.hash), round)
    | none =>
      match payload with
      | .recoveryMessage recovery => replay round message data recovery
      | payload => (round.record message data).applyPayload message data payload

/-- Process a message that was rebuilt from a recovery message. Those are never recovery
messages themselves, so there is nothing to replay. -/
def processDirect : DbftRoundState → DbftMessage → Transition DbftRoundProgress :=
  processWith fun round _ _ _ => (.ok .accepted, round)

/-- Whether a rebuilt message is processed, given the view of the recovery message and
whether that was ahead of the receiver. -/
def shouldProcess (recoveryView : UInt8) (recoverChangeViews : Bool) (currentView : UInt8) :
    DbftMessageType → Bool
  | .changeView => recoverChangeViews
  | .prepareRequest | .prepareResponse => recoveryView = currentView
  | .preCommit | .commit => recoveryView ≤ currentView
  | .recoveryRequest | .recoveryMessage => false

/-- The more informative of two progress values. -/
def laterProgress (result progress : DbftRoundProgress) : DbftRoundProgress :=
  if progress = .accepted ∨ progress = .duplicate then result else progress

/-- Process rebuilt messages in order; the first failure ends the replay. -/
def replayRecovered (recoveryView : UInt8) (recoverChangeViews : Bool) :
    DbftRoundState → DbftRoundProgress → List DbftMessage →
      Except DbftStateError (DbftRoundProgress × DbftRoundState)
  | next, result, [] => .ok (result, next)
  | next, result, recovered :: rest => do
      let data ← recovered.consensusData.mapError .invalidPayload
      if shouldProcess recoveryView recoverChangeViews next.currentView data.messageType then
        match next.processDirect recovered with
        | (.error error, _) => .error error
        | (.ok progress, next) =>
          replayRecovered recoveryView recoverChangeViews next (laterProgress result progress)
            rest
      else
        replayRecovered recoveryView recoverChangeViews next result rest

/-- Replay a recovery message on a copy; the copy is kept only if everything succeeds. -/
def replayRecovery : Replay := fun round message data recovery =>
  match recovery.expand message round.validators.accounts with
  | .error error => (.error (.payload error), round)
  | .ok expanded =>
    let next := { round with messages := round.messages.insert data.key message }
    match replayRecovered data.viewNumber (round.currentView < data.viewNumber) next .accepted
        expanded with
    | .error error => (.error error, round)
    | .ok (result, next) => (.ok result, next)

/-- Authenticate and apply one message. -/
def process : DbftRoundState → DbftMessage → Transition DbftRoundProgress :=
  processWith replayRecovery

/-- A message that is not a recovery message is processed the same way inside a replay. -/
theorem processDirect_eq_process {round : DbftRoundState} {message : DbftMessage}
    (hk : ∀ data p, round.authenticate message = .ok (data, p) →
      data.messageType ≠ .recoveryMessage) :
    round.processDirect message = round.process message := by
  unfold processDirect process processWith
  cases ha : round.authenticate message with
  | error error => rfl
  | ok accepted =>
    rcases accepted with ⟨data, p⟩
    simp only
    cases round.priorHash data with
    | some prior => rfl
    | none =>
      cases p with
      | recoveryMessage rec =>
        have htype : data.messageType = .recoveryMessage := by
          obtain ⟨_, ha⟩ := of_bind ha
          obtain ⟨_, ha⟩ := of_bind ha
          rcases bind_ok ha with ⟨found, -, ha⟩
          obtain ⟨body, hb, ha⟩ := mapError_bind ha
          iterate 3 obtain ⟨_, ha⟩ := of_bind ha
          cases ha
          exact (DbftConsensusData.messageType_decodedPayload hb).symm
        exact absurd htype (hk data _ ha)
      | _ => rfl

end DbftRoundState
end NeoX
