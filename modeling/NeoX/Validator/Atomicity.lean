import NeoX.Validator.Recovery

/-!
# Failed transitions

A message is retained before its payload is judged, so that a failing call can leave
it behind. A recovery message is replayed on a copy and leaves nothing behind.

Main results:

- `refuses_iff`: which payloads are refused.
- `process_atomic`: a failing call changes the round exactly when the payload of a
  message that is not yet retained is refused.
- `process_keepsRefused`: a refused response is retained and carried by
  recovery messages.
-/

namespace NeoX
namespace DbftRoundState

section Atomicity

variable [Crypto]

/-! ## Refused payloads -/

def withCommit (round : DbftRoundState) (data : DbftConsensusData) (body : DbftCommit) :
    DbftRoundState :=
  round.updateView data.viewNumber fun state =>
    { state with commits := state.commits.insert data.validatorIndex body }

/-- A body of an authentic message that the round does not accept. -/
def Refuses (round : DbftRoundState) (data : DbftConsensusData) : DbftDecodedPayload → Prop
  | .changeView _ => data.viewNumber = 255
  | .prepareRequest request => data.validatorIndex ≠ round.primaryIndex data.viewNumber ∨
      request.sealingProposal.number ≠ round.height
  | .prepareResponse _ => data.validatorIndex = round.primaryIndex data.viewNumber
  | .preCommit body => round.antiMev = false ∨
      ∃ limit, round.envelopeCount data.viewNumber = some limit ∧ limit < body.shareCount
  | .commit body => ∃ error,
      (round.withCommit data body).verifyCommitQuorum data.viewNumber = .error error
  | .recoveryRequest _ | .recoveryMessage _ => False

/-- Applying a body fails exactly when the round refuses it. -/
theorem refuses_iff (round : DbftRoundState) (message : DbftMessage) (data : DbftConsensusData)
    (payload : DbftDecodedPayload) :
    (∃ error, (round.applyPayload message data payload).1 = .error error) ↔
      round.Refuses data payload := by
  cases payload with
  | changeView body =>
    rw [applyPayload, Refuses]
    by_cases hv : data.viewNumber = 255
    · rw [applyChangeView, if_pos hv]
      exact ⟨fun _ => hv, fun _ => ⟨_, rfl⟩⟩
    · refine ⟨?_, fun heq => absurd heq hv⟩
      rintro ⟨error, herror⟩
      unfold applyChangeView at herror
      rw [if_neg hv] at herror
      dsimp only at herror
      split at herror
      · cases herror
      · split at herror
        · cases herror
        · split at herror <;> cases herror
  | prepareRequest req =>
    rw [applyPayload, applyPrepareRequest, Refuses]
    by_cases hprim : data.validatorIndex = round.primaryIndex data.viewNumber
    · rw [if_neg (not_not.mpr hprim)]
      by_cases hnum : req.sealingProposal.number = round.height
      · rw [if_neg (not_not.mpr hnum)]
        refine ⟨?_, fun h => (h.elim (absurd hprim) (absurd hnum))⟩
        rintro ⟨_, ⟨⟩⟩
      · rw [if_pos hnum]
        exact ⟨fun _ => Or.inr hnum, fun _ => ⟨_, rfl⟩⟩
    · rw [if_pos hprim]
      exact ⟨fun _ => Or.inl hprim, fun _ => ⟨_, rfl⟩⟩
  | prepareResponse resp =>
    rw [applyPayload, applyPrepareResponse, Refuses]
    by_cases hprim : data.validatorIndex = round.primaryIndex data.viewNumber
    · rw [if_pos hprim]
      exact ⟨fun _ => hprim, fun _ => ⟨_, rfl⟩⟩
    · rw [if_neg hprim]
      refine ⟨?_, fun heq => absurd heq hprim⟩
      rintro ⟨_, ⟨⟩⟩
  | preCommit body =>
    rw [applyPayload, applyPreCommit, Refuses]
    by_cases hmode : round.antiMev = true
    · rw [if_neg (not_not.mpr hmode)]
      dsimp only
      by_cases hlim : ∃ limit ∈ round.envelopeCount data.viewNumber, limit < body.shareCount
      · rw [if_pos hlim]
        exact ⟨fun _ => Or.inr hlim, fun _ => ⟨_, rfl⟩⟩
      · rw [if_neg hlim]
        refine ⟨?_, ?_⟩
        · rintro ⟨_, ⟨⟩⟩
        · rintro (hoff | hover)
          · rw [hmode] at hoff
            cases hoff
          · exact absurd hover hlim
    · rw [if_pos hmode]
      exact ⟨fun _ => Or.inl (Bool.eq_false_iff.mpr hmode), fun _ => ⟨_, rfl⟩⟩
  | commit body =>
    rw [applyPayload, Refuses]
    unfold applyCommit
    dsimp only
    rw [← withCommit, refreshVerifiedSeal]
    cases hcheck : (round.withCommit data body).verifyCommitQuorum data.viewNumber with
    | error error => exact ⟨fun _ => ⟨error, rfl⟩, fun _ => ⟨error, rfl⟩⟩
    | ok checked =>
      cases (round.withCommit data body).views.lookup data.viewNumber with
      | none =>
        refine ⟨?_, ?_⟩
        · rintro ⟨_, ⟨⟩⟩
        · rintro ⟨_, ⟨⟩⟩
      | some s =>
        refine ⟨?_, ?_⟩
        · rintro ⟨_, ⟨⟩⟩
        · rintro ⟨_, ⟨⟩⟩
  | recoveryRequest body =>
    refine ⟨?_, False.elim⟩
    rintro ⟨_, ⟨⟩⟩
  | recoveryMessage body =>
    refine ⟨?_, False.elim⟩
    rintro ⟨_, ⟨⟩⟩

/-! ## Unchanged rounds -/

/-- Two rounds with the same content. -/
structure Unchanged (round next : DbftRoundState) : Prop where
  height : next.height = round.height
  validators : next.validators = round.validators
  antiMev : next.antiMev = round.antiMev
  currentView : next.currentView = round.currentView
  views : ∀ view, next.views.lookup view = round.views.lookup view
  changeViews : ∀ index, next.changeViews.lookup index = round.changeViews.lookup index
  seen : ∀ key, next.seen.lookup key = round.seen.lookup key
  messages : ∀ key, next.messages.lookup key = round.messages.lookup key
  dkgIndices : next.dkgIndices = round.dkgIndices
  dkgState : next.dkgState = round.dkgState

omit [Crypto] in
theorem Unchanged.refl (round : DbftRoundState) : Unchanged round round :=
  ⟨rfl, rfl, rfl, rfl, fun _ => rfl, fun _ => rfl, fun _ => rfl, fun _ => rfl, rfl, rfl⟩

/-- An authentic message of a free slot whose payload is refused, and which the round does not
retain yet. -/
def RefusedLate (round : DbftRoundState) (message : DbftMessage) : Prop :=
  ∃ data payload, round.authenticate message = .ok (data, payload) ∧
    round.priorHash data = none ∧ round.messages.lookup data.key ≠ some message ∧
    round.Refuses data payload

variable {round : DbftRoundState} {message : DbftMessage} {data : DbftConsensusData}

/-- A replay that fails leaves the round as it was. -/
theorem replayRecovery_error {rec : DbftRecoveryMessage} {error : DbftStateError}
    (h : (replayRecovery round message data rec).1 = .error error) :
    (replayRecovery round message data rec).2 = round := by
  unfold replayRecovery at h ⊢
  split
  · rfl
  · rename_i expanded hexpand
    rw [hexpand] at h
    dsimp only at h ⊢
    split
    · rfl
    · rename_i result next hreplay
      rw [hreplay] at h
      cases h

theorem refuses_record (round : DbftRoundState) (message : DbftMessage) (data : DbftConsensusData) :
    ∀ p, (round.record message data).Refuses data p ↔ round.Refuses data p
  | .changeView _ | .prepareRequest _ | .prepareResponse _ | .preCommit _ | .commit _
  | .recoveryRequest _ | .recoveryMessage _ => Iff.rfl

/-- How a call fails: before the message is retained, with nothing changed, or on its payload. -/
theorem process_error {error : DbftStateError} (h : (round.process message).1 = .error error) :
    (round.process message).2 = round ∨
      ∃ data p, round.authenticate message = .ok (data, p) ∧
        round.priorHash data = none ∧ round.Refuses data p ∧
        (round.process message).2
          = ((round.record message data).applyPayload message data p).2 := by
  unfold process processWith at h ⊢
  cases ha : round.authenticate message with
  | error error => exact Or.inl rfl
  | ok accepted =>
    rcases accepted with ⟨data, p⟩
    rw [ha] at h
    dsimp only at h ⊢
    cases hprior : round.priorHash data with
    | some prior =>
      refine Or.inl ?_
      dsimp only
      split <;> rfl
    | none =>
      rw [hprior] at h
      cases p with
      | recoveryMessage rec => exact Or.inl (replayRecovery_error h)
      | _ =>
        have hrefu := (refuses_iff _ _ _ _).mp ⟨error, h⟩
        exact Or.inr ⟨data, _, rfl, hprior, (refuses_record round message data _).mp hrefu,
          rfl⟩

/-- A refused payload makes the call fail after the message was retained. -/
theorem process_refused {payload : DbftDecodedPayload}
    (ha : round.authenticate message = .ok (data, payload)) (hprior : round.priorHash data = none)
    (hrefu : round.Refuses data payload) :
    (∃ error, (round.process message).1 = .error error) ∧
      (round.process message).2.messages.lookup data.key = some message := by
  have hproc : round.process message
      = (round.record message data).applyPayload message data payload := by
    unfold process processWith
    rw [ha]
    dsimp only
    rw [hprior]
    cases payload with
    | recoveryMessage rec => exact hrefu.elim
    | _ => rfl
  rw [hproc]
  refine ⟨(refuses_iff _ _ _ _).mpr ((refuses_record _ _ _ _).mpr hrefu), ?_⟩
  rw [(votesOnly_applyPayload _ _ _ _).messages]
  exact AList.lookup_insert round.messages

/-- A change view that cannot be counted changes nothing when it is retained already. -/
theorem unchanged_retained (htype : untracked data.messageType = true) (hv : data.viewNumber = 255)
    (hreta : round.messages.lookup data.key = some message) :
    Unchanged round ((round.record message data).applyChangeView message data).2 := by
  have hseen : (round.record message data).seen = round.seen := if_pos htype
  rw [applyChangeView, if_pos hv]
  refine ⟨rfl, rfl, rfl, rfl, fun _ => rfl, fun _ => rfl, ?_, ?_, rfl, rfl⟩
  · intro key
    rw [hseen]
  · intro key
    rw [record, FiniteMap.lookup_insert_if]
    split
    · rename_i hkey
      rw [hkey, hreta]
    · rfl

/-- In every round reached, a failing call leaves the round as it was, for every message except one
that is retained by this very call and whose payload is then refused. -/
theorem process_atomic (height : UInt64) (validators : ValidatorSet) (antiMev : Bool)
    (operations : List Operation) (message : DbftMessage) :
    (∀ error,
      ((Machine.run perform (start height validators antiMev) operations).process message).1
        = .error error →
      Unchanged (Machine.run perform (start height validators antiMev) operations)
        ((Machine.run perform (start height validators antiMev) operations).process message).2) ↔
      ¬ (Machine.run perform (start height validators antiMev) operations).RefusedLate message := by
  have hconsistent := consistent_run height validators antiMev operations
  generalize Machine.run perform (start height validators antiMev) operations = round at *
  constructor
  · rintro hatomic ⟨data, payload, hauth, hprior, hnew, hrefuses⟩
    rcases process_refused hauth hprior hrefuses with ⟨⟨error, herror⟩, hretained⟩
    exact hnew (((hatomic error herror).messages data.key).symm.trans hretained)
  · intro hlate error herror
    rcases process_error herror with heq | ⟨data, payload, hauth, hprior, hrefuses, heq⟩
    · rw [heq]
      exact Unchanged.refl round
    · have hretained : round.messages.lookup data.key = some message := by
        by_contra hnew
        exact hlate ⟨data, payload, hauth, hprior, hnew, hrefuses⟩
      -- Only a kind without duplicate detection is recorded again.
      have htype : untracked data.messageType = true := by
        by_contra htracked
        rw [hconsistent.messages_eq_none hprior (Bool.eq_false_iff.mpr htracked)] at hretained
        cases hretained
      have hkind := (authenticate_eq_ok.mp hauth).1.kind_eq
      rw [← hkind] at htype
      rw [heq]
      cases payload with
      | changeView body => exact unchanged_retained (hkind ▸ htype) hrefuses hretained
      | prepareRequest _ | prepareResponse _ | preCommit _ | commit _ => cases htype
      | recoveryRequest _ | recoveryMessage _ => exact hrefuses.elim

end Atomicity

/-! ## A response of the primary -/

open Symbolic

/-- A response that the primary of the view may not send is refused, yet retained: the recovery
message of the round then carries it, and the same message sent again counts as processed. -/
theorem process_keepsRefused :
    ((processed []).process (responseMessage 1 (.zero 32))).1
      = .error (.primarySentPrepareResponse 1) ∧
    (processed []).recoveryMessage 0 = .ok DbftRecoveryMessage.new ∧
    (processed [responseMessage 1 (.zero 32)]).recoveryMessage 0
      ≠ .ok DbftRecoveryMessage.new ∧
    ((processed [responseMessage 1 (.zero 32)]).process
      (responseMessage 1 (.zero 32))).1 = .ok .duplicate := by
  decide +kernel

end DbftRoundState
end NeoX
