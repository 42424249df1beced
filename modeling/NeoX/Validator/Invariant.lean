import NeoX.Library.Machine
import NeoX.Validator.Process

/-!
# Invariants of a round

What every operation of a round keeps: retained messages are authentic, the duplicate
table names the retained messages, and everything a view holds comes from a retained
message of the validator it is filed under.

Main results:

- `process_induction`: what recording and applying one message keeps, and
  keeping a recovery message keeps, every call of `process` keeps.
- `Consistent.perform`: one operation keeps a round consistent.
- `consistent_run`: every round reached from its start is consistent.
- `first_message_wins`: a slot keeps its message and refuses others.
-/

namespace NeoX

open FiniteMap DbftConsensusData
open Except hiding ok error
namespace DbftRoundState

variable [Crypto]

/-! ## Authentic messages -/

def bodyOf (message : DbftMessage) : Option DbftDecodedPayload :=
  match message.consensusData with
  | .error _ => none
  | .ok data => data.decodedPayload.toOption

/-- A message of this height, signed by the validator it names, with its data and body. -/
structure Authentic (round : DbftRoundState) (message : DbftMessage) (data : DbftConsensusData)
    (payload : DbftDecodedPayload) : Prop where
  witness : message.verifyWitness = .ok message.hash
  last : message.validBlockEnd = round.height
  start : message.validBlockStart ≤ round.height
  data_eq : message.consensusData = .ok data
  payload_eq : data.decodedPayload = .ok payload
  sender : round.validators.accounts[data.validatorIndex.toNat]? = some message.sender

variable {message : DbftMessage} {payload : DbftDecodedPayload}

theorem bodyOf_eq_some :
    bodyOf message = some payload ↔
      ∃ data, message.consensusData = .ok data ∧ data.decodedPayload = .ok payload := by
  unfold bodyOf
  cases hd : message.consensusData with
  | error error => simp
  | ok data =>
    cases hp : data.decodedPayload with
    | error error => simp [Except.toOption, hp]
    | ok found => simp [Except.toOption, hp]

variable {data : DbftConsensusData} {round : DbftRoundState}

theorem Authentic.bodyOf_eq
    (h : round.Authentic message data payload) : bodyOf message = some payload :=
  bodyOf_eq_some.mpr ⟨data, h.data_eq, h.payload_eq⟩

variable {p : DbftDecodedPayload}

theorem Authentic.kind_eq
    (h : round.Authentic message data p) : p.messageType = data.messageType :=
  messageType_decodedPayload h.payload_eq

theorem authenticate_eq_ok
    :
    round.authenticate message = .ok (data, p) ↔
      round.Authentic message data p ∧ round.viewAllowed data = true := by
  constructor
  · intro h
    obtain ⟨hash, hhash, h⟩ := mapError_bind h
    obtain ⟨hheight, h⟩ := require_bind h
    obtain ⟨found, hd, h⟩ := mapError_bind h
    obtain ⟨body, hb, h⟩ := mapError_bind h
    obtain ⟨expected, hexpected, h⟩ := ofOption_bind h
    obtain ⟨hsd, h⟩ := require_bind h
    obtain ⟨hv, h⟩ := require_bind h
    cases h
    have hown := (DbftMessage.verifyWitness_eq_ok.mp hhash).1
    exact ⟨⟨hown ▸ hhash, hheight.1, hheight.2, hd, hb, hsd ▸ hexpected⟩, hv⟩
  · rintro ⟨h, hv⟩
    unfold authenticate
    rw [h.witness, h.data_eq]
    simp only [mapError_ok, ok_bind, h.payload_eq, h.sender, Except.ofOption]
    rw [require_of _ ⟨h.last, h.start⟩, require_of _ trivial, require_of _ hv]
    rfl

/-! ## Messages kept in their slots -/

/-- Operations change neither the height, the validators nor the mode of a round, and keep
every tracked message. -/
structure Extends (round next : DbftRoundState) : Prop where
  height : next.height = round.height
  validators : next.validators = round.validators
  antiMev : next.antiMev = round.antiMev
  messages : ∀ key message, untracked key.kind = false →
    round.messages.lookup key = some message → next.messages.lookup key = some message

omit [Crypto] in
theorem Extends.refl (round : DbftRoundState) : Extends round round :=
  ⟨rfl, rfl, rfl, fun _ _ _ h => h⟩

omit [Crypto] in
theorem Extends.trans {a b third : DbftRoundState} (h : Extends a b)
    (h' : Extends b third) : Extends a third :=
  ⟨h'.height.trans h.height, h'.validators.trans h.validators, h'.antiMev.trans h.antiMev,
    fun key message htrac hget =>
      h'.messages key message htrac (h.messages key message htrac hget)⟩

variable {next : DbftRoundState}

omit [Crypto] in
theorem Extends.primaryIndex (h : Extends round next)
    (view : UInt8) : next.primaryIndex view = round.primaryIndex view := by
  simp [DbftRoundState.primaryIndex, count, h.height, h.validators]

omit [Crypto] in
theorem Extends.quorum (h : Extends round next) :
    next.quorum = round.quorum := by
  simp [DbftRoundState.quorum, count, h.validators]

theorem Authentic.mono (h : Extends round next)
    (ha : round.Authentic message data payload) : next.Authentic message data payload :=
  ⟨ha.witness, h.height ▸ ha.last, h.height ▸ ha.start, ha.data_eq, ha.payload_eq,
    h.validators ▸ ha.sender⟩

/-- A slot holds a message with this body. -/
def Retained (round : DbftRoundState) (key : MessageKey) (payload : DbftDecodedPayload) : Prop :=
  ∃ message, round.messages.lookup key = some message ∧ bodyOf message = some payload

theorem Retained.mono (h : Extends round next) {key : MessageKey}
    (htrac : untracked key.kind = false)
    (hreta : round.Retained key payload) : next.Retained key payload := by
  rcases hreta with ⟨message, hget, hb⟩
  exact ⟨message, h.messages key message htrac hget, hb⟩

/-! ## Views -/

/-- Everything that a view holds comes from a retained message, and its final header belongs to
the retained proposal. -/
structure ViewBacked (round : DbftRoundState) (view : UInt8) (state : ViewState) : Prop where
  proposal : ∀ message, state.proposal = some message →
    round.messages.lookup ⟨view, .prepareRequest, round.primaryIndex view⟩ = some message ∧
      ∃ request, bodyOf message = some (.prepareRequest request) ∧
        request.sealingProposal.number = round.height
  responses : ∀ index hash, state.responses.lookup index = some hash →
    index ≠ round.primaryIndex view ∧
      round.Retained ⟨view, .prepareResponse, index⟩ (.prepareResponse ⟨hash⟩)
  preCommits : ∀ index body, state.preCommits.lookup index = some body →
    round.antiMev = true ∧ round.Retained ⟨view, .preCommit, index⟩ (.preCommit body)
  commits : ∀ index body, state.commits.lookup index = some body →
    round.Retained ⟨view, .commit, index⟩ (.commit body)
  finalHeader : ∀ header, state.finalHeader = some header → header.number = round.height ∧
    ∃ message request, state.proposal = some message ∧
      bodyOf message = some (.prepareRequest request) ∧
      proposalHeaderMatches request.sealingProposal header = .ok true

theorem viewBacked_default (round : DbftRoundState) (view : UInt8) :
    round.ViewBacked view {} where
  proposal _ h := by cases h
  responses _ _ h := by simp at h
  preCommits _ _ h := by simp at h
  commits _ _ h := by simp at h
  finalHeader _ h := by cases h

variable {view : UInt8} {s : ViewState}

theorem ViewBacked.mono (h : Extends round next)
    (hs : round.ViewBacked view s) : next.ViewBacked view s where
  proposal message hm := by
    rcases hs.proposal message hm with ⟨hget, req, hb, hnum⟩
    rw [h.primaryIndex, h.height]
    exact ⟨h.messages _ _ rfl hget, req, hb, hnum⟩
  responses index hash hget := by
    rw [h.primaryIndex]
    exact ⟨(hs.responses index hash hget).1,
      (hs.responses index hash hget).2.mono h rfl⟩
  preCommits index body hget := by
    rw [h.antiMev]
    exact ⟨(hs.preCommits index body hget).1,
      (hs.preCommits index body hget).2.mono h rfl⟩
  commits index body hget := (hs.commits index body hget).mono h rfl
  finalHeader header hh := by
    rw [h.height]
    exact hs.finalHeader header hh

/-- Kinds that name the view they belong to. -/
def viewBound : DbftMessageType → Bool
  | .prepareRequest | .prepareResponse | .preCommit | .commit => true
  | _ => false

/-- The invariant of a round. -/
structure Consistent (round : DbftRoundState) : Prop where
  retained : ∀ key message, round.messages.lookup key = some message →
    ∃ data payload, round.Authentic message data payload ∧ data.key = key
  seen_eq : ∀ key, untracked key.kind = false →
    round.seen.lookup key = (round.messages.lookup key).map DbftMessage.hash
  view_le : ∀ key message, round.messages.lookup key = some message →
    viewBound key.kind = true → key.view ≤ round.currentView
  views : ∀ view state, round.views.lookup view = some state → round.ViewBacked view state

/-! ## What processing does -/

variable {property : DbftRoundState → Prop}

/-- A replayed message keeps what recording and applying one message keeps. -/
theorem processDirect_induction
    (happly : ∀ round message data p, property round →
      round.authenticate message = .ok (data, p) → round.priorHash data = none →
      (∀ rec, p ≠ .recoveryMessage rec) →
      property ((round.record message data).applyPayload message data p).2)
    (hrd : property round) (message : DbftMessage) :
    property (round.processDirect message).2 := by
  unfold processDirect processWith
  cases ha : round.authenticate message with
  | error error => exact hrd
  | ok accepted =>
    rcases accepted with ⟨data, p⟩
    simp only
    cases hprior : round.priorHash data with
    | some prior =>
      by_cases hsame : prior = message.hash
      · simp only [if_pos hsame]
        exact hrd
      · simp only [if_neg hsame]
        exact hrd
    | none =>
      cases p with
      | recoveryMessage rec => exact hrd
      | _ => exact happly round message data _ hrd ha hprior (by simp)

/-- A replay keeps what its messages keep. -/
theorem replayRecovered_induction
    (hdirect : ∀ round message, property round → property (round.processDirect message).2)
    {recoverChangeViews : Bool} {msgs : List DbftMessage}
    {r progress : DbftRoundProgress} (hrd : property round)
    (hreplay : replayRecovered view recoverChangeViews round r msgs
      = .ok (progress, next)) : property next := by
  induction msgs generalizing round r with
  | nil =>
    cases hreplay
    exact hrd
  | cons message msgs ih =>
    rcases bind_ok hreplay with ⟨data, -, hreplay⟩
    by_cases hproc : shouldProcess view recoverChangeViews round.currentView data.messageType
    · rw [if_pos hproc] at hreplay
      have hn := hdirect round message hrd
      rcases hm : round.processDirect message with ⟨out, after⟩
      rw [hm] at hreplay hn
      cases out with
      | error error => cases hreplay
      | ok found => exact ih hn hreplay
    · rw [if_neg hproc] at hreplay
      exact ih hrd hreplay

/-- What recording and applying one message keeps, and keeping a recovery message keeps, every
call keeps. -/
theorem process_induction
    (happly : ∀ round message data p, property round →
      round.authenticate message = .ok (data, p) → round.priorHash data = none →
      (∀ rec, p ≠ .recoveryMessage rec) →
      property ((round.record message data).applyPayload message data p).2)
    (hrecv : ∀ round message data rec, property round →
      round.authenticate message = .ok (data, .recoveryMessage rec) →
      property { round with messages := round.messages.insert data.key message })
    (hrd : property round) (message : DbftMessage) :
    property (round.process message).2 := by
  have hdirect : ∀ round message, property round → property (round.processDirect message).2 :=
    fun _ message h => processDirect_induction happly h message
  unfold process processWith
  cases ha : round.authenticate message with
  | error error => exact hrd
  | ok accepted =>
    rcases accepted with ⟨data, p⟩
    simp only
    cases hprior : round.priorHash data with
    | some prior =>
      by_cases hsame : prior = message.hash
      · simp only [if_pos hsame]
        exact hrd
      · simp only [if_neg hsame]
        exact hrd
    | none =>
      cases p with
      | recoveryMessage rec =>
        simp only [replayRecovery]
        cases hexpand : rec.expand message round.validators.accounts with
        | error error => exact hrd
        | ok expanded =>
          have hkept := hrecv round message data rec hrd ha
          simp only
          split
          · exact hrd
          · rename_i progress next hreplay
            exact replayRecovered_induction hdirect hkept hreplay
      | _ => exact happly round message data _ hrd ha hprior (by simp)

/-! ## Recording -/

section Recording

variable {message : DbftMessage} {data : DbftConsensusData}

theorem Consistent.messages_eq_none (h : Consistent round) (hprior : round.priorHash data = none)
    (htrac : untracked data.messageType = false) : round.messages.lookup data.key = none := by
  have hseen := h.seen_eq data.key htrac
  simp only [priorHash, htrac, Bool.false_eq_true, if_false] at hprior
  rw [hprior] at hseen
  exact Option.map_eq_none_iff.mp hseen.symm

theorem Consistent.extends_record (h : Consistent round) (hprior : round.priorHash data = none) :
    Extends round (round.record message data) where
  height := rfl
  validators := rfl
  antiMev := rfl
  messages key other htracked hget := by
    have hne : key ≠ data.key := by
      rintro rfl
      rw [h.messages_eq_none hprior htracked] at hget
      cases hget
    exact (AList.lookup_insert_ne hne).trans hget

theorem Consistent.record (h : Consistent round) (ha : round.authenticate message = .ok (data, p))
    (hprior : round.priorHash data = none) : Consistent (round.record message data) := by
  have hext : Extends round (round.record message data) := h.extends_record hprior
  rcases authenticate_eq_ok.mp ha with ⟨hauth, hv⟩
  refine ⟨?_, ?_, ?_, ?_⟩
  · intro key found hget
    simp only [DbftRoundState.record, lookup_insert_if] at hget
    by_cases hkey : key = data.key
    · rw [if_pos hkey] at hget
      cases hget
      exact ⟨data, p, hauth.mono hext, hkey.symm⟩
    · rw [if_neg hkey] at hget
      rcases h.retained key found hget with ⟨o, body, ho, hsl⟩
      exact ⟨o, body, ho.mono hext, hsl⟩
  · intro key htrac
    simp only [DbftRoundState.record, lookup_insert_if]
    by_cases hkey : key = data.key
    · subst hkey
      have hk : untracked data.messageType = false := htrac
      simp [hk]
    · by_cases hk : untracked data.messageType
      · simp [hk, hkey, h.seen_eq key htrac]
      · simp [hk, hkey, h.seen_eq key htrac]
  · intro key found hget hb
    simp only [DbftRoundState.record, lookup_insert_if] at hget
    by_cases hkey : key = data.key
    · -- The view of the message was compared with the current one.
      subst hkey
      simp only [viewAllowed] at hv
      simp only [key] at hb ⊢
      cases hk : data.messageType <;> simp_all [viewBound, DbftRoundState.record]
    · rw [if_neg hkey] at hget
      exact h.view_le key found hget hb
  · intro view s hs
    exact (h.views view s hs).mono hext

end Recording

/-! ## Updating a view -/

section Updating

variable {view : UInt8} {update : ViewState → ViewState}

omit [Crypto] in
theorem lookup_updateView (other : UInt8) :
    (round.updateView view update).views.lookup other
      = if other = view then some (update ((round.views.lookup view).getD {}))
        else round.views.lookup other :=
  lookup_insert_if _ _ _ _

omit [Crypto] in
theorem extends_updateView : Extends round (round.updateView view update) :=
  ⟨rfl, rfl, rfl, fun _ _ _ h => h⟩

theorem Consistent.viewBacked (h : Consistent round) (view : UInt8) :
    round.ViewBacked view ((round.views.lookup view).getD {}) := by
  cases hget : round.views.lookup view with
  | none => exact viewBacked_default round view
  | some s => exact h.views view s hget

/-- A backed update of one view keeps a round consistent. -/
theorem Consistent.updateView (h : Consistent round)
    (hs : round.ViewBacked view (update ((round.views.lookup view).getD {}))) :
    Consistent (round.updateView view update) where
  retained key message hget := by
    rcases h.retained key message hget with ⟨data, p, ha, hkey⟩
    exact ⟨data, p, ha.mono extends_updateView, hkey⟩
  seen_eq := h.seen_eq
  view_le := h.view_le
  views other state hget := by
    rw [lookup_updateView] at hget
    by_cases hv : other = view
    · subst hv
      rw [if_pos rfl] at hget
      cases hget
      exact hs.mono extends_updateView
    · rw [if_neg hv] at hget
      exact (h.views other state hget).mono extends_updateView

end Updating

/-- A round with the same messages and views in a later current view is consistent. -/
theorem Consistent.later (h : Consistent round) (hext : Extends round next)
    (hms : next.messages = round.messages) (hseen : next.seen = round.seen)
    (hviews : next.views = round.views)
    (hcur : round.currentView ≤ next.currentView) : Consistent next where
  retained key message hget := by
    rw [hms] at hget
    rcases h.retained key message hget with ⟨data, p, ha, hkey⟩
    exact ⟨data, p, ha.mono hext, hkey⟩
  seen_eq := by
    rw [hms, hseen]
    exact h.seen_eq
  view_le key message hget hb := by
    rw [hms] at hget
    exact UInt8.le_trans (h.view_le key message hget hb) hcur
  views view state hget := by
    rw [hviews] at hget
    exact (h.views view state hget).mono hext

/-! ## Refreshing a seal -/

/-- A refresh stores the outcome of the commit check, or changes nothing. -/
theorem refreshVerifiedSeal_cases (round : DbftRoundState) (view : UInt8) :
    (round.refreshVerifiedSeal view).2 = round ∨
      ∃ s checked, round.views.lookup view = some s ∧
        round.verifyCommitQuorum view = .ok checked ∧
        (round.refreshVerifiedSeal view).2 =
          round.updateView view fun s => { s with verifiedSeal := checked } := by
  unfold refreshVerifiedSeal
  cases hcheck : round.verifyCommitQuorum view with
  | error error => exact Or.inl rfl
  | ok checked =>
    cases hget : round.views.lookup view with
    | none => exact Or.inl rfl
    | some s =>
      refine Or.inr ⟨s, checked, rfl, rfl, ?_⟩
      simp [DbftRoundState.updateView, hget]

theorem ViewBacked.withSeal (h : round.ViewBacked view s)
    (checked : Option DbftVerifiedCommitSeal) :
    round.ViewBacked view { s with verifiedSeal := checked } :=
  ⟨h.proposal, h.responses, h.preCommits, h.commits, h.finalHeader⟩

/-- What holds of a round and of every outcome of the commit check holds after a refresh. -/
theorem refreshVerifiedSeal_induction {motive : DbftRoundState → Prop}
    (h : motive round) (view : UInt8) (hseal : ∀ checked,
      motive (round.updateView view fun s => { s with verifiedSeal := checked })) :
    motive (round.refreshVerifiedSeal view).2 := by
  rcases round.refreshVerifiedSeal_cases view with heq | ⟨s, checked, -, -, heq⟩
  · rwa [heq]
  · rw [heq]
    exact hseal checked

theorem Consistent.refresh (h : Consistent round) (view : UInt8) :
    Consistent (round.refreshVerifiedSeal view).2 :=
  refreshVerifiedSeal_induction h view fun checked =>
    h.updateView ((h.viewBacked view).withSeal checked)

/-! ## Applying a payload -/

section Applying

variable {message : DbftMessage} {data : DbftConsensusData}

/-- What applying a payload does: nothing, or it adds to the tally of the change views, enters a
later view, or stores a vote in the view of the message. -/
inductive Applied (round : DbftRoundState) (message : DbftMessage) (data : DbftConsensusData) :
    DbftDecodedPayload → DbftRoundState → Prop where
  | same {payload : DbftDecodedPayload} : Applied round message data payload round
  | tally {body : DbftChangeView} (hlt : round.currentView < data.viewNumber + 1) :
      Applied round message data (.changeView body) { round with
        changeViews :=
          round.changeViews.insert data.validatorIndex (data.viewNumber + 1, message) }
  | enter {body : DbftChangeView} (hlt : round.currentView < data.viewNumber + 1) :
      Applied round message data (.changeView body) { round.updateView (data.viewNumber + 1) id with
        changeViews := round.changeViews.insert data.validatorIndex (data.viewNumber + 1, message)
        currentView := data.viewNumber + 1 }
  | request {req : DbftPrepareRequest}
      (hprim : data.validatorIndex = round.primaryIndex data.viewNumber)
      (hnum : req.sealingProposal.number = round.height) :
      Applied round message data (.prepareRequest req)
        (round.updateView data.viewNumber fun s => { s with proposal := some message })
  | response {resp : DbftPrepareResponse}
      (hprim : data.validatorIndex ≠ round.primaryIndex data.viewNumber) :
      Applied round message data (.prepareResponse resp)
        (round.updateView data.viewNumber fun s => { s with
          responses := s.responses.insert data.validatorIndex resp.preparationHash })
  | preCommit {body : DbftPreCommit} (hmode : round.antiMev = true)
      (hfits : ∀ limit, round.envelopeCount data.viewNumber = some limit →
        body.shareCount ≤ limit) :
      Applied round message data (.preCommit body)
        (round.updateView data.viewNumber fun s => { s with
          preCommits := s.preCommits.insert data.validatorIndex body })
  | commit {body : DbftCommit} :
      Applied round message data (.commit body)
        ((round.updateView data.viewNumber fun s =>
          { s with commits := s.commits.insert data.validatorIndex body }).refreshVerifiedSeal
          data.viewNumber).2

theorem applyCommit_snd (round : DbftRoundState) (data : DbftConsensusData) (body : DbftCommit) :
    (round.applyCommit data body).2 =
      ((round.updateView data.viewNumber fun s =>
        { s with commits := s.commits.insert data.validatorIndex body }).refreshVerifiedSeal
          data.viewNumber).2 := by
  unfold DbftRoundState.applyCommit
  dsimp only
  split <;> simp_all

theorem applied (round : DbftRoundState) (message : DbftMessage) (data : DbftConsensusData)
    (p : DbftDecodedPayload) :
    Applied round message data p (round.applyPayload message data p).2 := by
  cases p with
  | changeView body =>
    unfold applyPayload applyChangeView
    dsimp only
    split_ifs with hover hold hlater hq
    · exact .same
    · exact .same
    · exact .same
    · exact .enter (UInt8.not_le.mp hold)
    · exact .tally (UInt8.not_le.mp hold)
  | prepareRequest req =>
    unfold applyPayload applyPrepareRequest
    dsimp only
    split_ifs with hprim hnum
    · exact .same
    · exact .same
    · exact .request (not_not.mp hprim) (not_not.mp hnum)
  | prepareResponse resp =>
    unfold applyPayload applyPrepareResponse
    split_ifs with hprim
    · exact .same
    · exact .response hprim
  | preCommit body =>
    unfold applyPayload applyPreCommit
    dsimp only
    split_ifs with hmode hlarge
    · exact .same
    · refine .preCommit hmode fun limit hlim => ?_
      exact Nat.le_of_not_lt fun hlt => hlarge ⟨limit, hlim, hlt⟩
    · exact .same
  | commit body =>
    rw [applyPayload, applyCommit_snd]
    exact .commit
  | recoveryRequest body => exact .same
  | recoveryMessage body => exact .same

/-- The proposal of the primary is backed by the message just recorded. -/
theorem Consistent.insertProposal (h : Consistent round) {req : DbftPrepareRequest}
    (hget : round.messages.lookup data.key = some message)
    (hb : bodyOf message = some (.prepareRequest req)) (hk : data.messageType = .prepareRequest)
    (hprim : data.validatorIndex = round.primaryIndex data.viewNumber)
    (hnum : req.sealingProposal.number = round.height)
    (hfresh : ∀ s, round.views.lookup data.viewNumber = some s → s.proposal = none) :
    Consistent
      (round.updateView data.viewNumber fun s => { s with proposal := some message }) := by
  apply h.updateView
  have hbacked := h.viewBacked data.viewNumber
  refine ⟨?_, hbacked.responses, hbacked.preCommits, hbacked.commits, ?_⟩
  · intro found hf
    cases hf
    rw [key, hk, hprim] at hget
    exact ⟨hget, req, hb, hnum⟩
  · -- A view has no final header before its proposal.
    intro header hh
    rcases hbacked.finalHeader header hh with ⟨-, proposal, -, hprop, -⟩
    cases hs : round.views.lookup data.viewNumber with
    | none =>
      rw [hs] at hprop
      cases hprop
    | some s =>
      rw [hs, Option.getD_some, hfresh s hs] at hprop
      cases hprop

theorem Consistent.insertResponse (h : Consistent round) {resp : DbftPrepareResponse}
    (hget : round.messages.lookup data.key = some message)
    (hb : bodyOf message = some (.prepareResponse resp)) (hk : data.messageType = .prepareResponse)
    (hprim : data.validatorIndex ≠ round.primaryIndex data.viewNumber) :
    Consistent (round.updateView data.viewNumber fun s => { s with
      responses := s.responses.insert data.validatorIndex resp.preparationHash }) := by
  apply h.updateView
  have hbacked := h.viewBacked data.viewNumber
  refine ⟨hbacked.proposal, ?_, hbacked.preCommits, hbacked.commits, hbacked.finalHeader⟩
  intro i hash hresp
  rw [lookup_insert_if] at hresp
  by_cases hi : i = data.validatorIndex
  · rw [if_pos hi] at hresp
    cases hresp
    rw [key, hk] at hget
    subst hi
    exact ⟨hprim, message, hget, hb⟩
  · rw [if_neg hi] at hresp
    exact hbacked.responses i hash hresp

theorem Consistent.insertPreCommit (h : Consistent round) {body : DbftPreCommit}
    (hget : round.messages.lookup data.key = some message)
    (hb : bodyOf message = some (.preCommit body)) (hk : data.messageType = .preCommit)
    (hmode : round.antiMev = true) :
    Consistent (round.updateView data.viewNumber fun s => { s with
      preCommits := s.preCommits.insert data.validatorIndex body }) := by
  apply h.updateView
  have hbacked := h.viewBacked data.viewNumber
  refine ⟨hbacked.proposal, hbacked.responses, ?_, hbacked.commits, hbacked.finalHeader⟩
  intro i found hf
  rw [lookup_insert_if] at hf
  by_cases hi : i = data.validatorIndex
  · rw [if_pos hi] at hf
    cases hf
    rw [key, hk] at hget
    subst hi
    exact ⟨hmode, message, hget, hb⟩
  · rw [if_neg hi] at hf
    exact hbacked.preCommits i found hf

/-- A commit is backed by the message just recorded. -/
theorem Consistent.insertCommit (h : Consistent round) {body : DbftCommit}
    (hget : round.messages.lookup data.key = some message)
    (hb : bodyOf message = some (.commit body)) (hk : data.messageType = .commit) :
    Consistent (round.updateView data.viewNumber fun s =>
      { s with commits := s.commits.insert data.validatorIndex body }) := by
  apply h.updateView
  have hbacked := h.viewBacked data.viewNumber
  refine ⟨hbacked.proposal, hbacked.responses, hbacked.preCommits, ?_, hbacked.finalHeader⟩
  intro i found hf
  rw [lookup_insert_if] at hf
  by_cases hi : i = data.validatorIndex
  · rw [if_pos hi] at hf
    cases hf
    rw [key, hk] at hget
    subst hi
    exact ⟨message, hget, hb⟩
  · rw [if_neg hi] at hf
    exact hbacked.commits i found hf

/-- Recording and applying one message keeps a round consistent. -/
theorem Consistent.recordApply (h : Consistent round)
    (ha : round.authenticate message = .ok (data, p)) (hprior : round.priorHash data = none) :
    Consistent ((round.record message data).applyPayload message data p).2 := by
  have hrec := h.record ha hprior
  have hauth := (authenticate_eq_ok.mp ha).1
  have hget : (round.record message data).messages.lookup data.key = some message :=
    AList.lookup_insert _
  have hb := hauth.bodyOf_eq
  have hk := hauth.kind_eq
  have happlied := (round.record message data).applied message data p
  generalize ((round.record message data).applyPayload message data p).2 = next at happlied ⊢
  cases happlied with
  | same => exact hrec
  | tally hlt => exact hrec.later ⟨rfl, rfl, rfl, fun _ _ _ h => h⟩ rfl rfl rfl (UInt8.le_refl _)
  | enter hlt =>
    have hupdate : Consistent ((round.record message data).updateView (data.viewNumber + 1) id) :=
      hrec.updateView (hrec.viewBacked _)
    exact hupdate.later ⟨rfl, rfl, rfl, fun _ _ _ h => h⟩ rfl rfl rfl (UInt8.le_of_lt hlt)
  | request hprim hnum =>
    refine hrec.insertProposal hget hb hk.symm hprim hnum ?_
    -- A view with a proposal has seen the primary's slot, so nothing is recorded there again.
    intro s hs
    by_contra hprop
    rcases Option.ne_none_iff_exists'.mp hprop with ⟨earlier, hearl⟩
    have hsl := ((h.views _ _ hs).proposal earlier hearl).1
    have hkey : data.key = ⟨data.viewNumber, .prepareRequest,
      round.primaryIndex data.viewNumber⟩ := by
      rw [key, ← hk, hprim]
      rfl
    have htrac : untracked data.messageType = false := by rw [← hk]; rfl
    rw [← hkey, h.messages_eq_none hprior htrac] at hsl
    cases hsl
  | response hprim => exact hrec.insertResponse hget hb hk.symm hprim
  | preCommit hmode => exact hrec.insertPreCommit hget hb hk.symm hmode
  | commit => exact (hrec.insertCommit hget hb hk.symm).refresh data.viewNumber

end Applying

/-! ## What no operation changes -/

theorem extends_refresh (round : DbftRoundState) (view : UInt8) :
    Extends round (round.refreshVerifiedSeal view).2 :=
  refreshVerifiedSeal_induction (Extends.refl round) view fun _ => extends_updateView

theorem extends_applyPayload (round : DbftRoundState) (message : DbftMessage)
    (data : DbftConsensusData) (p : DbftDecodedPayload) :
    Extends round (round.applyPayload message data p).2 := by
  have happlied := round.applied message data p
  generalize (round.applyPayload message data p).2 = next at happlied ⊢
  cases happlied with
  | same => exact Extends.refl round
  | commit => exact extends_updateView.trans (extends_refresh _ _)
  | tally | enter => exact ⟨rfl, rfl, rfl, fun _ _ _ h => h⟩
  | _ => exact extends_updateView

/-! ## Operations -/

theorem Consistent.keepRecovery (h : Consistent round)
    {rec : DbftRecoveryMessage}
    (ha : round.authenticate message = .ok (data, .recoveryMessage rec)) :
    Consistent { round with messages := round.messages.insert data.key message } := by
  have hk := (authenticate_eq_ok.mp ha).1.kind_eq
  have huntr : untracked data.messageType = true := by rw [← hk]; rfl
  have hprior : round.priorHash data = none := by simp [priorHash, huntr]
  have hrec := h.record ha hprior
  simpa [DbftRoundState.record, huntr] using hrec

theorem Consistent.process (h : Consistent round)
    (message : DbftMessage) : Consistent (round.process message).2 :=
  process_induction (fun _ _ _ _ h ha hprior _ => h.recordApply ha hprior)
    (fun _ _ _ _ h ha => h.keepRecovery ha) h message

theorem Consistent.extends_process (h : Consistent round)
    (message : DbftMessage) : Extends round (round.process message).2 := by
  have hboth : Consistent (round.process message).2 ∧ Extends round (round.process message).2 := by
    have hst : Consistent round ∧ Extends round round := ⟨h, Extends.refl round⟩
    refine @process_induction _ _ (fun next => Consistent next ∧ Extends round next) ?_ ?_ hst
      message
    · rintro next found data p ⟨hn, hext⟩ ha hprior -
      exact ⟨hn.recordApply ha hprior, (hext.trans (hn.extends_record hprior)).trans
        (extends_applyPayload _ _ _ _)⟩
    · rintro next found data rec ⟨hn, hext⟩ ha
      have hk := (authenticate_eq_ok.mp ha).1.kind_eq
      refine ⟨hn.keepRecovery ha, hext.trans ⟨rfl, rfl, rfl, ?_⟩⟩
      intro key kept htrac hget
      have hne : key ≠ data.key := by
        rintro rfl
        rw [key, ← hk] at htrac
        cases htrac
      exact (AList.lookup_insert_ne hne).trans hget
  exact hboth.2

/-- A header that passes the check belongs to the proposal of its view. -/
theorem validateProposalHeader_eq_ok {header : Header} :
    round.validateProposalHeader view header = .ok () ↔
      header.number = round.height ∧ ∃ message req, round.proposal view = some message ∧
        bodyOf message = some (.prepareRequest req) ∧
        proposalHeaderMatches req.sealingProposal header = .ok true := by
  constructor
  · intro h
    obtain ⟨hnum, h⟩ := require_bind h
    obtain ⟨message, hm, h⟩ := ofOption_bind h
    obtain ⟨data, hd, h⟩ := mapError_bind h
    obtain ⟨p, hp, h⟩ := mapError_bind h
    have hb := bodyOf_eq_some.mpr ⟨data, hd, hp⟩
    cases p with
    | prepareRequest req =>
      rcases bind_ok h with ⟨matching, hmatc, h⟩
      rw [require_eq_ok] at h
      exact ⟨hnum, message, req, hm, hb, h ▸ hmatc⟩
    | _ => cases h
  · rintro ⟨hnum, message, req, hm, hb, hmatc⟩
    rcases bodyOf_eq_some.mp hb with ⟨data, hd, hp⟩
    unfold validateProposalHeader
    rw [require_of _ hnum, hm]
    simp only [Except.ofOption, ok_bind, hd, mapError_ok, hp, hmatc]
    rfl

/-- Finalizing a pre-block fixes the Envelope count, or changes nothing. -/
theorem finalizePreBlock_cases (round : DbftRoundState) (view : UInt8) (header : Header)
    (envelopeCount : Nat) :
    (round.finalizePreBlock view header envelopeCount).2 = round ∨
      (round.validateProposalHeader view header = .ok () ∧
        (((round.views.lookup view).getD {}).preBlockEnvelopeCount = none ∨
          ((round.views.lookup view).getD {}).preBlockEnvelopeCount = some envelopeCount) ∧
        (round.finalizePreBlock view header envelopeCount).2 =
          round.updateView view fun s => { s with
            preBlockEnvelopeCount := some envelopeCount
            preCommits :=
              s.preCommits.retain fun _ body => body.shareCount ≤ envelopeCount }) := by
  unfold finalizePreBlock
  split
  · exact Or.inl rfl
  · cases hval : round.validateProposalHeader view header with
    | error error => exact Or.inl rfl
    | ok done =>
      dsimp only
      split
      · exact Or.inl rfl
      · rename_i hprev
        exact Or.inr ⟨rfl, by simpa [or_iff_not_imp_left] using hprev, rfl⟩

/-- Finalizing a proposal installs the header and then refreshes the seal, or changes nothing. -/
theorem finalizeProposal_cases (round : DbftRoundState) (view : UInt8) (header : Header) :
    (round.finalizeProposal view header).2 = round ∨
      (round.validateProposalHeader view header = .ok () ∧
        (round.finalizeProposal view header).2 =
          ((round.updateView view fun s =>
            { s with finalHeader := some header }).refreshVerifiedSeal view).2) := by
  unfold finalizeProposal
  cases hval : round.validateProposalHeader view header with
  | error error => exact Or.inl rfl
  | ok done =>
    refine Or.inr ⟨rfl, ?_⟩
    dsimp only
    split <;> simp_all

theorem Consistent.finalizePreBlock (h : Consistent round) (view : UInt8)
    (header : Header) (envelopeCount : Nat) :
    Consistent (round.finalizePreBlock view header envelopeCount).2 := by
  rcases round.finalizePreBlock_cases view header envelopeCount with heq | ⟨-, -, heq⟩
  · rw [heq]
    exact h
  · rw [heq]
    apply h.updateView
    have hbacked := h.viewBacked view
    refine ⟨hbacked.proposal, hbacked.responses, ?_, hbacked.commits, hbacked.finalHeader⟩
    intro i body hget
    exact hbacked.preCommits i body ((lookup_retain _ _ _ _).mp hget).1

/-- A header that passes the check is backed by the proposal of its view. -/
theorem Consistent.installHeader (h : Consistent round) {header : Header}
    (hval : round.validateProposalHeader view header = .ok ()) :
    Consistent (round.updateView view fun s => { s with finalHeader := some header }) := by
  apply h.updateView
  have hbacked := h.viewBacked view
  refine ⟨hbacked.proposal, hbacked.responses, hbacked.preCommits, hbacked.commits, ?_⟩
  intro found hf
  cases hf
  rcases validateProposalHeader_eq_ok.mp hval with ⟨hnum, message, req, hm, hr⟩
  rcases Option.bind_eq_some_iff.mp hm with ⟨s, hs, hprop⟩
  refine ⟨hnum, message, req, ?_, hr⟩
  rw [hs]
  exact hprop

theorem Consistent.finalizeProposal (h : Consistent round) (view : UInt8)
    (header : Header) : Consistent (round.finalizeProposal view header).2 := by
  rcases round.finalizeProposal_cases view header with heq | ⟨hval, heq⟩
  · rw [heq]
    exact h
  · rw [heq]
    exact (h.installHeader hval).refresh view

inductive Operation where
  | process (message : DbftMessage)
  | finalizePreBlock (view : UInt8) (header : Header) (envelopeCount : Nat)
  | finalizeProposal (view : UInt8) (header : Header)
  | installDkgState (indices : List UInt32) (state : DkgState)

/-- The state that an operation leaves, whether it succeeds or not. -/
def perform (round : DbftRoundState) : Operation → DbftRoundState
  | .process message => (round.process message).2
  | .finalizePreBlock view header envelopeCount =>
    (round.finalizePreBlock view header envelopeCount).2
  | .finalizeProposal view header => (round.finalizeProposal view header).2
  | .installDkgState indices state => (round.installDkgState indices state).2

omit [Crypto] in
theorem installDkgState_cases (round : DbftRoundState) (idx : List UInt32) (s : DkgState) :
    (round.installDkgState idx s).2 = round ∨
      (round.installDkgState idx s).2 =
        { round with dkgIndices := some idx, dkgState := some s } := by
  unfold installDkgState
  split
  · exact Or.inr rfl
  · exact Or.inl rfl

theorem Consistent.perform (h : Consistent round)
    (op : Operation) : Consistent (round.perform op) := by
  cases op with
  | process message => exact h.process message
  | finalizePreBlock view header envelopeCount =>
    exact h.finalizePreBlock view header envelopeCount
  | finalizeProposal view header => exact h.finalizeProposal view header
  | installDkgState idx s =>
    rcases round.installDkgState_cases idx s with heq | heq
    · rw [DbftRoundState.perform, heq]
      exact h
    · rw [DbftRoundState.perform, heq]
      exact h.later ⟨rfl, rfl, rfl, fun _ _ _ h => h⟩ rfl rfl rfl (UInt8.le_refl _)

theorem Consistent.extends_perform (h : Consistent round)
    (op : Operation) : Extends round (round.perform op) := by
  cases op with
  | process message => exact h.extends_process message
  | finalizePreBlock view header envelopeCount =>
    rcases round.finalizePreBlock_cases view header envelopeCount with heq | ⟨-, -, heq⟩ <;>
      rw [DbftRoundState.perform, heq]
    · exact Extends.refl round
    · exact extends_updateView
  | finalizeProposal view header =>
    rcases round.finalizeProposal_cases view header with heq | ⟨-, heq⟩ <;>
      rw [DbftRoundState.perform, heq]
    · exact Extends.refl round
    · exact extends_updateView.trans (extends_refresh _ _)
  | installDkgState idx s =>
    rcases round.installDkgState_cases idx s with heq | heq <;>
      rw [DbftRoundState.perform, heq]
    · exact Extends.refl round
    · exact ⟨rfl, rfl, rfl, fun _ _ _ h => h⟩

omit [Crypto] in
theorem lookup_views_start {height : UInt64} {vals : ValidatorSet} {antiMev : Bool}
    (h : (start height vals antiMev).views.lookup view = some s) : s = {} := by
  have he : (view, s) ∈ toList (AList.singleton (0 : UInt8) ({} : ViewState)) :=
    mem_toList.mpr h
  simp only [toList, AList.singleton_entries, List.map_cons, List.map_nil, List.mem_singleton,
    Prod.mk.injEq] at he
  exact he.2

theorem consistent_start (height : UInt64) (vals : ValidatorSet) (antiMev : Bool) :
    Consistent (start height vals antiMev) := by
  refine ⟨?_, ?_, ?_, ?_⟩
  · intro key message hget
    simp [start] at hget
  · intro key htrac
    simp [start]
  · intro key message hget
    simp [start] at hget
  · intro view s hs
    rw [lookup_views_start hs]
    exact viewBacked_default _ _

theorem consistent_run (height : UInt64) (vals : ValidatorSet) (antiMev : Bool)
    (ops : List Operation) :
    Consistent (Machine.run perform (start height vals antiMev) ops) :=
  Machine.invariant_run (fun _ op h => h.perform op)
    (consistent_start height vals antiMev) ops

theorem Consistent.extends_run (h : Consistent round)
    (ops : List Operation) :
    Extends round (Machine.run DbftRoundState.perform round ops) := by
  induction ops generalizing round with
  | nil => exact Extends.refl round
  | cons operation ops ih => exact (h.extends_perform operation).trans (ih (h.perform _))

/-- Over every run: a slot that is filled once keeps its message, and a later message that is
authentic for the slot is a duplicate or refused as an equivocation. -/
theorem first_message_wins (height : UInt64) (validators : ValidatorSet) (antiMev : Bool)
    (before after : List Operation) : ∃ round later,
    Machine.run perform (start height validators antiMev) before = round ∧
    Machine.run perform round after = later ∧
    ∀ key message, untracked key.kind = false → round.messages.lookup key = some message →
      later.messages.lookup key = some message ∧
      ∀ other data payload, later.authenticate other = .ok (data, payload) → data.key = key →
        later.process other = (if message.hash = other.hash then .ok .duplicate
          else .error (.equivocation key message.hash other.hash), later) := by
  have hround := consistent_run height validators antiMev before
  have hlater := consistent_run height validators antiMev (before ++ after)
  rw [Machine.run_append] at hlater
  refine ⟨_, _, rfl, rfl, fun key message htracked hlookup => ?_⟩
  have hkept := (hround.extends_run after).messages key message htracked hlookup
  refine ⟨hkept, ?_⟩
  rintro other data payload hauthentic rfl
  have hprior := hlater.seen_eq data.key htracked
  rw [hkept, Option.map_some] at hprior
  have htype : untracked data.messageType = false := htracked
  simp only [process, processWith, hauthentic, priorHash, htype, Bool.false_eq_true, if_false,
    hprior]
  split <;> rfl

end DbftRoundState
end NeoX
