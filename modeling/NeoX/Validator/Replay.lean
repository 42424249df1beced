import NeoX.Network.Compaction
import NeoX.Validator.Counted

/-!
# Replaying recovered messages

The receiving side of recovery: which messages a round accepts, and what a replay of
such messages leaves alone.

Main results:

- `Sound.processDirect_delivers`: a message that the round is receptive to is
  accepted and retained.
- `Sound.replayRecovered_delivers`: a replay of such messages succeeds and the
  round holds all of them.
-/

namespace NeoX

open List
namespace DbftRoundState

variable [Crypto]

/-! ## What a round accepts -/

/-- Every set of commits of the validators can be checked against the final header of a view. -/
def CommitsCheckable (round : DbftRoundState) (view : UInt8) : Prop :=
  ∀ header, round.finalHeader view = some header →
    ∃ extra, DbftExtraPrefix.decode header.extraData = .ok extra ∧
      (extra.signatureScheme = .threshold → ∃ dkgState dkgIndices,
        round.dkgState = some dkgState ∧ round.dkgIndices = some dkgIndices ∧
        Crypto.keyValidate dkgState.current.globalPublicKey = true ∧
        dkgState.parameters.scaler ≠ 0 ∧ round.count ≤ dkgState.parameters.participants)

/-- A body of this slot is applied without an error. -/
structure Accepts (round : DbftRoundState) (data : DbftConsensusData)
    (payload : DbftDecodedPayload) : Prop where
  countable : round.Countable data payload
  checkable : ∀ body, payload = .commit body → round.CommitsCheckable data.viewNumber

variable {round : DbftRoundState} {next : DbftRoundState} {view : UInt8}

theorem CommitsCheckable.mono (h : Keeps round next)
    (hchec : round.CommitsCheckable view) : next.CommitsCheckable view := by
  have hc : next.count = round.count := by simp [count, h.extended.validators]
  intro header hh
  rw [h.finalHeader] at hh
  rcases hchec header hh with ⟨extra, hx, ht⟩
  refine ⟨extra, hx, ?_⟩
  intro hsch
  rcases ht hsch with ⟨dkgState, dkgIndices, hdkgS, hdkgI, hr⟩
  refine ⟨dkgState, dkgIndices, h.dkgState.trans hdkgS, h.dkgIndices.trans hdkgI, ?_⟩
  rw [hc]
  exact hr

variable {data : DbftConsensusData} {payload : DbftDecodedPayload}

theorem Accepts.mono (h : Keeps round next)
    (hacce : round.Accepts data payload) : next.Accepts data payload :=
  ⟨h.countable.mpr hacce.countable, fun body hb => (hacce.checkable body hb).mono h⟩

/-- There are no more threshold shares than validators. -/
theorem length_thresholdShares_le (h : Consistent round) {s : ViewState}
    (hs : round.views.lookup view = some s) (dkgIndices : List UInt32) :
    (thresholdShares dkgIndices s.commits.toList).length ≤ round.count := by
  have hr : ∀ i ∈ s.commits.toList.map Prod.fst, i.toNat < round.count := by
    intro i hi
    rcases mem_map.mp hi with ⟨⟨found, body⟩, he, rfl⟩
    have hf : ((round.views.lookup view).getD {}).commits.lookup found = some body := by
      rw [hs]
      exact FiniteMap.mem_toList.mp he
    exact h.commit_lt hf
  have hlen := length_le_of_indices hr s.commits.keys_toList_nodup
  rw [length_map] at hlen
  exact (length_filterMap_le _ _).trans hlen

theorem applyCommit_isOk {body : DbftCommit}
    (h : Consistent (round.updateView data.viewNumber fun s =>
      { s with commits := s.commits.insert data.validatorIndex body }))
    (hmapped : DkgMapped round) (hchec : round.CommitsCheckable data.viewNumber) :
    ∃ progress, (round.applyCommit data body).1 = .ok progress := by
  generalize hrd : (round.updateView data.viewNumber fun s =>
    { s with commits := s.commits.insert data.validatorIndex body }) = updated at h
  have hkeeps : Keeps round updated := hrd ▸ keeps_updateView (fun _ => rfl) (fun _ => rfl)
  have hupda : DkgMapped updated := hmapped.mono hkeeps.extended.validators hkeeps.dkgIndices
  have hchk : ∃ checked, updated.verifyCommitQuorum data.viewNumber = .ok checked := by
    cases hs : updated.views.lookup data.viewNumber with
    | none => exact ⟨none, by simp [verifyCommitQuorum, hs]⟩
    | some s =>
      cases hh : s.finalHeader with
      | none => exact ⟨none, by simp [verifyCommitQuorum, hs, hh]⟩
      | some header =>
        have hinst : updated.finalHeader data.viewNumber = some header := by
          simp [DbftRoundState.finalHeader, hs, hh]
        rcases hchec.mono hkeeps header hinst with ⟨extra, hx, ht⟩
        refine verifyCommitQuorum_isOk hs hh hx ?_ ?_
        · intro i found hf
          have hcommit : ((updated.views.lookup data.viewNumber).getD {}).commits.lookup i
              = some found := by
            rw [hs]
            exact hf
          exact h.commit_lt hcommit
        · intro hsch
          rcases ht hsch with
            ⟨dkgState, dkgIndices, hdkgS, hdkgI, hkey, hscaler, hc⟩
          exact ⟨dkgState, dkgIndices, hdkgS, hdkgI, hupda dkgIndices hdkgI,
            hkey, hscaler, (length_thresholdShares_le h hs dkgIndices).trans hc⟩
  rcases hchk with ⟨checked, hchk⟩
  unfold applyCommit
  simp only [hrd, refreshVerifiedSeal, hchk]
  cases updated.views.lookup data.viewNumber with
  | none => exact ⟨_, rfl⟩
  | some s => exact ⟨_, rfl⟩

/-! ## Delivery of one message -/

variable {message : DbftMessage}

/-- A body that the round accepts is applied in the current view. -/
theorem applyPayload_accepts (h : Consistent round) (hmapped : DkgMapped round)
    (hget : round.messages.lookup data.key = some message) (hb : bodyOf message = some payload)
    (hk : payload.messageType = data.messageType) (hacce : round.Accepts data payload) :
    ∃ progress, (round.applyPayload message data payload).1 = .ok progress ∧
      (round.applyPayload message data payload).2.currentView = round.currentView := by
  have hcbl := hacce.countable
  cases payload with
  | prepareRequest req =>
    rw [applyPayload, applyPrepareRequest, if_neg (not_not.mpr hcbl.1), if_neg (not_not.mpr hcbl.2)]
    exact ⟨_, rfl, rfl⟩
  | prepareResponse resp =>
    rw [applyPayload, applyPrepareResponse, if_neg hcbl]
    exact ⟨_, rfl, rfl⟩
  | preCommit body =>
    have hlim : ¬ ∃ limit ∈ round.envelopeCount data.viewNumber, limit < body.shareCount := by
      rintro ⟨limit, hf, hlt⟩
      exact absurd (hcbl.2 limit hf) (Nat.not_le.mpr hlt)
    rw [applyPayload, applyPreCommit, if_neg (not_not.mpr hcbl.1)]
    dsimp only
    rw [if_neg hlim]
    exact ⟨_, rfl, rfl⟩
  | commit body =>
    have hinsert := h.insertCommit hget hb hk.symm
    rcases applyCommit_isOk hinsert hmapped (hacce.checkable body rfl) with
      ⟨progress, hprog⟩
    refine ⟨progress, hprog, ?_⟩
    rw [applyPayload, applyCommit_snd]
    rcases refreshVerifiedSeal_cases (round.updateView data.viewNumber fun s =>
      { s with commits := s.commits.insert data.validatorIndex body })
      data.viewNumber with heq | ⟨_, _, -, -, heq⟩
    · rw [heq]
      rfl
    · rw [heq]
      rfl
  | changeView body => exact False.elim hcbl
  | recoveryRequest body => exact False.elim hcbl
  | recoveryMessage body => exact False.elim hcbl

/-- The round retains a message and counts it in its view. -/
def Holds (round : DbftRoundState) (message : DbftMessage) : Prop :=
  ∃ data payload, message.consensusData = .ok data ∧ data.decodedPayload = .ok payload ∧
    round.messages.lookup data.key = some message ∧ round.Counts message data payload

/-- A message of a validator that the round neither contradicts nor refuses. -/
structure ReceptiveTo (round : DbftRoundState) (message : DbftMessage) (data : DbftConsensusData)
    (payload : DbftDecodedPayload) : Prop where
  authentic : round.Authentic message data payload
  view : round.viewAllowed data = true
  unopposed : round.messages.lookup data.key = none ∨
    round.messages.lookup data.key = some message
  accepts : round.Accepts data payload

theorem ReceptiveTo.viewBound (h : round.ReceptiveTo message data payload) :
    DbftRoundState.viewBound data.messageType = true := by
  have hcbl := h.accepts.countable
  rw [← h.authentic.kind_eq]
  cases payload <;> first | rfl | exact False.elim hcbl

variable {kind : DbftMessageType}

omit [Crypto] in
theorem untracked_of_viewBound (h : viewBound kind = true) :
    untracked kind = false := by
  cases kind <;> first | rfl | cases h

omit [Crypto] in
theorem shouldProcess_of_viewBound (h : viewBound kind = true) (view : UInt8)
    (recoverChangeViews : Bool) :
    shouldProcess view recoverChangeViews view kind = true := by
  cases kind <;> simp_all [viewBound, shouldProcess]

/-- The state after one more message in a round that holds messages apart from it. -/
structure Delivered (round next : DbftRoundState) (message : DbftMessage)
    (data : DbftConsensusData) : Prop where
  sound : Sound next
  keeps : Keeps round next
  view : next.currentView = round.currentView
  retained : next.messages.lookup data.key = some message
  others : ∀ key, key ≠ data.key → next.messages.lookup key = round.messages.lookup key

theorem processDirect_fresh (ha : round.authenticate message = .ok (data, payload))
    (hprior : round.priorHash data = none) (hp : ∀ rec, payload ≠ .recoveryMessage rec) :
    round.processDirect message
      = (round.record message data).applyPayload message data payload := by
  unfold processDirect processWith
  rw [ha]
  simp only [hprior]

/-- A message that the round is receptive to is accepted and retained. -/
theorem Sound.processDirect_delivers (h : Sound round)
    (hrece : round.ReceptiveTo message data payload) :
    ∃ progress next, round.processDirect message = (.ok progress, next) ∧
      Delivered round next message data := by
  have ha : round.authenticate message = .ok (data, payload) :=
    authenticate_eq_ok.mpr ⟨hrece.authentic, hrece.view⟩
  have htrac := untracked_of_viewBound hrece.viewBound
  have hk := hrece.authentic.kind_eq
  have hseen := h.consistent.seen_eq data.key htrac
  have hnotR : ∀ recovery, payload ≠ .recoveryMessage recovery := by
    rintro recovery rfl
    exact hrece.accepts.countable
  rcases hrece.unopposed with hfresh | hsame
  · rw [hfresh] at hseen
    have hprior : round.priorHash data = none := by simpa [priorHash, htrac] using hseen
    have hrec := h.consistent.record ha hprior
    have hkeeps : Keeps round (round.record message data) := h.consistent.keeps_record hprior
    have hvotes := votesOnly_applyPayload (round.record message data) message data payload
    rcases applyPayload_accepts hrec (h.mapped.mono rfl rfl) (AList.lookup_insert _)
      hrece.authentic.bodyOf_eq hk (hrece.accepts.mono hkeeps) with
      ⟨progress, hprog, hv⟩
    rw [processDirect_fresh ha hprior hnotR]
    refine ⟨progress, _, Prod.ext hprog rfl, h.recordApply ha hprior,
      hkeeps.trans hvotes.keeps, hv, ?_, ?_⟩
    · rw [hvotes.messages]
      exact AList.lookup_insert _
    · intro key hkey
      rw [hvotes.messages]
      exact AList.lookup_insert_ne hkey
  · rw [hsame] at hseen
    have hprior : round.priorHash data = some message.hash := by
      simpa [priorHash, htrac] using hseen
    refine ⟨.duplicate, round, ?_, h, Keeps.refl round, rfl, hsame, fun _ _ => rfl⟩
    unfold processDirect processWith
    rw [ha]
    simp only [hprior, if_true]

/-! ## Delivery of a list of messages -/

/-- Two messages of different slots. -/
def DifferentSlots (first second : DbftMessage) : Prop :=
  ∀ data other, first.consensusData = .ok data → second.consensusData = .ok other →
    data.key ≠ other.key

theorem ReceptiveTo.mono (h : Keeps round next) (hv : next.currentView = round.currentView)
    (hrece : round.ReceptiveTo message data payload)
    (hsl : next.messages.lookup data.key = round.messages.lookup data.key) :
    next.ReceptiveTo message data payload where
  authentic := hrece.authentic.mono h.extended
  view := by
    rw [viewAllowed, hv]
    exact hrece.view
  unopposed := by
    rw [hsl]
    exact hrece.unopposed
  accepts := hrece.accepts.mono h

/-- A replay of messages that the round is receptive to succeeds, and the round holds all of them.
-/
theorem Sound.replayRecovered_delivers (h : Sound round) {recoverChangeViews : Bool}
    {msgs : List DbftMessage} (r : DbftRoundProgress)
    (hrece : ∀ message ∈ msgs, ∃ data payload, round.ReceptiveTo message data payload)
    (hslots : msgs.Pairwise DifferentSlots) :
    ∃ progress next,
      replayRecovered round.currentView recoverChangeViews round r msgs
        = .ok (progress, next) ∧
      Keeps round next ∧ next.currentView = round.currentView ∧ Sound next ∧
      (∀ message ∈ msgs, next.Holds message) ∧
      ∀ key, (∀ message ∈ msgs, ∀ data, message.consensusData = .ok data → data.key ≠ key) →
        next.messages.lookup key = round.messages.lookup key := by
  induction msgs generalizing round r with
  | nil => exact ⟨r, round, rfl, Keeps.refl round, rfl, h, by simp, fun _ _ => rfl⟩
  | cons message msgs ih =>
    rcases pairwise_cons.mp hslots with ⟨h1, hr⟩
    rcases hrece message mem_cons_self with ⟨data, payload, hm⟩
    rcases h.processDirect_delivers hm with ⟨progress, next, hproc, hn⟩
    have hd := hm.authentic.data_eq
    have hlater : ∀ other ∈ msgs, ∃ data payload, next.ReceptiveTo other data payload := by
      intro other ho
      rcases hrece other (mem_cons_of_mem _ ho) with ⟨found, body, hf⟩
      have hkey := h1 other ho data found hd hf.authentic.data_eq
      exact ⟨found, body, hf.mono hn.keeps hn.view (hn.others _ hkey.symm)⟩
    rcases ih hn.sound (laterProgress r progress) hlater hr with
      ⟨final, last, hreplay, hl, hlast, hsound, hall, hunto⟩
    have hproce := shouldProcess_of_viewBound hm.viewBound round.currentView
      recoverChangeViews
    refine ⟨final, last, ?_, hn.keeps.trans hl, hlast.trans hn.view, hsound, ?_, ?_⟩
    · rw [replayRecovered, hd]
      simp only [Except.mapError_ok, Except.ok_bind]
      rw [if_pos hproce, hproc]
      simp only
      rw [← hn.view]
      exact hreplay
    · intro other ho
      rcases mem_cons.mp ho with rfl | ho
      · -- The slot is filled now and no later message of the list touches it.
        have hreta : last.messages.lookup data.key = some other := by
          rw [hunto data.key, hn.retained]
          intro later hmem found hf
          exact (h1 later hmem data found hd hf).symm
        refine ⟨data, payload, hd, hm.authentic.payload_eq, hreta, ?_⟩
        apply hsound.counting other data payload hreta hd hm.authentic.payload_eq
        exact (hn.keeps.trans hl).countable.mpr hm.accepts.countable
      · exact hall other ho
    · intro key hkey
      rw [hunto key fun later hmem found hf =>
        hkey later (mem_cons_of_mem _ hmem) found hf]
      exact hn.others key (hkey message mem_cons_self data hd).symm

end DbftRoundState
end NeoX
