import NeoX.Validator.CommitCheck

/-!
# What a round counts

Processing a message never touches the DKG data, the Envelope counts and the final
headers of a round, and every retained message that its view can take is counted there.

Main results:

- `Consistent.keeps_process`: what `process` leaves alone.
- `Counting.perform`: every operation keeps the retained messages counted.
- `sound_run`: they are counted in every round reached from its start.
-/

namespace NeoX

open DbftConsensusData
namespace DbftRoundState

variable [Crypto]

/-! ## What processing leaves alone -/

def finalHeader (round : DbftRoundState) (view : UInt8) : Option Header := do
  let state ← round.views.lookup view
  state.finalHeader

/-- A later state with the same DKG data, Envelope counts and final headers. -/
structure Keeps (round next : DbftRoundState) : Prop where
  extended : Extends round next
  dkgState : next.dkgState = round.dkgState
  dkgIndices : next.dkgIndices = round.dkgIndices
  envelopeCount : ∀ view, next.envelopeCount view = round.envelopeCount view
  finalHeader : ∀ view, next.finalHeader view = round.finalHeader view

omit [Crypto] in
theorem Keeps.refl (round : DbftRoundState) : Keeps round round :=
  ⟨Extends.refl round, rfl, rfl, fun _ => rfl, fun _ => rfl⟩

omit [Crypto] in
theorem Keeps.trans {a b third : DbftRoundState} (h : Keeps a b)
    (h' : Keeps b third) : Keeps a third where
  extended := h.extended.trans h'.extended
  dkgState := h'.dkgState.trans h.dkgState
  dkgIndices := h'.dkgIndices.trans h.dkgIndices
  envelopeCount view := (h'.envelopeCount view).trans (h.envelopeCount view)
  finalHeader view := (h'.finalHeader view).trans (h.finalHeader view)

variable {round : DbftRoundState} {update : ViewState → ViewState}

omit [Crypto] in
theorem envelopeCount_updateView {view : UInt8}
    (hc : ∀ s, (update s).preBlockEnvelopeCount = s.preBlockEnvelopeCount) (other : UInt8) :
    (round.updateView view update).envelopeCount other = round.envelopeCount other := by
  simp only [envelopeCount, lookup_updateView]
  by_cases ho : other = view
  · subst ho
    cases round.views.lookup other with
    | none => simp [hc]
    | some s => simp [hc]
  · simp [ho]

omit [Crypto] in
theorem finalHeader_updateView {view : UInt8} (hh : ∀ s, (update s).finalHeader = s.finalHeader)
    (other : UInt8) :
    (round.updateView view update).finalHeader other = round.finalHeader other := by
  simp only [finalHeader, lookup_updateView]
  by_cases ho : other = view
  · subst ho
    cases round.views.lookup other with
    | none => simp [hh]
    | some s => simp [hh]
  · simp [ho]

omit [Crypto] in
/-- An update of a view that touches neither its Envelope count nor its final header. -/
theorem keeps_updateView {view : UInt8}
    (hc : ∀ s, (update s).preBlockEnvelopeCount = s.preBlockEnvelopeCount)
    (hh : ∀ s, (update s).finalHeader = s.finalHeader) :
    Keeps round (round.updateView view update) :=
  ⟨extends_updateView, rfl, rfl, envelopeCount_updateView hc, finalHeader_updateView hh⟩

variable {message : DbftMessage} {data : DbftConsensusData}

theorem Consistent.keeps_record (h : Consistent round) (hprior : round.priorHash data = none) :
    Keeps round (round.record message data) :=
  ⟨h.extends_record hprior, rfl, rfl, fun _ => rfl, fun _ => rfl⟩

/-- A later state in which at most the votes and the current view differ. -/
structure VotesOnly (round next : DbftRoundState) : Prop where
  keeps : Keeps round next
  messages : next.messages = round.messages
  seen : next.seen = round.seen

omit [Crypto] in
theorem VotesOnly.refl (round : DbftRoundState) : VotesOnly round round :=
  ⟨Keeps.refl round, rfl, rfl⟩

omit [Crypto] in
theorem votesOnly_updateView {view : UInt8}
    (hc : ∀ s, (update s).preBlockEnvelopeCount = s.preBlockEnvelopeCount)
    (hh : ∀ s, (update s).finalHeader = s.finalHeader) :
    VotesOnly round (round.updateView view update) :=
  ⟨keeps_updateView hc hh, rfl, rfl⟩

variable {next : DbftRoundState}

theorem VotesOnly.refresh (h : VotesOnly round next) (view : UInt8) :
    VotesOnly round (next.refreshVerifiedSeal view).2 :=
  refreshVerifiedSeal_induction h view fun _ =>
    ⟨h.keeps.trans (keeps_updateView (fun _ => rfl) (fun _ => rfl)), h.messages, h.seen⟩

/-- Applying a payload touches at most the votes of a view and the current view. -/
theorem votesOnly_applyPayload (round : DbftRoundState) (message : DbftMessage)
    (data : DbftConsensusData) (payload : DbftDecodedPayload) :
    VotesOnly round (round.applyPayload message data payload).2 := by
  have happlied := round.applied message data payload
  generalize (round.applyPayload message data payload).2 = next at happlied ⊢
  cases happlied with
  | same => exact VotesOnly.refl round
  | tally =>
    exact ⟨⟨⟨rfl, rfl, rfl, fun _ _ _ h => h⟩, rfl, rfl, fun _ => rfl, fun _ => rfl⟩, rfl, rfl⟩
  | enter =>
    have hv : Keeps round (round.updateView (data.viewNumber + 1) id) :=
      keeps_updateView (fun _ => rfl) (fun _ => rfl)
    exact ⟨⟨⟨rfl, rfl, rfl, fun _ _ _ h => h⟩, rfl, rfl, hv.envelopeCount, hv.finalHeader⟩, rfl,
      rfl⟩
  | commit =>
    apply VotesOnly.refresh
    exact votesOnly_updateView (fun _ => rfl) (fun _ => rfl)
  | _ => exact votesOnly_updateView (fun _ => rfl) (fun _ => rfl)

theorem keeps_keepRecovery {rec : DbftRecoveryMessage}
    (ha : round.authenticate message = .ok (data, .recoveryMessage rec)) :
    Keeps round { round with messages := round.messages.insert data.key message } := by
  refine ⟨⟨rfl, rfl, rfl, ?_⟩, rfl, rfl, fun _ => rfl, fun _ => rfl⟩
  intro key found htrac hget
  have hk := (authenticate_eq_ok.mp ha).1.kind_eq
  have hne : key ≠ data.key := by
    rintro rfl
    rw [key, ← hk] at htrac
    cases htrac
  exact (AList.lookup_insert_ne hne).trans hget

theorem Consistent.keeps_process (h : Consistent round) (message : DbftMessage) :
    Keeps round (round.process message).2 := by
  have hst : Consistent round ∧ Keeps round round := ⟨h, Keeps.refl round⟩
  refine (@process_induction _ _ (fun next => Consistent next ∧ Keeps round next) ?_ ?_ hst
    message).2
  · rintro next found data payload ⟨hn, hkeeps⟩ ha hprior -
    exact ⟨hn.recordApply ha hprior,
      (hkeeps.trans (hn.keeps_record hprior)).trans
        (votesOnly_applyPayload _ _ _ _).keeps⟩
  · rintro next found data rec ⟨hn, hkeeps⟩ ha
    exact ⟨hn.keepRecovery ha, hkeeps.trans (keeps_keepRecovery ha)⟩

theorem Consistent.keeps_run (h : Consistent round) (msgs : List DbftMessage) :
    Keeps round (Machine.run DbftRoundState.perform round (msgs.map .process)) := by
  induction msgs generalizing round with
  | nil => exact Keeps.refl round
  | cons message msgs ih => exact (h.keeps_process message).trans (ih (h.process message))

/-! ## Counted messages -/

/-- What a round holds, or would hold, about a view. -/
def viewState (round : DbftRoundState) (view : UInt8) : ViewState :=
  (round.views.lookup view).getD {}

omit [Crypto] in
theorem viewState_updateView (round : DbftRoundState) (view other : UInt8)
    (update : ViewState → ViewState) :
    (round.updateView view update).viewState other
      = if other = view then update (round.viewState view) else round.viewState other := by
  rw [viewState, lookup_updateView]
  by_cases ho : other = view
  · rw [if_pos ho, if_pos ho]
    rfl
  · rw [if_neg ho, if_neg ho]
    rfl

omit [Crypto] in
theorem envelopeCount_eq (round : DbftRoundState) (view : UInt8) :
    round.envelopeCount view = (round.viewState view).preBlockEnvelopeCount := by
  rw [envelopeCount, viewState]
  cases round.views.lookup view <;> rfl

omit [Crypto] in
theorem finalHeader_eq (round : DbftRoundState) (view : UInt8) :
    round.finalHeader view = (round.viewState view).finalHeader := by
  rw [finalHeader, viewState]
  cases round.views.lookup view <;> rfl

omit [Crypto] in
theorem proposal_eq (round : DbftRoundState) (view : UInt8) :
    round.proposal view = (round.viewState view).proposal := by
  rw [proposal, viewState]
  cases round.views.lookup view <;> rfl

/-- The view of a body can take it. -/
def Countable (round : DbftRoundState) (data : DbftConsensusData) : DbftDecodedPayload → Prop
  | .prepareRequest request => data.validatorIndex = round.primaryIndex data.viewNumber ∧
      request.sealingProposal.number = round.height
  | .prepareResponse _ => data.validatorIndex ≠ round.primaryIndex data.viewNumber
  | .preCommit body => round.antiMev = true ∧
      ∀ limit, round.envelopeCount data.viewNumber = some limit → body.shareCount ≤ limit
  | .commit _ => True
  | _ => False

/-- A view holds a body as the vote of its sender. -/
def ViewCounts (state : ViewState) (message : DbftMessage) (index : UInt8) :
    DbftDecodedPayload → Prop
  | .prepareRequest _ => state.proposal = some message
  | .prepareResponse response => state.responses.lookup index = some response.preparationHash
  | .preCommit body => state.preCommits.lookup index = some body
  | .commit body => state.commits.lookup index = some body
  | _ => True

/-- The view of a message counts it. -/
def Counts (round : DbftRoundState) (message : DbftMessage) (data : DbftConsensusData)
    (payload : DbftDecodedPayload) : Prop :=
  ViewCounts (round.viewState data.viewNumber) message data.validatorIndex payload

/-- Every retained message that its view can take is counted. -/
def Counting (round : DbftRoundState) : Prop :=
  ∀ message data payload, round.messages.lookup data.key = some message →
    message.consensusData = .ok data → data.decodedPayload = .ok payload →
    round.Countable data payload → round.Counts message data payload

variable {payload : DbftDecodedPayload}

omit [Crypto] in
theorem countable_iff (h : Extends round next)
    (hc : ∀ view, next.envelopeCount view = round.envelopeCount view) :
    next.Countable data payload ↔ round.Countable data payload := by
  cases payload with
  | prepareRequest req => rw [Countable, Countable, h.primaryIndex, h.height]
  | prepareResponse resp => rw [Countable, Countable, h.primaryIndex]
  | preCommit body => rw [Countable, Countable, h.antiMev, hc]
  | commit body => exact Iff.rfl
  | changeView body => exact Iff.rfl
  | recoveryRequest body => exact Iff.rfl
  | recoveryMessage body => exact Iff.rfl

omit [Crypto] in
theorem Keeps.countable (h : Keeps round next) :
    next.Countable data payload ↔ round.Countable data payload :=
  countable_iff h.extended h.envelopeCount

section Updates

variable {round : DbftRoundState} {message : DbftMessage} {data : DbftConsensusData}
  {payload : DbftDecodedPayload}

omit [Crypto] in
theorem Counts.updateView {view : UInt8} {update : ViewState → ViewState}
    (h : round.Counts message data payload) (hv : data.viewNumber = view →
      ViewCounts (round.viewState view) message data.validatorIndex payload →
      ViewCounts (update (round.viewState view)) message data.validatorIndex payload) :
    (round.updateView view update).Counts message data payload := by
  rw [Counts, viewState_updateView]
  by_cases hsame : data.viewNumber = view
  · rw [if_pos hsame]
    rw [Counts, hsame] at h
    exact hv hsame h
  · rw [if_neg hsame]
    exact h

theorem Counts.refresh (h : round.Counts message data payload) (view : UInt8) :
    (round.refreshVerifiedSeal view).2.Counts message data payload := by
  refine refreshVerifiedSeal_induction (motive := fun next => next.Counts message data payload) h
    view fun _ => h.updateView fun _ hcounts => ?_
  cases payload <;> exact hcounts

theorem counts_applyPayload (hcbl : round.Countable data payload) :
    (round.applyPayload message data payload).2.Counts message data payload := by
  cases payload with
  | prepareRequest req =>
    rw [applyPayload, applyPrepareRequest, if_neg (not_not.mpr hcbl.1),
      if_neg (not_not.mpr hcbl.2), Counts, viewState_updateView, if_pos rfl]
    rfl
  | prepareResponse resp =>
    rw [applyPayload, applyPrepareResponse, if_neg hcbl, Counts, viewState_updateView, if_pos rfl]
    exact AList.lookup_insert _
  | preCommit body =>
    have hlim : ¬ ∃ limit ∈ round.envelopeCount data.viewNumber, limit < body.shareCount := by
      rintro ⟨limit, hf, hlt⟩
      exact absurd (hcbl.2 limit hf) (Nat.not_le.mpr hlt)
    rw [applyPayload, applyPreCommit, if_neg (not_not.mpr hcbl.1)]
    dsimp only
    rw [if_neg hlim, Counts, viewState_updateView, if_pos rfl]
    exact AList.lookup_insert _
  | commit body =>
    rw [applyPayload, applyCommit_snd]
    apply Counts.refresh
    rw [Counts, viewState_updateView, if_pos rfl]
    exact AList.lookup_insert _
  | changeView body => exact False.elim hcbl
  | recoveryRequest body => exact False.elim hcbl
  | recoveryMessage body => exact False.elim hcbl

/-- Applying a message of another slot keeps what is counted. -/
theorem Counts.applyPayload {found : DbftMessage} {o : DbftConsensusData}
    {body : DbftDecodedPayload} (h : round.Counts message data payload)
    (hcbl : round.Countable data payload) (hk : payload.messageType = data.messageType)
    (hb : body.messageType = o.messageType) (hne : data.key ≠ o.key) :
    (round.applyPayload found o body).2.Counts message data payload := by
  -- A vote of the same kind in the same view belongs to another validator.
  have hi : payload.messageType = body.messageType → data.viewNumber = o.viewNumber →
      data.validatorIndex ≠ o.validatorIndex := by
    intro htype hv hi
    rw [hk, hb] at htype
    exact hne (by rw [key, key, hv, htype, hi])
  have happlied := round.applied found o body
  generalize (round.applyPayload found o body).2 = next at happlied ⊢
  cases happlied with
  | same => exact h
  | tally => exact h
  | enter =>
    have hv : (round.updateView (o.viewNumber + 1) id).Counts message data payload :=
      h.updateView fun _ hcounts => hcounts
    exact hv
  | request hprim =>
    apply h.updateView
    intro hv hcounts
    cases payload with
    | prepareRequest proposed =>
      have hsame := hcbl.1
      rw [hv, ← hprim] at hsame
      exact absurd hsame (hi rfl hv)
    | _ => exact hcounts
  | response =>
    apply h.updateView
    intro hv hcounts
    cases payload with
    | prepareResponse earlier => exact (AList.lookup_insert_ne (hi rfl hv)).trans hcounts
    | _ => exact hcounts
  | preCommit =>
    apply h.updateView
    intro hv hcounts
    cases payload with
    | preCommit earlier => exact (AList.lookup_insert_ne (hi rfl hv)).trans hcounts
    | _ => exact hcounts
  | commit =>
    apply Counts.refresh
    apply h.updateView
    intro hv hcounts
    cases payload with
    | commit earlier => exact (AList.lookup_insert_ne (hi rfl hv)).trans hcounts
    | _ => exact hcounts

end Updates

/-! ## Counting along a run -/

section Steps

variable {round : DbftRoundState}

/-- Recording and applying a message of a free slot keeps the retained messages counted. -/
theorem Counting.recordApply (hrd : Consistent round) (h : Counting round) {message : DbftMessage}
    {data : DbftConsensusData} {payload : DbftDecodedPayload}
    (ha : round.authenticate message = .ok (data, payload)) (hprior : round.priorHash data = none) :
    Counting ((round.record message data).applyPayload message data payload).2 := by
  intro kept slot body hget hsl hb hcbl
  have hauth := (authenticate_eq_ok.mp ha).1
  have hvotes := votesOnly_applyPayload (round.record message data) message data payload
  rw [hvotes.messages, DbftRoundState.record, FiniteMap.lookup_insert_if] at hget
  rw [hvotes.keeps.countable] at hcbl
  by_cases hkey : slot.key = data.key
  · rw [if_pos hkey] at hget
    cases hget
    rw [hauth.data_eq] at hsl
    cases hsl
    rw [hauth.payload_eq] at hb
    cases hb
    exact counts_applyPayload hcbl
  · rw [if_neg hkey] at hget
    have hcounts := h kept slot body hget hsl hb
      ((hrd.keeps_record hprior).countable.mp hcbl)
    have hrec : (round.record message data).Counts kept slot body := hcounts
    exact hrec.applyPayload hcbl (messageType_decodedPayload hb)
      hauth.kind_eq hkey

/-- Storing a recovery message keeps the retained messages counted. -/
theorem Counting.keepRecovery (h : Counting round) {message : DbftMessage}
    {data : DbftConsensusData} {rec : DbftRecoveryMessage}
    (ha : round.authenticate message = .ok (data, .recoveryMessage rec)) :
    Counting { round with messages := round.messages.insert data.key message } := by
  intro kept slot body hget hsl hb hcbl
  have hauth := (authenticate_eq_ok.mp ha).1
  rw [(keeps_keepRecovery ha).countable] at hcbl
  simp only [FiniteMap.lookup_insert_if] at hget
  by_cases hkey : slot.key = data.key
  · rw [if_pos hkey] at hget
    cases hget
    rw [hauth.data_eq] at hsl
    cases hsl
    rw [hauth.payload_eq] at hb
    cases hb
    exact False.elim hcbl
  · rw [if_neg hkey] at hget
    exact h kept slot body hget hsl hb hcbl

theorem Counting.process (hrd : Consistent round) (h : Counting round) (message : DbftMessage) :
    Counting (round.process message).2 := by
  refine (@process_induction _ _ (fun next => Consistent next ∧ Counting next) ?_ ?_ ⟨hrd, h⟩
    message).2
  · rintro next found data payload ⟨hn, hcoun⟩ ha hprior -
    exact ⟨hn.recordApply ha hprior, hcoun.recordApply hn ha hprior⟩
  · rintro next found data rec ⟨hn, hcoun⟩ ha
    exact ⟨hn.keepRecovery ha, hcoun.keepRecovery ha⟩

theorem Counting.finalizePreBlock (h : Counting round) (view : UInt8) (header : Header)
    (envelopeCount : Nat) : Counting (round.finalizePreBlock view header envelopeCount).2 := by
  rcases round.finalizePreBlock_cases view header envelopeCount with heq | ⟨-, hprev, heq⟩
  · rw [heq]
    exact h
  · rw [heq]
    intro message data payload hget hd hp hcbl
    have hbefore : round.Countable data payload := by
      cases payload with
      | preCommit body =>
        refine ⟨hcbl.1, ?_⟩
        intro limit hlim
        rw [envelopeCount_eq] at hlim
        apply hcbl.2 limit
        rw [envelopeCount_eq, viewState_updateView]
        by_cases hv : data.viewNumber = view
        · rw [if_pos hv]
          rw [hv] at hlim
          rcases hprev with hno | hsame
          · exact absurd (hno.symm.trans hlim) (Option.some_ne_none _).symm
          · exact hsame.symm.trans hlim
        · rw [if_neg hv]
          exact hlim
      | _ => exact hcbl
    apply (h message data payload hget hd hp hbefore).updateView
    intro hv hcounts
    cases payload with
    | preCommit body =>
      refine (FiniteMap.lookup_retain _ _ _ _).mpr ⟨hcounts, ?_⟩
      refine decide_eq_true (hcbl.2 envelopeCount ?_)
      rw [envelopeCount_eq, viewState_updateView, if_pos hv]
    | _ => exact hcounts

theorem Counting.finalizeProposal (h : Counting round) (view : UInt8) (header : Header) :
    Counting (round.finalizeProposal view header).2 := by
  rcases round.finalizeProposal_cases view header with heq | ⟨-, heq⟩
  · rw [heq]
    exact h
  · rw [heq]
    intro message data payload hget hd hp hcbl
    have hrefr := (VotesOnly.refl (round.updateView view fun s =>
      { s with finalHeader := some header })).refresh view
    rw [hrefr.messages] at hget
    rw [hrefr.keeps.countable] at hcbl
    have hbefore : round.Countable data payload := by
      refine (countable_iff extends_updateView ?_).mp hcbl
      exact envelopeCount_updateView fun _ => rfl
    apply Counts.refresh
    apply (h message data payload hget hd hp hbefore).updateView
    intro _ hcounts
    cases payload <;> exact hcounts

theorem Counting.perform (hrd : Consistent round) (h : Counting round) (op : Operation) :
    Counting (round.perform op) := by
  cases op with
  | process message => exact h.process hrd message
  | finalizePreBlock view header envelopeCount =>
    exact h.finalizePreBlock view header envelopeCount
  | finalizeProposal view header => exact h.finalizeProposal view header
  | installDkgState idx s =>
    rcases round.installDkgState_cases idx s with heq | heq
    · rw [DbftRoundState.perform, heq]
      exact h
    · rw [DbftRoundState.perform, heq]
      intro message data payload hget hd hp hcbl
      exact h message data payload hget hd hp (by cases payload <;> exact hcbl)

end Steps

/-- The installed DKG indices are a permutation of the committee. -/
def DkgMapped (round : DbftRoundState) : Prop :=
  ∀ indices, round.dkgIndices = some indices → round.IndexMap indices

omit [Crypto] in
theorem DkgMapped.mono (h : DkgMapped round) (hvals : next.validators = round.validators)
    (hidx : next.dkgIndices = round.dkgIndices) : DkgMapped next := by
  intro idx hf
  have hmap := h idx (hidx ▸ hf)
  rwa [IndexMap, count, ← hvals] at hmap

theorem DkgMapped.perform (hrd : Consistent round) (h : DkgMapped round) (op : Operation) :
    DkgMapped (round.perform op) := by
  cases op with
  | process message =>
    have hkeeps := hrd.keeps_process message
    exact h.mono hkeeps.extended.validators hkeeps.dkgIndices
  | finalizePreBlock view header envelopeCount =>
    rw [DbftRoundState.perform]
    rcases round.finalizePreBlock_cases view header envelopeCount with heq | ⟨-, -, heq⟩
    · rw [heq]
      exact h
    · rw [heq]
      exact h
  | finalizeProposal view header =>
    rw [DbftRoundState.perform]
    rcases round.finalizeProposal_cases view header with heq | ⟨-, heq⟩
    · rw [heq]
      exact h
    · have hrefr := (VotesOnly.refl (round.updateView view fun s =>
        { s with finalHeader := some header })).refresh view
      rw [heq]
      exact h.mono hrefr.keeps.extended.validators hrefr.keeps.dkgIndices
  | installDkgState indices s =>
    rw [DbftRoundState.perform, DbftRoundState.installDkgState]
    split
    · rename_i hmap
      intro installed hinst
      cases hinst
      exact hmap
    · exact h

/-! ## Rounds reached from their start -/

/-- What holds in every round that is reached from its start. -/
structure Sound (round : DbftRoundState) : Prop where
  consistent : Consistent round
  counting : Counting round
  mapped : DkgMapped round

theorem sound_start (height : UInt64) (vals : ValidatorSet) (antiMev : Bool) :
    Sound (start height vals antiMev) := by
  refine ⟨consistent_start height vals antiMev, ?_, ?_⟩
  · intro message data payload hget
    simp [start] at hget
  · intro idx hidx
    cases hidx

theorem Sound.recordApply (h : Sound round) (ha : round.authenticate message = .ok (data, payload))
    (hprior : round.priorHash data = none) :
    Sound ((round.record message data).applyPayload message data payload).2 := by
  have hkeeps := (h.consistent.keeps_record hprior).trans
    (votesOnly_applyPayload (round.record message data) message data payload).keeps
  exact ⟨h.consistent.recordApply ha hprior, h.counting.recordApply h.consistent ha hprior,
    h.mapped.mono hkeeps.extended.validators hkeeps.dkgIndices⟩

theorem Sound.keepRecovery (h : Sound round) {rec : DbftRecoveryMessage}
    (ha : round.authenticate message = .ok (data, .recoveryMessage rec)) :
    Sound { round with messages := round.messages.insert data.key message } :=
  ⟨h.consistent.keepRecovery ha, h.counting.keepRecovery ha, h.mapped.mono rfl rfl⟩

theorem Sound.perform (h : Sound round) (op : Operation) : Sound (round.perform op) :=
  ⟨h.consistent.perform op, h.counting.perform h.consistent op,
    h.mapped.perform h.consistent op⟩

theorem sound_run (height : UInt64) (vals : ValidatorSet) (antiMev : Bool) (ops : List Operation) :
    Sound (Machine.run perform (start height vals antiMev) ops) :=
  Machine.invariant_run (fun _ op h => h.perform op)
    (sound_start height vals antiMev) ops

end DbftRoundState
end NeoX
