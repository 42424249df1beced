import NeoX.Validator.ChangeViews
import NeoX.Validator.SealedHeader

/-!
# Progress of a view

While every final header of a view is the same and the DKG data are not exchanged, a
round only grows: votes, Envelope counts and final headers stay, and a stored seal is
replaced by another seal at most. The progress of a view therefore never goes back, and
a committed view keeps what it seals.

Main results:

- `Grows.verifyCommitQuorum_ne_none`: commits that were found to hold a
  seal still do when commits are added.
- `Settling.perform`: one operation keeps the invariant of such a run and
  the seals of every view.
- `progress_never_regresses`: over every run, progress does not go back and
  a committed view keeps its proposal, its final header and its seal hash.
-/

namespace NeoX

open FiniteMap
open Except hiding ok error
namespace DbftRoundState

section Growing

variable [Crypto]

/-! ## Growing rounds -/

/-- A view with the same Envelope count and final header, once installed, and no fewer commits. -/
structure ViewGrows (state next : ViewState) : Prop where
  commits : ∀ index body, state.commits.lookup index = some body →
    next.commits.lookup index = some body
  envelopeCount : ∀ limit, state.preBlockEnvelopeCount = some limit →
    next.preBlockEnvelopeCount = some limit
  finalHeader : ∀ header, state.finalHeader = some header → next.finalHeader = some header

omit [Crypto] in
theorem ViewGrows.refl (state : ViewState) : ViewGrows state state :=
  ⟨fun _ _ h => h, fun _ h => h, fun _ h => h⟩

omit [Crypto] in
theorem ViewGrows.trans {a b third : ViewState} (h : ViewGrows a b)
    (h' : ViewGrows b third) : ViewGrows a third :=
  ⟨fun i body hb => h'.commits i body (h.commits i body hb),
    fun limit hlim => h'.envelopeCount limit (h.envelopeCount limit hlim),
    fun header hh => h'.finalHeader header (h.finalHeader header hh)⟩

/-- A later state in which every view has grown and installed DKG data are the same. -/
structure Grows (round next : DbftRoundState) : Prop where
  extended : Extends round next
  views : ∀ view, ViewGrows (round.viewState view) (next.viewState view)
  dkgState : ∀ state, round.dkgState = some state → next.dkgState = some state
  dkgIndices : ∀ indices, round.dkgIndices = some indices → next.dkgIndices = some indices

omit [Crypto] in
theorem Grows.refl (round : DbftRoundState) : Grows round round :=
  ⟨Extends.refl round, fun _ => ViewGrows.refl _, fun _ h => h, fun _ h => h⟩

omit [Crypto] in
theorem Grows.trans {a b third : DbftRoundState} (h : Grows a b)
    (h' : Grows b third) : Grows a third :=
  ⟨h.extended.trans h'.extended, fun view => (h.views view).trans (h'.views view),
    fun s hs => h'.dkgState s (h.dkgState s hs),
    fun idx hidx => h'.dkgIndices idx (h.dkgIndices idx hidx)⟩

variable {round : DbftRoundState} {view : UInt8} {update : ViewState → ViewState}

omit [Crypto] in
theorem grows_updateView (h : ViewGrows (round.viewState view) (update (round.viewState view))) :
    Grows round (round.updateView view update) where
  extended := extends_updateView
  views other := by
    rw [viewState_updateView]
    by_cases ho : other = view
    · rw [if_pos ho, ho]
      exact h
    · rw [if_neg ho]
      exact ViewGrows.refl _
  dkgState _ h := h
  dkgIndices _ h := h

omit [Crypto] in
theorem field_updateView {α : Type} (field : ViewState → α) (h : ∀ s, field (update s) = field s)
    (o : UInt8) :
    field ((round.updateView view update).viewState o) = field (round.viewState o) := by
  rw [viewState_updateView]
  by_cases ho : o = view
  · rw [if_pos ho, h, ho]
  · rw [if_neg ho]

variable {header : Header}

omit [Crypto] in
theorem lookup_of_viewState (h : (round.viewState view).finalHeader = some header) :
    round.views.lookup view = some (round.viewState view) := by
  rw [viewState] at h ⊢
  cases hget : round.views.lookup view with
  | none =>
    rw [hget] at h
    cases h
  | some s => rfl

/-! ## The commit check of a growing round -/

variable {checked : DbftVerifiedCommitSeal}

/-- A seal is found among more commits, unless there are more shares than the committee has
members. -/
theorem Grows.verifyCommitQuorum_ne_none {earlier : DbftRoundState} (hgrows : Grows earlier round)
    (hcons : Consistent round) (hmapped : DkgMapped round)
    (hchk : earlier.verifyCommitQuorum view = .ok (some checked)) :
    round.verifyCommitQuorum view ≠ .ok none := by
  rcases verifyCommitQuorum_eq_some hchk with
    ⟨state, header, extra, hs, hh, hsize, hx, hf⟩
  have hv : earlier.viewState view = state := by rw [viewState, hs]; rfl
  have hkept := hgrows.views view
  rw [hv] at hkept
  have hnext := hkept.finalHeader header hh
  have hnextSt := lookup_of_viewState hnext
  have hq := hgrows.extended.quorum
  have hnextS : round.quorum ≤ (round.viewState view).commits.size := by
    rw [hq]
    exact hsize.trans (size_le_of_lookup hkept.commits)
  intro hno
  unfold verifyCommitQuorum at hno
  rw [hnextSt] at hno
  simp only [hnext, if_neg (Nat.not_lt.mpr hnextS), hx, mapError_ok, ok_bind] at hno
  cases checked with
  | ecdsa sigs =>
    rcases hf with ⟨hsch, sealHash, hhash, hcoll⟩
    have hval := (sealValid_ecdsa hx hsch hhash hcoll).grow
      hgrows.extended.validators hgrows.dkgState hgrows.dkgIndices hkept.commits
    have hsome := hval.collect round.quorum_pos hhash
    simp only [hsch, hhash, mapError_ok, ok_bind] at hno
    rw [Option.map_eq_none_iff.mp (Except.ok.inj hno)] at hsome
    cases hsome
  | threshold sig =>
    rcases hf with ⟨hsch, msg, dkgState, dkgIndices, hm, hdkgS, hdkgI,
      haggregate⟩
    have hidx := hgrows.dkgIndices dkgIndices hdkgI
    simp only [hsch, hgrows.dkgState dkgState hdkgS, hidx, Except.ofOption, hm,
      mapError_ok, ok_bind] at hno
    rw [← hq] at haggregate
    have hr : ∀ i body, (round.viewState view).commits.lookup i = some body →
        i.toNat < round.count := fun _ _ hget => hcons.commit_lt hget
    rcases aggregate_again (hmapped dkgIndices hidx) hr hkept.commits round.quorum_pos
      haggregate with ⟨henough, ⟨found, hagain⟩ | ⟨count, hagain⟩⟩
    · rw [if_neg (Nat.not_lt.mpr henough), hagain] at hno
      cases hno
    · rw [if_neg (Nat.not_lt.mpr henough), hagain] at hno
      cases hno

/-! ## Stored seals -/

/-- Every stored seal was found by the commit check of an earlier state. -/
def SealsChecked (round : DbftRoundState) : Prop :=
  ∀ view checked, (round.viewState view).verifiedSeal = some checked →
    ∃ earlier, Grows earlier round ∧ earlier.verifyCommitQuorum view = .ok (some checked)

/-- Views with a seal still have one. -/
def KeepsSeals (round next : DbftRoundState) : Prop :=
  ∀ view, (round.viewState view).verifiedSeal ≠ none → (next.viewState view).verifiedSeal ≠ none

variable {next : DbftRoundState}

omit [Crypto] in
theorem keepsSeals_of_eq
    (hseals : ∀ view, (next.viewState view).verifiedSeal = (round.viewState view).verifiedSeal) :
    KeepsSeals round next := by
  intro view hseal
  rwa [hseals]

theorem SealsChecked.of_eq (h : SealsChecked round) (hgrows : Grows round next)
    (hseals : ∀ view, (next.viewState view).verifiedSeal = (round.viewState view).verifiedSeal) :
    SealsChecked next := by
  intro view checked hchk
  rw [hseals] at hchk
  rcases h view checked hchk with ⟨earlier, hearl, hf⟩
  exact ⟨earlier, hearl.trans hgrows, hf⟩

theorem grows_refresh (round : DbftRoundState) (view : UInt8) :
    Grows round (round.refreshVerifiedSeal view).2 := by
  rcases round.refreshVerifiedSeal_cases view with heq | ⟨s, checked, -, -, heq⟩
  · rw [heq]
    exact Grows.refl round
  · rw [heq]
    exact grows_updateView ⟨fun _ _ h => h, fun _ h => h, fun _ h => h⟩

/-- A refresh replaces a seal by another one: the commit check finds one again, or fails and leaves
the old one. -/
theorem SealsChecked.refresh (h : SealsChecked round) (hcons : Consistent round)
    (hmapped : DkgMapped round) (view : UInt8) :
    SealsChecked (round.refreshVerifiedSeal view).2 ∧
      KeepsSeals round (round.refreshVerifiedSeal view).2 := by
  have hgrows := round.grows_refresh view
  rcases round.refreshVerifiedSeal_cases view with heq | ⟨s, found, -, hcheck, heq⟩
  · rw [heq]
    exact ⟨h, fun _ hseal => hseal⟩
  · rw [heq] at hgrows ⊢
    constructor
    · intro o checked hchk
      rw [viewState_updateView] at hchk
      by_cases ho : o = view
      · rw [if_pos ho] at hchk
        subst ho
        rw [show found = some checked from hchk] at hcheck
        exact ⟨round, hgrows, hcheck⟩
      · rw [if_neg ho] at hchk
        rcases h o checked hchk with ⟨earlier, hearl, hf⟩
        exact ⟨earlier, hearl.trans hgrows, hf⟩
    · intro o hseal
      rw [viewState_updateView]
      by_cases ho : o = view
      · rw [if_pos ho]
        subst ho
        rcases Option.ne_none_iff_exists'.mp hseal with ⟨checked, hchk⟩
        rcases h o checked hchk with ⟨earlier, hearl, hf⟩
        rintro rfl
        exact hearl.verifyCommitQuorum_ne_none hcons hmapped hf hcheck
      · rw [if_neg ho]
        exact hseal

/-! ## Decryption shares -/

/-- Stored decryption shares respect an installed Envelope count. -/
def SharesFit (round : DbftRoundState) : Prop :=
  ∀ view limit index body, (round.viewState view).preBlockEnvelopeCount = some limit →
    (round.viewState view).preCommits.lookup index = some body → body.shareCount ≤ limit

omit [Crypto] in
theorem SharesFit.updateView (h : SharesFit round) (hv : ∀ limit i body,
      (update (round.viewState view)).preBlockEnvelopeCount = some limit →
      (update (round.viewState view)).preCommits.lookup i = some body →
      body.shareCount ≤ limit) : SharesFit (round.updateView view update) := by
  intro o limit i body hlim hb
  rw [viewState_updateView] at hlim hb
  by_cases ho : o = view
  · rw [if_pos ho] at hlim hb
    exact hv limit i body hlim hb
  · rw [if_neg ho] at hlim hb
    exact h o limit i body hlim hb

theorem SharesFit.refresh (h : SharesFit round) (view : UInt8) :
    SharesFit (round.refreshVerifiedSeal view).2 :=
  refreshVerifiedSeal_induction h view fun _ => h.updateView (h view)

/-- Applying a payload stores only shares that fit. -/
theorem SharesFit.applyPayload (h : SharesFit round) (msg : DbftMessage) (data : DbftConsensusData)
    (payload : DbftDecodedPayload) :
    SharesFit (round.applyPayload msg data payload).2 := by
  have happlied := round.applied msg data payload
  generalize (round.applyPayload msg data payload).2 = next at happlied ⊢
  cases happlied with
  | same => exact h
  | tally => exact h
  | enter =>
    have hv : SharesFit (round.updateView (data.viewNumber + 1) id) := h.updateView (h _)
    exact hv
  | preCommit _ hfits =>
    apply h.updateView
    intro limit i body hlim hb
    rw [lookup_insert_if] at hb
    by_cases hi : i = data.validatorIndex
    · rw [if_pos hi] at hb
      cases hb
      exact hfits limit ((round.envelopeCount_eq _).trans hlim)
    · rw [if_neg hi] at hb
      exact h _ limit i body hlim hb
  | commit => exact (h.updateView (h data.viewNumber)).refresh data.viewNumber
  | _ => exact h.updateView (h _)

variable {payload : DbftDecodedPayload}

theorem verifiedSeal_applyPayload (round : DbftRoundState) (msg : DbftMessage)
    (data : DbftConsensusData) (hp : payload.messageType ≠ .commit) (view : UInt8) :
    ((round.applyPayload msg data payload).2.viewState view).verifiedSeal
      = (round.viewState view).verifiedSeal := by
  have happlied := round.applied msg data payload
  generalize (round.applyPayload msg data payload).2 = next at happlied ⊢
  cases happlied with
  | same => rfl
  | tally => rfl
  | commit => exact absurd rfl hp
  | _ => exact field_updateView ViewState.verifiedSeal (by intro s; rfl) view

/-! ## Votes that are kept -/

/-- A message that is kept is counted in its view, if that can take it. -/
theorem Sound.counted (h : Sound round) (hn : Sound next) (hext : Extends round next)
    {index : UInt8} {kind : DbftMessageType} {msg : DbftMessage} (htrac : untracked kind = false)
    (hget : round.messages.lookup ⟨view, kind, index⟩ = some msg) (hb : bodyOf msg = some payload)
    (hcbl : ∀ data, data.viewNumber = view → data.validatorIndex = index →
      next.Countable data payload) : ViewCounts (next.viewState view) msg index payload := by
  rcases h.consistent.retained _ msg hget with ⟨data, found, ha, hkey⟩
  rw [ha.bodyOf_eq] at hb
  cases hb
  have hv : data.viewNumber = view := congrArg MessageKey.view hkey
  have hi : data.validatorIndex = index := congrArg MessageKey.index hkey
  have hcnt := hn.counting msg data payload
    (hkey ▸ hext.messages _ _ htrac hget) ha.data_eq ha.payload_eq
    (hcbl data hv hi)
  rwa [Counts, hv, hi] at hcnt

theorem Sound.commits_kept (h : Sound round) (hn : Sound next) (hext : Extends round next)
    {i : UInt8} {body : DbftCommit} (hb : (round.viewState view).commits.lookup i = some body) :
    (next.viewState view).commits.lookup i = some body := by
  rcases (h.consistent.viewBacked view).commits i body hb with ⟨msg, hget, hread⟩
  exact h.counted hn hext rfl hget hread fun _ _ _ => trivial

theorem Sound.proposal_kept (h : Sound round) (hn : Sound next) (hext : Extends round next)
    {message : DbftMessage} (hprop : (round.viewState view).proposal = some message) :
    (next.viewState view).proposal = some message := by
  rcases (h.consistent.viewBacked view).proposal message hprop with
    ⟨hget, request, hread, hnum⟩
  refine h.counted hn hext rfl hget hread ?_
  rintro data rfl hi
  rw [Countable, hext.primaryIndex, hext.height]
  exact ⟨hi, hnum⟩

theorem Sound.responses_kept (h : Sound round) (hn : Sound next) (hext : Extends round next)
    {i : UInt8} {hash : B256} (hresp : (round.viewState view).responses.lookup i = some hash) :
    (next.viewState view).responses.lookup i = some hash := by
  rcases (h.consistent.viewBacked view).responses i hash hresp with
    ⟨hbackup, message, hget, hread⟩
  refine h.counted hn hext rfl hget hread ?_
  rintro data rfl hi
  rw [Countable, hext.primaryIndex, hi]
  exact hbackup

/-- Decryption shares are kept once the Envelope count is installed. -/
theorem Sound.preCommits_kept (h : Sound round) (hn : Sound next) (hgrows : Grows round next)
    (hfits : SharesFit round) {i : UInt8} {limit : Nat} {body : DbftPreCommit}
    (hlim : (round.viewState view).preBlockEnvelopeCount = some limit)
    (hb : (round.viewState view).preCommits.lookup i = some body) :
    (next.viewState view).preCommits.lookup i = some body := by
  rcases (h.consistent.viewBacked view).preCommits i body hb with
    ⟨hmode, message, hget, hread⟩
  refine h.counted hn hgrows.extended rfl hget hread ?_
  rintro data rfl -
  refine ⟨hgrows.extended.antiMev.trans hmode, ?_⟩
  intro found hf
  rw [envelopeCount_eq, (hgrows.views data.viewNumber).envelopeCount limit hlim] at hf
  cases hf
  exact hfits data.viewNumber limit i body hlim hb

theorem Sound.grows (h : Sound round) (hn : Sound next) (hkeeps : Keeps round next) :
    Grows round next where
  extended := hkeeps.extended
  views view := by
    refine ⟨fun i body hb => h.commits_kept hn hkeeps.extended hb, ?_, ?_⟩
    · intro limit hlim
      rw [← envelopeCount_eq, hkeeps.envelopeCount, envelopeCount_eq, hlim]
    · intro header hh
      rw [← finalHeader_eq, hkeeps.finalHeader, finalHeader_eq, hh]
  dkgState _ hs := hkeeps.dkgState.trans hs
  dkgIndices _ hidx := hkeeps.dkgIndices.trans hidx

/-! ## Settling rounds -/

/-- Operations that install one header for each view and one set of DKG data. -/
structure Steady (operations : List Operation) : Prop where
  headers : ∀ view first second, .finalizeProposal view first ∈ operations →
    .finalizeProposal view second ∈ operations → first = second
  dkgData : ∀ indices indices' state state', .installDkgState indices state ∈ operations →
    .installDkgState indices' state' ∈ operations → indices = indices' ∧ state = state'

/-- The invariant of a run of these operations. -/
structure Settling (operations : List Operation) (round : DbftRoundState) : Prop where
  sound : Sound round
  fits : SharesFit round
  checked : SealsChecked round
  final_mem : ∀ view header, (round.viewState view).finalHeader = some header →
    .finalizeProposal view header ∈ operations
  indices_mem : ∀ indices, round.dkgIndices = some indices →
    ∃ state, .installDkgState indices state ∈ operations
  state_mem : ∀ state, round.dkgState = some state →
    ∃ indices, .installDkgState indices state ∈ operations

/-- A round that settles further, with the seals of its views. -/
structure Settles (operations : List Operation) (round next : DbftRoundState) : Prop where
  settling : Settling operations next
  grows : Grows round next
  seals : KeepsSeals round next

variable {operations : List Operation} {round next : DbftRoundState}

theorem Settling.settles (h : Settling operations round) :
    Settles operations round round :=
  ⟨h, Grows.refl round, fun _ hseal => hseal⟩

theorem Settles.trans {a : DbftRoundState} (h : Settles operations a round)
    (h' : Settles operations round next) :
    Settles operations a next :=
  ⟨h'.settling, h.grows.trans h'.grows, fun view hseal => h'.seals view (h.seals view hseal)⟩

/-- Processing keeps the installed data, so only the shares and the seals are of interest. -/
theorem Settling.later (h : Settling operations round) (hsound : Sound next)
    (hkeeps : Keeps round next) (hfits : SharesFit next) (hchk : SealsChecked next) :
    Settling operations next where
  sound := hsound
  fits := hfits
  checked := hchk
  final_mem view header hh := by
    rw [← finalHeader_eq, hkeeps.finalHeader, finalHeader_eq] at hh
    exact h.final_mem view header hh
  indices_mem installed hinst := h.indices_mem installed (hkeeps.dkgIndices ▸ hinst)
  state_mem installed hinst := h.state_mem installed (hkeeps.dkgState ▸ hinst)

/-- A commit is counted before the seal of its view is refreshed. -/
theorem SealsChecked.applyCommit (h : SealsChecked round) (hmapped : DkgMapped round)
    {data : DbftConsensusData} {body : DbftCommit}
    (hcons : Consistent (round.updateView data.viewNumber fun s =>
      { s with commits := s.commits.insert data.validatorIndex body }))
    (hfresh : (round.viewState data.viewNumber).commits.lookup data.validatorIndex = none) :
    SealsChecked (round.applyCommit data body).2 ∧
      KeepsSeals round (round.applyCommit data body).2 := by
  have hv : ViewGrows (round.viewState data.viewNumber)
      { round.viewState data.viewNumber with
        commits := (round.viewState data.viewNumber).commits.insert data.validatorIndex body } := by
    refine ⟨?_, fun _ h => h, fun _ h => h⟩
    intro i found hf
    have hne : i ≠ data.validatorIndex := by
      rintro rfl
      rw [hfresh] at hf
      cases hf
    exact (AList.lookup_insert_ne hne).trans hf
  have hseals : ∀ view, ((round.updateView data.viewNumber fun s =>
      { s with commits := s.commits.insert data.validatorIndex body }).viewState
        view).verifiedSeal = (round.viewState view).verifiedSeal :=
    field_updateView ViewState.verifiedSeal fun _ => rfl
  rw [applyCommit_snd]
  rcases (h.of_eq (grows_updateView hv) hseals).refresh hcons (hmapped.mono rfl rfl)
    data.viewNumber with ⟨hchk, hkept⟩
  exact ⟨hchk, fun view hseal => hkept view (keepsSeals_of_eq hseals view hseal)⟩

/-- Recording and applying one message. -/
theorem Settling.recordApply (h : Settling operations round) {msg : DbftMessage}
    {data : DbftConsensusData} (ha : round.authenticate msg = .ok (data, payload))
    (hprior : round.priorHash data = none) :
    Settles operations round
      ((round.record msg data).applyPayload msg data payload).2 := by
  have hsound := h.sound.recordApply ha hprior
  have hkeeps := (h.sound.consistent.keeps_record hprior).trans
    (votesOnly_applyPayload (round.record msg data) msg data payload).keeps
  have hgrows := h.sound.grows hsound hkeeps
  have hreco : SharesFit (round.record msg data) := h.fits
  have hfits := hreco.applyPayload msg data payload
  by_cases hcommit : payload.messageType = .commit
  · have hauth := (authenticate_eq_ok.mp ha).1
    have hk := hauth.kind_eq
    have hrec := h.sound.consistent.record ha hprior
    cases payload with
    | commit body =>
      have hchk : SealsChecked (round.record msg data) :=
        h.checked.of_eq ⟨h.sound.consistent.extends_record hprior, fun _ => ViewGrows.refl _,
          fun _ h => h, fun _ h => h⟩ fun _ => rfl
      rcases hchk.applyCommit (h.sound.mapped.mono rfl rfl)
        (hrec.insertCommit (AList.lookup_insert _) hauth.bodyOf_eq hk.symm)
        (h.sound.consistent.commit_fresh hprior hk.symm) with ⟨hn, hkept⟩
      exact ⟨h.later hsound hkeeps hfits hn, hgrows, hkept⟩
    | _ => cases hcommit
  · have hseals : ∀ view, (((round.record msg data).applyPayload msg data
        payload).2.viewState view).verifiedSeal = (round.viewState view).verifiedSeal :=
      verifiedSeal_applyPayload (round.record msg data) msg data hcommit
    exact ⟨h.later hsound hkeeps hfits (h.checked.of_eq hgrows hseals), hgrows,
      keepsSeals_of_eq hseals⟩

theorem Settling.process (h : Settling operations round) (msg : DbftMessage) :
    Settles operations round (round.process msg).2 := by
  refine process_induction (fun next found data payload hn ha hprior _ =>
    hn.trans (hn.settling.recordApply ha hprior)) ?_ h.settles msg
  intro next found data rec hn ha
  have hsound := hn.settling.sound.keepRecovery ha
  have hkeeps := keeps_keepRecovery ha
  have hgrows := hn.settling.sound.grows hsound hkeeps
  refine hn.trans ⟨hn.settling.later hsound hkeeps hn.settling.fits
    (hn.settling.checked.of_eq hgrows fun _ => rfl), hgrows, fun _ hseal => hseal⟩

/-- Fixing an Envelope count drops only shares that do not fit. -/
theorem Settling.finalizePreBlock (h : Settling operations round) (view : UInt8) (header : Header)
    (envelopeCount : Nat) :
    Settles operations round
      (round.finalizePreBlock view header envelopeCount).2 := by
  have hsound := h.sound.perform (.finalizePreBlock view header envelopeCount)
  rw [DbftRoundState.perform] at hsound
  rcases round.finalizePreBlock_cases view header envelopeCount with heq | ⟨-, hprev, heq⟩
  · rw [heq]
    exact h.settles
  rw [heq] at hsound ⊢
  have hgrows : Grows round (round.updateView view fun s => { s with
      preBlockEnvelopeCount := some envelopeCount
      preCommits := s.preCommits.retain fun _ body => body.shareCount ≤ envelopeCount }) := by
    refine grows_updateView ⟨fun _ _ h => h, ?_, fun _ h => h⟩
    intro limit hlim
    rcases hprev with hno | hsome
    · cases hno.symm.trans hlim
    · exact hsome.symm.trans hlim
  refine ⟨⟨hsound, ?_,
    h.checked.of_eq hgrows (field_updateView ViewState.verifiedSeal fun _ => rfl),
    ?_, h.indices_mem, h.state_mem⟩, hgrows,
    keepsSeals_of_eq (field_updateView ViewState.verifiedSeal fun _ => rfl)⟩
  · apply h.fits.updateView
    intro limit i body hlim hb
    cases hlim
    exact of_decide_eq_true ((lookup_retain _ _ _ _).mp hb).2
  · intro o found hf
    refine h.final_mem o found (Eq.trans ?_ hf)
    exact (field_updateView ViewState.finalHeader (by intro s; rfl) o).symm

/-- A view gets the header that it may already have. -/
theorem Settling.finalizeProposal (h : Settling operations round) (hsteady : Steady operations)
    (hmem : .finalizeProposal view header ∈ operations) :
    Settles operations round (round.finalizeProposal view header).2 := by
  have hsound := h.sound.perform (.finalizeProposal view header)
  rw [DbftRoundState.perform] at hsound
  rcases round.finalizeProposal_cases view header with heq | ⟨hval, heq⟩
  · rw [heq]
    exact h.settles
  rw [heq] at hsound ⊢
  have hgrows : Grows round (round.updateView view fun s =>
      { s with finalHeader := some header }) := by
    refine grows_updateView ⟨fun _ _ h => h, fun _ h => h, ?_⟩
    intro earlier hearl
    rw [hsteady.headers view earlier header (h.final_mem view earlier hearl) hmem]
  have hseals : ∀ o, ((round.updateView view fun s =>
      { s with finalHeader := some header }).viewState o).verifiedSeal
        = (round.viewState o).verifiedSeal :=
    field_updateView ViewState.verifiedSeal fun _ => rfl
  have hfits : SharesFit (round.updateView view fun s =>
      { s with finalHeader := some header }) := h.fits.updateView (h.fits view)
  rcases (h.checked.of_eq hgrows hseals).refresh (h.sound.consistent.installHeader hval)
    (h.sound.mapped.mono rfl rfl) view with ⟨hchk, hkept⟩
  have hkeeps := ((VotesOnly.refl (round.updateView view fun s =>
    { s with finalHeader := some header })).refresh view).keeps
  refine ⟨⟨hsound, hfits.refresh view, hchk, ?_, ?_, ?_⟩, hgrows.trans (grows_refresh _ view),
    fun o hseal => hkept o (keepsSeals_of_eq hseals o hseal)⟩
  · intro o found hf
    rw [← finalHeader_eq, hkeeps.finalHeader, finalHeader_eq, viewState_updateView] at hf
    by_cases ho : o = view
    · rw [if_pos ho] at hf
      cases hf
      rwa [ho]
    · rw [if_neg ho] at hf
      exact h.final_mem o found hf
  · intro installed hinst
    rw [hkeeps.dkgIndices] at hinst
    exact h.indices_mem installed hinst
  · intro installed hinst
    rw [hkeeps.dkgState] at hinst
    exact h.state_mem installed hinst

/-- DKG data are installed that may already be there. -/
theorem Settling.installDkgState (h : Settling operations round) (hsteady : Steady operations)
    {idx : List UInt32} {dkgState : DkgState} (hmem : .installDkgState idx dkgState ∈ operations) :
    Settles operations round (round.installDkgState idx dkgState).2 := by
  have hsound := h.sound.perform (.installDkgState idx dkgState)
  rw [DbftRoundState.perform] at hsound
  rcases round.installDkgState_cases idx dkgState with heq | heq
  · rw [heq]
    exact h.settles
  rw [heq] at hsound ⊢
  have hgrows : Grows round
      { round with dkgIndices := some idx, dkgState := some dkgState } := by
    refine ⟨⟨rfl, rfl, rfl, fun _ _ _ h => h⟩, fun _ => ViewGrows.refl _, ?_, ?_⟩
    · intro installed hinst
      rcases h.state_mem installed hinst with ⟨earlier, hearl⟩
      rw [(hsteady.dkgData earlier idx installed dkgState hearl hmem).2]
    · intro installed hinst
      rcases h.indices_mem installed hinst with ⟨earlier, hearl⟩
      rw [(hsteady.dkgData installed idx earlier dkgState hearl hmem).1]
  refine ⟨⟨hsound, h.fits, h.checked.of_eq hgrows fun _ => rfl, h.final_mem, ?_, ?_⟩, hgrows,
    fun _ hseal => hseal⟩
  · intro installed hinst
    cases hinst
    exact ⟨dkgState, hmem⟩
  · intro installed hinst
    cases hinst
    exact ⟨idx, hmem⟩

theorem Settling.perform (h : Settling operations round) (hsteady : Steady operations)
    {op : Operation} (hmem : op ∈ operations) :
    Settles operations round (round.perform op) := by
  cases op with
  | process msg => exact h.process msg
  | finalizePreBlock view header envelopeCount =>
    exact h.finalizePreBlock view header envelopeCount
  | finalizeProposal view header => exact h.finalizeProposal hsteady hmem
  | installDkgState indices dkgState => exact h.installDkgState hsteady hmem

theorem Settling.run (h : Settling operations round) (hsteady : Steady operations)
    {taken : List Operation} (hmem : ∀ op ∈ taken, op ∈ operations) :
    Settles operations round (Machine.run DbftRoundState.perform round taken) := by
  induction taken generalizing round with
  | nil => exact h.settles
  | cons op taken ih =>
    have hstep := h.perform hsteady (hmem op List.mem_cons_self)
    exact hstep.trans (ih hstep.settling fun later hlater =>
      hmem later (List.mem_cons_of_mem _ hlater))

omit [Crypto] in
theorem viewState_start (height : UInt64) (vals : ValidatorSet) (antiMev : Bool)
    (view : UInt8) : (start height vals antiMev).viewState view = {} := by
  rw [viewState]
  cases hget : (start height vals antiMev).views.lookup view with
  | none => rfl
  | some s => exact lookup_views_start hget

theorem settling_start (operations : List Operation) (height : UInt64) (vals : ValidatorSet)
    (antiMev : Bool) : Settling operations (start height vals antiMev) := by
  refine ⟨sound_start height vals antiMev, ?_, ?_, ?_, ?_, ?_⟩
  · intro view limit i body hlim
    rw [viewState_start] at hlim
    cases hlim
  · intro view checked hchk
    rw [viewState_start] at hchk
    cases hchk
  · intro view header hh
    rw [viewState_start] at hh
    cases hh
  · intro idx hidx
    cases hidx
  · intro s hs
    cases hs

/-! ## Sealing again -/

omit [Crypto] in
theorem unsignedHeader_sealed {extra : DbftExtraPrefix}
    (hx : DbftExtraPrefix.decode header.extraData = .ok extra) (sealBytes : Bytes) :
    unsignedHeader { header with extraData := extra.encode ++ sealBytes }
      = unsignedHeader header := by
  simp only [unsignedHeader, DbftExtra.hashablePrefix_encode_append,
    DbftExtra.hashablePrefix_eq_encode hx, ok_bind]

/-- The signatures of a valid seal pass the check of an importing node, unless the zero address is
a validator. -/
theorem verifyEcdsaSignatures_sealValid {commits : FiniteMap UInt8 DbftCommit}
    {sigs : List (FixedBytes 65)} {sealHash : B256} {version : ExtraVersion}
    {fallback : Option B256} (hval : round.SealValid commits header (.ecdsa sigs))
    (hhash : ecdsaSealHash header = .ok sealHash)
    (h0 : round.validators.accounts.head? ≠ some (.zero 20)) :
    ∃ signers, verifyEcdsaSignatures sealHash
      (.ecdsa version fallback round.validators.accounts sigs) = .ok signers := by
  rcases hval with ⟨extra, found, contributors, -, -, hf, hnd, -, hsigns⟩
  rw [hhash] at hf
  cases hf
  -- The acct at the i of each contributor.
  let signerOf : UInt8 → Address := fun i =>
    (round.validators.accounts[i.toNat]?).getD (.zero 20)
  have hr : ∀ i ∈ contributors, round.validators.accounts[i.toNat]?
      = some (signerOf i) := by
    intro i hi
    rcases exists_signsHash hsigns hi with ⟨sig, -, acct, hacco, -⟩
    simp [signerOf, hacco]
  have hrecv : List.Forall₂ (fun sig signer => recoverSigner sig sealHash = some signer)
      sigs (contributors.map signerOf) := by
    rw [List.forall₂_map_right_iff]
    refine List.Forall₂.flip (hsigns.imp ?_)
    rintro i sig ⟨-, acct, hacco, haddr⟩
    simp only [signerOf, flip, hacco, Option.getD_some, haddr]
  refine ⟨_, verifyEcdsaSignatures_eq_ok round.validators.sorted h0 ?_ ?_ hrecv⟩
  · refine List.Nodup.map_on ?_ hnd
    intro a h1 b h2 heq
    have hdist := (round.validators.sorted.imp fun h => ne_of_lt h : List.Nodup _)
    have hsame := (hr a h1).trans (heq ▸ (hr b h2).symm)
    have hlt := (List.getElem?_eq_some_iff.mp (hr a h1)).1
    exact UInt8.toNat_inj.mp ((List.getElem?_inj hlt hdist).mp hsame)
  · intro signer hsigner
    rcases List.mem_map.mp hsigner with ⟨i, hi, rfl⟩
    exact List.mem_of_getElem? (hr i hi)

/-- What the seal of a sealed header covers depends on the final header only, and so does a
failure to seal it. -/
theorem map_sealedHeader {extra : DbftExtraPrefix}
    (hh : (round.viewState view).finalHeader = some header)
    (hseal : (round.viewState view).verifiedSeal = some checked)
    (hx : DbftExtraPrefix.decode header.extraData = .ok extra)
    (hval : round.SealValid (round.viewState view).commits header checked) :
    (round.sealedHeader view).map unsignedHeader =
      if extra.signatureScheme = .ecdsa ∧
          round.validators.accounts.head? = some (.zero 20) then
        .error (.invalidFinalSeal .zeroValidator)
      else
        .ok (unsignedHeader header) := by
  have hs := lookup_of_viewState hh
  unfold sealedHeader
  simp only [hs, hh, hseal, hx, Except.ofOption, mapError_ok, ok_bind]
  cases checked with
  | ecdsa sigs =>
    have hverify := hval
    rcases hval with ⟨found, sealHash, contributors, hdec, hsch, hhash, -, hlen, hsigns⟩
    rw [hx] at hdec
    cases hdec
    have hnew : DbftExtraPrefix.new extra.version .ecdsa extra.fallbackNextConsensus
        = .ok extra := by
      rw [← hsch]
      exact extra.new_self
    have hc : sigs.length = bftHonestNodeCount round.validators.accounts.length :=
      hsigns.length_eq.symm.trans hlen
    have hunsi := unsignedHeader_sealed hx (DbftExtra.ecdsa extra.version
      extra.fallbackNextConsensus round.validators.accounts sigs).sealBytes
    have hsealH : ecdsaSealHash { header with extraData := extra.encode ++
        (DbftExtra.ecdsa extra.version extra.fallbackNextConsensus round.validators.accounts
          sigs).sealBytes } = .ok sealHash := by
      rw [ecdsaSealHash, hunsi]
      exact hhash
    simp only [sealedExtra, hsch, DbftExtra.tryEncode, hnew, ok_bind,
      require_of _ round.validators.nonempty, require_of _ hc, mapError_ok, verifySeal, hsealH]
    by_cases h0 : round.validators.accounts.head? = some (.zero 20)
    · have hallo : sortAddresses round.validators.accounts = round.validators.accounts :=
        (round.validators.sorted.imp fun h => le_of_lt h).insertionSort_eq
      rw [if_pos ⟨trivial, h0⟩]
      simp [verifyEcdsaSignatures, DbftExtra.validators, DbftExtra.signatures, Except.ofOption,
        hallo, h0, Except.require, Except.map]
    · rcases verifyEcdsaSignatures_sealValid hverify hhash h0 with ⟨signers, hsign⟩
      rw [if_neg fun h => h0 h.2, hsign]
      simp only [mapError_ok, ok_bind, Except.map, hunsi]
  | threshold sig =>
    rcases hval with ⟨found, message, installed, -, -, -, hdec, hsch, hm, hinst,
      -, -, -, -, -, -, hkey, hsigned, hver⟩
    rw [hx] at hdec
    cases hdec
    have hfall : ∃ fallback, extra.fallbackNextConsensus = some fallback :=
      extra.exists_fallback hsch
    rcases hfall with ⟨fallback, hfall⟩
    have hnew : DbftExtraPrefix.new extra.version .threshold (some fallback) = .ok extra := by
      rw [← hsch, ← hfall]
      exact extra.new_self
    have hunsi := unsignedHeader_sealed hx (DbftExtra.threshold extra.version fallback
      installed.current.globalPublicKey sig).sealBytes
    have hsealM : thresholdSealMessage { header with extraData := extra.encode ++
        (DbftExtra.threshold extra.version fallback installed.current.globalPublicKey
          sig).sealBytes } = .ok message := by
      rw [thresholdSealMessage, hunsi]
      exact hm
    have hnotE : ¬ (extra.signatureScheme = .ecdsa ∧
        round.validators.accounts.head? = some (.zero 20)) := by
      rw [hsch]
      rintro ⟨hecdsa, -⟩
      cases hecdsa
    rw [if_neg hnotE]
    simp only [decide_eq_true_eq] at hsigned hver
    simp only [sealedExtra, hsch, hinst, hfall, Except.ofOption, DbftExtra.tryEncode,
      hnew, ok_bind, mapError_ok, verifySeal,
      verifyThresholdSignature_eq_ok hkey hsigned hsealM hver, Except.map, hunsi]

/-- What a stored seal belongs to. -/
theorem Settling.sealValid (h : Settling operations round)
    (hseal : (round.viewState view).verifiedSeal = some checked) :
    ∃ header extra, (round.viewState view).finalHeader = some header ∧
      DbftExtraPrefix.decode header.extraData = .ok extra ∧
      round.SealValid (round.viewState view).commits header checked := by
  rcases h.checked view checked hseal with ⟨earlier, hgrows, hf⟩
  rcases verifyCommitQuorum_eq_some hf with
    ⟨state, header, extra, hs, hh, -, hx, hf⟩
  have hkept := hgrows.views view
  rw [show earlier.viewState view = state by rw [viewState, hs]; rfl] at hkept
  exact ⟨header, extra, hkept.finalHeader header hh, hx,
    (hf.sealValid hx).grow hgrows.extended.validators hgrows.dkgState hgrows.dkgIndices
      hkept.commits⟩

/-- A round that settles further seals what it sealed. -/
theorem Settles.map_sealedHeader (h : Settling operations round)
    (hsett : Settles operations round next) (hseal : (round.viewState view).verifiedSeal ≠ none) :
    (next.sealedHeader view).map unsignedHeader = (round.sealedHeader view).map unsignedHeader := by
  rcases Option.ne_none_iff_exists'.mp hseal with ⟨checked, hchk⟩
  rcases Option.ne_none_iff_exists'.mp (hsett.seals view hseal) with ⟨later, hlater⟩
  rcases h.sealValid hchk with ⟨header, extra, hh, hx, hval⟩
  rcases hsett.settling.sealValid hlater with ⟨found, foundExtra, hf, hfoun, hagain⟩
  have hsame := (hsett.grows.views view).finalHeader header hh
  rw [hf] at hsame
  cases hsame
  rw [hx] at hfoun
  cases hfoun
  rw [DbftRoundState.map_sealedHeader hh hchk hx hval,
    DbftRoundState.map_sealedHeader hf hlater hx hagain, hsett.grows.extended.validators]

/-! ## Progress -/

def phase : DbftRoundProgress → Nat
  | .prepared .. => 1
  | .preCommitted .. => 2
  | .committed .. => 3
  | _ => 0

def preparedVotes (state : ViewState) (proposal : DbftMessage) : Nat :=
  1 + (state.responses.toList.filter fun entry => entry.2 = proposal.hash).length

/-- The phase of a view, by what it holds. -/
theorem phase_progress (round : DbftRoundState) (view : UInt8) :
    phase (round.progress view) =
      match (round.viewState view).proposal with
      | none => 0
      | some proposal =>
        if preparedVotes (round.viewState view) proposal < round.quorum then 0
        else if round.antiMev ∧ ((round.viewState view).preBlockEnvelopeCount = none ∨
            (round.viewState view).preCommits.size < round.quorum) then 1
        else if (round.viewState view).verifiedSeal.isSome then 3
        else if round.antiMev then 2 else 1 := by
  rw [progress, viewState]
  cases round.views.lookup view with
  | none => rfl
  | some s =>
    dsimp only [Option.getD_some]
    cases s.proposal with
    | none => rfl
    | some proposal =>
      simp only [preparedVotes, apply_ite phase]
      rfl

theorem Settles.phase_le (h : Settling operations round) (hsett : Settles operations round next)
    (view : UInt8) :
    phase (round.progress view) ≤ phase (next.progress view) := by
  have hext := hsett.grows.extended
  rw [phase_progress, phase_progress, hext.quorum, hext.antiMev]
  cases hprop : (round.viewState view).proposal with
  | none => exact Nat.zero_le _
  | some proposal =>
    rw [h.sound.proposal_kept hsett.settling.sound hext hprop]
    have hvotes : preparedVotes (round.viewState view) proposal
        ≤ preparedVotes (next.viewState view) proposal :=
      Nat.add_le_add_left (length_filter_toList_le _ fun _ _ hresp =>
        h.sound.responses_kept hsett.settling.sound hext hresp) 1
    have hshs : ¬ ((round.viewState view).preBlockEnvelopeCount = none ∨
        (round.viewState view).preCommits.size < round.quorum) →
        ¬ ((next.viewState view).preBlockEnvelopeCount = none ∨
          (next.viewState view).preCommits.size < round.quorum) := by
      intro hready
      rw [not_or] at hready ⊢
      rcases Option.ne_none_iff_exists'.mp hready.1 with ⟨limit, hlim⟩
      refine ⟨?_, ?_⟩
      · rw [(hsett.grows.views view).envelopeCount limit hlim]
        exact Option.some_ne_none limit
      · have hkept : ∀ i body,
            (round.viewState view).preCommits.lookup i = some body →
            (next.viewState view).preCommits.lookup i = some body :=
          fun _ _ hb => h.sound.preCommits_kept hsett.settling.sound hsett.grows h.fits
            hlim hb
        have hsize := size_le_of_lookup hkept
        omega
    have hseal : (round.viewState view).verifiedSeal.isSome = true →
        (next.viewState view).verifiedSeal.isSome = true := by
      rw [Option.isSome_iff_ne_none, Option.isSome_iff_ne_none]
      exact hsett.seals view
    dsimp only
    by_cases hprep : preparedVotes (round.viewState view) proposal < round.quorum
    · rw [if_pos hprep]
      exact Nat.zero_le _
    have hstill : ¬ preparedVotes (next.viewState view) proposal < round.quorum :=
      fun hfewer => hprep (lt_of_le_of_lt hvotes hfewer)
    rw [if_neg hprep, if_neg hstill]
    by_cases hwait : round.antiMev = true ∧
        ((round.viewState view).preBlockEnvelopeCount = none ∨
          (round.viewState view).preCommits.size < round.quorum)
    · rw [if_pos hwait]
      split_ifs <;> omega
    have hready : ¬ (round.antiMev = true ∧ ((next.viewState view).preBlockEnvelopeCount = none ∨
        (next.viewState view).preCommits.size < round.quorum)) := by
      rintro ⟨hmode, hmiss⟩
      exact hshs (fun hearl => hwait ⟨hmode, hearl⟩) hmiss
    rw [if_neg hwait, if_neg hready]
    by_cases hsealed : (round.viewState view).verifiedSeal.isSome = true
    · rw [if_pos hsealed, if_pos (hseal hsealed)]
    · rw [if_neg hsealed]
      split_ifs <;> omega

/-- A committed view has a proposal and a seal. -/
theorem committed_of_progress {votes : Nat} (h : round.progress view = .committed view votes) :
    (∃ proposal, (round.viewState view).proposal = some proposal) ∧
      (round.viewState view).verifiedSeal ≠ none := by
  have hphase := phase_progress round view
  rw [h] at hphase
  cases hprop : (round.viewState view).proposal with
  | none =>
    rw [hprop] at hphase
    cases hphase
  | some proposal =>
    refine ⟨⟨proposal, rfl⟩, ?_⟩
    intro hno
    simp only [hprop, hno, phase, Option.isSome_none, Bool.false_eq_true, if_false] at hphase
    split_ifs at hphase <;> cases hphase

omit [Crypto] in
theorem map_of_unsigned {α : Type} {a b : Except DbftStateError Header}
    (covered : Except DbftExtraError Header → α) (h : a.map unsignedHeader = b.map unsignedHeader) :
    a.map (fun header => covered (unsignedHeader header))
      = b.map fun header => covered (unsignedHeader header) := by
  have hmap := congrArg (Except.map covered) h
  cases a <;> cases b <;> exact hmap

/--
In every run of a round in which one header is finalized for each view and the DKG data are not
exchanged, whatever messages are processed and whichever calls fail, the progress of a view never
goes back, and a committed view keeps its proposal, its final header and what its seal covers.
-/
theorem progress_never_regresses (height : UInt64) (validators : ValidatorSet) (antiMev : Bool)
    (earlier later : List Operation) (hsteady : Steady (earlier ++ later)) (view : UInt8) :
    let round := Machine.run perform (start height validators antiMev) earlier
    let next := Machine.run perform round later
    phase (round.progress view) ≤ phase (next.progress view) ∧
      ∀ votes, round.progress view = .committed view votes →
        (∃ proposal, round.proposal view = some proposal ∧ next.proposal view = some proposal) ∧
        (∃ header, round.finalHeader view = some header ∧ next.finalHeader view = some header) ∧
        (next.sealedHeader view).map ecdsaSealHash = (round.sealedHeader view).map ecdsaSealHash ∧
        (next.sealedHeader view).map thresholdSealMessage
          = (round.sealedHeader view).map thresholdSealMessage := by
  intro round next
  have hround := (settling_start (earlier ++ later) height validators antiMev).run hsteady
    fun _ hmem => List.mem_append_left later hmem
  have hnext := hround.settling.run hsteady fun _ hmem => List.mem_append_right earlier hmem
  refine ⟨hnext.phase_le hround.settling view, ?_⟩
  intro votes hcommitted
  rcases committed_of_progress hcommitted with ⟨⟨proposal, hproposal⟩, hseal⟩
  rcases Option.ne_none_iff_exists'.mp hseal with ⟨checked, hchecked⟩
  rcases hround.settling.sealValid hchecked with ⟨header, -, hheader, -, -⟩
  have hcovered := hnext.map_sealedHeader hround.settling hseal
  refine ⟨⟨proposal, ?_, ?_⟩, ⟨header, ?_, ?_⟩, ?_, ?_⟩
  · rw [proposal_eq, hproposal]
  · rw [proposal_eq]
    exact hround.settling.sound.proposal_kept hnext.settling.sound hnext.grows.extended hproposal
  · rw [finalHeader_eq, hheader]
  · rw [finalHeader_eq]
    exact (hnext.grows.views view).finalHeader header hheader
  · exact map_of_unsigned (fun unsigned => unsigned >>= fun header => .ok (keccak256 header.encode))
      hcovered
  · exact map_of_unsigned (fun unsigned => unsigned >>= fun header => .ok header.encode) hcovered

end Growing

/-! ### A round of one validator -/

open Symbolic

theorem steady_solo (header : Header) :
    Steady (soloOperations header ++ soloOperations header) where
  headers view first second h1 h2 := by
    simp only [soloOperations, List.cons_append, List.nil_append, List.mem_cons, reduceCtorEq,
      Operation.finalizeProposal.injEq, List.not_mem_nil, or_false, false_or, or_self] at h1 h2
    exact h1.2.trans h2.2.symm
  dkgData indices indices' state state' h1 _ := by
    simp [soloOperations] at h1

/-- One validator commits to a header, and sees its own messages and calls again. -/
theorem progress_never_regresses_solo :
    (soloRound (header 1 [0] 2)).progress 0 = .committed 0 1 ∧
      3 ≤ phase ((Machine.run perform (soloRound (header 1 [0] 2))
        (soloOperations (header 1 [0] 2))).progress 0) ∧
      ((Machine.run perform (soloRound (header 1 [0] 2))
        (soloOperations (header 1 [0] 2))).sealedHeader 0).map ecdsaSealHash
        = ((soloRound (header 1 [0] 2)).sealedHeader 0).map ecdsaSealHash := by
  have hcommitted : (soloRound (header 1 [0] 2)).progress 0 = .committed 0 1 := by
    decide +kernel
  have hmonotone := progress_never_regresses 1 solo false (soloOperations (header 1 [0] 2))
    (soloOperations (header 1 [0] 2)) (steady_solo (header 1 [0] 2)) 0
  refine ⟨hcommitted, ?_, (hmonotone.2 1 hcommitted).2.2.1⟩
  have hphase := hmonotone.1
  rw [← soloRound, hcommitted] at hphase
  exact hphase
end DbftRoundState
end NeoX
