import NeoX.Validator.CommitCheck
import NeoX.Validator.SealedHeader

/-!
# Soundness of a committed view

A view counts as committed only when a quorum prepared its proposal, in Anti-MEV
rounds a quorum pre-committed, and its stored seal was made for its final header.
The last part needs a condition on two operations: the final header of a view with a
stored seal is replaced before the seal is checked again, and new DKG data do not
drop a threshold seal.

Main results:

- `SealSound.perform`: an operation that keeps the seals keeps them sound.
- `committed_sound`: what stands behind a committed view.
- `moreThanF_exact`: when the guard of a change of view is false.
- `committed_unsound`: a failing call of `finalizeProposal` leaves a
  committed view whose seal belongs to another header.
-/

namespace NeoX
namespace DbftRoundState

section Soundness

variable [Crypto]

/-! ## Sound seals -/

/-- The stored seal of a view belongs to its final header. -/
def ViewSound (round : DbftRoundState) (state : ViewState) : Prop :=
  ∀ checked, state.verifiedSeal = some checked →
    ∃ header, state.finalHeader = some header ∧ round.SealValid state.commits header checked

/-- A consistent round in which every stored seal belongs to the final header of its view. -/
structure SealSound (round : DbftRoundState) : Prop where
  consistent : Consistent round
  mapped : ∀ indices, round.dkgIndices = some indices → round.IndexMap indices
  views : ∀ view state, round.views.lookup view = some state → round.ViewSound state

theorem ViewSound.mono {round next : DbftRoundState} {state : ViewState} (h : round.ViewSound state)
    (hvals : next.validators = round.validators) (hdkgS : next.dkgState = round.dkgState)
    (hdkgI : next.dkgIndices = round.dkgIndices) : next.ViewSound state := by
  intro checked hchk
  rcases h checked hchk with ⟨header, hh, hval⟩
  exact ⟨header, hh, hval.mono hvals hdkgS hdkgI fun _ _ hget => hget⟩

variable {round : DbftRoundState}

theorem SealSound.viewSound (h : SealSound round) (view : UInt8) :
    round.ViewSound ((round.views.lookup view).getD {}) := by
  cases hget : round.views.lookup view with
  | none =>
    intro checked hchk
    cases hchk
  | some s => exact h.views view s hget

theorem SealSound.later {round next : DbftRoundState} (h : SealSound round)
    (hcons : Consistent next) (hvals : next.validators = round.validators)
    (hdkgS : next.dkgState = round.dkgState) (hdkgI : next.dkgIndices = round.dkgIndices)
    (hviews : ∀ view s, next.views.lookup view = some s → round.ViewSound s) :
    SealSound next where
  consistent := hcons
  mapped indices hidx := by
    have hmap := h.mapped indices (hdkgI ▸ hidx)
    rwa [IndexMap, count, ← hvals] at hmap
  views view s hget :=
    (hviews view s hget).mono hvals hdkgS hdkgI

theorem SealSound.lookup_updateView (h : SealSound round) {view : UInt8}
    {update : ViewState → ViewState}
    (hv : round.ViewSound (update ((round.views.lookup view).getD {}))) (o : UInt8)
    (state : ViewState) (hget : (round.updateView view update).views.lookup o = some state) :
    round.ViewSound state := by
  rw [DbftRoundState.lookup_updateView] at hget
  by_cases ho : o = view
  · rw [if_pos ho] at hget
    cases hget
    exact hv
  · rw [if_neg ho] at hget
    exact h.views o state hget

/-- A refresh stores a sound seal; when the check fails the old one has to be sound already. -/
theorem SealSound.refresh {view : UInt8} (hcons : Consistent round)
    (hmapped : ∀ idx, round.dkgIndices = some idx → round.IndexMap idx)
    (hviews : ∀ o s, round.views.lookup o = some s →
      (o = view → ∃ error, round.verifyCommitQuorum view = .error error) →
      round.ViewSound s) : SealSound (round.refreshVerifiedSeal view).2 := by
  have hn := hcons.refresh view
  unfold refreshVerifiedSeal at hn ⊢
  cases hcheck : round.verifyCommitQuorum view with
  | error error =>
    refine ⟨hcons, hmapped, ?_⟩
    intro o s hget
    exact hviews o s hget fun _ => ⟨error, hcheck⟩
  | ok checked =>
    cases hv : round.views.lookup view with
    | none =>
      refine ⟨hcons, hmapped, ?_⟩
      intro o s hget
      refine hviews o s hget ?_
      rintro rfl
      rw [hv] at hget
      cases hget
    | some s =>
      rw [hcheck, hv] at hn
      refine ⟨hn, hmapped, ?_⟩
      intro o found hget
      simp only [FiniteMap.lookup_insert_if] at hget
      by_cases ho : o = view
      · rw [if_pos ho] at hget
        cases hget
        intro stored hstored
        rw [show checked = some stored from hstored] at hcheck
        rcases verifyCommitQuorum_spec hcheck with ⟨cur, header, hcur, hh, hval⟩
        rw [hv] at hcur
        cases hcur
        exact ⟨header, hh, hval⟩
      · rw [if_neg ho] at hget
        exact hviews o found hget fun heq => absurd heq ho

/-- A new commit keeps the stored seal of its view. -/
theorem SealSound.applyCommit (h : SealSound round)
    {data : DbftConsensusData} {body : DbftCommit}
    (hcons : Consistent (round.updateView data.viewNumber fun s =>
      { s with commits := s.commits.insert data.validatorIndex body }))
    (hfresh : ((round.views.lookup data.viewNumber).getD {}).commits.lookup data.validatorIndex
      = none) :
    SealSound (round.applyCommit data body).2 := by
  rw [applyCommit_snd]
  apply SealSound.refresh hcons h.mapped
  intro o s hget _
  refine ViewSound.mono (h.lookup_updateView ?_ o s hget) rfl rfl rfl
  intro checked hchk
  rcases h.viewSound data.viewNumber checked hchk with ⟨header, hh, hval⟩
  refine ⟨header, hh, hval.mono rfl rfl rfl ?_⟩
  intro i found hf
  have hne : i ≠ data.validatorIndex := by
    rintro rfl
    rw [hfresh] at hf
    cases hf
  exact (AList.lookup_insert_ne hne).trans hf

/-- Recording and applying one message keeps the seals sound. -/
theorem SealSound.recordApply (h : SealSound round) {msg : DbftMessage}
    {data : DbftConsensusData} {p : DbftDecodedPayload}
    (ha : round.authenticate msg = .ok (data, p)) (hprior : round.priorHash data = none) :
    SealSound ((round.record msg data).applyPayload msg data p).2 := by
  have hn := h.consistent.recordApply ha hprior
  have hrec : SealSound (round.record msg data) :=
    h.later (h.consistent.record ha hprior) rfl rfl rfl h.views
  have hauth := (authenticate_eq_ok.mp ha).1
  have hk := hauth.kind_eq
  -- Only a change of commits, header or seal can matter to a seal.
  have hupdate : ∀ view update,
      (∀ s, (round.record msg data).ViewSound s →
        (round.record msg data).ViewSound (update s)) →
      Consistent ((round.record msg data).updateView view update) →
      SealSound ((round.record msg data).updateView view update) := by
    intro view update hs hcons
    exact hrec.later hcons rfl rfl rfl
      (hrec.lookup_updateView (hs _ (hrec.viewSound view)))
  have happlied := (round.record msg data).applied msg data p
  generalize ((round.record msg data).applyPayload msg data p).2 = next at happlied hn ⊢
  cases happlied with
  | same => exact hrec
  | tally => exact hrec.later hn rfl rfl rfl hrec.views
  | enter =>
    have hviews := @SealSound.lookup_updateView _ _ hrec (data.viewNumber + 1) id
      (hrec.viewSound _)
    exact hrec.later hn rfl rfl rfl hviews
  | commit =>
    rw [← applyCommit_snd]
    apply hrec.applyCommit
    · exact hrec.consistent.insertCommit (AList.lookup_insert _) hauth.bodyOf_eq hk.symm
    · exact h.consistent.commit_fresh hprior hk.symm
  | _ => exact hupdate _ _ (fun _ hs => hs) hn

omit [Crypto] in
theorem hashablePrefix_of_matches {proposal header : Header}
    (h : proposalHeaderMatches proposal header = .ok true) :
    ∃ hashable, DbftExtra.hashablePrefix proposal.extraData = .ok hashable ∧
      DbftExtra.hashablePrefix header.extraData = .ok hashable := by
  rcases Except.bind_ok h with ⟨hashable, hprop, h⟩
  rcases Except.bind_ok h with ⟨final, hfinal, h⟩
  rw [Except.mapError_eq_ok] at hprop hfinal
  have hsame := congrArg Header.extraData (of_decide_eq_true (Except.ok.inj h))
  have hequal : hashable = final := hsame
  exact ⟨hashable, hprop, hequal ▸ hfinal⟩

omit [Crypto] in
theorem decode_eq_of_matches {proposal a b : Header}
    (h1 : proposalHeaderMatches proposal a = .ok true)
    (h2 : proposalHeaderMatches proposal b = .ok true) :
    DbftExtraPrefix.decode a.extraData = DbftExtraPrefix.decode b.extraData := by
  rcases hashablePrefix_of_matches h1 with ⟨hashable, hprop, hmatc⟩
  rcases hashablePrefix_of_matches h2 with ⟨o, hproposal', hmatched'⟩
  rw [hprop] at hproposal'
  cases hproposal'
  rw [DbftExtra.decode_hashablePrefix hmatc, DbftExtra.decode_hashablePrefix hmatched']

/--
Operations that keep stored seals sound: a header that replaces the final header of a view with a
threshold seal is checked against no more shares than the DKG committee has members, and DKG data
are not exchanged while a threshold seal is stored.
-/
def SealKept (round : DbftRoundState) : Operation → Prop
  | .finalizeProposal view header =>
    ∀ state signature dkgState dkgIndices, round.views.lookup view = some state →
      state.verifiedSeal = some (.threshold signature) → state.finalHeader ≠ some header →
      round.dkgState = some dkgState → round.dkgIndices = some dkgIndices →
      (thresholdShares dkgIndices state.commits.toList).length
        ≤ dkgState.parameters.participants
  | .installDkgState indices dkgState =>
    (∀ view state signature, round.views.lookup view = some state →
      state.verifiedSeal ≠ some (.threshold signature)) ∨
    (round.dkgIndices = some indices ∧ ∃ installed, round.dkgState = some installed ∧
      installed.current.globalPublicKey = dkgState.current.globalPublicKey ∧
      installed.parameters.scaler = dkgState.parameters.scaler)
  | _ => True

/-- With a stored seal, the check of another matching header does not fail. -/
theorem SealSound.verifyCommitQuorum_isOk (h : SealSound round)
    {view : UInt8} {s : ViewState} {header : Header} {checked : DbftVerifiedCommitSeal}
    (hval : round.validateProposalHeader view header = .ok ())
    (hs : round.views.lookup view = some s) (hchk : s.verifiedSeal = some checked)
    (ho : s.finalHeader ≠ some header) (hkept : round.SealKept (.finalizeProposal view header)) :
    ∃ result, (round.updateView view fun s =>
      { s with finalHeader := some header }).verifyCommitQuorum view = .ok result := by
  rcases h.views view s hs checked hchk with ⟨installed, hinst, hseal⟩
  rcases validateProposalHeader_eq_ok.mp hval with ⟨-, msg, req, hm, hb, hmatch⟩
  rcases (h.consistent.views view s hs).finalHeader installed hinst with
    ⟨-, proposal, template, hprop, htemp, hinsta⟩
  have hsame : msg = proposal := by
    rw [DbftRoundState.proposal, hs] at hm
    exact Option.some.inj (hm.symm.trans hprop)
  subst hsame
  rw [hb] at htemp
  cases htemp
  have hdec := decode_eq_of_matches hmatch hinsta
  have hget : (round.updateView view fun s =>
      { s with finalHeader := some header }).views.lookup view
        = some { s with finalHeader := some header } := by
    rw [DbftRoundState.lookup_updateView, if_pos rfl, hs]
    rfl
  have hr : ∀ i body, s.commits.lookup i = some body →
      i.toNat < round.count := by
    intro i body hcommit
    have hf : ((round.views.lookup view).getD {}).commits.lookup i = some body := by
      rw [hs]
      exact hcommit
    exact h.consistent.commit_lt hf
  cases checked with
  | ecdsa sigs =>
    rcases hseal with ⟨extra, _, _, hx, hsch, -⟩
    refine DbftRoundState.verifyCommitQuorum_isOk hget rfl (hdec.trans hx) hr ?_
    intro ht
    rw [hsch] at ht
    cases ht
  | threshold sig =>
    rcases hseal with ⟨extra, _, dkgState, dkgIndices, _, _, hx, -, -, hdkgS, hdkgI,
      -, -, -, hscaler, -, haggr⟩
    refine DbftRoundState.verifyCommitQuorum_isOk hget rfl (hdec.trans hx) hr ?_
    intro _
    exact ⟨dkgState, dkgIndices, hdkgS, hdkgI, h.mapped dkgIndices hdkgI,
      haggr.1, hscaler,
      hkept s sig dkgState dkgIndices hs hchk ho hdkgS hdkgI⟩

/-- A final header that is installed under the condition keeps the seals sound. -/
theorem SealSound.finalizeProposal (h : SealSound round) {view : UInt8}
    {header : Header} (hkept : round.SealKept (.finalizeProposal view header)) :
    SealSound (round.finalizeProposal view header).2 := by
  rcases round.finalizeProposal_cases view header with heq | ⟨hval, heq⟩
  · rw [heq]
    exact h
  · rw [heq]
    refine SealSound.refresh (h.consistent.installHeader hval) h.mapped ?_
    intro o found hget herror
    by_cases ho : o = view
    · subst ho
      rw [DbftRoundState.lookup_updateView, if_pos rfl] at hget
      cases hget
      intro checked hchk
      cases hs : round.views.lookup o with
      | none =>
        rw [hs] at hchk
        cases hchk
      | some s =>
        rw [hs] at hchk
        by_cases hsame : s.finalHeader = some header
        · rcases h.views o s hs checked hchk with ⟨installed, hinst, hseal⟩
          rw [hsame] at hinst
          cases hinst
          exact ⟨header, rfl, hseal.mono rfl rfl rfl fun _ _ hcommit => hcommit⟩
        · rcases herror rfl with ⟨error, herror⟩
          rcases h.verifyCommitQuorum_isOk hval hs hchk hsame hkept with ⟨r, hres⟩
          rw [herror] at hres
          cases hres
    · rw [DbftRoundState.lookup_updateView, if_neg ho] at hget
      exact (h.views o found hget).mono rfl rfl rfl

/-- DKG data that are installed under the condition keep the seals sound. -/
theorem SealSound.installDkgState (h : SealSound round) {idx : List UInt32}
    {dkgState : DkgState} (hkept : round.SealKept (.installDkgState idx dkgState)) :
    SealSound (round.installDkgState idx dkgState).2 := by
  have hcons := h.consistent.perform (.installDkgState idx dkgState)
  rw [DbftRoundState.perform] at hcons
  unfold DbftRoundState.installDkgState at hcons ⊢
  split
  · rename_i hmap
    rw [if_pos hmap] at hcons
    refine ⟨hcons, ?_, ?_⟩
    · intro installed hinst
      cases hinst
      exact hmap
    · intro view s hget checked hchk
      rcases h.views view s hget checked hchk with ⟨header, hh, hseal⟩
      refine ⟨header, hh, ?_⟩
      cases checked with
      | ecdsa sigs => exact hseal
      | threshold sig =>
        rcases hkept with hno | ⟨hidx, installed, hinst, hkey, hscaler⟩
        · exact absurd hchk (hno view s sig hget)
        · rcases hseal with ⟨extra, msg, old, oldIndices, contributors, selected, hx,
            hsch, hm, hold, holdIndices, hr⟩
          rw [hinst] at hold
          cases hold
          rw [hidx] at holdIndices
          cases holdIndices
          rw [hkey, hscaler] at hr
          exact ⟨extra, msg, dkgState, idx, contributors, selected, hx, hsch,
            hm, rfl, rfl, hr⟩
  · exact h

theorem SealSound.perform (h : SealSound round) {op : Operation}
    (hkept : round.SealKept op) : SealSound (round.perform op) := by
  cases op with
  | process msg =>
    refine process_induction (fun _ _ _ _ hrd ha hprior _ => hrd.recordApply ha hprior)
      ?_ h msg
    intro next kept data rec hn ha
    exact hn.later (hn.consistent.keepRecovery ha) rfl rfl rfl hn.views
  | finalizePreBlock view header envelopeCount =>
    have hcons := h.consistent.finalizePreBlock view header envelopeCount
    rw [DbftRoundState.perform]
    rcases round.finalizePreBlock_cases view header envelopeCount with heq | ⟨-, -, heq⟩
    · rw [heq]
      exact h
    · rw [heq] at hcons ⊢
      exact h.later hcons rfl rfl rfl (h.lookup_updateView (h.viewSound view))
  | finalizeProposal view header => exact h.finalizeProposal hkept
  | installDkgState indices dkgState => exact h.installDkgState hkept

theorem sealSound_start (height : UInt64) (vals : ValidatorSet) (antiMev : Bool) :
    SealSound (start height vals antiMev) := by
  refine ⟨consistent_start height vals antiMev, ?_, ?_⟩
  · intro idx hidx
    cases hidx
  · intro view s hs checked hchk
    rw [lookup_views_start hs] at hchk
    cases hchk

/-! ## Committed views -/

/-- A slot holds a message that its validator signed, with this body. -/
def Sent (round : DbftRoundState) (key : MessageKey) (payload : DbftDecodedPayload) : Prop :=
  ∃ message data, round.messages.lookup key = some message ∧
    round.Authentic message data payload ∧ data.key = key

theorem Consistent.sent (h : Consistent round) {key : MessageKey}
    {payload : DbftDecodedPayload} (hreta : round.Retained key payload) :
    round.Sent key payload := by
  rcases hreta with ⟨msg, hget, hb⟩
  rcases h.retained key msg hget with ⟨data, found, ha, hkey⟩
  rw [ha.bodyOf_eq] at hb
  cases hb
  exact ⟨msg, data, hget, ha, hkey⟩

/-- What stands behind a committed view: its proposal, final header and seal. -/
structure CommitBacked (round : DbftRoundState) (view : UInt8) (state : ViewState)
    (proposal : DbftMessage) (header : Header) (checked : DbftVerifiedCommitSeal) : Prop where
  proposal_eq : state.proposal = some proposal
  finalHeader_eq : state.finalHeader = some header
  verifiedSeal_eq : state.verifiedSeal = some checked
  /-- The primary signed the proposal, and the final header matches its template. -/
  primary : ∃ data request, round.Authentic proposal data (.prepareRequest request) ∧
    data.key = ⟨view, .prepareRequest, round.primaryIndex view⟩ ∧
    proposalHeaderMatches request.sealingProposal header = .ok true
  /-- A quorum prepared exactly this proposal. -/
  prepared : ∃ preparers : Finset UInt8, round.quorum ≤ preparers.card ∧
    ∀ index ∈ preparers, index = round.primaryIndex view ∨
      round.Sent ⟨view, .prepareResponse, index⟩ (.prepareResponse ⟨proposal.hash⟩)
  /-- In Anti-MEV rounds a quorum pre-committed. -/
  preCommitted : round.antiMev = true → ∃ contributors : Finset UInt8,
    round.quorum ≤ contributors.card ∧
    ∀ index ∈ contributors, ∃ body, round.Sent ⟨view, .preCommit, index⟩ (.preCommit body)
  /-- Every counted commit was signed by the validator it is counted for. -/
  committed : ∀ index body, state.commits.lookup index = some body →
    round.Sent ⟨view, .commit, index⟩ (.commit body)
  /-- The seal is made of valid commits of a quorum over the final header. -/
  sealed : round.SealValid state.commits header checked

/-- What a view must hold to count as committed. -/
theorem progress_eq_committed {view target : UInt8} {votes : Nat}
    (h : round.progress view = .committed target votes) :
    ∃ s proposal checked, round.views.lookup view = some s ∧
      s.proposal = some proposal ∧ s.verifiedSeal = some checked ∧
      round.quorum ≤ 1 +
        (s.responses.toList.filter fun e => e.2 = proposal.hash).length ∧
      (round.antiMev = true → round.quorum ≤ s.preCommits.size) := by
  unfold progress at h
  cases hs : round.views.lookup view with
  | none => simp [hs] at h
  | some s =>
    cases hprop : s.proposal with
    | none => simp [hs, hprop] at h
    | some proposal =>
      rw [hs] at h
      simp only [hprop] at h
      split at h
      · cases h
      · rename_i hprep
        split at h
        · cases h
        · rename_i hcontributed
          split at h
          · rename_i hsealed
            rcases Option.isSome_iff_exists.mp hsealed with ⟨checked, hchk⟩
            refine ⟨s, proposal, checked, rfl, hprop, hchk, Nat.not_lt.mp hprep, ?_⟩
            intro hmode
            by_contra hfew
            exact hcontributed ⟨hmode, Or.inr (Nat.not_le.mp hfew)⟩
          · split at h <;> cases h

/-- The primary and the backups that answered its proposal are distinct validators. -/
theorem ViewBacked.card_preparers {view : UInt8} {s : ViewState}
    (h : round.ViewBacked view s) (hash : B256) :
    ∃ preparers : Finset UInt8,
      preparers.card = 1 + (s.responses.toList.filter fun e => e.2 = hash).length ∧
      ∀ i ∈ preparers, i = round.primaryIndex view ∨
        s.responses.lookup i = some hash := by
  have hmem : ∀ i ∈ (s.responses.toList.filter fun e => e.2 = hash).map Prod.fst,
      s.responses.lookup i = some hash := by
    intro i hi
    rcases List.mem_map.mp hi with ⟨⟨found, vote⟩, he, rfl⟩
    rcases List.mem_filter.mp he with ⟨he, hvote⟩
    rw [← of_decide_eq_true hvote]
    exact FiniteMap.mem_toList.mp he
  have hnd : ((s.responses.toList.filter fun e => e.2 = hash).map Prod.fst).Nodup :=
    s.responses.keys_toList_nodup.sublist (List.filter_sublist.map _)
  have hprim : round.primaryIndex view ∉
      ((s.responses.toList.filter fun e => e.2 = hash).map Prod.fst).toFinset := by
    rw [List.mem_toFinset]
    intro hi
    exact (h.responses _ _ (hmem _ hi)).1 rfl
  refine ⟨insert (round.primaryIndex view)
    ((s.responses.toList.filter fun e => e.2 = hash).map Prod.fst).toFinset, ?_, ?_⟩
  · rw [Finset.card_insert_of_notMem hprim, List.toFinset_card_of_nodup hnd, List.length_map,
      Nat.add_comm]
  · intro i hi
    rcases Finset.mem_insert.mp hi with hself | hbackup
    · exact Or.inl hself
    · exact Or.inr (hmem i (List.mem_toFinset.mp hbackup))

/--
In every round reached by operations that keep the stored seals, a committed view rests on a signed
proposal of its primary, on a quorum of preparations, in Anti-MEV rounds on a quorum of
pre-commits, and on a seal by a quorum over a final header that matches the proposal.
-/
theorem committed_sound (height : UInt64) (validators : ValidatorSet) (antiMev : Bool)
    (operations : List Operation) (view target : UInt8) (votes : Nat)
    (hkept : Machine.Guarded perform SealKept (start height validators antiMev) operations)
    (hprogress : (Machine.run perform (start height validators antiMev) operations).progress view
      = .committed target votes) :
    ∃ state proposal header checked,
      (Machine.run perform (start height validators antiMev) operations).views.lookup view
        = some state ∧
      (Machine.run perform (start height validators antiMev) operations).CommitBacked view state
        proposal header checked := by
  have hsound : SealSound (Machine.run perform (start height validators antiMev) operations) :=
    Machine.invariant_of_guarded (fun _ _ h hallowed => h.perform hallowed)
      (sealSound_start height validators antiMev) hkept
  generalize Machine.run perform (start height validators antiMev) operations = round at *
  have hconsistent := hsound.consistent
  rcases progress_eq_committed hprogress with
    ⟨state, proposal, checked, hstate, hproposal, hchecked, hprepared, hcontributed⟩
  have hbacked := hconsistent.views view state hstate
  rcases hsound.views view state hstate checked hchecked with ⟨header, hheader, hsealed⟩
  refine ⟨state, proposal, header, checked, hstate, hproposal, hheader, hchecked, ?_, ?_, ?_, ?_,
    hsealed⟩
  · rcases hbacked.finalHeader header hheader with ⟨-, found, request, hfound, hbody, hmatch⟩
    rw [hproposal] at hfound
    cases hfound
    rcases hconsistent.retained _ _ (hbacked.proposal proposal hproposal).1 with
      ⟨data, payload, hauth, hkey⟩
    rw [hauth.bodyOf_eq] at hbody
    cases hbody
    exact ⟨data, request, hauth, hkey, hmatch⟩
  · rcases hbacked.card_preparers proposal.hash with ⟨preparers, hcard, hpreparers⟩
    refine ⟨preparers, hcard ▸ hprepared, ?_⟩
    intro index hindex
    exact (hpreparers index hindex).imp_right fun hresponse =>
      hconsistent.sent (hbacked.responses index _ hresponse).2
  · intro hmode
    refine ⟨(state.preCommits.toList.map Prod.fst).toFinset,
      state.preCommits.size_eq_card ▸ hcontributed hmode, ?_⟩
    intro index hindex
    rcases List.mem_map.mp (List.mem_toFinset.mp hindex) with ⟨⟨found, body⟩, hentry, rfl⟩
    exact ⟨body, hconsistent.sent (hbacked.preCommits _ _ (FiniteMap.mem_toList.mp hentry)).2⟩
  · intro index body hcommit
    exact hconsistent.sent (hbacked.commits index body hcommit)

/-! ## Committed or failed validators -/

/-- A validator is heard in a view, and free to change it. -/
def Free (round : DbftRoundState) (view localIndex index : UInt8) : Prop :=
  (index = localIndex ∨ ∃ key payload, round.Sent key payload ∧ key.index = index ∧
    view ≤ key.view) ∧
  round.hasAnyPreCommit index = false ∧ round.hasAnyCommit index = false

theorem Consistent.free_iff (h : Consistent round) (view localIndex index : UInt8) :
    round.Free view localIndex index ↔ ((round.hasAnyPreCommit index || round.hasAnyCommit index) ||
      !round.seenInView view localIndex index) = false := by
  have hseen : round.seenInView view localIndex index = true ↔ index = localIndex ∨
      ∃ key payload, round.Sent key payload ∧ key.index = index ∧ view ≤ key.view := by
    simp only [seenInView, Bool.or_eq_true, decide_eq_true_eq, List.any_eq_true, Bool.and_eq_true,
      Prod.exists, FiniteMap.mem_toList]
    refine or_congr_right ⟨?_, ?_⟩
    · rintro ⟨key, message, hlookup, hindex, hview⟩
      obtain ⟨data, payload, hauthentic, hkey⟩ := h.retained key message hlookup
      exact ⟨key, payload, ⟨message, data, hlookup, hauthentic, hkey⟩, hindex, hview⟩
    · rintro ⟨key, -, ⟨message, -, hlookup, -⟩, hindex, hview⟩
      exact ⟨key, message, hlookup, hindex, hview⟩
  rw [Free, ← hseen]
  simp [and_comm]

/-- Over every run, for every view and local validator: the guard of a change of view is false
exactly if a quorum of validators is free to change it. -/
theorem moreThanF_exact (height : UInt64) (validators : ValidatorSet) (antiMev : Bool)
    (operations : List Operation) (view localIndex : UInt8) : ∃ round,
    Machine.run perform (start height validators antiMev) operations = round ∧
    (round.moreThanFCommittedOrFailed view localIndex = false ↔
      ∃ free ⊆ Finset.range round.count, round.quorum ≤ free.card ∧
        ∀ index ∈ free, round.Free view localIndex (.ofNat index)) := by
  have hfree := (consistent_run height validators antiMev operations).free_iff view localIndex
  generalize Machine.run perform (start height validators antiMev) operations = round at hfree
  refine ⟨round, rfl, ?_⟩
  simp only [hfree]
  let lost (index : Nat) : Bool := (round.hasAnyPreCommit (.ofNat index) ||
    round.hasAnyCommit (.ofNat index)) || !round.seenInView view localIndex (.ofNat index)
  let free := (Finset.range round.count).filter fun index => ¬ lost index = true
  -- Every validator is lost or free, and a quorum is all but the tolerated number.
  have hcount : round.moreThanFCommittedOrFailed view localIndex = false ↔
      round.quorum ≤ free.card := by
    have hlost : ((List.range round.count).filter lost).length
        = ((Finset.range round.count).filter fun index => lost index = true).card := by
      rw [← List.toFinset_card_of_nodup (List.nodup_range.filter lost), List.toFinset_filter,
        List.toFinset_range]
    have hsplit := Finset.card_filter_add_card_filter_not (s := Finset.range round.count)
      fun index => lost index = true
    rw [Finset.card_range] at hsplit
    change _ + free.card = _ at hsplit
    unfold moreThanFCommittedOrFailed quorum bftHonestNodeCount
    rw [decide_eq_false_iff_not, hlost]
    omega
  rw [hcount]
  constructor
  · intro hquorum
    refine ⟨free, Finset.filter_subset _ _, hquorum, fun _ hindex => ?_⟩
    exact eq_false_of_ne_true (Finset.mem_filter.mp hindex).2
  · rintro ⟨found, hrange, hquorum, hall⟩
    exact hquorum.trans (Finset.card_le_card fun index hindex =>
      Finset.mem_filter.mpr ⟨hrange hindex, ne_true_of_eq_false (hall index hindex)⟩)

end Soundness

/-! ### Rounds of one validator -/

open Symbolic

/-- The round of one validator commits to a header it sealed. -/
theorem committed_sound_solo :
    ∃ state proposal header checked,
      (soloRound (Symbolic.header 1 [0] 2)).views.lookup 0 = some state ∧
      (soloRound (Symbolic.header 1 [0] 2)).CommitBacked 0 state proposal header checked := by
  have hdkg : (perform (start 1 solo false) (.process (signed 1 0 0 .prepareRequest
      (DbftPrepareRequest.codec.encode ⟨header 1 [0] 2, [], none, none⟩)))).dkgState = none := by
    decide +kernel
  apply committed_sound 1 solo false (soloOperations (header 1 [0] 2)) 0 0 1
  · refine ⟨trivial, ?_, trivial, trivial⟩
    intro state signature dkgState dkgIndices _ _ _ hstate
    rw [hdkg] at hstate
    cases hstate
  · decide +kernel

/-- DKG data of one participant with the given key. -/
def soloDkg (publicKey : G1Bytes) : DkgState :=
  ⟨⟨1, 1, 1⟩, ⟨1, .zero 128, publicKey⟩, none⟩

/-- A header of a threshold scheme with the given state root. -/
def thresholdHeader (stateRoot : B256) : Header :=
  { header 1 ([2, 1] ++ List.replicate 32 0) 2 with stateRoot := stateRoot }

/-- The threshold signature of one participant over a header. -/
def thresholdSeal (header : Header) : G2Bytes :=
  match thresholdSealMessage header with
  | .error _ => .zero 96
  | .ok message => Symbolic.thresholdSign (publicKey (.ofNat 32 1)) message

/-- One validator seals a header, gets unusable DKG data, and fails to install another header. -/
def replacedOperations : List Operation :=
  [.installDkgState [1] (soloDkg (publicKey (.ofNat 32 1))),
    .process (signed 1 0 0 .prepareRequest
      (DbftPrepareRequest.codec.encode ⟨thresholdHeader (.zero 32), [], none, none⟩)),
    .finalizeProposal 0 (thresholdHeader (.zero 32)),
    .process (signed 1 0 0 .commit
      (DbftCommit.codec.encode ⟨(thresholdSeal (thresholdHeader (.zero 32))).bytes⟩)),
    .installDkgState [1] (soloDkg (.zero 48)),
    .finalizeProposal 0 (thresholdHeader (.ofNat 32 7))]

/-- The round that these operations reach. -/
def replacedRound : DbftRoundState :=
  Machine.run perform (start 1 solo false) replacedOperations

/-- The view stays committed, with the new header and the seal of the old one, which is no valid
seal of the new header under any key. -/
theorem committed_unsound :
    replacedRound.progress 0 = .committed 0 1 ∧
    (replacedRound.views.lookup 0).map (fun state => (state.finalHeader, state.verifiedSeal))
      = some (some (thresholdHeader (.ofNat 32 7)),
        some (.threshold (thresholdSeal (thresholdHeader (.zero 32))))) ∧
    ¬ ∃ state proposal header checked, replacedRound.views.lookup 0 = some state ∧
      replacedRound.CommitBacked 0 state proposal header checked := by
  have hprogress : replacedRound.progress 0 = .committed 0 1 := by decide +kernel
  have hheld : (replacedRound.views.lookup 0).map
      (fun state => (state.finalHeader, state.verifiedSeal))
      = some (some (thresholdHeader (.ofNat 32 7)),
        some (.threshold (thresholdSeal (thresholdHeader (.zero 32))))) := by
    decide +kernel
  refine ⟨hprogress, hheld, ?_⟩
  rintro ⟨state, proposal, header, checked, hstate, hbacked⟩
  rw [hstate, Option.map_some, hbacked.finalHeader_eq, hbacked.verifiedSeal_eq] at hheld
  cases hheld
  rcases hbacked.sealed with
    ⟨extra, message, dkgState, _, _, _, hextra, -, hmessage, -, -, -, -, -, -,
    -, -, -, hverify⟩
  have hmatched : DbftExtraPrefix.decode (thresholdHeader (.ofNat 32 7)).extraData
      = .ok ⟨.v2, .threshold, some (.zero 32), rfl⟩ := by
    decide +kernel
  rw [hmatched] at hextra
  cases hextra
  -- The seal names the hash of the header it was made for.
  have hother : (thresholdSealMessage (thresholdHeader (.ofNat 32 7))).map hash
      ≠ .ok (FixedBytes.first 32
        ((thresholdSeal (thresholdHeader (.zero 32))).bytes.drop 48)) := by
    decide +kernel
  have hsame := blsVerify_eq_true.mp hverify
  rw [if_neg (by decide)] at hsame
  rw [hmessage, hsame, hash_of_thresholdSign] at hother
  exact hother rfl

end DbftRoundState
end NeoX
