import NeoX.Network.Compaction
import NeoX.Validator.Invariant

/-!
# Recovery messages of a round

The sending side of recovery: which retained messages a round compacts, and when they
are rebuilt exactly from the compact form.

Main results:

- `Recoverable.compactable`: what a recoverable round compacts is rebuilt
  exactly.
- `Recoverable.recoveryMessage`: a recoverable round assembles its recovery
  message.
-/

namespace NeoX

open List FiniteMap
namespace DbftRoundState

variable [Crypto]

/-! ## The compacted messages -/

section Compacted

variable {round : DbftRoundState}
variable {message : DbftMessage}

omit [Crypto] in
theorem mem_retainedBy {test : MessageKey → Bool} :
    message ∈ round.retainedBy test ↔
      ∃ key, test key = true ∧ round.messages.lookup key = some message := by
  rw [retainedBy, mem_map]
  constructor
  · rintro ⟨⟨key, found⟩, hmem, rfl⟩
    rcases mem_filter.mp ((perm_insertionSort _ _).subset hmem) with ⟨he, htest⟩
    exact ⟨key, htest, mem_toList.mp he⟩
  · rintro ⟨key, htest, hget⟩
    refine ⟨(key, message), (perm_insertionSort _ _).symm.subset ?_, rfl⟩
    exact mem_filter.mpr ⟨mem_toList.mpr hget, htest⟩

omit [Crypto] in
/-- Retained messages come from distinct slots. -/
theorem pairwise_retainedBy {test : MessageKey → Bool} {relation : DbftMessage → DbftMessage → Prop}
    (hrela : ∀ key o message found, key ≠ o → test key = true → test o = true →
      round.messages.lookup key = some message → round.messages.lookup o = some found →
      relation message found) : (round.retainedBy test).Pairwise relation := by
  rw [retainedBy, pairwise_map]
  have hperm := perm_insertionSort
    (fun a b : MessageKey × DbftMessage => a.1.index ≤ b.1.index)
    (round.messages.toList.filter fun e => test e.1)
  have hkeys : ((round.messages.toList.filter fun e => test e.1).map Prod.fst).Nodup :=
    round.messages.keys_toList_nodup.sublist (filter_sublist.map _)
  have hdist := pairwise_map.mp ((hperm.map Prod.fst).nodup_iff.mpr hkeys)
  refine hdist.imp_of_mem ?_
  intro a b h1 h2 hne
  rcases mem_filter.mp (hperm.subset h1) with ⟨hmem, htest⟩
  rcases mem_filter.mp (hperm.subset h2) with ⟨hmem', htest'⟩
  exact hrela a.1 b.1 a.2 b.2 hne htest htest'
    (mem_toList.mp hmem) (mem_toList.mp hmem')

omit [Crypto] in
/-- From entries ordered by index, one of every index is kept. -/
theorem firstPerIndex_spec {prev : Option UInt8} {es : List (MessageKey × DbftMessage)}
    (hsorted : es.Pairwise fun a b => a.1.index ≤ b.1.index)
    (hprev : ∀ index ∈ prev, ∀ e ∈ es, index ≤ e.1.index) :
    ∃ kept : List (MessageKey × DbftMessage), firstPerIndex prev es = kept.map Prod.snd ∧
      kept.Sublist es ∧ (kept.Pairwise fun a b => a.1.index < b.1.index) ∧
      ∀ index ∈ prev, ∀ e ∈ kept, index < e.1.index := by
  induction es generalizing prev with
  | nil => exact ⟨[], rfl, List.Sublist.slnil, List.Pairwise.nil, by simp⟩
  | cons e es ih =>
    rcases e with ⟨key, message⟩
    rcases pairwise_cons.mp hsorted with ⟨h1, hr⟩
    by_cases hsame : prev = some key.index
    · rcases ih hr (fun index hi o ho =>
        hprev index hi o (mem_cons_of_mem _ ho)) with
        ⟨kept, hkept, hsub, hpair, hlater⟩
      refine ⟨kept, ?_, hsub.cons _, hpair, hlater⟩
      rw [firstPerIndex, if_pos hsame, hkept]
    · have hb : ∀ index ∈ some key.index, ∀ o ∈ es, index ≤ o.1.index := by
        rintro index ⟨⟩ o ho
        exact h1 o ho
      rcases ih hr hb with ⟨kept, hkept, hsub, hpair, hlater⟩
      refine ⟨(key, message) :: kept, ?_, hsub.cons_cons _,
        pairwise_cons.mpr ⟨fun o ho => hlater _ rfl o ho, hpair⟩, ?_⟩
      · rw [firstPerIndex, if_neg hsame, hkept]
        rfl
      · intro index hi o ho
        have hlt : index < key.index := by
          refine UInt8.lt_of_le_of_ne (hprev index hi (key, message) mem_cons_self) ?_
          rintro rfl
          exact hsame hi
        rcases mem_cons.mp ho with rfl | ho
        · exact hlt
        · exact UInt8.lt_trans hlt (hlater _ rfl o ho)

/-- The order in which contributions are looked at. -/
def ByIndexThenView (first second : MessageKey × DbftMessage) : Prop :=
  first.1.index < second.1.index ∨
    (first.1.index = second.1.index ∧ first.1.view ≤ second.1.view)

instance : DecidableRel ByIndexThenView := fun first second =>
  inferInstanceAs (Decidable (first.1.index < second.1.index ∨
    (first.1.index = second.1.index ∧ first.1.view ≤ second.1.view)))

instance : Std.Total ByIndexThenView where
  total first second := by
    by_cases heq : first.1.index = second.1.index
    · rcases UInt8.le_total first.1.view second.1.view with hle | hle
      · exact Or.inl (Or.inr ⟨heq, hle⟩)
      · exact Or.inr (Or.inr ⟨heq.symm, hle⟩)
    · rcases UInt8.le_total first.1.index second.1.index with hle | hle
      · exact Or.inl (Or.inl (UInt8.lt_of_le_of_ne hle heq))
      · exact Or.inr (Or.inl (UInt8.lt_of_le_of_ne hle (Ne.symm heq)))

instance : IsTrans (MessageKey × DbftMessage) ByIndexThenView where
  trans first second third hfirst hsecond := by
    rcases hfirst with hlt | ⟨heq, hle⟩
    · rcases hsecond with hlt' | ⟨heq', -⟩
      · exact Or.inl (UInt8.lt_trans hlt hlt')
      · exact Or.inl (heq' ▸ hlt)
    · rcases hsecond with hlt' | ⟨heq', hle'⟩
      · exact Or.inl (heq ▸ hlt')
      · exact Or.inr ⟨heq.trans heq', UInt8.le_trans hle hle'⟩

omit [Crypto] in
/-- Contributions are retained messages of distinct validators. -/
theorem contributions_spec (round : DbftRoundState) (kind : DbftMessageType) :
    ∃ kept : List (MessageKey × DbftMessage), round.contributions kind = kept.map Prod.snd ∧
      (∀ e ∈ kept, e.1.kind = kind ∧ round.messages.lookup e.1 = some e.2) ∧
      kept.Pairwise fun a b => a.1.index ≠ b.1.index := by
  have hsorted := pairwise_insertionSort ByIndexThenView
    (round.messages.toList.filter fun e => e.1.kind = kind)
  have hperm := perm_insertionSort ByIndexThenView
    (round.messages.toList.filter fun e => e.1.kind = kind)
  have horde : (insertionSort ByIndexThenView
      (round.messages.toList.filter fun e => e.1.kind = kind)).Pairwise
        fun a b => a.1.index ≤ b.1.index := by
    refine hsorted.imp ?_
    rintro a b (hlt | ⟨heq, -⟩)
    · exact UInt8.le_of_lt hlt
    · exact heq ▸ UInt8.le_refl _
  rcases @firstPerIndex_spec none _ horde (by simp) with
    ⟨kept, hkept, hsub, hpair, -⟩
  refine ⟨kept, hkept, ?_, hpair.imp fun hlt => UInt8.ne_of_lt hlt⟩
  intro e he
  rcases mem_filter.mp (hperm.subset (hsub.subset he)) with ⟨hmem, hk⟩
  exact ⟨of_decide_eq_true hk, mem_toList.mp hmem⟩

variable {key : MessageKey}

theorem Consistent.slot_of_retained (h : Consistent round)
    (hget : round.messages.lookup key = some message) :
    kindOf message = some key.kind ∧ ∀ index, HasIndex message index ↔ index = key.index := by
  rcases h.retained key message hget with ⟨data, p, ha, rfl⟩
  refine ⟨kindOf_eq ha.data_eq, ?_⟩
  intro index
  constructor
  · intro hi
    exact hi.unique ⟨data, ha.data_eq, rfl⟩
  · rintro rfl
    exact ⟨data, ha.data_eq, rfl⟩

variable {index : UInt8}

omit [Crypto] in
/-- The slots that a recovery message draws from. -/
theorem mem_compacted (hmem : message ∈ round.compacted index) :
    ∃ key, round.messages.lookup key = some message ∧
      ((message ∈ round.currentPreparations ∧ key.view = round.currentView ∧
          slotKind key.kind = .prepareResponse) ∨
        (message ∈ round.previousChangeViews ∧ key.kind = .changeView) ∨
        (key.kind = .preCommit ∧ round.hasAnyPreCommit index = true) ∨ key.kind = .commit) := by
  simp only [compacted, mem_append] at hmem
  rcases hmem with ((hprep | hchan) | hpreC) | hcommit
  · rcases mem_retainedBy.mp hprep with ⟨key, htest, hget⟩
    simp only [Bool.and_eq_true, Bool.or_eq_true, decide_eq_true_eq] at htest
    refine ⟨key, hget, Or.inl ⟨hprep, htest.1, ?_⟩⟩
    rcases htest.2 with hk | hk
    · rw [hk]
      rfl
    · rw [hk]
      rfl
  · have hkept := hchan
    rw [previousChangeViews] at hchan
    split at hchan
    · cases hchan
    · rcases mem_retainedBy.mp hchan with ⟨key, htest, hget⟩
      simp only [Bool.and_eq_true, decide_eq_true_eq] at htest
      exact ⟨key, hget, Or.inr (Or.inl ⟨hkept, htest.2⟩)⟩
  · split at hpreC
    · rename_i hown
      rcases round.contributions_spec .preCommit with ⟨kept, heq, hkept, -⟩
      rw [heq] at hpreC
      rcases mem_map.mp hpreC with ⟨e, he, rfl⟩
      exact ⟨e.1, (hkept e he).2, Or.inr (Or.inr (Or.inl ⟨(hkept e he).1, hown⟩))⟩
    · cases hpreC
  · split at hcommit
    · rcases round.contributions_spec .commit with ⟨kept, heq, hkept, -⟩
      rw [heq] at hcommit
      rcases mem_map.mp hcommit with ⟨e, he, rfl⟩
      exact ⟨e.1, (hkept e he).2, Or.inr (Or.inr (Or.inr (hkept e he).1))⟩
    · cases hcommit

/--
A round whose compacted messages lose nothing: validity starts at block zero, the only retained
request of the current view is its accepted proposal, its primary sent no response, and all
responses carry one hash, that of the request when there is one.
-/
structure Recoverable (round : DbftRoundState) (index : UInt8) : Prop where
  start : ∀ message ∈ round.compacted index, message.validBlockStart = 0
  request : ∀ message ∈ round.currentPreparations, ∀ request,
    bodyOf message = some (.prepareRequest request) →
      round.proposal round.currentView = some message
  response : ∀ message ∈ round.currentPreparations, ∀ response,
    bodyOf message = some (.prepareResponse response) →
      ¬ HasIndex message (round.primaryIndex round.currentView)
  hash : ∃ hash, ∀ message ∈ round.currentPreparations,
    (∀ request, bodyOf message = some (.prepareRequest request) → message.hash = hash) ∧
      ∀ response, bodyOf message = some (.prepareResponse response) →
        response.preparationHash = hash

/-- The witness of every compacted change view authenticates one reason only. -/
def ReasonsUnique (round : DbftRoundState) (index : UInt8) : Prop :=
  ∀ message ∈ round.compacted index, ∀ data body, message.consensusData = .ok data →
    data.decodedPayload = .ok (.changeView body) →
    ∀ reason, (changeViewCandidate round.height round.validators.accounts
      ⟨data.validatorIndex, data.viewNumber, body.timestampNs, message.witness⟩
      reason).verifyWitness.isOk = true → body.reasonByte = reason.toByte

/-- The retained request of the current view comes from its primary and belongs to the height. -/
theorem Recoverable.proposal_of (hrd : round.Recoverable index) (h : Consistent round)
    {req : DbftPrepareRequest} (hmem : message ∈ round.currentPreparations)
    (hget : round.messages.lookup key = some message)
    (hb : bodyOf message = some (.prepareRequest req)) :
    key.index = round.primaryIndex round.currentView ∧
      req.sealingProposal.number = round.height := by
  rcases Option.bind_eq_some_iff.mp (hrd.request message hmem req hb) with
    ⟨s, hs, hprop⟩
  rcases (h.views _ s hs).proposal message hprop with
    ⟨hsl, found, hf, hnum⟩
  rw [hb] at hf
  cases hf
  have hi := (h.slot_of_retained hget).2 (round.primaryIndex round.currentView)
  have hprim := (h.slot_of_retained hsl).2 (round.primaryIndex round.currentView)
  exact ⟨(hi.mp (hprim.mpr rfl)).symm, hnum⟩

/-- A retained preparation of the current view is the request of the primary or the response of a
backup. -/
theorem Recoverable.preparation_cases (hrd : round.Recoverable index) (h : Consistent round)
    (hmem : message ∈ round.currentPreparations) (hget : round.messages.lookup key = some message)
    (hk : slotKind key.kind = .prepareResponse) :
    (key.kind = .prepareRequest ∧ key.index = round.primaryIndex round.currentView) ∨
      (key.kind = .prepareResponse ∧ key.index ≠ round.primaryIndex round.currentView) := by
  rcases h.retained key message hget with ⟨data, p, ha, rfl⟩
  have htype : p.messageType = data.key.kind := ha.kind_eq
  rw [← htype] at hk ⊢
  cases p with
  | prepareRequest req =>
    exact Or.inl ⟨rfl, (hrd.proposal_of h hmem hget ha.bodyOf_eq).1⟩
  | prepareResponse resp =>
    refine Or.inr ⟨rfl, fun hprim => ?_⟩
    exact hrd.response message hmem resp ha.bodyOf_eq ⟨data, ha.data_eq, hprim⟩
  | changeView body => cases hk
  | preCommit body => cases hk
  | commit body => cases hk
  | recoveryRequest body => cases hk
  | recoveryMessage body => cases hk

omit [Crypto] in
theorem apart_of_slots {a b : DbftMessage} {kind o : DbftMessageType}
    (h1 : (kindOf a).map slotKind = some kind) (h2 : (kindOf b).map slotKind = some o)
    (hne : kind ≠ o) :
    Apart a b := by
  intro hsame
  rw [h1, h2] at hsame
  exact absurd (Option.some.inj hsame) hne

theorem Consistent.apart_of_index (h : Consistent round) {o : MessageKey} {found : DbftMessage}
    (hget : round.messages.lookup key = some message) (hf : round.messages.lookup o = some found)
    (hne : key.index ≠ o.index) :
    Apart message found := by
  intro _ index hi hagain
  rw [(h.slot_of_retained hget).2] at hi
  rw [(h.slot_of_retained hf).2] at hagain
  exact hne (hi.symm.trans hagain)

theorem Consistent.pairwise_contributions (h : Consistent round) (kind : DbftMessageType) :
    (round.contributions kind).Pairwise Apart := by
  rcases round.contributions_spec kind with ⟨kept, heq, hkept, hpair⟩
  rw [heq, pairwise_map]
  refine hpair.imp_of_mem ?_
  intro a b h1 h2 hne
  exact h.apart_of_index (hkept a h1).2 (hkept b h2).2 hne

theorem Recoverable.pairwise_preparations (hrd : round.Recoverable index) (h : Consistent round) :
    round.currentPreparations.Pairwise Apart := by
  apply pairwise_retainedBy
  intro key o message found hne htest htest' hget hf
  apply h.apart_of_index hget hf
  have hmem : ∀ {key message}, (decide (key.view = round.currentView) &&
      (decide (key.kind = .prepareRequest) || decide (key.kind = .prepareResponse))) = true →
      round.messages.lookup key = some message →
      message ∈ round.currentPreparations ∧ key.view = round.currentView ∧
        slotKind key.kind = .prepareResponse := by
    intro key message htest hget
    refine ⟨mem_retainedBy.mpr ⟨key, htest, hget⟩, ?_⟩
    simp only [Bool.and_eq_true, Bool.or_eq_true, decide_eq_true_eq] at htest
    refine ⟨htest.1, ?_⟩
    rcases htest.2 with hkind | hkind <;> rw [hkind] <;> rfl
  rcases hmem htest hget with ⟨hm, hv, hkind⟩
  rcases hmem htest' hf with ⟨hmessage', hview', hkind'⟩
  intro hindex
  rcases hrd.preparation_cases h hm hget hkind with ⟨hk, hi⟩ | ⟨hk, hi⟩
  · rcases hrd.preparation_cases h hmessage' hf hkind' with ⟨hk', hi'⟩ | ⟨hk', hi'⟩
    · exact hne (by cases key; cases o; simp_all)
    · exact hi' (hindex ▸ hi)
  · rcases hrd.preparation_cases h hmessage' hf hkind' with ⟨hk', hi'⟩ | ⟨hk', hi'⟩
    · exact hi (hindex.trans hi')
    · exact hne (by cases key; cases o; simp_all)

theorem Consistent.pairwise_changeViews (h : Consistent round) :
    round.previousChangeViews.Pairwise Apart := by
  rw [previousChangeViews]
  split
  · exact List.Pairwise.nil
  · apply pairwise_retainedBy
    intro key o message found hne htest htest' hget hf
    apply h.apart_of_index hget hf
    simp only [Bool.and_eq_true, decide_eq_true_eq] at htest htest'
    intro hi
    exact hne (by cases key; cases o; simp_all)

theorem Recoverable.pairwise (hrd : round.Recoverable index) (h : Consistent round) :
    (round.compacted index).Pairwise Apart := by
  have hprep : ∀ message ∈ round.currentPreparations,
      (kindOf message).map slotKind = some .prepareResponse := by
    intro message hmem
    rcases mem_retainedBy.mp hmem with ⟨key, htest, hget⟩
    simp only [Bool.and_eq_true, Bool.or_eq_true, decide_eq_true_eq] at htest
    rw [(h.slot_of_retained hget).1]
    rcases htest.2 with hk | hk <;> rw [hk] <;> rfl
  have hchan : ∀ message ∈ round.previousChangeViews,
      (kindOf message).map slotKind = some .changeView := by
    intro message hmem
    rw [previousChangeViews] at hmem
    split at hmem
    · cases hmem
    · rcases mem_retainedBy.mp hmem with ⟨key, htest, hget⟩
      simp only [Bool.and_eq_true, decide_eq_true_eq] at htest
      rw [(h.slot_of_retained hget).1, htest.2]
      rfl
  have hcont : ∀ kind, ∀ message ∈ round.contributions kind,
      (kindOf message).map slotKind = some (slotKind kind) := by
    intro kind message hmem
    rcases round.contributions_spec kind with ⟨kept, heq, hkept, -⟩
    rw [heq] at hmem
    rcases mem_map.mp hmem with ⟨e, he, rfl⟩
    rw [(h.slot_of_retained (hkept e he).2).1, (hkept e he).1]
    rfl
  have hpreC : ∀ message ∈ (if round.hasAnyPreCommit index then
      round.contributions .preCommit else []), (kindOf message).map slotKind = some .preCommit := by
    intro message hmem
    split at hmem
    · exact hcont .preCommit message hmem
    · cases hmem
  have hcomm : ∀ message ∈ (if round.hasAnyCommit index then
      round.contributions .commit else []), (kindOf message).map slotKind = some .commit := by
    intro message hmem
    split at hmem
    · exact hcont .commit message hmem
    · cases hmem
  rw [compacted, pairwise_append, pairwise_append, pairwise_append]
  refine ⟨⟨⟨hrd.pairwise_preparations h, h.pairwise_changeViews, ?_⟩, ?_, ?_⟩, ?_, ?_⟩
  · intro a h1 b h2
    exact apart_of_slots (hprep a h1) (hchan b h2) (by decide)
  · split
    · exact h.pairwise_contributions .preCommit
    · exact List.Pairwise.nil
  · intro a h1 b h2
    rcases mem_append.mp h1 with h1 | h1
    · exact apart_of_slots (hprep a h1) (hpreC b h2) (by decide)
    · exact apart_of_slots (hchan a h1) (hpreC b h2) (by decide)
  · split
    · exact h.pairwise_contributions .commit
    · exact List.Pairwise.nil
  · intro a h1 b h2
    rcases mem_append.mp h1 with h1 | h1
    · rcases mem_append.mp h1 with h1 | h1
      · exact apart_of_slots (hprep a h1) (hcomm b h2) (by decide)
      · exact apart_of_slots (hchan a h1) (hcomm b h2) (by decide)
    · exact apart_of_slots (hpreC a h1) (hcomm b h2) (by decide)

/-- What a recoverable round compacts is rebuilt exactly. -/
theorem Recoverable.compactable (hrd : round.Recoverable index) (h : Consistent round)
    (hreas : round.ReasonsUnique index) :
    ∃ hash, Compactable round.height round.currentView round.validators.accounts hash
      (round.compacted index) := by
  rcases hrd.hash with ⟨hash, hhash⟩
  refine ⟨hash, ?_, hrd.pairwise h⟩
  intro message hmem
  rcases mem_compacted hmem with ⟨key, hget, hsl⟩
  rcases h.retained key message hget with ⟨data, p, ha, rfl⟩
  have htype : p.messageType = data.key.kind := ha.kind_eq
  refine ⟨data, p, ⟨ha.witness, hrd.start message hmem, ha.last, ha.data_eq,
    ha.payload_eq, ha.sender⟩, ?_⟩
  rw [← htype] at hsl
  cases p with
  | prepareRequest req =>
    rcases hsl with ⟨hprep, hv, -⟩ | ⟨-, hk⟩ | ⟨hk, -⟩ | hk
    · have hprim := (hrd.proposal_of h hprep hget ha.bodyOf_eq).1
      exact ⟨hv, hprim, (hhash message hprep).1 req ha.bodyOf_eq⟩
    · cases hk
    · cases hk
    · cases hk
  | prepareResponse resp =>
    rcases hsl with ⟨hprep, hv, -⟩ | ⟨-, hk⟩ | ⟨hk, -⟩ | hk
    · refine ⟨hv, ?_, (hhash message hprep).2 resp ha.bodyOf_eq⟩
      intro hprim
      exact hrd.response message hprep resp ha.bodyOf_eq
        ⟨data, ha.data_eq, hprim⟩
    · cases hk
    · cases hk
    · cases hk
  | changeView body => exact hreas message hmem data body ha.data_eq ha.payload_eq
  | preCommit body => trivial
  | commit body => trivial
  | recoveryRequest body =>
    rcases hsl with ⟨-, -, hk⟩ | ⟨-, hk⟩ | ⟨hk, -⟩ | hk <;> cases hk
  | recoveryMessage body =>
    rcases hsl with ⟨-, -, hk⟩ | ⟨-, hk⟩ | ⟨hk, -⟩ | hk <;> cases hk

end Compacted

/-! ## Assembling the recovery message -/

/-- Compactable messages are added one after the other. -/
theorem addMessages_accumulated {height : UInt64} {view : UInt8} {vals : List Address} {hash : B256}
    {rec : DbftRecoveryMessage} {earlier messages : List DbftMessage}
    (h : Accumulated height view vals hash rec earlier)
    (hms : Compactable height view vals hash (earlier ++ messages)) :
    ∃ final, addMessages rec messages = .ok final ∧
      Accumulated height view vals hash final (earlier ++ messages) := by
  induction messages generalizing rec earlier with
  | nil => exact ⟨rec, rfl, by rwa [append_nil]⟩
  | cons message messages ih =>
    have hmem : message ∈ earlier ++ message :: messages := by simp
    rcases hms.fits message hmem with ⟨data, p, hm, hfits⟩
    have hapart : ∀ o ∈ earlier, Apart o message := fun o ho =>
      (pairwise_append.mp hms.apart).2.2 o ho message mem_cons_self
    rcases h.addMessage hm hfits hapart with ⟨next, hadd, hn⟩
    have hsplit : earlier ++ message :: messages = (earlier ++ [message]) ++ messages := by simp
    rw [hsplit] at hms ⊢
    rcases ih hn hms with ⟨final, hfinal, haccu⟩
    refine ⟨final, ?_, haccu⟩
    rw [addMessages, hadd]
    exact hfinal

theorem Recoverable.recoveryMessage {round : DbftRoundState} {index : UInt8} {hash : B256}
    (hms : Compactable round.height round.currentView round.validators.accounts hash
      (round.compacted index)) :
    ∃ rec, round.recoveryMessage index = .ok rec ∧
      Accumulated round.height round.currentView round.validators.accounts hash rec
        (round.compacted index) :=
  addMessages_accumulated accumulated_new hms

/-- A message in which a validator sends its recovery message. -/
structure SignedRecovery (round : DbftRoundState) (index : UInt8) (recovery : DbftRecoveryMessage)
    (outer : DbftMessage) : Prop where
  data_eq : outer.data = DbftConsensusData.codec.encode ⟨.recoveryMessage, round.height, index,
    round.currentView, DbftRecoveryMessage.codec.encode recovery⟩
  size : outer.data.length < 2 ^ 64
  start : outer.validBlockStart ≤ round.height
  last : outer.validBlockEnd = round.height
  sender : round.validators.accounts[index.toNat]? = some outer.sender
  witness : outer.verifyWitness = .ok outer.hash

end DbftRoundState
end NeoX
