import NeoX.Validator.Recovery

/-!
# Catching up with a later view

A recovery message that is ahead of the receiver carries the change views out of
the view before the sender's current one. They are requests for one view, so the
receiver reaches it exactly when a quorum has asked for it, counting what the
receiver knows already.

Main results:

- `recovery_catchesUp`: when a recovery message raises the receiver to the sender's
  view.
- `recovery_leavesBehind`: a sender whose quorum also asked for a later view leaves
  the receiver behind.
-/

namespace NeoX

open List
open Except hiding ok error
namespace DbftRoundState

section CatchUp

variable [Crypto]

/-! ## Replaying change views -/

omit [Crypto] in
/-- A change view with a target is never refused. -/
theorem applyChangeView_isOk (round : DbftRoundState) (msg : DbftMessage) {data : DbftConsensusData}
    (hv : data.viewNumber ≠ 255) :
    ∃ progress, (round.applyChangeView msg data).1 = .ok progress := by
  unfold applyChangeView
  rw [if_neg hv]
  dsimp only
  split
  · exact ⟨_, rfl⟩
  · split
    · exact ⟨_, rfl⟩
    · split
      · exact ⟨_, rfl⟩
      · exact ⟨_, rfl⟩

/-- A state that differs in the change views and in the current view only. -/
structure Polled (round next : DbftRoundState) (cast : List (UInt8 × ℕ)) : Prop where
  sound : Sound next
  keeps : Keeps round next
  messages : ∀ key, viewBound key.kind = true →
    next.messages.lookup key = round.messages.lookup key
  tally : next.tally = round.tally.run round.quorum cast

variable {round : DbftRoundState}

/-- A signed change view with a target is accepted and cast. -/
theorem Sound.processDirect_changeView (h : Sound round) {msg : DbftMessage}
    {data : DbftConsensusData} {body : DbftChangeView}
    (ha : round.Authentic msg data (.changeView body)) (hv : data.viewNumber ≠ 255) :
    ∃ progress next, round.processDirect msg = (.ok progress, next) ∧
      Polled round next [(data.validatorIndex, data.viewNumber.toNat + 1)] := by
  have hk : data.messageType = .changeView := ha.kind_eq.symm
  have hauth : round.authenticate msg = .ok (data, .changeView body) := by
    refine authenticate_eq_ok.mpr ⟨ha, ?_⟩
    rw [viewAllowed, hk]
  have hprior : round.priorHash data = none := by
    rw [priorHash, hk]
    rfl
  have hvotes := votesOnly_applyPayload (round.record msg data) msg data (.changeView body)
  rcases (round.record msg data).applyChangeView_isOk msg hv with ⟨progress, hprog⟩
  rw [processDirect_fresh hauth hprior (by rintro rec ⟨⟩)]
  refine ⟨progress, _, Prod.ext hprog rfl, h.recordApply hauth hprior,
    (h.consistent.keeps_record hprior).trans hvotes.keeps, ?_, ?_⟩
  · intro key hb
    rw [hvotes.messages]
    apply AList.lookup_insert_ne
    rintro rfl
    rw [DbftConsensusData.key, hk] at hb
    cases hb
  · exact tally_applyChangeView (round.record msg data) msg hv

/-- Signed change views with a target are accepted and cast. -/
theorem Sound.replayRecovered_changeViews (h : Sound round) {msgs : List DbftMessage} (view : UInt8)
    (r : DbftRoundProgress) (hms : ∀ msg ∈ msgs, ∃ data body,
      round.Authentic msg data (.changeView body) ∧ data.viewNumber ≠ 255) :
    ∃ progress next cast, replayRecovered view true round r msgs = .ok (progress, next) ∧
      Polled round next cast ∧
      ∀ ballot, ballot ∈ cast ↔ ∃ msg ∈ msgs, ∃ data, msg.consensusData = .ok data ∧
        ballot = (data.validatorIndex, data.viewNumber.toNat + 1) := by
  induction msgs generalizing round r with
  | nil =>
    exact ⟨r, round, [], rfl, ⟨h, Keeps.refl round, fun _ _ => rfl, rfl⟩, by simp⟩
  | cons msg msgs ih =>
    rcases hms msg mem_cons_self with ⟨data, body, ha, hv⟩
    rcases h.processDirect_changeView ha hv with ⟨progress, next, hproc, hn⟩
    have hr : ∀ o ∈ msgs, ∃ data body,
        next.Authentic o data (.changeView body) ∧ data.viewNumber ≠ 255 := by
      intro o ho
      rcases hms o (mem_cons_of_mem _ ho) with ⟨found, found', hf, hne⟩
      exact ⟨found, found', hf.mono hn.keeps.extended, hne⟩
    rcases ih hn.sound (laterProgress r progress) hr with
      ⟨final, last, cast, hreplay, hl, hcast⟩
    have hk : data.messageType = .changeView := ha.kind_eq.symm
    refine ⟨final, last, (data.validatorIndex, data.viewNumber.toNat + 1) :: cast, ?_, ?_, ?_⟩
    · rw [replayRecovered, ha.data_eq]
      simp only [mapError_ok, ok_bind]
      rw [hk, shouldProcess, if_pos rfl, hproc]
      exact hreplay
    · refine ⟨hl.sound, hn.keeps.trans hl.keeps, ?_, ?_⟩
      · intro key hb
        rw [hl.messages key hb, hn.messages key hb]
      · rw [hl.tally, hn.tally, hn.keeps.extended.quorum]
        rfl
    · intro ballot
      rw [mem_cons, hcast ballot]
      constructor
      · rintro (rfl | ⟨o, ho, hballot⟩)
        · exact ⟨msg, mem_cons_self, data, ha.data_eq, rfl⟩
        · exact ⟨o, mem_cons_of_mem _ ho, hballot⟩
      · rintro ⟨o, ho, found, hf, rfl⟩
        rcases mem_cons.mp ho with rfl | ho
        · rw [ha.data_eq] at hf
          cases hf
          exact Or.inl rfl
        · exact Or.inr ⟨o, ho, found, hf, rfl⟩

/-- Messages of a view are left out while the receiver is behind the recovery message. -/
theorem replayRecovered_behind {view : UInt8} (hbehind : round.currentView < view)
    {msgs : List DbftMessage}
    (hb : ∀ msg ∈ msgs, ∃ kind, kindOf msg = some kind ∧ viewBound kind = true)
    (recoverChangeViews : Bool) (r : DbftRoundProgress) :
    replayRecovered view recoverChangeViews round r msgs = .ok (r, round) := by
  have hskip : ∀ kind, viewBound kind = true →
      shouldProcess view recoverChangeViews round.currentView kind = false := by
    have hne : view ≠ round.currentView := (UInt8.ne_of_lt hbehind).symm
    intro kind hk
    cases kind with
    | prepareRequest => exact decide_eq_false hne
    | prepareResponse => exact decide_eq_false hne
    | preCommit => exact decide_eq_false (UInt8.not_le.mpr hbehind)
    | commit => exact decide_eq_false (UInt8.not_le.mpr hbehind)
    | changeView => cases hk
    | recoveryRequest => cases hk
    | recoveryMessage => cases hk
  induction msgs with
  | nil => rfl
  | cons msg msgs ih =>
    rcases hb msg mem_cons_self with ⟨kind, hk, hm⟩
    rw [replayRecovered]
    cases hd : msg.consensusData with
    | error error => simp [kindOf, hd, Except.toOption] at hk
    | ok data =>
      rw [kindOf_eq hd] at hk
      simp only [mapError_ok, ok_bind]
      rw [Option.some.inj hk, hskip kind hm, if_neg Bool.false_ne_true]
      exact ih fun o ho => hb o (mem_cons_of_mem _ ho)

/-! ## The carried change views -/

theorem mem_carried (h : Consistent round) {index : UInt8} {msg : DbftMessage} :
    msg ∈ ofKind .changeView (round.compacted index) ↔ msg ∈ round.previousChangeViews := by
  rw [mem_ofKind]
  constructor
  · rintro ⟨hmem, hk⟩
    rcases mem_compacted hmem with ⟨key, hget, hsl⟩
    rw [(h.slot_of_retained hget).1] at hk
    have hkey := Option.some.inj hk
    rw [hkey] at hsl
    rcases hsl with ⟨-, -, ho⟩ | ⟨hcarr, -⟩ | ⟨ho, -⟩ | ho
    · cases ho
    · exact hcarr
    · cases ho
    · cases ho
  · intro hcarr
    have hmem : msg ∈ round.compacted index := by
      simp only [compacted, mem_append]
      exact Or.inl (Or.inl (Or.inr hcarr))
    refine ⟨hmem, ?_⟩
    rw [previousChangeViews] at hcarr
    split at hcarr
    · cases hcarr
    · rcases mem_retainedBy.mp hcarr with ⟨key, htest, hget⟩
      simp only [Bool.and_eq_true, decide_eq_true_eq] at htest
      rw [(h.slot_of_retained hget).1, htest.2]

/-- Carried change views ask for the current view of the sender. -/
theorem carried_spec (h : Consistent round) {msg : DbftMessage}
    (hmem : msg ∈ round.previousChangeViews) :
    ∃ data body, round.Authentic msg data (.changeView body) ∧ data.viewNumber ≠ 255 ∧
      data.viewNumber.toNat + 1 = round.currentView.toNat := by
  rw [previousChangeViews] at hmem
  split at hmem
  · cases hmem
  · rename_i h0
    rcases mem_retainedBy.mp hmem with ⟨key, htest, hget⟩
    simp only [Bool.and_eq_true, decide_eq_true_eq] at htest
    rcases h.retained key msg hget with ⟨data, p, ha, rfl⟩
    have hk : data.messageType = .changeView := htest.2
    have hv : data.viewNumber = round.currentView - 1 := htest.1
    have htype := ha.kind_eq
    rw [hk] at htype
    cases p with
    | changeView body =>
      have hpos : 1 ≤ round.currentView.toNat := by
        refine Nat.one_le_iff_ne_zero.mpr fun heq => h0 ?_
        exact UInt8.toNat.inj (heq.trans rfl)
      have hnum : data.viewNumber.toNat + 1 = round.currentView.toNat := by
        have hle : (1 : UInt8) ≤ round.currentView := UInt8.le_iff_toNat_le.mpr hpos
        rw [hv, UInt8.toNat_sub_of_le _ _ hle]
        exact Nat.sub_add_cancel hpos
      refine ⟨data, body, ha, ?_, hnum⟩
      intro hl
      have hlt := round.currentView.toNat_lt
      rw [hl] at hnum
      change 255 + 1 = _ at hnum
      omega
    | _ => cases htype

/--
The receiver and the change views that the sender retained out of the view before its current one
make up a quorum for this view, and one of them is not below a later request that the receiver
knows from its validator.
-/
structure CatchesUp (receiver sender : DbftRoundState) : Prop where
  registers : ∃ message ∈ sender.previousChangeViews, ∃ index, HasIndex message index ∧
    ∀ latest, receiver.changeViews.lookup index = some latest → latest.1 ≤ sender.currentView
  quorum : ∃ voters : Finset UInt8, receiver.quorum ≤ voters.card ∧ ∀ index ∈ voters,
    (∃ latest, receiver.changeViews.lookup index = some latest ∧ sender.currentView ≤ latest.1) ∨
      ∃ message ∈ sender.previousChangeViews, HasIndex message index

/-- Casting the carried change views reaches the sender's view exactly when the receiver catches
up. -/
theorem catchesUp_iff {sender receiver : DbftRoundState} (hsd : Consistent sender)
    (hv : receiver.currentView < sender.currentView) {cast : List (UInt8 × ℕ)}
    (hcast : ∀ ballot, ballot ∈ cast ↔ ∃ msg ∈ sender.previousChangeViews, ∃ data,
      msg.consensusData = .ok data ∧
        ballot = (data.validatorIndex, data.viewNumber.toNat + 1)) :
    sender.currentView.toNat ≤ (receiver.tally.run receiver.quorum cast).current ↔
      CatchesUp receiver sender := by
  have hpos : 0 < sender.currentView.toNat :=
    Nat.zero_lt_of_lt (UInt8.lt_iff_toNat_lt.mp hv)
  have hballot : ∀ ballot, ballot ∈ cast ↔ ∃ msg ∈ sender.previousChangeViews,
      HasIndex msg ballot.1 ∧ ballot.2 = sender.currentView.toNat := by
    intro ballot
    rw [hcast ballot]
    constructor
    · rintro ⟨msg, hmem, data, hd, rfl⟩
      rcases carried_spec hsd hmem with ⟨found, _, ha, -, hnum⟩
      rw [ha.data_eq] at hd
      cases hd
      exact ⟨msg, hmem, ⟨_, ha.data_eq, rfl⟩, hnum⟩
    · rintro ⟨msg, hmem, ⟨data, hd, hi⟩, hlevel⟩
      rcases carried_spec hsd hmem with ⟨found, _, ha, -, hnum⟩
      rw [ha.data_eq] at hd
      cases hd
      exact ⟨msg, hmem, _, ha.data_eq, Prod.ext hi.symm (hlevel.trans hnum.symm)⟩
  have hlatest : ∀ i, receiver.tally.latest i ≤ sender.currentView.toNat ↔
      ∀ latest, receiver.changeViews.lookup i = some latest →
        latest.1 ≤ sender.currentView := by
    intro i
    simp only [tally, latestTarget]
    cases receiver.changeViews.lookup i with
    | none => simp
    | some latest => simp [UInt8.le_iff_toNat_le]
  have hreac : ∀ i, sender.currentView.toNat ≤ receiver.tally.latest i ↔
      ∃ latest, receiver.changeViews.lookup i = some latest ∧
        sender.currentView ≤ latest.1 := by
    intro i
    simp only [tally, latestTarget]
    cases receiver.changeViews.lookup i with
    | none => simpa using Nat.ne_of_gt hpos
    | some latest => simp [UInt8.le_iff_toNat_le]
  rw [Tally.current_run_of_level (UInt8.lt_iff_toNat_lt.mp hv) fun ballot hmem =>
    ((hballot ballot).mp hmem).elim fun _ h => h.2.2]
  constructor
  · rintro ⟨⟨ballot, hmem, hle⟩, hq⟩
    rcases (hballot ballot).mp hmem with ⟨msg, hm, hi, -⟩
    refine ⟨⟨msg, hm, ballot.1, hi, (hlatest _).mp hle⟩, _, hq, ?_⟩
    intro i hasked
    rcases Tally.mem_asked.mp hasked with hknown | ⟨o, ho, rfl, -⟩
    · exact Or.inl ((hreac i).mp hknown)
    · rcases (hballot o).mp ho with ⟨carried, hcarr, hindex', -⟩
      exact Or.inr ⟨carried, hcarr, hindex'⟩
  · rintro ⟨⟨msg, hm, i, hi, hle⟩, voters, hq, hvoters⟩
    have hmem : (i, sender.currentView.toNat) ∈ cast :=
      (hballot _).mpr ⟨msg, hm, hi, rfl⟩
    refine ⟨⟨_, hmem, (hlatest i).mpr hle⟩, hq.trans (Finset.card_le_card ?_)⟩
    intro voter hvoter
    rw [Tally.mem_asked]
    rcases hvoters voter hvoter with hknown | ⟨carried, hcarr, hindex'⟩
    · exact Or.inl ((hreac voter).mpr hknown)
    · exact Or.inr ⟨(voter, sender.currentView.toNat),
        (hballot _).mpr ⟨carried, hcarr, hindex', rfl⟩, rfl, le_rfl⟩

/-! ## Processing a recovery message that is ahead -/

/-- A receptive receiver that is behind a recoverable sender reaches its view exactly when it
catches up. -/
theorem Recoverable.process_catchesUp {sender receiver : DbftRoundState} {i : UInt8}
    (hsd : Consistent sender) (hrece : Sound receiver) (hrd : sender.Recoverable i)
    (hreas : sender.ReasonsUnique i) (hsett : SameSetting sender receiver)
    (hv : receiver.currentView < sender.currentView)
    (hrecep : receiver.Receptive (sender.compacted i)) :
    ∃ rec, sender.recoveryMessage i = .ok rec ∧
      ∀ outer, sender.SignedRecovery i rec outer →
        (sender.currentView ≤ (receiver.process outer).2.currentView ↔
          CatchesUp receiver sender) := by
  rcases hrd.compactable hsd hreas with ⟨hash, hms⟩
  rcases Recoverable.recoveryMessage hms with ⟨rec, hasm, hrecv⟩
  refine ⟨rec, hasm, ?_⟩
  intro outer houter
  have ha := houter.authenticate hsett hms hrecv
  have hproc := houter.process hsett hms hrecv
  have hahead : decide (receiver.currentView < sender.currentView) = true := decide_eq_true hv
  rw [hproc, hahead, regrouped_eq, replayRecovered_append]
  -- The round that stores the rec msg has the tally of the receiver.
  have hstored : Sound (receiver.storeRecovery (sender.recoveryData i rec) outer) :=
    hrece.keepRecovery ha
  have hkeeps : Keeps receiver (receiver.storeRecovery (sender.recoveryData i rec) outer) :=
    keeps_keepRecovery ha
  have hstor := hrecep.mono hkeeps (lookup_keepRecovery rfl)
  have htally : (receiver.storeRecovery (sender.recoveryData i rec) outer).tally
      = receiver.tally := rfl
  generalize receiver.storeRecovery (sender.recoveryData i rec) outer = stored at *
  have hcarr : ∀ msg ∈ ofKind .changeView (sender.compacted i), ∃ data body,
      stored.Authentic msg data (.changeView body) ∧ data.viewNumber ≠ 255 := by
    intro msg hmem
    rcases carried_spec hsd ((mem_carried hsd).mp hmem) with ⟨data, body, ha, hne, -⟩
    exact ⟨data, body, (hsett.trans hkeeps.extended).authentic ha, hne⟩
  rcases hstored.replayRecovered_changeViews sender.currentView .accepted hcarr with
    ⟨progress, next, cast, hreplay, hn, hcast⟩
  simp only [mem_carried hsd] at hcast
  have hiff := catchesUp_iff hsd hv hcast
  have hcur : next.currentView.toNat = (receiver.tally.run receiver.quorum cast).current := by
    rw [← htally, ← hkeeps.extended.quorum, ← hn.tally]
    rfl
  rw [← hcur, ← UInt8.le_iff_toNat_le] at hiff
  rw [← hiff, hreplay]
  simp only [ok_bind]
  by_cases hbehind : next.currentView < sender.currentView
  · rw [replayRecovered_behind hbehind fun msg hmem => (mem_viewMessages.mp hmem).2]
  · have hreac : next.currentView = sender.currentView := by
      apply UInt8.toNat.inj
      rw [hcur]
      have hlevel : ∀ ballot ∈ cast, ballot.2 = sender.currentView.toNat := by
        intro ballot hballot
        rcases (hcast ballot).mp hballot with ⟨msg, hmem, data, hd, rfl⟩
        rcases carried_spec hsd hmem with ⟨found, _, ha, -, hnum⟩
        rw [ha.data_eq] at hd
        cases hd
        exact hnum
      rcases @Tally.below_or_raised _ _ _ _ _ receiver.quorum receiver.tally _
        (UInt8.lt_iff_toNat_lt.mp hv) cast hlevel with hbelow | hraised
      · rw [UInt8.lt_iff_toNat_lt, hcur, hbelow.current] at hbehind
        exact absurd (UInt8.lt_iff_toNat_lt.mp hv) hbehind
      · exact hraised.current
    have hnext := hstor.mono hn.keeps hn.messages
    have hall : ∀ msg ∈ viewMessages (sender.compacted i), ∃ data payload,
        next.ReceptiveTo msg data payload := fun msg hmem =>
      hrd.receptiveTo hsd ((hsett.trans hkeeps.extended).trans hn.keeps.extended)
        hreac hnext hmem
    rcases @Sound.replayRecovered_delivers _ _ hn.sound true _ progress hall
      (pairwise_viewMessages (hrd.pairwise hsd)) with
      ⟨final, last, hdeli, -, hl, -, -, -⟩
    rw [← hreac, hdeli]
    simp only [hl]

/--
For any two rounds of a height, however they were reached, with the receiver behind: a recoverable
sender assembles its recovery message, and a receptive receiver that processes it reaches the
sender's view exactly when it catches up.
-/
theorem recovery_catchesUp (height : UInt64) (validators : ValidatorSet) (antiMev : Bool)
    (sent received : List Operation) (index : UInt8)
    (hround : (Machine.run perform (start height validators antiMev) sent).Recoverable index)
    (hreasons : (Machine.run perform (start height validators antiMev) sent).ReasonsUnique index)
    (hview : (Machine.run perform (start height validators antiMev) received).currentView
      < (Machine.run perform (start height validators antiMev) sent).currentView)
    (hreceptive : (Machine.run perform (start height validators antiMev) received).Receptive
      ((Machine.run perform (start height validators antiMev) sent).compacted index)) :
    ∃ recovery,
      (Machine.run perform (start height validators antiMev) sent).recoveryMessage index
        = .ok recovery ∧
      ∀ outer, (Machine.run perform (start height validators antiMev) sent).SignedRecovery index
          recovery outer →
        ((Machine.run perform (start height validators antiMev) sent).currentView
            ≤ ((Machine.run perform (start height validators antiMev) received).process
              outer).2.currentView ↔
          CatchesUp (Machine.run perform (start height validators antiMev) received)
            (Machine.run perform (start height validators antiMev) sent)) :=
  Recoverable.process_catchesUp (consistent_run height validators antiMev sent)
    (sound_run height validators antiMev received) hround hreasons
    (sameSetting_run height validators antiMev sent received) hview hreceptive

end CatchUp

/-! ### Concrete rounds -/

open Symbolic

/-- The round of one validator that asked for the first view. -/
def movedRound : DbftRoundState :=
  Machine.run perform (start 1 solo false) [.process (changeViewMessage 0 0)]

theorem previousChangeViews_movedRound :
    movedRound.currentView = 1 ∧ movedRound.compacted 0 = [changeViewMessage 0 0] ∧
    movedRound.currentPreparations = [] ∧
    movedRound.previousChangeViews = [changeViewMessage 0 0] ∧
    movedRound.recoveryMessage 0 = .ok (recoveryOf 0 movedRound) := by
  decide +kernel

theorem consensusData_changeViewMessage :
    (changeViewMessage 0 0).consensusData = .ok ⟨.changeView, 1, 0, 0,
      DbftChangeView.codec.encode (DbftChangeView.new 0 .timeout)⟩ ∧
    DbftConsensusData.decodedPayload ⟨.changeView, 1, 0, 0,
      DbftChangeView.codec.encode (DbftChangeView.new 0 .timeout)⟩
        = .ok (.changeView (DbftChangeView.new 0 .timeout)) := by
  decide +kernel

theorem recoverable_movedRound : movedRound.Recoverable 0 := by
  rcases previousChangeViews_movedRound with ⟨-, hcomp, hprep, -⟩
  refine ⟨?_, ?_, ?_, .zero 32, ?_⟩
  · intro msg hmem
    rw [hcomp] at hmem
    rw [mem_singleton.mp hmem]
    rfl
  · intro msg hmem
    rw [hprep] at hmem
    cases hmem
  · intro msg hmem
    rw [hprep] at hmem
    cases hmem
  · intro msg hmem
    rw [hprep] at hmem
    cases hmem

theorem setting_movedRound : movedRound.height = 1 ∧ movedRound.validators = solo := by
  have hext := (consistent_start 1 solo false).extends_run [.process (changeViewMessage 0 0)]
  exact ⟨hext.height, hext.validators⟩

theorem reasonsUnique_movedRound : movedRound.ReasonsUnique 0 := by
  intro msg hmem data body hd hb reason hreason
  rw [previousChangeViews_movedRound.2.1] at hmem
  rw [mem_singleton.mp hmem] at hd hreason
  rw [consensusData_changeViewMessage.1] at hd
  cases hd
  rw [consensusData_changeViewMessage.2] at hb
  cases hb
  have hall : ∀ o ∈ DbftChangeViewReason.all,
      (changeViewCandidate 1 solo.accounts ⟨0, 0, 0, (changeViewMessage 0 0).witness⟩
        o).verifyWitness.isOk = true →
      (DbftChangeView.new 0 .timeout).reasonByte = o.toByte := by
    decide +kernel
  rw [setting_movedRound.1, setting_movedRound.2] at hreason
  exact hall reason (DbftChangeViewReason.mem_all reason) hreason

/-- One validator that asked for the first view takes a round along in which nothing has
happened. -/
theorem recovery_catchesUp_solo :
    movedRound.currentView
      ≤ ((start 1 solo false).process (recoveryOuter 0 movedRound)).2.currentView := by
  have hreceptive : (start 1 solo false).Receptive (movedRound.compacted 0) := by
    have hbody : ∀ message ∈ movedRound.compacted 0, ∀ data payload,
        message.consensusData = .ok data → data.decodedPayload = .ok payload →
        payload = .changeView (DbftChangeView.new 0 .timeout) := by
      intro message hmem data payload hdata hpayload
      rw [previousChangeViews_movedRound.2.1] at hmem
      rw [List.mem_singleton.mp hmem, consensusData_changeViewMessage.1] at hdata
      cases hdata
      rw [consensusData_changeViewMessage.2] at hpayload
      exact (Except.ok.inj hpayload).symm
    refine ⟨fun _ _ _ _ _ => Or.inl rfl, ?_, ?_⟩
    · intro message hmem data body hdata hpayload
      cases hbody message hmem data _ hdata hpayload
    · intro message hmem data body hdata hpayload
      cases hbody message hmem data _ hdata hpayload
  rcases recovery_catchesUp 1 solo false [.process (changeViewMessage 0 0)] [] 0
    recoverable_movedRound reasonsUnique_movedRound (by decide +kernel) hreceptive with
    ⟨recovery, hrecovery, hcatchesUp⟩
  have hsame : recovery = recoveryOf 0 movedRound :=
    Except.ok.inj (hrecovery.symm.trans previousChangeViews_movedRound.2.2.2.2)
  rw [hsame, Machine.run_nil] at hcatchesUp
  refine (hcatchesUp (recoveryOuter 0 movedRound) ?_).mpr ⟨?_, {0}, ?_, ?_⟩
  · exact signedRecovery_outer (by decide +kernel) (by decide +kernel) (by decide +kernel)
      (by decide +kernel)
  · refine ⟨changeViewMessage 0 0, ?_, 0, ⟨_, consensusData_changeViewMessage.1, rfl⟩, ?_⟩
    · change _ ∈ movedRound.previousChangeViews
      rw [previousChangeViews_movedRound.2.2.2.1]
      exact List.mem_singleton_self _
    · intro latest hlookup
      cases hlookup
  · decide +kernel
  · intro index hindex
    rw [Finset.mem_singleton.mp hindex]
    refine Or.inr ⟨changeViewMessage 0 0, ?_, _, consensusData_changeViewMessage.1, rfl⟩
    change _ ∈ movedRound.previousChangeViews
    rw [previousChangeViews_movedRound.2.2.2.1]
    exact List.mem_singleton_self _

/-- A sender that reached the first view with two requests for it and one for the second. -/
def aheadRound : DbftRoundState :=
  processed [changeViewMessage 2 1, changeViewMessage 0 0, changeViewMessage 1 0]

/-- The request for the second view counted for the first, but is not carried, so that a round in
which nothing has happened stays behind. -/
theorem recovery_leavesBehind :
    aheadRound.currentView = 1 ∧
    aheadRound.recoveryMessage 0 = .ok (recoveryOf 0 aheadRound) ∧
    aheadRound.SignedRecovery 0 (recoveryOf 0 aheadRound) (recoveryOuter 0 aheadRound) ∧
    ((processed []).process (recoveryOuter 0 aheadRound)).1 = .ok .accepted ∧
    ((processed []).process (recoveryOuter 0 aheadRound)).2.currentView = 0 := by
  refine ⟨by decide +kernel, by decide +kernel, ?_, by decide +kernel, by decide +kernel⟩
  exact signedRecovery_outer (by decide +kernel) (by decide +kernel) (by decide +kernel)
    (by decide +kernel)

end DbftRoundState
end NeoX
