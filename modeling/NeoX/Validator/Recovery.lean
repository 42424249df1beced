import NeoX.Validator.ChangeViews
import NeoX.Validator.Recoverable
import NeoX.Validator.Replay

/-!
# Recovery between two rounds

A recovery message of one round is replayed by another round of the same height. What
the compact form cannot express makes the receiver refuse all of it, and so does one
entry that contradicts a message of the receiver.

Main results:

- `Recoverable.receptiveTo`: a receptive round takes every compacted message of its
  view.
- `recovery_delivers`: the recovery message of a recoverable round delivers
  what it carries.
- `recovery_survives`: so it does between rounds that only processed messages.
- `recovery_stalls`: one response to another proposal stalls recovery.
- `recovery_refused`: one validator that answers twice stalls recovery.
-/

namespace NeoX

open List
open Except hiding ok error
namespace DbftRoundState

variable {round : DbftRoundState}

section Recovery

variable [Crypto]

/-! ## The order of a replay -/

/-- The messages of a recovery that belong to a view, in the order of their replay. -/
def viewMessages (messages : List DbftMessage) : List DbftMessage :=
  ofKind .prepareRequest messages ++ ofKind .prepareResponse messages ++
    ofKind .preCommit messages ++ ofKind .commit messages

omit [Crypto] in
theorem regrouped_eq (messages : List DbftMessage) :
    regrouped messages = ofKind .changeView messages ++ viewMessages messages := by
  simp [regrouped, viewMessages]

variable {messages : List DbftMessage} {message : DbftMessage}

omit [Crypto] in
theorem mem_ofKind {kind : DbftMessageType} :
    message ∈ ofKind kind messages ↔ message ∈ messages ∧ kindOf message = some kind := by
  simp [ofKind]

omit [Crypto] in
theorem mem_viewMessages :
    message ∈ viewMessages messages ↔
      message ∈ messages ∧ ∃ kind, kindOf message = some kind ∧ viewBound kind = true := by
  simp only [viewMessages, mem_append, mem_ofKind]
  constructor
  · rintro (((⟨hmem, hk⟩ | ⟨hmem, hk⟩) | ⟨hmem, hk⟩) | ⟨hmem, hk⟩) <;>
      exact ⟨hmem, _, hk, rfl⟩
  · rintro ⟨hmem, kind, hk, hb⟩
    cases kind <;> first | cases hb; done | simp [hmem, hk]

omit [Crypto] in
theorem differentSlots_of_kind {a b : DbftMessage} {kind o : DbftMessageType}
    (h1 : kindOf a = some kind) (h2 : kindOf b = some o)
    (hne : kind ≠ o) : DifferentSlots a b := by
  intro data found hd hf hkey
  rw [kindOf_eq hd] at h1
  rw [kindOf_eq hf] at h2
  apply hne
  rw [← Option.some.inj h1, ← Option.some.inj h2]
  exact congrArg MessageKey.kind hkey

omit [Crypto] in
theorem pairwise_ofKind (h : messages.Pairwise Apart) (kind : DbftMessageType) :
    (ofKind kind messages).Pairwise DifferentSlots := by
  refine (h.sublist filter_sublist).imp_of_mem ?_
  intro a b h1 h2 hapart data found hd hf hkey
  have hsame : kindOf a = kindOf b :=
    (mem_ofKind.mp h1).2.trans (mem_ofKind.mp h2).2.symm
  refine hapart (by rw [hsame]) data.validatorIndex ⟨data, hd, rfl⟩ ⟨found, hf, ?_⟩
  exact (congrArg MessageKey.index hkey).symm

omit [Crypto] in
theorem pairwise_viewMessages (h : messages.Pairwise Apart) :
    (viewMessages messages).Pairwise DifferentSlots := by
  have hcross : ∀ {kind o : DbftMessageType}, kind ≠ o →
      ∀ a ∈ ofKind kind messages, ∀ b ∈ ofKind o messages,
        DifferentSlots a b := by
    intro kind o hne a h1 b h2
    exact differentSlots_of_kind (mem_ofKind.mp h1).2 (mem_ofKind.mp h2).2 hne
  rw [viewMessages, pairwise_append, pairwise_append, pairwise_append]
  refine ⟨⟨⟨pairwise_ofKind h _, pairwise_ofKind h _, hcross (by decide)⟩,
    pairwise_ofKind h _, ?_⟩, pairwise_ofKind h _, ?_⟩
  · intro a h1
    rcases mem_append.mp h1 with h1 | h1
    · exact hcross (by decide) a h1
    · exact hcross (by decide) a h1
  · intro a h1
    rcases mem_append.mp h1 with h1 | h1
    · rcases mem_append.mp h1 with h1 | h1
      · exact hcross (by decide) a h1
      · exact hcross (by decide) a h1
    · exact hcross (by decide) a h1

/-! ## The receiving round -/

/--
A round that can take over the messages of a recovery: it has seen no other message in their slots,
its Envelope counts leave room for their shares, and it can check their commits.
-/
structure Receptive (round : DbftRoundState) (messages : List DbftMessage) : Prop where
  unopposed : ∀ message ∈ messages, ∀ data, message.consensusData = .ok data →
    viewBound data.messageType = true →
      round.messages.lookup data.key = none ∨ round.messages.lookup data.key = some message
  shares : ∀ message ∈ messages, ∀ data body, message.consensusData = .ok data →
    data.decodedPayload = .ok (.preCommit body) →
      ∀ limit, round.envelopeCount data.viewNumber = some limit → body.shareCount ≤ limit
  checkable : ∀ message ∈ messages, ∀ data body, message.consensusData = .ok data →
    data.decodedPayload = .ok (.commit body) → round.CommitsCheckable data.viewNumber

variable {next : DbftRoundState}

theorem Receptive.mono (h : round.Receptive messages) (hkeeps : Keeps round next)
    (hms : ∀ key, viewBound key.kind = true →
      next.messages.lookup key = round.messages.lookup key) : next.Receptive messages where
  unopposed message hmem data hd hbound := by
    rw [hms _ hbound]
    exact h.unopposed message hmem data hd hbound
  shares message hmem data body hd hb limit hlim := by
    rw [hkeeps.envelopeCount] at hlim
    exact h.shares message hmem data body hd hb limit hlim
  checkable message hmem data body hd hb :=
    (h.checkable message hmem data body hd hb).mono hkeeps

/-- Two rounds of the same height, validators and mode. -/
structure SameSetting (sender receiver : DbftRoundState) : Prop where
  height : receiver.height = sender.height
  validators : receiver.validators = sender.validators
  antiMev : receiver.antiMev = sender.antiMev

variable {sender receiver : DbftRoundState}

omit [Crypto] in
theorem SameSetting.trans (h : SameSetting sender receiver)
    (hext : Extends receiver next) : SameSetting sender next :=
  ⟨hext.height.trans h.height, hext.validators.trans h.validators,
    hext.antiMev.trans h.antiMev⟩

variable {data : DbftConsensusData}

theorem SameSetting.authentic (h : SameSetting sender receiver) {payload : DbftDecodedPayload}
    (ha : sender.Authentic message data payload) :
    receiver.Authentic message data payload :=
  ⟨ha.witness, h.height ▸ ha.last, h.height ▸ ha.start, ha.data_eq, ha.payload_eq,
    h.validators ▸ ha.sender⟩

omit [Crypto] in
theorem SameSetting.primaryIndex (h : SameSetting sender receiver) (view : UInt8) :
    receiver.primaryIndex view = sender.primaryIndex view := by
  simp [DbftRoundState.primaryIndex, count, h.height, h.validators]

variable {index : UInt8}

theorem Consistent.antiMev_of_hasAnyPreCommit (h : Consistent round)
    (hown : round.hasAnyPreCommit index = true) : round.antiMev = true := by
  rcases any_eq_true.mp hown with ⟨⟨view, s⟩, he, hhas⟩
  rcases FiniteMap.has_iff.mp hhas with ⟨body, hb⟩
  exact ((h.views view s (FiniteMap.mem_toList.mp he)).preCommits index body hb).1

/-- A receptive round in the view of the sender is receptive to every compacted message that
belongs to a view. -/
theorem Recoverable.receptiveTo (hsd : Consistent sender) (hrd : sender.Recoverable index)
    (hsett : SameSetting sender receiver) (hv : receiver.currentView = sender.currentView)
    (hrece : receiver.Receptive (sender.compacted index))
    (hmem : message ∈ viewMessages (sender.compacted index)) :
    ∃ data payload, receiver.ReceptiveTo message data payload := by
  rcases mem_viewMessages.mp hmem with ⟨hmem, kind, hk, hb⟩
  rcases mem_compacted hmem with ⟨key, hget, hsl⟩
  rcases hsd.retained key message hget with ⟨data, payload, ha, rfl⟩
  rw [kindOf_eq ha.data_eq] at hk
  cases hk
  have htype : payload.messageType = data.messageType := ha.kind_eq
  have hle : data.viewNumber ≤ sender.currentView := hsd.view_le _ _ hget hb
  have hkindOf : data.key.kind = payload.messageType := htype.symm
  rw [hkindOf] at hsl
  refine ⟨data, payload, hsett.authentic ha, ?_,
    hrece.unopposed message hmem data ha.data_eq hb, ?_, ?_⟩
  · rw [viewAllowed, hv]
    cases payload with
    | prepareRequest req =>
      rcases hsl with ⟨-, hsame, -⟩ | ⟨-, ho⟩ | ⟨ho, -⟩ | ho
      · rw [← htype]
        exact decide_eq_true hsame
      · cases ho
      · cases ho
      · cases ho
    | prepareResponse resp =>
      rcases hsl with ⟨-, hsame, -⟩ | ⟨-, ho⟩ | ⟨ho, -⟩ | ho
      · rw [← htype]
        exact decide_eq_true hsame
      · cases ho
      · cases ho
      · cases ho
    | preCommit body =>
      rw [← htype]
      exact decide_eq_true hle
    | commit body =>
      rw [← htype]
      exact decide_eq_true hle
    | changeView body => rw [← htype]; rfl
    | recoveryRequest body => rw [← htype]; rfl
    | recoveryMessage body => rw [← htype]; rfl
  · cases payload with
    | prepareRequest req =>
      rcases hsl with ⟨hprep, hsame, -⟩ | ⟨-, ho⟩ | ⟨ho, -⟩ | ho
      · have hcur : data.viewNumber = sender.currentView := hsame
        rw [Countable, hsett.primaryIndex, hsett.height, hcur]
        exact hrd.proposal_of hsd hprep hget ha.bodyOf_eq
      · cases ho
      · cases ho
      · cases ho
    | prepareResponse resp =>
      rcases hsl with ⟨hprep, hsame, -⟩ | ⟨-, ho⟩ | ⟨ho, -⟩ | ho
      · have hcur : data.viewNumber = sender.currentView := hsame
        rw [Countable, hsett.primaryIndex, hcur]
        intro hprim
        exact hrd.response message hprep resp ha.bodyOf_eq
          ⟨data, ha.data_eq, hprim⟩
      · cases ho
      · cases ho
      · cases ho
    | preCommit body =>
      refine ⟨?_, hrece.shares message hmem data body ha.data_eq ha.payload_eq⟩
      rcases hsl with ⟨-, -, ho⟩ | ⟨-, ho⟩ | ⟨-, hown⟩ | ho
      · cases ho
      · cases ho
      · exact hsett.antiMev.trans (hsd.antiMev_of_hasAnyPreCommit hown)
      · cases ho
    | commit body => exact trivial
    | changeView body =>
      rw [← htype] at hb
      cases hb
    | recoveryRequest body =>
      rw [← htype] at hb
      cases hb
    | recoveryMessage body =>
      rw [← htype] at hb
      cases hb
  · rintro body rfl
    exact hrece.checkable message hmem data body ha.data_eq ha.payload_eq

/-! ## Processing a recovery message -/

/-- The inner data of a signed recovery message. -/
def recoveryData (round : DbftRoundState) (index : UInt8) (recovery : DbftRecoveryMessage) :
    DbftConsensusData :=
  ⟨.recoveryMessage, round.height, index, round.currentView,
    DbftRecoveryMessage.codec.encode recovery⟩

def storeRecovery (round : DbftRoundState) (data : DbftConsensusData) (message : DbftMessage) :
    DbftRoundState :=
  { round with messages := round.messages.insert data.key message }

/-- A round of the same setting accepts the signed recovery message. -/
theorem SignedRecovery.authenticate {hash : B256} {rec : DbftRecoveryMessage} {outer : DbftMessage}
    (h : sender.SignedRecovery index rec outer) (hsett : SameSetting sender receiver)
    (hms : Compactable sender.height sender.currentView sender.validators.accounts hash
      (sender.compacted index))
    (hrecv : Accumulated sender.height sender.currentView sender.validators.accounts hash
      rec (sender.compacted index)) :
    receiver.authenticate outer
      = .ok (sender.recoveryData index rec, .recoveryMessage rec) := by
  rcases hrecv.decode_outer hms sender.validators.size_le h.data_eq h.last h.size with
    ⟨hd, hp⟩
  refine authenticate_eq_ok.mpr ⟨⟨h.witness, ?_, ?_, hd, hp, ?_⟩, rfl⟩
  · rw [hsett.height]
    exact h.last
  · rw [hsett.height]
    exact h.start
  · rw [hsett.validators]
    exact h.sender

/-- A signed recovery message is replayed on the round that stores it. -/
theorem SignedRecovery.process {hash : B256} {rec : DbftRecoveryMessage} {outer : DbftMessage}
    (h : sender.SignedRecovery index rec outer) (hsett : SameSetting sender receiver)
    (hms : Compactable sender.height sender.currentView sender.validators.accounts hash
      (sender.compacted index))
    (hrecv : Accumulated sender.height sender.currentView sender.validators.accounts hash
      rec (sender.compacted index)) :
    receiver.process outer =
      match replayRecovered sender.currentView (receiver.currentView < sender.currentView)
          (receiver.storeRecovery (sender.recoveryData index rec) outer) .accepted
          (regrouped (sender.compacted index)) with
      | .error error => (.error error, receiver)
      | .ok (result, next) => (.ok result, next) := by
  rcases hrecv.decode_outer hms sender.validators.size_le h.data_eq h.last h.size with
    ⟨hd, -⟩
  have hexpand : rec.expand outer receiver.validators.accounts
      = .ok (regrouped (sender.compacted index)) := by
    rw [hsett.validators]
    exact hrecv.expand hms hd ⟨sender.validators.nonempty, sender.validators.size_le⟩
  have hprior : receiver.priorHash (sender.recoveryData index rec) = none := rfl
  unfold DbftRoundState.process processWith
  rw [h.authenticate hsett hms hrecv]
  simp only [hprior]
  unfold replayRecovery
  rw [hexpand]
  rfl

/-- A replay of two lists is a replay of the one and then of the other. -/
theorem replayRecovered_append (view : UInt8) (recoverChangeViews : Bool) (a b : List DbftMessage)
    (round : DbftRoundState) (r : DbftRoundProgress) :
    replayRecovered view recoverChangeViews round r (a ++ b)
      = (replayRecovered view recoverChangeViews round r a >>= fun reached =>
        replayRecovered view recoverChangeViews reached.2 reached.1 b) := by
  induction a generalizing round r with
  | nil => rfl
  | cons message a ih =>
    rw [cons_append, replayRecovered, replayRecovered]
    cases hd : message.consensusData.mapError DbftStateError.invalidPayload with
    | error error => rfl
    | ok data =>
      simp only [ok_bind]
      split
      · cases hproc : round.processDirect message with
        | mk outcome next =>
          cases outcome with
          | error error => rfl
          | ok progress => exact ih next _
      · exact ih round r

/-- Change views are left out of the replay of a recovery message that is not ahead. -/
theorem replayRecovered_skip (view : UInt8) (round : DbftRoundState) (r : DbftRoundProgress)
    (hk : ∀ message ∈ messages, kindOf message = some .changeView) :
    replayRecovered view false round r messages = .ok (r, round) := by
  induction messages with
  | nil => rfl
  | cons message messages ih =>
    have hm := hk message mem_cons_self
    rw [replayRecovered]
    cases hd : message.consensusData with
    | error error => simp [kindOf, hd, Except.toOption] at hm
    | ok data =>
      rw [kindOf_eq hd] at hm
      simp only [mapError_ok, ok_bind]
      rw [Option.some.inj hm, shouldProcess, if_neg (by decide)]
      exact ih fun o ho => hk o (mem_cons_of_mem _ ho)

omit [Crypto] in
theorem lookup_keepRecovery (hk : data.messageType = .recoveryMessage) (key : MessageKey)
    (hb : viewBound key.kind = true) :
    (receiver.storeRecovery data message).messages.lookup key = receiver.messages.lookup key := by
  apply AList.lookup_insert_ne
  rintro rfl
  rw [DbftConsensusData.key, hk] at hb
  cases hb

/-- A receptive round in the view of a recoverable sender takes over everything that the sender's
recovery message carries about its view. -/
theorem Recoverable.process_delivers (hsd : Consistent sender) (hrece : Sound receiver)
    (hrd : sender.Recoverable index) (hreas : sender.ReasonsUnique index)
    (hsett : SameSetting sender receiver) (hv : receiver.currentView = sender.currentView)
    (hrecep : receiver.Receptive (sender.compacted index)) :
    ∃ rec, sender.recoveryMessage index = .ok rec ∧
      ∀ outer, sender.SignedRecovery index rec outer →
        ∃ progress next, receiver.process outer = (.ok progress, next) ∧
          ∀ message ∈ viewMessages (sender.compacted index), next.Holds message := by
  rcases hrd.compactable hsd hreas with ⟨hash, hms⟩
  rcases Recoverable.recoveryMessage hms with ⟨rec, hasm, hrecv⟩
  refine ⟨rec, hasm, ?_⟩
  intro outer houter
  have ha := houter.authenticate hsett hms hrecv
  have hstored : Sound (receiver.storeRecovery (sender.recoveryData index rec) outer) :=
    hrece.keepRecovery ha
  have hkeeps : Keeps receiver (receiver.storeRecovery (sender.recoveryData index rec) outer) :=
    keeps_keepRecovery ha
  have hstore : (receiver.storeRecovery (sender.recoveryData index rec) outer).currentView
      = sender.currentView := hv
  have hstor := hrecep.mono hkeeps (lookup_keepRecovery rfl)
  have hproc := houter.process hsett hms hrecv
  generalize receiver.storeRecovery (sender.recoveryData index rec) outer = stored at *
  have hall : ∀ message ∈ viewMessages (sender.compacted index), ∃ data payload,
      stored.ReceptiveTo message data payload := fun message hmem =>
    hrd.receptiveTo hsd (hsett.trans hkeeps.extended) hstore hstor hmem
  rcases @Sound.replayRecovered_delivers _ _ hstored false _ .accepted hall
    (pairwise_viewMessages (hrd.pairwise hsd)) with
    ⟨progress, next, hreplay, -, -, -, hholds, -⟩
  refine ⟨progress, next, ?_, hholds⟩
  have hbehind : decide (receiver.currentView < sender.currentView) = false := by
    rw [hv]
    exact decide_eq_false (UInt8.lt_irrefl _)
  rw [hproc, hbehind, regrouped_eq, replayRecovered_append,
    replayRecovered_skip _ _ _ fun message hmem => (mem_ofKind.mp hmem).2]
  simp only [ok_bind]
  rw [← hstore, hreplay]

/-! ## Rounds reached from their start -/

omit [Crypto] in
theorem envelopeCount_start (height : UInt64) (vals : ValidatorSet) (antiMev : Bool)
    (view : UInt8) : (start height vals antiMev).envelopeCount view = none := by
  cases hs : (start height vals antiMev).views.lookup view with
  | none => simp [envelopeCount, hs]
  | some s => simp [envelopeCount, hs, lookup_views_start hs]

omit [Crypto] in
theorem finalHeader_start (height : UInt64) (vals : ValidatorSet) (antiMev : Bool)
    (view : UInt8) : (start height vals antiMev).finalHeader view = none := by
  cases hs : (start height vals antiMev).views.lookup view with
  | none => simp [finalHeader, hs]
  | some s => simp [finalHeader, hs, lookup_views_start hs]

theorem sameSetting_run (height : UInt64) (vals : ValidatorSet) (antiMev : Bool)
    (sent received : List Operation) :
    SameSetting (Machine.run perform (start height vals antiMev) sent)
      (Machine.run perform (start height vals antiMev) received) := by
  have hst := consistent_start height vals antiMev
  have hsent := hst.extends_run sent
  have hrecv := hst.extends_run received
  exact ⟨hrecv.height.trans hsent.height.symm, hrecv.validators.trans hsent.validators.symm,
    hrecv.antiMev.trans hsent.antiMev.symm⟩

/--
For any two rounds of a height in the same view, however they were reached, a recoverable sender
assembles its recovery message, and a receptive receiver accepts it and then counts every
proposal, response, pre-commit and commit that it carries.
-/
theorem recovery_delivers (height : UInt64) (validators : ValidatorSet) (antiMev : Bool)
    (sent received : List Operation) (index : UInt8)
    (hround : (Machine.run perform (start height validators antiMev) sent).Recoverable index)
    (hreasons : (Machine.run perform (start height validators antiMev) sent).ReasonsUnique index)
    (hview : (Machine.run perform (start height validators antiMev) received).currentView
      = (Machine.run perform (start height validators antiMev) sent).currentView)
    (hreceptive : (Machine.run perform (start height validators antiMev) received).Receptive
      ((Machine.run perform (start height validators antiMev) sent).compacted index)) :
    ∃ recovery,
      (Machine.run perform (start height validators antiMev) sent).recoveryMessage index
        = .ok recovery ∧
      ∀ outer, (Machine.run perform (start height validators antiMev) sent).SignedRecovery index
          recovery outer →
        ∃ progress next,
          (Machine.run perform (start height validators antiMev) received).process outer
            = (.ok progress, next) ∧
          ∀ message ∈ viewMessages
              ((Machine.run perform (start height validators antiMev) sent).compacted index),
            next.Holds message :=
  Recoverable.process_delivers (consistent_run height validators antiMev sent)
    (sound_run height validators antiMev received) hround hreasons
    (sameSetting_run height validators antiMev sent received) hview hreceptive

/--
For any two rounds of a height in the same view that were reached by processing messages, a
recoverable sender and a receiver that holds no other message in the slots of what the sender
compacted: the receiver accepts the sender's recovery message and counts everything it carries.
-/
theorem recovery_survives (height : UInt64) (validators : ValidatorSet) (antiMev : Bool)
    (sent received : List DbftMessage) (index : UInt8)
    (hround : (Machine.run perform (start height validators antiMev)
      (sent.map .process)).Recoverable index)
    (hreasons : (Machine.run perform (start height validators antiMev)
      (sent.map .process)).ReasonsUnique index)
    (hview : (Machine.run perform (start height validators antiMev)
        (received.map .process)).currentView
      = (Machine.run perform (start height validators antiMev) (sent.map .process)).currentView)
    (hunopposed : ∀ message ∈ (Machine.run perform (start height validators antiMev)
        (sent.map .process)).compacted index,
      ∀ data, message.consensusData = .ok data → viewBound data.messageType = true →
        (Machine.run perform (start height validators antiMev)
          (received.map .process)).messages.lookup data.key = none ∨
        (Machine.run perform (start height validators antiMev)
          (received.map .process)).messages.lookup data.key = some message) :
    ∃ recovery,
      (Machine.run perform (start height validators antiMev)
        (sent.map .process)).recoveryMessage index = .ok recovery ∧
      ∀ outer, (Machine.run perform (start height validators antiMev)
          (sent.map .process)).SignedRecovery index recovery outer →
        ∃ progress next,
          (Machine.run perform (start height validators antiMev)
            (received.map .process)).process outer = (.ok progress, next) ∧
          ∀ message ∈ viewMessages ((Machine.run perform (start height validators antiMev)
              (sent.map .process)).compacted index), next.Holds message := by
  have hsetting := sameSetting_run height validators antiMev (sent.map .process)
    (received.map .process)
  have hkeeps := (consistent_start height validators antiMev).keeps_run received
  refine Recoverable.process_delivers (consistent_run height validators antiMev _)
    (sound_run height validators antiMev _) hround hreasons hsetting hview ⟨hunopposed, ?_, ?_⟩
  · -- Processing installs no Envelope count.
    intro _ _ data _ _ _ limit hlimit
    rw [hkeeps.envelopeCount, envelopeCount_start] at hlimit
    cases hlimit
  · intro _ _ data _ _ _ header hheader
    rw [hkeeps.finalHeader, finalHeader_start] at hheader
    cases hheader

end Recovery

/-! ### Rounds of four validators -/

open Symbolic

/-- A response of a validator to a proposal hash. -/
def responseMessage (index : UInt8) (hash : B256) : DbftMessage :=
  signed 1 index 0 .prepareResponse (DbftPrepareResponse.codec.encode ⟨hash⟩)

def recoveryOf (index : UInt8) (round : DbftRoundState) : DbftRecoveryMessage :=
  match round.recoveryMessage index with
  | .error _ => DbftRecoveryMessage.new
  | .ok recovery => recovery

/-- The message in which a validator sends it. -/
def recoveryOuter (index : UInt8) (round : DbftRoundState) : DbftMessage :=
  signed 1 index round.currentView .recoveryMessage
    (DbftRecoveryMessage.codec.encode (recoveryOf index round))

theorem signedRecovery_outer {index : UInt8} (hheight : round.height = 1)
    (hsd : round.validators.accounts[index.toNat]? = some (account index.toNat))
    (hsize : (recoveryOuter index round).data.length < 2 ^ 64)
    (hwitn : (recoveryOuter index round).verifyWitness = .ok (recoveryOuter index round).hash) :
    round.SignedRecovery index (recoveryOf index round) (recoveryOuter index round) := by
  refine ⟨?_, hsize, ?_, ?_, hsd, hwitn⟩
  · rw [hheight]
    rfl
  · rw [hheight]
    exact UInt64.zero_le
  · rw [hheight]
    rfl

/-- Two backups that answer the same proposal. -/
def agreedRound : DbftRoundState :=
  processed [responseMessage 2 (.zero 32), responseMessage 3 (.zero 32)]

theorem compacted_agreedRound :
    agreedRound.compacted 0
      = [responseMessage 2 (.zero 32), responseMessage 3 (.zero 32)] ∧
    agreedRound.currentPreparations
      = [responseMessage 2 (.zero 32), responseMessage 3 (.zero 32)] ∧
    agreedRound.recoveryMessage 0 = .ok (recoveryOf 0 agreedRound) ∧
    agreedRound.primaryIndex agreedRound.currentView = 1 := by
  decide +kernel

theorem consensusData_response :
    (responseMessage 2 (.zero 32)).consensusData = .ok ⟨.prepareResponse, 1, 2, 0,
      DbftPrepareResponse.codec.encode ⟨.zero 32⟩⟩ ∧
    (responseMessage 3 (.zero 32)).consensusData = .ok ⟨.prepareResponse, 1, 3, 0,
      DbftPrepareResponse.codec.encode ⟨.zero 32⟩⟩ := by
  decide +kernel

theorem response_of_mem {message : DbftMessage}
    (h : message ∈ [responseMessage 2 (.zero 32),
      responseMessage 3 (.zero 32)]) :
    ∃ index, index ≠ 1 ∧ message.validBlockStart = 0 ∧
      message.consensusData = .ok ⟨.prepareResponse, 1, index, 0,
        DbftPrepareResponse.codec.encode ⟨.zero 32⟩⟩ := by
  rcases mem_cons.mp h with rfl | h
  · exact ⟨2, by decide, rfl, consensusData_response.1⟩
  · rw [mem_singleton.mp h]
    exact ⟨3, by decide, rfl, consensusData_response.2⟩

theorem decodedPayload_response (index : UInt8) :
    DbftConsensusData.decodedPayload ⟨.prepareResponse, 1, index, 0,
      DbftPrepareResponse.codec.encode ⟨.zero 32⟩⟩
      = .ok (.prepareResponse ⟨.zero 32⟩) := by
  have hdec : decodePayloadAs DbftPrepareResponse.codec
      (DbftPrepareResponse.codec.encode ⟨.zero 32⟩) = .ok ⟨.zero 32⟩ := by
    decide +kernel
  rw [DbftConsensusData.decodedPayload, hdec]
  rfl

theorem recoverable_agreedRound : agreedRound.Recoverable 0 := by
  rcases compacted_agreedRound with ⟨hcomp, hprep, -, hprim⟩
  refine ⟨?_, ?_, ?_, .zero 32, ?_⟩
  · intro message hmem
    rw [hcomp] at hmem
    rcases response_of_mem hmem with ⟨_, -, hst, -⟩
    exact hst
  · intro message hmem req hb
    rw [hprep] at hmem
    rcases response_of_mem hmem with ⟨index, -, -, hd⟩
    rw [bodyOf_eq_some.mpr ⟨_, hd, decodedPayload_response index⟩] at hb
    cases hb
  · intro message hmem resp hb hi
    rw [hprep] at hmem
    rcases response_of_mem hmem with ⟨index, hindex', -, hd⟩
    rw [hprim] at hi
    exact hindex' (hi.unique ⟨_, hd, rfl⟩).symm
  · intro message hmem
    rw [hprep] at hmem
    rcases response_of_mem hmem with ⟨index, -, -, hd⟩
    have hb := bodyOf_eq_some.mpr ⟨_, hd, decodedPayload_response index⟩
    constructor
    · intro req hreq
      rw [hb] at hreq
      cases hreq
    · intro resp hresp
      rw [hb] at hresp
      cases hresp
      rfl

/-- What two responses carry is received by every round that has no other message in their slots. -/
theorem receptive_agreedRound
    (hunop : ∀ message ∈ agreedRound.compacted 0, ∀ data, message.consensusData = .ok data →
      round.messages.lookup data.key = none ∨ round.messages.lookup data.key = some message) :
    round.Receptive (agreedRound.compacted 0) := by
  have hb : ∀ message ∈ agreedRound.compacted 0, ∀ data p,
      message.consensusData = .ok data → data.decodedPayload = .ok p →
      p = .prepareResponse ⟨.zero 32⟩ := by
    intro message hmem data p hd hp
    rw [compacted_agreedRound.1] at hmem
    rcases response_of_mem hmem with ⟨index, -, -, hf⟩
    rw [hf] at hd
    cases hd
    rw [decodedPayload_response] at hp
    exact (Except.ok.inj hp).symm
  refine ⟨fun message hmem data hd _ => hunop message hmem data hd, ?_, ?_⟩
  · intro message hmem data body hd hp
    cases hb message hmem data _ hd hp
  · intro message hmem data body hd hp
    cases hb message hmem data _ hd hp

theorem reasonsUnique_agreedRound : agreedRound.ReasonsUnique 0 := by
  intro message hmem data body hd hp
  rw [compacted_agreedRound.1] at hmem
  rcases response_of_mem hmem with ⟨index, -, -, hf⟩
  rw [hf] at hd
  cases hd
  rw [decodedPayload_response] at hp
  cases hp

theorem signedRecovery_agreedRound :
    agreedRound.SignedRecovery 0 (recoveryOf 0 agreedRound) (recoveryOuter 0 agreedRound) :=
  signedRecovery_outer (by decide +kernel) (by decide +kernel) (by decide +kernel)
    (by decide +kernel)

/-- The responses of two backups reach a round in which nothing has happened. -/
theorem recovery_delivers_committee :
    ∃ progress next, (processed []).process (recoveryOuter 0 agreedRound) = (.ok progress, next) ∧
      ∀ message ∈ viewMessages (agreedRound.compacted 0), next.Holds message := by
  rcases recovery_delivers 1 committee false
    ([responseMessage 2 (.zero 32), responseMessage 3 (.zero 32)].map .process)
    [] 0 recoverable_agreedRound reasonsUnique_agreedRound (by decide +kernel)
    (receptive_agreedRound fun _ _ _ _ => Or.inl rfl) with ⟨recovery, hrecovery, hdelivers⟩
  have hsame : recovery = recoveryOf 0 agreedRound :=
    Except.ok.inj (hrecovery.symm.trans compacted_agreedRound.2.2.1)
  apply hdelivers
  rw [hsame]
  exact signedRecovery_agreedRound

/-- Two backups that answer different proposals. -/
def dividedRound : DbftRoundState :=
  processed [responseMessage 2 (.zero 32), responseMessage 3 (.ofNat 32 1)]

/-- One validator that answers another proposal makes a round in which nothing has happened refuse
the whole recovery message, so that the response of the other validator does not arrive. -/
theorem recovery_stalls :
    dividedRound.recoveryMessage 0 = .ok (recoveryOf 0 dividedRound) ∧
    dividedRound.SignedRecovery 0 (recoveryOf 0 dividedRound) (recoveryOuter 0 dividedRound) ∧
    (processed []).currentView = dividedRound.currentView ∧
    responseMessage 3 (.ofNat 32 1) ∈ viewMessages (dividedRound.compacted 0) ∧
    ((processed []).process (recoveryOuter 0 dividedRound)).1
      = .error (.payload (.invalidRecoveredMessage
        (.invalidWitness "PrepareResponse" 3 .invalidWitness))) ∧
    ((processed []).process (recoveryOuter 0 dividedRound)).2.messages.lookup
      ⟨0, .prepareResponse, 3⟩ = none := by
  refine ⟨by decide +kernel, ?_, by decide +kernel, by decide +kernel, by decide +kernel,
    by decide +kernel⟩
  exact signedRecovery_outer (by decide +kernel) (by decide +kernel) (by decide +kernel)
    (by decide +kernel)

/-- The responses of two backups reach a round that knows one of them. -/
theorem recovery_survives_committee :
    ∃ progress next,
      (processed [responseMessage 3 (.zero 32)]).process (recoveryOuter 0 agreedRound)
        = (.ok progress, next) ∧
      ∀ message ∈ viewMessages (agreedRound.compacted 0), next.Holds message := by
  have hknown : (processed [responseMessage 3 (.zero 32)]).messages.lookup
        ⟨0, .prepareResponse, 2⟩ = none ∧
      (processed [responseMessage 3 (.zero 32)]).messages.lookup
        ⟨0, .prepareResponse, 3⟩ = some (responseMessage 3 (.zero 32)) := by
    decide +kernel
  have hunopposed : ∀ message ∈ agreedRound.compacted 0, ∀ data,
      message.consensusData = .ok data → viewBound data.messageType = true →
      (processed [responseMessage 3 (.zero 32)]).messages.lookup data.key = none ∨
      (processed [responseMessage 3 (.zero 32)]).messages.lookup data.key
        = some message := by
    intro message hmem data hdata _
    rw [compacted_agreedRound.1] at hmem
    rcases List.mem_cons.mp hmem with rfl | hmem
    · rw [consensusData_response.1] at hdata
      cases hdata
      exact Or.inl hknown.1
    · rw [List.mem_singleton.mp hmem] at hdata ⊢
      rw [consensusData_response.2] at hdata
      cases hdata
      exact Or.inr hknown.2
  rcases recovery_survives 1 committee false
    [responseMessage 2 (.zero 32), responseMessage 3 (.zero 32)]
    [responseMessage 3 (.zero 32)] 0 recoverable_agreedRound reasonsUnique_agreedRound
    (by decide +kernel) hunopposed with ⟨recovery, hrecovery, hdelivers⟩
  have hsame : recovery = recoveryOf 0 agreedRound :=
    Except.ok.inj (hrecovery.symm.trans compacted_agreedRound.2.2.1)
  apply hdelivers
  rw [hsame]
  exact signedRecovery_agreedRound

/-- A round that got another response of the last validator. -/
def deceivedRound : DbftRoundState := processed [responseMessage 3 (.ofNat 32 1)]

/-- One validator that answers two proposals makes the receiver refuse the whole recovery message,
so that the response of the other validator does not arrive. -/
theorem recovery_refused :
    agreedRound.recoveryMessage 0 = .ok (recoveryOf 0 agreedRound) ∧
    agreedRound.SignedRecovery 0 (recoveryOf 0 agreedRound) (recoveryOuter 0 agreedRound) ∧
    deceivedRound.currentView = agreedRound.currentView ∧
    deceivedRound.messages.toList.map Prod.fst = [⟨0, .prepareResponse, 3⟩] ∧
    responseMessage 2 (.zero 32) ∈ viewMessages (agreedRound.compacted 0) ∧
    (deceivedRound.process (recoveryOuter 0 agreedRound)).1
      = .error (.equivocation ⟨0, .prepareResponse, 3⟩
        (responseMessage 3 (.ofNat 32 1)).hash
        (responseMessage 3 (.zero 32)).hash) ∧
    (deceivedRound.process (recoveryOuter 0 agreedRound)).2.messages.lookup
      ⟨0, .prepareResponse, 2⟩ = none := by
  exact ⟨compacted_agreedRound.2.2.1, signedRecovery_agreedRound, by decide +kernel,
    by decide +kernel, by decide +kernel, by decide +kernel, by decide +kernel⟩

end DbftRoundState
end NeoX
