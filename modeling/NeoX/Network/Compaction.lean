import NeoX.Network.Recovery

/-!
# Compaction and expansion

The wire format of a recovery message is read back, and messages that are compacted
into one are rebuilt exactly, provided that what the compact form drops has the
values that expansion fills in.

Main results:

- `DbftRecoveryMessage.codec_roundTrips`: a recovery message within the
  limits is read back.
- `Accumulated.addMessage`: adding one compactable message succeeds.
- `Accumulated.expand`: expansion returns the compacted messages.
-/

namespace NeoX

open List DbftConsensusData DbftRecoveryMessage
open Except hiding ok error

open Rlp

/-! ## The wire format is read back -/

namespace DbftRecoveryMessage

/-- An encoding that cannot be taken for a placeholder. -/
def Distinguished {α : Type} (codec : Codec α) (value : α) : Prop :=
  codec.encode value ≠ [] ∧ ∀ rest, (codec.encode value ++ rest).head? ≠ some 0x80 ∧
    (codec.encode value ++ rest).head? ≠ some 0xc0

theorem distinguished_b256 (hash : B256) : Distinguished b256Codec hash := by
  have hh : ∀ rest, (b256Codec.encode hash ++ rest).head? = some 0xa0 := by
    intro rest
    have hlong : ∀ byte, hash.bytes = [byte] → 0x80 ≤ byte.toNat := by
      intro byte hbyte
      have hlen := hash.length_eq
      rw [hbyte] at hlen
      cases hlen
    show (encodeString hash.bytes ++ rest).head? = some 0xa0
    rw [encodeString_eq_header hlong, hash.length_eq]
    rfl
  refine ⟨encodeString_ne_nil _, ?_⟩
  intro rest
  rw [hh]
  decide

theorem distinguished_data (data : DbftConsensusData) :
    Distinguished DbftConsensusData.codec data := by
  have hfields : fieldsCodec.encode data.fields ≠ [] :=
    append_ne_nil_of_left_ne_nil (encodeString_ne_nil _) _
  exact ⟨encodeList_ne_nil _, head?_encodeList_ne hfields⟩

/-- A slot that is written is read back. -/
theorem decodeSlot_encodeSlot {α : Type} {codec : Codec α} {placeholder : UInt8} {v : Option α}
    (hplac : placeholder = 0x80 ∨ placeholder = 0xc0)
    (htrip : ∀ found ∈ v, codec.RoundTrips found ∧ Distinguished codec found) (rest : Bytes) :
    decodeSlot codec (encodeSlot codec [placeholder] v ++ rest) = .ok (v, rest) := by
  cases v with
  | none =>
    have h1 : (placeholder :: rest).head? = some 0x80 ∨
        (placeholder :: rest).head? = some 0xc0 := by
      simpa using hplac
    rw [encodeSlot, singleton_append, decodeSlot, if_neg (cons_ne_nil _ _),
      decodeOptional, if_pos h1]
    rfl
  | some found =>
    rcases htrip found rfl with ⟨hdec, hne, hhead⟩
    rw [encodeSlot, decodeSlot, if_neg (append_ne_nil_of_left_ne_nil hne rest),
      decodeOptional, if_neg (not_or.mpr (hhead rest)), hdec rest]
    rfl

theorem compactCodec_roundTrips {α : Type} {codec : Codec α} (hcodec : codec.Faithful)
    (hne : ∀ v, codec.encode v ≠ []) {values : List α} (hlim : values.length ≤ maxRecoveryPayloads)
    (hfits : ((compactCodec codec).encode values).length < 2 ^ 64) :
    (compactCodec codec).RoundTrips values :=
  hcodec.listOf hne (fun bound hb => by cases hb; exact hlim) hfits

theorem preparation_faithful : PreparationCompact.codec.Faithful :=
  (Codec.u8_faithful.pair Codec.bytes_faithful).wrap.equiv _

theorem commit_faithful : CommitCompact.codec.Faithful :=
  (Codec.u8_faithful.pair (Codec.u8_faithful.pair
    (Codec.bytes_faithful.pair Codec.bytes_faithful))).wrap.equiv _

theorem changeView_faithful : ChangeViewCompact.codec.Faithful :=
  (Codec.u8_faithful.pair (Codec.u8_faithful.pair
    (Codec.u64_faithful.pair Codec.bytes_faithful))).wrap.equiv _

theorem preCommit_faithful : PreCommitCompact.codec.Faithful :=
  (Codec.u8_faithful.pair (Codec.u8_faithful.pair
    (Codec.bytes_faithful.pair Codec.bytes_faithful))).wrap.equiv _

variable [Crypto]

/-- The three optional fields at the end of the payload. -/
def encodeTrailing (recovery : DbftRecoveryMessage) : Bytes × Bytes × Bytes :=
  (if recovery.includesPreparationHash then
      encodeSlot b256Codec [0x80] recovery.preparationHash else [],
    if recovery.includesPrepareRequest then
      encodeSlot DbftConsensusData.codec [0xc0] recovery.prepareRequest else [],
    if recovery.preCommits.isEmpty then [] else
      (compactCodec PreCommitCompact.codec).encode recovery.preCommits)

omit [Crypto] in
theorem encodeFields_eq (recovery : DbftRecoveryMessage) :
    recovery.encodeFields =
      (compactCodec PreparationCompact.codec).encode recovery.preparations ++
      ((compactCodec CommitCompact.codec).encode recovery.commits ++
      ((compactCodec ChangeViewCompact.codec).encode recovery.changeViews ++
      (recovery.encodeTrailing.1 ++
      (recovery.encodeTrailing.2.1 ++ recovery.encodeTrailing.2.2)))) := by
  simp [encodeFields, encodeTrailing, append_assoc]

omit [Crypto] in
/-- The slot of the preparation hash is cut off only when nothing follows it. -/
theorem decodeSlot_preparationHash (recovery : DbftRecoveryMessage) :
    decodeSlot b256Codec (recovery.encodeTrailing.1 ++
        (recovery.encodeTrailing.2.1 ++ recovery.encodeTrailing.2.2))
      = .ok (recovery.preparationHash, recovery.encodeTrailing.2.1 ++
        recovery.encodeTrailing.2.2) := by
  by_cases hwrit : recovery.includesPreparationHash = true
  · simp only [encodeTrailing, if_pos hwrit]
    apply decodeSlot_encodeSlot (Or.inl rfl)
    intro hash _
    exact ⟨Codec.fixed_roundTrips (by decide) hash, distinguished_b256 hash⟩
  · simp only [includesPreparationHash, includesPrepareRequest, Bool.or_eq_true, not_or,
      Option.isSome_iff_ne_none, not_not, Bool.not_eq_true', Bool.not_eq_false] at hwrit
    rcases hwrit with ⟨hhash, hreq, hpreC⟩
    simp [encodeTrailing, includesPreparationHash, includesPrepareRequest, hhash, hreq,
      hpreC, decodeSlot]

omit [Crypto] in
/-- The slot of the request is cut off only when nothing follows it. -/
theorem decodeSlot_prepareRequest {recovery : DbftRecoveryMessage}
    (hreq : ∀ req ∈ recovery.prepareRequest, DbftConsensusData.OneItem req.payload)
    (hfits : recovery.encodeTrailing.2.1.length < 2 ^ 64) :
    decodeSlot DbftConsensusData.codec (recovery.encodeTrailing.2.1 ++ recovery.encodeTrailing.2.2)
      = .ok (recovery.prepareRequest, recovery.encodeTrailing.2.2) := by
  by_cases hwrit : recovery.includesPrepareRequest = true
  · simp only [encodeTrailing, if_pos hwrit] at hfits ⊢
    apply decodeSlot_encodeSlot (Or.inr rfl)
    intro req hf
    refine ⟨codec_roundTrips (hreq req hf) ?_,
      distinguished_data req⟩
    rw [Option.mem_def.mp hf] at hfits
    exact (length_le_encodeList _).trans_lt hfits
  · simp only [includesPrepareRequest, Bool.or_eq_true, not_or, Option.isSome_iff_ne_none,
      not_not, Bool.not_eq_true', Bool.not_eq_false] at hwrit
    rcases hwrit with ⟨hno, hpreC⟩
    simp [encodeTrailing, includesPrepareRequest, hno, hpreC, decodeSlot]

/-- A recovery message within the limits is read back when it fits. -/
theorem codec_roundTrips {recovery : DbftRecoveryMessage}
    (hlimits : recovery.validateLimits = .ok ())
    (hreq : ∀ req ∈ recovery.prepareRequest, DbftConsensusData.OneItem req.payload)
    (hfits : recovery.encodeFields.length < 2 ^ 64) : codec.RoundTrips recovery := by
  obtain ⟨hcounts, -⟩ := require_bind hlimits
  rcases hcounts with ⟨hprep, hcomm, hchan, hpreC⟩
  have hleng := hfits
  rw [encodeFields_eq] at hleng
  simp only [length_append] at hleng
  have h1 := compactCodec_roundTrips preparation_faithful (fun _ => encodeList_ne_nil _)
    hprep (by omega)
  have h2 := compactCodec_roundTrips commit_faithful (fun _ => encodeList_ne_nil _)
    hcomm (by omega)
  have hthird := compactCodec_roundTrips changeView_faithful (fun _ => encodeList_ne_nil _)
    hchan (by omega)
  have hl : decodePreCommits recovery.encodeTrailing.2.2 = .ok (recovery.preCommits, []) := by
    by_cases hempty : recovery.preCommits = []
    · simp [decodePreCommits, encodeTrailing, hempty]
    · have hwrit : recovery.encodeTrailing.2.2
          = (compactCodec PreCommitCompact.codec).encode recovery.preCommits := by
        simp [encodeTrailing, hempty]
      have htrip := compactCodec_roundTrips preCommit_faithful (fun _ => encodeList_ne_nil _)
        hpreC (by rw [← hwrit]; omega) []
      have hne : (compactCodec PreCommitCompact.codec).encode recovery.preCommits ≠ [] :=
        encodeList_ne_nil _
      rw [decodePreCommits, hwrit, if_neg hne]
      rwa [append_nil] at htrip
  intro rest
  have houter : decodePayload true (encodeList recovery.encodeFields ++ rest)
      = .ok (recovery.encodeFields, rest) := decodePayload_encodePayload hfits rest
  simp only [codec, houter, ok_bind]
  rw [encodeFields_eq, h1, ok_bind]
  simp only
  rw [h2, ok_bind]
  simp only
  rw [hthird, ok_bind]
  simp only
  rw [decodeSlot_preparationHash, ok_bind]
  simp only
  rw [decodeSlot_prepareRequest hreq (by omega), ok_bind]
  simp only
  rw [hl, ok_bind]
  simp only
  rw [require_true, ok_bind, hlimits]
  rfl

end DbftRecoveryMessage
variable [Crypto]

/-! ## Bodies are written back -/

variable {body : DbftPrepareResponse}

section Bodies

variable {data : DbftConsensusData}

theorem payload_of_commit {body : DbftCommit} (h : data.decodedPayload = .ok (.commit body)) :
    data.messageType = .commit ∧ data.payload = DbftCommit.codec.encode body := by
  have hk := messageType_decodedPayload h
  unfold decodedPayload at h
  rw [← hk] at h
  rcases bind_ok h with ⟨found, hf, h⟩
  obtain ⟨_, h⟩ := of_bind h
  cases h
  rw [decodePayloadAs, mapError_eq_ok] at hf
  exact ⟨hk.symm, DbftCommit.codec_canonical.of_decodeExact hf⟩

theorem payload_of_preCommit {body : DbftPreCommit}
    (h : data.decodedPayload = .ok (.preCommit body)) :
    data.messageType = .preCommit ∧ data.payload = DbftPreCommit.codec.encode body ∧
      DbftPreCommit.fromData body.data = .ok body := by
  have hk := messageType_decodedPayload h
  unfold decodedPayload at h
  rw [← hk] at h
  rcases bind_ok h with ⟨found, hf, h⟩
  cases h
  rw [decodePayloadAs, mapError_eq_ok] at hf
  exact ⟨hk.symm, DbftPreCommit.codec_canonical.of_decodeExact hf,
    DbftPreCommit.fromData_of_decode (Codec.decodeExact_eq_ok.mp hf)⟩

theorem payload_of_prepareResponse (h : data.decodedPayload = .ok (.prepareResponse body)) :
    data.messageType = .prepareResponse ∧
      data.payload = DbftPrepareResponse.codec.encode body := by
  have hk := messageType_decodedPayload h
  unfold decodedPayload at h
  rw [← hk] at h
  rcases bind_ok h with ⟨found, hf, h⟩
  cases h
  rw [decodePayloadAs, mapError_eq_ok] at hf
  exact ⟨hk.symm, DbftPrepareResponse.codec_canonical.of_decodeExact hf⟩

theorem payload_of_changeView {body : DbftChangeView}
    (h : data.decodedPayload = .ok (.changeView body)) :
    data.messageType = .changeView ∧ data.payload = DbftChangeView.codec.encode body ∧
      ∃ reason : DbftChangeViewReason, body.reasonByte = reason.toByte := by
  have hk := messageType_decodedPayload h
  unfold decodedPayload at h
  rw [← hk] at h
  rcases bind_ok h with ⟨found, hf, h⟩
  rcases bind_ok h with ⟨reason, hreason, h⟩
  cases h
  rw [decodePayloadAs, mapError_eq_ok] at hf
  exact ⟨hk.symm, DbftChangeView.codec_canonical.of_decodeExact hf, reason,
    (DbftChangeViewReason.toByte_of_ofByte hreason).symm⟩

end Bodies

/-! ## Messages that are rebuilt exactly -/

/-- A signed message of a validator at this height, whose validity starts at block zero. -/
structure Rebuildable (height : UInt64) (validators : List Address) (message : DbftMessage)
    (data : DbftConsensusData) (payload : DbftDecodedPayload) : Prop where
  witness : message.verifyWitness = .ok message.hash
  start : message.validBlockStart = 0
  last : message.validBlockEnd = height
  data_eq : message.consensusData = .ok data
  payload_eq : data.decodedPayload = .ok payload
  sender : validators[data.validatorIndex.toNat]? = some message.sender

namespace Rebuildable

variable {height : UInt64} {validators : List Address} {message : DbftMessage}
  {data : DbftConsensusData} {payload : DbftDecodedPayload}

/-- The message is determined by its data and its witness. -/
theorem eq_recovered (h : Rebuildable height validators message data payload) :
    recoveredMessage height (senderAt validators data.validatorIndex) data.validatorIndex
      data.viewNumber data.messageType data.payload message.witness = message := by
  have hheight : data.blockIndex = height :=
    (DbftMessage.consensusData_eq_ok.mp h.data_eq).2.trans h.last
  have hsd : senderAt validators data.validatorIndex = message.sender := by
    rw [senderAt, getD_eq_getElem?_getD, h.sender]
    rfl
  apply DbftMessage.ext
  · exact h.start.symm
  · exact h.last.symm
  · exact hsd
  · rw [DbftMessage.data_eq_of_consensusData h.data_eq, recoveredMessage, ← hheight]
  · rfl

theorem verifyRecovered (h : Rebuildable height validators message data payload) (kind : String)
    (i : UInt8) : NeoX.verifyRecovered message kind i = .ok message := by
  rw [NeoX.verifyRecovered, h.witness]
  rfl

theorem index_lt (h : Rebuildable height validators message data payload) :
    data.validatorIndex.toNat < validators.length :=
  (List.getElem?_eq_some_iff.mp h.sender).1

theorem expandCommit {body : DbftCommit}
    (h : Rebuildable height validators message data (.commit body)) :
    NeoX.expandCommit height validators
      ⟨data.viewNumber, data.validatorIndex, body.signature, message.witness⟩ = .ok message := by
  rcases payload_of_commit h.payload_eq with ⟨hk, hp⟩
  have hm := h.eq_recovered
  rw [hk, hp] at hm
  rw [NeoX.expandCommit]
  simp only
  rw [hm]
  exact h.verifyRecovered _ _

theorem expandPreCommit {body : DbftPreCommit}
    (h : Rebuildable height validators message data (.preCommit body)) :
    NeoX.expandPreCommit height validators
      ⟨data.viewNumber, data.validatorIndex, body.data, message.witness⟩ = .ok message := by
  rcases payload_of_preCommit h.payload_eq with ⟨hk, hp, hb⟩
  have hm := h.eq_recovered
  rw [hk, hp] at hm
  rw [NeoX.expandPreCommit]
  simp only [hb, ok_bind]
  rw [hm]
  exact h.verifyRecovered _ _

theorem expandPrepareResponse
    (h : Rebuildable height validators message data (.prepareResponse body)) :
    NeoX.expandPrepareResponse height data.viewNumber validators body.preparationHash
      ⟨data.validatorIndex, message.witness⟩ = .ok message := by
  rcases payload_of_prepareResponse h.payload_eq with ⟨hk, hp⟩
  have hm := h.eq_recovered
  rw [hk, hp] at hm
  rw [NeoX.expandPrepareResponse]
  simp only
  rw [hm]
  exact h.verifyRecovered _ _

theorem authenticateChangeView_some {compact : ChangeViewCompact} {found : DbftMessage}
    {reasons : List DbftChangeViewReason} (hothers : ∀ reason ∈ reasons,
      (changeViewCandidate height validators compact reason).verifyWitness.isOk = false) :
    authenticateChangeView height validators compact (some found) reasons = .ok found := by
  induction reasons with
  | nil => rfl
  | cons reason reasons ih =>
    rw [authenticateChangeView, hothers reason mem_cons_self]
    exact ih fun o ho => hothers o (mem_cons_of_mem _ ho)

/-- A reason that alone authenticates is found. -/
theorem authenticateChangeView_none {compact : ChangeViewCompact} {reason : DbftChangeViewReason}
    {reasons : List DbftChangeViewReason} (hmem : reason ∈ reasons) (hnd : reasons.Nodup)
    (hver : ∀ o, (changeViewCandidate height validators compact o).verifyWitness.isOk
      = true ↔ o = reason) :
    authenticateChangeView height validators compact none reasons
      = .ok (changeViewCandidate height validators compact reason) := by
  induction reasons with
  | nil => cases hmem
  | cons head reasons ih =>
    rcases nodup_cons.mp hnd with ⟨hhead, htail⟩
    rw [authenticateChangeView]
    by_cases hsame : head = reason
    · subst hsame
      simp only [if_pos ((hver head).mpr rfl)]
      apply authenticateChangeView_some
      intro o ho
      rw [Bool.eq_false_iff, ne_eq, hver]
      rintro rfl
      exact hhead ho
    · have hfails := mt (hver head).mp hsame
      simp only [if_neg hfails]
      exact ih ((mem_cons.mp hmem).resolve_left (Ne.symm hsame)) htail

theorem authenticateChangeView {body : DbftChangeView}
    (h : Rebuildable height validators message data (.changeView body))
    (hunique : ∀ reason, (changeViewCandidate height validators
      ⟨data.validatorIndex, data.viewNumber, body.timestampNs, message.witness⟩
      reason).verifyWitness.isOk = true → body.reasonByte = reason.toByte) :
    NeoX.authenticateChangeView height validators
      ⟨data.validatorIndex, data.viewNumber, body.timestampNs, message.witness⟩ none
      DbftChangeViewReason.all = .ok message := by
  rcases payload_of_changeView h.payload_eq with ⟨hk, hp, reason, hreason⟩
  have hm := h.eq_recovered
  rw [hk, hp] at hm
  have hcand : changeViewCandidate height validators
      ⟨data.validatorIndex, data.viewNumber, body.timestampNs, message.witness⟩ reason
        = message := by
    rw [changeViewCandidate, DbftChangeView.new, ← hreason]
    exact hm
  have hver : ∀ o, (changeViewCandidate height validators
      ⟨data.validatorIndex, data.viewNumber, body.timestampNs, message.witness⟩
      o).verifyWitness.isOk = true ↔ o = reason := by
    intro o
    constructor
    · intro hok
      exact DbftChangeViewReason.toByte_injective ((hunique o hok).symm.trans hreason)
    · rintro rfl
      rw [hcand, h.witness]
      rfl
  rw [authenticateChangeView_none (DbftChangeViewReason.mem_all reason) (by decide) hver, hcand]

end Rebuildable
/-! ## Accumulating messages -/

def kindOf (message : DbftMessage) : Option DbftMessageType :=
  message.consensusData.toOption.map DbftConsensusData.messageType

/-- Requests and responses share the preparations of a recovery message. -/
def slotKind : DbftMessageType → DbftMessageType
  | .prepareRequest => .prepareResponse
  | kind => kind

def ofKind (kind : DbftMessageType) (messages : List DbftMessage) : List DbftMessage :=
  messages.filter fun message => kindOf message = some kind

/-- The messages that are compacted into one list. -/
def ofSlot (kind : DbftMessageType) (messages : List DbftMessage) : List DbftMessage :=
  messages.filter fun message => (kindOf message).map slotKind = some kind

/-- A message names a validator index. -/
def HasIndex (message : DbftMessage) (index : UInt8) : Prop :=
  ∃ data, message.consensusData = .ok data ∧ data.validatorIndex = index

/-- Two messages of one list belong to different validators. -/
def Apart (first second : DbftMessage) : Prop :=
  (kindOf first).map slotKind = (kindOf second).map slotKind →
    ∀ index, HasIndex first index → ¬ HasIndex second index

/--
What the compact form drops has the value that expansion fills in: preparations belong to the view
of the recovery message, a request comes from its primary, responses carry the shared hash, and the
witness of a change view authenticates one reason only.
-/
def Fits (height : UInt64) (view : UInt8) (validators : List Address) (hash : B256)
    (message : DbftMessage) (data : DbftConsensusData) : DbftDecodedPayload → Prop
  | .prepareRequest _ => data.viewNumber = view ∧
      data.validatorIndex = primaryIndexOf height view validators.length ∧ message.hash = hash
  | .prepareResponse response => data.viewNumber = view ∧
      data.validatorIndex ≠ primaryIndexOf height view validators.length ∧
      response.preparationHash = hash
  | .changeView body => ∀ reason, (changeViewCandidate height validators
      ⟨data.validatorIndex, data.viewNumber, body.timestampNs, message.witness⟩
      reason).verifyWitness.isOk = true → body.reasonByte = reason.toByte
  | .preCommit _ | .commit _ => True
  | .recoveryRequest _ | .recoveryMessage _ => False

/-- A compact preparation of a message. -/
def PreparationOf (compact : PreparationCompact) (message : DbftMessage) : Prop :=
  HasIndex message compact.validatorIndex ∧ compact.invocationScript = message.witness

/-- What an accumulator holds after these messages were added. -/
structure Accumulated (height : UInt64) (view : UInt8) (validators : List Address) (hash : B256)
    (recovery : DbftRecoveryMessage) (messages : List DbftMessage) : Prop where
  preparations : List.Forall₂ PreparationOf recovery.preparations
    (ofSlot .prepareResponse messages)
  changeViews : List.Forall₂ (fun compact message =>
    HasIndex message compact.validatorIndex ∧
      authenticateChangeView height validators compact none DbftChangeViewReason.all = .ok message)
    recovery.changeViews (ofSlot .changeView messages)
  preCommits : List.Forall₂ (fun compact message =>
    HasIndex message compact.validatorIndex ∧
      expandPreCommit height validators compact = .ok message)
    recovery.preCommits (ofSlot .preCommit messages)
  commits : List.Forall₂ (fun compact message =>
    HasIndex message compact.validatorIndex ∧
      expandCommit height validators compact = .ok message)
    recovery.commits (ofSlot .commit messages)
  preparationHash : ofSlot .prepareResponse messages = [] ∧ recovery.preparationHash = none ∨
    recovery.preparationHash = some hash
  prepareRequest : ofKind .prepareRequest messages = [] ∧ recovery.prepareRequest = none ∨
    ∃ message data request, ofKind .prepareRequest messages = [message] ∧
      Rebuildable height validators message data (.prepareRequest request) ∧
      Fits height view validators hash message data (.prepareRequest request) ∧
      recovery.prepareRequest = some ⟨.prepareRequest, 0, 0, data.viewNumber, data.payload⟩

variable {kind : DbftMessageType} {Compact : Type} {indexOf : Compact → UInt8}

section Adding

variable {height : UInt64} {view : UInt8} {validators : List Address} {hash : B256}
  {recovery : DbftRecoveryMessage} {messages : List DbftMessage} {message : DbftMessage}
  {data : DbftConsensusData}

omit [Crypto] in
theorem kindOf_eq (h : message.consensusData = .ok data) :
    kindOf message = some data.messageType := by
  simp [kindOf, h, Except.toOption]

omit [Crypto] in
theorem ofSlot_concat (kind : DbftMessageType) (h : message.consensusData = .ok data) :
    ofSlot kind (messages ++ [message])
      = ofSlot kind messages ++ if slotKind data.messageType = kind then [message] else [] := by
  rw [ofSlot, filter_append, ← ofSlot, filter_cons, kindOf_eq h]
  simp

omit [Crypto] in
theorem ofKind_concat (kind : DbftMessageType) (h : message.consensusData = .ok data) :
    ofKind kind (messages ++ [message])
      = ofKind kind messages ++ if data.messageType = kind then [message] else [] := by
  rw [ofKind, filter_append, ← ofKind, filter_cons, kindOf_eq h]
  simp

omit [Crypto] in
/-- No entry of the list belongs to the validator of a message that is added. -/
theorem rejectDuplicateIndex_of {relation : Compact → DbftMessage → Prop} {compacts : List Compact}
    (name : String) (hd : message.consensusData = .ok data) (hk : slotKind data.messageType = kind)
    (hapart : ∀ earlier ∈ messages, Apart earlier message)
    (hi : ∀ compact earlier, relation compact earlier → HasIndex earlier (indexOf compact))
    (h : List.Forall₂ relation compacts (ofSlot kind messages)) :
    rejectDuplicateIndex (compacts.map indexOf) data.validatorIndex name = .ok () := by
  apply require_of
  intro hmem
  rcases mem_map.mp hmem with ⟨compact, hcomp, hsame⟩
  rcases mem_iff_getElem.mp hcomp with ⟨pos, hpos, hget⟩
  have hrel := h.get hpos (h.length_eq ▸ hpos)
  have hearl := getElem_mem (h.length_eq ▸ hpos : pos < (ofSlot kind messages).length)
  rcases mem_filter.mp hearl with ⟨hm, hsl⟩
  have hname := hi _ _ hrel
  simp only [get_eq_getElem] at hname
  rw [hget, hsame] at hname
  refine hapart _ hm ?_ data.validatorIndex hname ⟨data, hd, rfl⟩
  rw [of_decide_eq_true hsl, kindOf_eq hd, Option.map_some, hk]

omit [Crypto] in
theorem forall₂_skip {relation : Compact → DbftMessage → Prop} {compacts : List Compact}
    (hd : message.consensusData = .ok data) (hk : slotKind data.messageType ≠ kind)
    (h : List.Forall₂ relation compacts (ofSlot kind messages)) :
    List.Forall₂ relation compacts (ofSlot kind (messages ++ [message])) := by
  rwa [ofSlot_concat kind hd, if_neg hk, append_nil]

omit [Crypto] in
theorem forall₂_add {relation : Compact → DbftMessage → Prop} {compacts : List Compact}
    {compact : Compact} (hd : message.consensusData = .ok data)
    (hk : slotKind data.messageType = kind)
    (h : List.Forall₂ relation compacts (ofSlot kind messages)) (hl : relation compact message) :
    List.Forall₂ relation (compacts ++ [compact]) (ofSlot kind (messages ++ [message])) := by
  rw [ofSlot_concat kind hd, if_pos hk]
  exact rel_append h (List.Forall₂.cons hl List.Forall₂.nil)

theorem accumulated_new : Accumulated height view validators hash .new [] where
  preparations := List.Forall₂.nil
  changeViews := List.Forall₂.nil
  preCommits := List.Forall₂.nil
  commits := List.Forall₂.nil
  preparationHash := Or.inl ⟨rfl, rfl⟩
  prepareRequest := Or.inl ⟨rfl, rfl⟩

/-- A message that is no preparation leaves the shared hash and the request alone. -/
theorem Accumulated.preparation_skip (h : Accumulated height view validators hash recovery messages)
    (hd : message.consensusData = .ok data) (hk : slotKind data.messageType ≠ .prepareResponse) :
    (ofSlot .prepareResponse (messages ++ [message]) = [] ∧ recovery.preparationHash = none ∨
      recovery.preparationHash = some hash) ∧
    (ofKind .prepareRequest (messages ++ [message]) = [] ∧ recovery.prepareRequest = none ∨
      ∃ message' data req, ofKind .prepareRequest (messages ++ [message]) = [message'] ∧
        Rebuildable height validators message' data (.prepareRequest req) ∧
        Fits height view validators hash message' data (.prepareRequest req) ∧
        recovery.prepareRequest = some ⟨.prepareRequest, 0, 0, data.viewNumber, data.payload⟩) := by
  have hreq : data.messageType ≠ .prepareRequest := by
    intro heq
    rw [heq] at hk
    exact hk rfl
  rw [ofSlot_concat _ hd, if_neg hk, append_nil, ofKind_concat _ hd, if_neg hreq, append_nil]
  exact ⟨h.preparationHash, h.prepareRequest⟩

/-- A proposal is the only one. -/
theorem Accumulated.no_request (h : Accumulated height view validators hash recovery messages)
    {req : DbftPrepareRequest}
    (hm : Rebuildable height validators message data (.prepareRequest req))
    (hfits : Fits height view validators hash message data (.prepareRequest req))
    (hapart : ∀ earlier ∈ messages, Apart earlier message) :
    ofKind .prepareRequest messages = [] := by
  rcases h.prepareRequest with ⟨hno, -⟩ | ⟨earlier, found, o, hlist, hearl, hplace, -⟩
  · exact hno
  · exfalso
    have hk := messageType_decodedPayload hm.payload_eq
    have hf := messageType_decodedPayload hearl.payload_eq
    have hmem : earlier ∈ ofKind .prepareRequest messages := by
      rw [hlist]
      exact mem_singleton_self _
    refine hapart earlier (mem_filter.mp hmem).1 ?_ _ ⟨found, hearl.data_eq, hplace.2.1⟩
      ⟨data, hm.data_eq, hfits.2.1⟩
    rw [kindOf_eq hearl.data_eq, kindOf_eq hm.data_eq, ← hk, ← hf]
    rfl

/-- Adding one compactable message succeeds. -/
theorem Accumulated.addMessage (h : Accumulated height view validators hash recovery messages)
    {payload : DbftDecodedPayload} (hm : Rebuildable height validators message data payload)
    (hfits : Fits height view validators hash message data payload)
    (hapart : ∀ earlier ∈ messages, Apart earlier message) :
    ∃ next, recovery.addMessage message = .ok next ∧
      Accumulated height view validators hash next (messages ++ [message]) := by
  have hd := hm.data_eq
  have hk := messageType_decodedPayload hm.payload_eq
  have hi : HasIndex message data.validatorIndex := ⟨data, hd, rfl⟩
  have hadd : recovery.addMessage message = recovery.addPayload message data payload := by
    simp only [DbftRecoveryMessage.addMessage, hm.witness, hd, mapError_ok, ok_bind, hm.payload_eq]
  rw [hadd]
  cases payload with
  | prepareRequest req =>
    have hsl : slotKind data.messageType = .prepareResponse := by rw [← hk]; rfl
    have hfree := rejectDuplicateIndex_of "preparation" hd hsl hapart
      (fun _ _ hrel => hrel.1) h.preparations
    rw [DbftRecoveryMessage.addPayload, DbftRecoveryMessage.preparationIndices, hfree]
    refine ⟨_, rfl, forall₂_add hd hsl h.preparations ⟨hi, rfl⟩,
      forall₂_skip hd (by rw [hsl]; decide) h.changeViews,
      forall₂_skip hd (by rw [hsl]; decide) h.preCommits,
      forall₂_skip hd (by rw [hsl]; decide) h.commits,
      Or.inr (congrArg some hfits.2.2), Or.inr ?_⟩
    refine ⟨message, data, req, ?_, hm, hfits, rfl⟩
    have htype : data.messageType = .prepareRequest := hk.symm
    rw [ofKind_concat _ hd, h.no_request hm hfits hapart, if_pos htype]
    rfl
  | prepareResponse resp =>
    have hsl : slotKind data.messageType = .prepareResponse := by rw [← hk]; rfl
    have hfree := rejectDuplicateIndex_of "preparation" hd hsl hapart
      (fun _ _ hrel => hrel.1) h.preparations
    rw [DbftRecoveryMessage.addPayload, DbftRecoveryMessage.preparationIndices, hfree]
    refine ⟨_, rfl, forall₂_add hd hsl h.preparations ⟨hi, rfl⟩,
      forall₂_skip hd (by rw [hsl]; decide) h.changeViews,
      forall₂_skip hd (by rw [hsl]; decide) h.preCommits,
      forall₂_skip hd (by rw [hsl]; decide) h.commits, Or.inr ?_, ?_⟩
    · rcases h.preparationHash with ⟨-, hno⟩ | hsome
      · simp only [hno, Option.none_or, hfits.2.2]
      · simp only [hsome, Option.some_or]
    · have htype : data.messageType ≠ .prepareRequest := by
        rw [← hk]
        exact DbftMessageType.noConfusion
      rw [ofKind_concat _ hd, if_neg htype, append_nil]
      exact h.prepareRequest
  | changeView body =>
    have hsl : slotKind data.messageType = .changeView := by rw [← hk]; rfl
    have hfree := rejectDuplicateIndex_of "change-view" hd hsl hapart
      (fun _ _ hrel => hrel.1) h.changeViews
    have hskip := h.preparation_skip hd (by rw [hsl]; decide)
    rw [DbftRecoveryMessage.addPayload, hfree]
    exact ⟨_, rfl, forall₂_skip hd (by rw [hsl]; decide) h.preparations,
      forall₂_add hd hsl h.changeViews ⟨hi, hm.authenticateChangeView hfits⟩,
      forall₂_skip hd (by rw [hsl]; decide) h.preCommits,
      forall₂_skip hd (by rw [hsl]; decide) h.commits, hskip.1, hskip.2⟩
  | preCommit body =>
    have hsl : slotKind data.messageType = .preCommit := by rw [← hk]; rfl
    have hfree := rejectDuplicateIndex_of "pre-commit" hd hsl hapart
      (fun _ _ hrel => hrel.1) h.preCommits
    have hskip := h.preparation_skip hd (by rw [hsl]; decide)
    rw [DbftRecoveryMessage.addPayload, hfree]
    exact ⟨_, rfl, forall₂_skip hd (by rw [hsl]; decide) h.preparations,
      forall₂_skip hd (by rw [hsl]; decide) h.changeViews,
      forall₂_add hd hsl h.preCommits ⟨hi, hm.expandPreCommit⟩,
      forall₂_skip hd (by rw [hsl]; decide) h.commits, hskip.1, hskip.2⟩
  | commit body =>
    have hsl : slotKind data.messageType = .commit := by rw [← hk]; rfl
    have hfree := rejectDuplicateIndex_of "commit" hd hsl hapart
      (fun _ _ hrel => hrel.1) h.commits
    have hskip := h.preparation_skip hd (by rw [hsl]; decide)
    rw [DbftRecoveryMessage.addPayload, hfree]
    exact ⟨_, rfl, forall₂_skip hd (by rw [hsl]; decide) h.preparations,
      forall₂_skip hd (by rw [hsl]; decide) h.changeViews,
      forall₂_skip hd (by rw [hsl]; decide) h.preCommits,
      forall₂_add hd hsl h.commits ⟨hi, hm.expandCommit⟩, hskip.1, hskip.2⟩
  | recoveryRequest body => cases hfits
  | recoveryMessage body => cases hfits

end Adding

/-! ## Expanding -/

omit [Crypto] in
/-- Distinct indices of validators pass the check. -/
theorem validateUniqueIndices_of {kind : String} {validatorCount : Nat} {seen indices : List UInt8}
    (hrange : ∀ i ∈ indices, i.toNat < validatorCount) (hnd : indices.Nodup)
    (hfresh : ∀ i ∈ indices, i ∉ seen) :
    validateUniqueIndices kind validatorCount seen indices = .ok () := by
  induction indices generalizing seen with
  | nil => rfl
  | cons i indices ih =>
    rcases nodup_cons.mp hnd with ⟨hnew, hr⟩
    have htail : validateUniqueIndices kind validatorCount (i :: seen) indices = .ok () := by
      refine ih (fun o ho => hrange o (mem_cons_of_mem _ ho)) hr ?_
      intro o ho
      rw [mem_cons, not_or]
      exact ⟨fun heq => hnew (heq ▸ ho), hfresh o (mem_cons_of_mem _ ho)⟩
    rw [validateUniqueIndices, require_of _ (hrange i mem_cons_self),
      ok_bind, require_of _ (hfresh i mem_cons_self), ok_bind, htail]

/-- Messages that a recovery message of this height and view can carry. -/
structure Compactable (height : UInt64) (view : UInt8) (validators : List Address) (hash : B256)
    (messages : List DbftMessage) : Prop where
  fits : ∀ message ∈ messages, ∃ data payload,
    Rebuildable height validators message data payload ∧
      Fits height view validators hash message data payload
  apart : messages.Pairwise Apart

section Expanding

variable {height : UInt64} {view : UInt8} {validators : List Address} {hash : B256}
  {recovery : DbftRecoveryMessage} {messages : List DbftMessage}

omit [Crypto] in
theorem HasIndex.unique {message : DbftMessage} {a b : UInt8} (h1 : HasIndex message a)
    (h2 : HasIndex message b) : a = b := by
  rcases h1 with ⟨data, hd, rfl⟩
  rcases h2 with ⟨o, ho, rfl⟩
  rw [hd] at ho
  cases ho
  rfl

omit [Crypto] in
theorem ofSlot_eq_ofKind (hreq : kind ≠ .prepareRequest) (hresp : kind ≠ .prepareResponse)
    (messages : List DbftMessage) :
    ofSlot kind messages = ofKind kind messages := by
  apply filter_congr
  intro message _
  cases kindOf message with
  | none => rfl
  | some found =>
    simp only [Option.map_some, Option.some.injEq, decide_eq_decide]
    cases found <;> simp_all [slotKind, eq_comm]

/-- The entries of one list name distinct validators. -/
theorem Compactable.indices (h : Compactable height view validators hash messages)
    {relation : Compact → DbftMessage → Prop} {compacts : List Compact}
    (hi : ∀ compact message, relation compact message → HasIndex message (indexOf compact))
    (hrel : List.Forall₂ relation compacts (ofSlot kind messages)) :
    (∀ i ∈ compacts.map indexOf, i.toNat < validators.length) ∧
      (compacts.map indexOf).Nodup := by
  have hmem : ∀ message ∈ ofSlot kind messages, message ∈ messages ∧
      (kindOf message).map slotKind = some kind := by
    intro message hm
    rcases mem_filter.mp hm with ⟨hm, hsl⟩
    exact ⟨hm, of_decide_eq_true hsl⟩
  have hapart : (ofSlot kind messages).Pairwise Apart := h.apart.sublist filter_sublist
  generalize ofSlot kind messages = slot at hmem hapart hrel
  have hboth : (∀ i ∈ compacts.map indexOf, i.toNat < validators.length ∧
      ∃ message ∈ slot, HasIndex message i) ∧ (compacts.map indexOf).Nodup := by
    induction hrel with
    | nil => simp
    | @cons compact message compacts slot hhead _ ih =>
      rcases pairwise_cons.mp hapart with ⟨h1, hothers⟩
      rcases ih (fun o ho => hmem o (mem_cons_of_mem _ ho)) hothers with
        ⟨hr, hnd⟩
      have hname := hi compact message hhead
      have hsl := hmem message mem_cons_self
      refine ⟨?_, nodup_cons.mpr ⟨?_, hnd⟩⟩
      · intro i hmember
        rcases mem_cons.mp hmember with rfl | hmember
        · rcases h.fits message hsl.1 with ⟨data, payload, hm, -⟩
          refine ⟨?_, message, mem_cons_self, hname⟩
          rw [hname.unique ⟨data, hm.data_eq, rfl⟩]
          exact hm.index_lt
        · rcases hr i hmember with ⟨hlt, o, ho, hnamed⟩
          exact ⟨hlt, o, mem_cons_of_mem _ ho, hnamed⟩
      · intro hagain
        rcases hr _ hagain with ⟨-, o, ho, hnamed⟩
        refine h1 o ho ?_ _ hname hnamed
        rw [hsl.2, (hmem o (mem_cons_of_mem _ ho)).2]
  exact ⟨fun i hmember => (hboth.1 i hmember).1, hboth.2⟩

omit [Crypto] in
theorem length_le_of_indices {indices : List UInt8} {count : Nat}
    (hr : ∀ i ∈ indices, i.toNat < count) (hnd : indices.Nodup) :
    indices.length ≤ count := by
  have hnodu : (indices.map UInt8.toNat).Nodup :=
    hnd.map fun _ _ heq => UInt8.toNat_inj.mp heq
  have hsub : (indices.map UInt8.toNat).toFinset ⊆ Finset.range count := by
    intro v hv
    rcases mem_map.mp (mem_toFinset.mp hv) with ⟨i, hi, rfl⟩
    exact Finset.mem_range.mpr (hr i hi)
  have hcard := Finset.card_le_card hsub
  rwa [toFinset_card_of_nodup hnodu, length_map, Finset.card_range] at hcard

omit [Crypto] in
/-- The compact preparation of a validator is found by its index. -/
theorem find?_preparation {compacts : List PreparationCompact} {slot : List DbftMessage}
    {message : DbftMessage} {i : UInt8} (hmem : message ∈ slot) (hi : HasIndex message i)
    (hapart : slot.Pairwise fun a b => ∀ i, HasIndex a i →
      ¬ HasIndex b i)
    (h : List.Forall₂ PreparationOf compacts slot) :
    compacts.find? (fun compact => compact.validatorIndex = i)
      = some ⟨i, message.witness⟩ := by
  induction h with
  | nil => cases hmem
  | @cons compact other compacts slot hhead _ ih =>
    rcases pairwise_cons.mp hapart with ⟨h1, hothers⟩
    by_cases hsame : compact.validatorIndex = i
    · rw [find?_cons_of_pos (by simpa using hsame)]
      have heq : message = other := by
        rcases mem_cons.mp hmem with heq | hlater
        · exact heq
        · exact absurd hi (h1 message hlater i (hsame ▸ hhead.1))
      rw [heq, ← hhead.2, ← hsame]
    · rw [find?_cons_of_neg (by simpa using hsame)]
      refine ih ?_ hothers
      rcases mem_cons.mp hmem with heq | hlater
      · exact absurd (hhead.1.unique (heq ▸ hi)) hsame
      · exact hlater

/-- The proposal is rebuilt from its body and the witness of the primary. -/
theorem Accumulated.expandPrepareRequest
    (h : Accumulated height view validators hash recovery messages)
    (hms : Compactable height view validators hash messages) :
    recovery.expandPrepareRequest height view validators
      (primaryIndexOf height view validators.length) = .ok (ofKind .prepareRequest messages) := by
  rcases h.prepareRequest with ⟨hno, hreq⟩ |
    ⟨message, data, request, hlist, hm, hfits, hreq⟩
  · rw [DbftRecoveryMessage.expandPrepareRequest, hreq, hno]
  · have hk := messageType_decodedPayload hm.payload_eq
    have hsl : ∀ o ∈ ofSlot .prepareResponse messages,
        (kindOf o).map slotKind = some .prepareResponse :=
      fun o ho => of_decide_eq_true (mem_filter.mp ho).2
    have hmem : message ∈ ofSlot .prepareResponse messages := by
      have hf : message ∈ ofKind .prepareRequest messages := by
        rw [hlist]
        exact mem_singleton_self _
      refine mem_filter.mpr ⟨(mem_filter.mp hf).1, decide_eq_true ?_⟩
      rw [kindOf_eq hm.data_eq, ← hk]
      rfl
    have hapart : (ofSlot .prepareResponse messages).Pairwise fun a b =>
        ∀ index, HasIndex a index → ¬ HasIndex b index := by
      refine (hms.apart.sublist filter_sublist).imp_of_mem ?_
      intro a b h1 h2 hdiff
      exact hdiff ((hsl a h1).trans (hsl b h2).symm)
    have hf := find?_preparation hmem ⟨data, hm.data_eq, hfits.2.1⟩ hapart h.preparations
    have hreco := hm.eq_recovered
    rw [← hk, hfits.1, hfits.2.1] at hreco
    rw [DbftRecoveryMessage.expandPrepareRequest, hreq, hf, hlist]
    simp only
    rw [show DbftMessageType.prepareRequest
      = DbftDecodedPayload.messageType (.prepareRequest request) from rfl, hreco,
      hm.verifyRecovered]
    rfl

/-- The responses are rebuilt from the shared hash. -/
theorem Accumulated.expandPrepareResponses
    (h : Accumulated height view validators hash recovery messages)
    (hms : Compactable height view validators hash messages) :
    recovery.expandPrepareResponses height view validators
      (primaryIndexOf height view validators.length) = .ok (ofKind .prepareResponse messages) := by
  have hresp : ofKind .prepareResponse messages
      = ofKind .prepareResponse (ofSlot .prepareResponse messages) := by
    rw [ofKind, ofKind, ofSlot, filter_filter]
    apply filter_congr
    intro message _
    cases kindOf message with
    | none => rfl
    | some found => cases found <;> rfl
  have hmem : ∀ message ∈ ofSlot .prepareResponse messages, message ∈ messages ∧
      (kindOf message).map slotKind = some .prepareResponse := by
    intro message hm
    rcases mem_filter.mp hm with ⟨hm, hsl⟩
    exact ⟨hm, of_decide_eq_true hsl⟩
  have hrel := h.preparations
  rcases h.preparationHash with ⟨hno, hhash⟩ | hhash
  · rw [DbftRecoveryMessage.expandPrepareResponses, hhash, hresp, hno]
    rfl
  · rw [DbftRecoveryMessage.expandPrepareResponses, hhash, hresp]
    apply mapM_eq_ok_of_forall₂
    generalize ofSlot .prepareResponse messages = slot at hmem hrel
    generalize recovery.preparations = compacts at hrel
    induction hrel with
    | nil => exact List.Forall₂.nil
    | @cons compact message compacts slot hhead _ ih =>
      have htail := ih fun o ho => hmem o (mem_cons_of_mem _ ho)
      rcases hmem message mem_cons_self with ⟨hm, hsl⟩
      rcases hms.fits message hm with ⟨data, payload, hrebu, hfits⟩
      have hi := hhead.1.unique ⟨data, hrebu.data_eq, rfl⟩
      have hk := messageType_decodedPayload hrebu.payload_eq
      rw [kindOf_eq hrebu.data_eq, ← hk] at hsl
      cases payload with
      | prepareRequest req =>
        -- The primary's entry stands for the req.
        have hprim : compact.validatorIndex = primaryIndexOf height view validators.length :=
          hi.trans hfits.2.1
        have ho : kindOf message ≠ some .prepareResponse := by
          rw [kindOf_eq hrebu.data_eq, ← hk]
          exact fun heq => by cases heq
        rw [filter_cons_of_neg (by simpa using hprim), ofKind,
          filter_cons_of_neg (by simpa using ho)]
        exact htail
      | prepareResponse resp =>
        have hbackup : compact.validatorIndex ≠ primaryIndexOf height view validators.length :=
          hi ▸ hfits.2.1
        have hsame : kindOf message = some .prepareResponse := by
          rw [kindOf_eq hrebu.data_eq, ← hk]
          rfl
        rw [filter_cons_of_pos (by simpa using hbackup), ofKind,
          filter_cons_of_pos (by simpa using hsame)]
        refine List.Forall₂.cons ?_ htail
        have hexpand := hrebu.expandPrepareResponse
        rw [hfits.1, hfits.2.2] at hexpand
        have hcomp : compact = ⟨data.validatorIndex, message.witness⟩ := by
          cases compact
          simp only [PreparationCompact.mk.injEq]
          exact ⟨hi, hhead.2⟩
        rw [hcomp]
        exact hexpand
      | changeView body => cases hsl
      | preCommit body => cases hsl
      | commit body => cases hsl
      | recoveryRequest body => cases hsl
      | recoveryMessage body => cases hsl

/-- The entries pass the checks that precede their expansion. -/
theorem Accumulated.checkEntries (h : Accumulated height view validators hash recovery messages)
    (hms : Compactable height view validators hash messages) :
    recovery.checkEntries validators.length = .ok () := by
  have hprep := hms.indices (fun _ _ hrel => hrel.1) h.preparations
  have hpreC := hms.indices (fun _ _ hrel => hrel.1) h.preCommits
  have hcomm := hms.indices (fun _ _ hrel => hrel.1) h.commits
  have hchan := hms.indices (fun _ _ hrel => hrel.1) h.changeViews
  have hno : ∀ indices : List UInt8, ∀ i ∈ indices, i ∉ ([] : List UInt8) :=
    fun _ _ _ => not_mem_nil
  rw [DbftRecoveryMessage.checkEntries, DbftRecoveryMessage.preparationIndices,
    validateUniqueIndices_of hprep.1 hprep.2 (hno _), ok_bind,
    validateUniqueIndices_of hpreC.1 hpreC.2 (hno _), ok_bind,
    validateUniqueIndices_of hcomm.1 hcomm.2 (hno _), ok_bind,
    validateUniqueIndices_of hchan.1 hchan.2 (hno _)]

/-- Messages in the order in which expansion returns them. -/
def regrouped (messages : List DbftMessage) : List DbftMessage :=
  ofKind .changeView messages ++ ofKind .prepareRequest messages ++
    ofKind .prepareResponse messages ++ ofKind .preCommit messages ++ ofKind .commit messages

/-- Expansion returns the compacted messages. -/
theorem Accumulated.expand (h : Accumulated height view validators hash recovery messages)
    (hms : Compactable height view validators hash messages) {outer : DbftMessage} {i : UInt8}
    {payload : Bytes}
    (houter : outer.consensusData = .ok ⟨.recoveryMessage, height, i, view, payload⟩)
    (hvals : validators ≠ [] ∧ validators.length ≤ 256) :
    recovery.expand outer validators = .ok (regrouped messages) := by
  have hchan : recovery.changeViews.mapM (fun compact =>
      authenticateChangeView height validators compact none DbftChangeViewReason.all)
        = .ok (ofKind .changeView messages) := by
    rw [← ofSlot_eq_ofKind (by decide) (by decide)]
    exact mapM_eq_ok_of_forall₂ (h.changeViews.imp fun _ _ hrel => hrel.2)
  have hpreC : recovery.preCommits.mapM (expandPreCommit height validators)
      = .ok (ofKind .preCommit messages) := by
    rw [← ofSlot_eq_ofKind (by decide) (by decide)]
    exact mapM_eq_ok_of_forall₂ (h.preCommits.imp fun _ _ hrel => hrel.2)
  have hcomm : recovery.commits.mapM (expandCommit height validators)
      = .ok (ofKind .commit messages) := by
    rw [← ofSlot_eq_ofKind (by decide) (by decide)]
    exact mapM_eq_ok_of_forall₂ (h.commits.imp fun _ _ hrel => hrel.2)
  rw [DbftRecoveryMessage.expand, houter]
  simp only [mapError_ok, ok_bind]
  rw [require_true, ok_bind, require_of _ hvals, ok_bind, h.checkEntries hms, ok_bind, hchan,
    ok_bind, h.expandPrepareRequest hms, ok_bind, h.expandPrepareResponses hms, ok_bind, hpreC,
    ok_bind, hcomm]
  rfl

/-! ## Sending -/

omit [Crypto] in
theorem oneItem_of_consensusData {message : DbftMessage} {data : DbftConsensusData}
    (h : message.consensusData = .ok data) : DbftConsensusData.OneItem data.payload := by
  have hdec := Codec.decodeExact_eq_ok.mp (DbftMessage.consensusData_eq_ok.mp h).1
  rcases bind_ok hdec with ⟨⟨fields, rest⟩, hfields, hdec⟩
  rcases bind_ok hdec with ⟨kind, -, hdec⟩
  cases hdec
  rcases Codec.decode_of_wrap hfields with ⟨_, hfields⟩
  rcases Codec.decode_snd_of_pair hfields with ⟨_, hfields⟩
  rcases Codec.decode_snd_of_pair hfields with ⟨_, hfields⟩
  rcases Codec.decode_snd_of_pair hfields with ⟨_, hfields⟩
  rcases Codec.decode_snd_of_pair hfields with ⟨_, hfields⟩
  exact Codec.rawItem_eq_ok hfields

/-- An accumulator within the validator set is read back when it fits. -/
theorem Accumulated.roundTrips (h : Accumulated height view validators hash recovery messages)
    (hms : Compactable height view validators hash messages)
    (hc : validators.length ≤ maxRecoveryPayloads) (hfits : recovery.encodeFields.length < 2 ^ 64) :
    DbftRecoveryMessage.codec.RoundTrips recovery := by
  have hlen : ∀ {Compact : Type} {compacts : List Compact} {indexOf : Compact → UInt8},
      (∀ i ∈ compacts.map indexOf, i.toNat < validators.length) ∧
        (compacts.map indexOf).Nodup → compacts.length ≤ maxRecoveryPayloads := by
    intro Compact compacts indexOf hidx
    have hle := length_le_of_indices hidx.1 hidx.2
    rw [length_map] at hle
    exact hle.trans hc
  have hprep := hlen (hms.indices (fun _ _ hrel => hrel.1) h.preparations)
  have hpreC := hlen (hms.indices (fun _ _ hrel => hrel.1) h.preCommits)
  have hcomm := hlen (hms.indices (fun _ _ hrel => hrel.1) h.commits)
  have hchan := hlen (hms.indices (fun _ _ hrel => hrel.1) h.changeViews)
  have hreq : ∀ req ∈ recovery.prepareRequest, req.messageType = .prepareRequest ∧
      DbftConsensusData.OneItem req.payload := by
    intro req hreq
    rcases h.prepareRequest with ⟨-, hno⟩ | ⟨message, data, body, -, hm, -, hsome⟩
    · rw [hno] at hreq
      cases hreq
    · rw [hsome] at hreq
      cases hreq
      have hitem := oneItem_of_consensusData hm.data_eq
      exact ⟨rfl, hitem⟩
  have hshs : ∀ e ∈ recovery.preCommits, (DbftPreCommit.fromData e.data).isOk = true := by
    intro e he
    rcases mem_iff_getElem.mp he with ⟨pos, hpos, rfl⟩
    have hrel := h.preCommits.get hpos (h.preCommits.length_eq ▸ hpos)
    rcases bind_ok hrel.2 with ⟨body, hb, -⟩
    simp only [get_eq_getElem] at hb
    rw [hb]
    rfl
  refine codec_roundTrips ?_ (fun req hf => (hreq req hf).2)
    hfits
  rw [validateLimits,
    require_of _ ⟨hprep, hcomm, hchan, hpreC⟩, ok_bind,
    require_of _ (fun req hf => (hreq req hf).1), ok_bind,
    require_of _ hshs]

/-- A message that carries the accumulator is decoded to it when it fits. -/
theorem Accumulated.decode_outer (h : Accumulated height view validators hash recovery messages)
    (hms : Compactable height view validators hash messages)
    (hc : validators.length ≤ maxRecoveryPayloads) {outer : DbftMessage} {i : UInt8}
    (hd : outer.data = DbftConsensusData.codec.encode
      ⟨.recoveryMessage, height, i, view, DbftRecoveryMessage.codec.encode recovery⟩)
    (hl : outer.validBlockEnd = height) (hfits : outer.data.length < 2 ^ 64) :
    outer.consensusData = .ok
        ⟨.recoveryMessage, height, i, view, DbftRecoveryMessage.codec.encode recovery⟩ ∧
      DbftConsensusData.decodedPayload
        ⟨.recoveryMessage, height, i, view, DbftRecoveryMessage.codec.encode recovery⟩
          = .ok (.recoveryMessage recovery) := by
  have hfields : (fieldsCodec.encode (fields
      ⟨.recoveryMessage, height, i, view, codec.encode recovery⟩)).length
        < 2 ^ 64 := by
    rw [hd] at hfits
    exact (length_le_encodeList _).trans_lt hfits
  have hp : (codec.encode recovery).length < 2 ^ 64 := by
    refine lt_of_le_of_lt ?_ hfields
    simp only [fieldsCodec, fields, Codec.pair, Codec.rawItem, length_append, id_eq]
    omega
  have hb : recovery.encodeFields.length < 2 ^ 64 :=
    (length_le_encodeList _).trans_lt hp
  have hitem : DbftConsensusData.OneItem (codec.encode recovery) :=
    ⟨true, recovery.encodeFields, rfl, hb⟩
  constructor
  · rw [DbftMessage.consensusData_eq_ok, hd]
    exact ⟨(codec_roundTrips hitem hfields).decodeExact, hl.symm⟩
  · have hdec := (h.roundTrips hms hc hb).decodeExact
    simp only [decodedPayload, decodePayloadAs, hdec]
    rfl

end Expanding

end NeoX
