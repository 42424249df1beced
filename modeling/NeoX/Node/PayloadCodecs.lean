import NeoX.Network.Compaction
import NeoX.Node.PreCommit

/-!
# Codecs of consensus payloads

Proposals with their optional trailing fields, share packets with their two decoders, and recovery
messages.

Main results:

- `payload_codecs`: what is written is read back, and what is read is written back.
-/

/-! ## Lists -/

namespace Rlp.Codec

open Except hiding ok error

variable {α : Type} {codec : Codec α}

theorem decodeMany_canonical (hcodec : codec.Canonical) {limit : Option Nat} {limitError : Error}
    {rounds : Nat} {input : Bytes} {values : List α}
    (h : decodeMany codec limit limitError rounds input = .ok values) :
    input = values.flatMap codec.encode := by
  induction rounds generalizing limit input values with
  | zero =>
    cases input with
    | nil =>
      cases h
      rfl
    | cons byte input => cases h
  | succ rounds ih =>
    cases input with
    | nil =>
      cases h
      rfl
    | cons byte input =>
      rw [decodeMany] at h
      split at h
      · cases h
      · rcases bind_ok h with ⟨⟨value, rest⟩, hvalue, h⟩
        rcases bind_ok h with ⟨others, hothers, h⟩
        cases h
        rw [hcodec _ _ _ hvalue, ih hothers, List.flatMap_cons]

theorem Canonical.listOf (hcodec : codec.Canonical) (limit : Option Nat) (limitError : Error) :
    (codec.listOf limit limitError).Canonical := by
  intro input values rest h
  rcases bind_ok h with ⟨⟨payload, tail⟩, hp, h⟩
  rcases bind_ok h with ⟨found, hf, h⟩
  cases h
  rw [(decodePayload_eq_ok hp).1, decodeMany_canonical hcodec hf]
  rfl

end Rlp.Codec

namespace NeoX

open Except hiding ok error

open Rlp BigEndian

/-! ## Trailing fields -/

section Trailing

variable {α : Type} {codec : Codec α} {value : Option α}

/-- A trailing field is read back if nothing follows a missing one. -/
theorem decodeTrailing_encodeOptional {tail : Bytes}
    (htrip : ∀ found ∈ value, codec.RoundTrips found ∧ codec.encode found ≠ [])
    (hlast : value = none → tail = []) :
    decodeTrailing codec (encodeOptional codec value ++ tail) = .ok (value, tail) := by
  cases value with
  | none =>
    cases hlast rfl
    rfl
  | some found =>
    rcases htrip found rfl with ⟨hdec, hne⟩
    rw [encodeOptional, decodeTrailing, if_neg (List.append_ne_nil_of_left_ne_nil hne tail),
      hdec tail]
    rfl

theorem decodeTrailing_eq_ok (hcodec : codec.Canonical) {input rest : Bytes}
    (h : decodeTrailing codec input = .ok (value, rest)) :
    input = encodeOptional codec value ++ rest ∧ (value = none → rest = []) := by
  unfold decodeTrailing at h
  split at h
  · rename_i hempty
    cases h
    exact ⟨hempty, fun _ => rfl⟩
  · rcases bind_ok h with ⟨⟨found, tail⟩, hf, h⟩
    cases h
    exact ⟨hcodec _ _ _ hf, nofun⟩

end Trailing

/-! ## Proposals -/

namespace DbftPrepareRequest

variable {request : DbftPrepareRequest}

/-- The proposal with the parent seal hash that is written. -/
def filled (request : DbftPrepareRequest) : DbftPrepareRequest :=
  { request with parentSealHashV0 := request.effectiveParentSealHash }

theorem parentExtra_of_effective (h : request.effectiveParentSealHash = none) :
    request.parentExtra = none := by
  unfold effectiveParentSealHash at h
  split at h
  · cases h
  · exact Option.map_eq_none_iff.mp h

/-- A proposal whose header is read back is read back, with the placeholder that was written. -/
theorem decode_encode (hheader : Header.codec.RoundTrips request.sealingProposal)
    (hfits : (codec.encode request).length < 2 ^ 64) (rest : Bytes) :
    codec.decode (codec.encode request ++ rest) = .ok (request.filled, rest) := by
  have hlen := (length_le_encodeList _).trans_lt hfits
  have houter := @decodePayload_encodePayload true _ hlen rest
  simp only [List.length_append] at hlen
  have hhashes : hashesCodec.RoundTrips request.transactionHashes :=
    Codec.Faithful.listOf (fun hash _ => Header.b256_roundTrips hash)
      (fun hash => (DbftRecoveryMessage.distinguished_b256 hash).1) nofun
        (by unfold hashesCodec at hlen; omega)
  have hextra : ∀ extra ∈ request.parentExtra, Codec.bytes.RoundTrips extra ∧
      Codec.bytes.encode extra ≠ [] := by
    intro extra hmem
    rw [Option.mem_def.mp hmem] at hlen
    have hle := length_le_encodeString extra
    have hsize : (Codec.bytes.encode extra).length < 2 ^ 64 := by
      simp only [encodeOptional] at hlen
      omega
    exact ⟨Codec.bytes_faithful extra hsize, encodeString_ne_nil _⟩
  have hseal := @decodeTrailing_encodeOptional _ _ _
    (encodeOptional Codec.bytes request.parentExtra)
    (fun hash (_ : hash ∈ request.effectiveParentSealHash) =>
      ⟨Header.b256_roundTrips hash, (DbftRecoveryMessage.distinguished_b256 hash).1⟩)
    (fun h => by rw [parentExtra_of_effective h]; rfl)
  have hlast := decodeTrailing_encodeOptional hextra fun _ => rfl
  rw [List.append_nil] at hlast
  simp only [codec] at houter ⊢
  rw [show encodeList = encodePayload true from rfl, houter, ok_bind]
  simp only [List.append_assoc]
  rw [hheader, ok_bind]
  simp only
  rw [hhashes, ok_bind]
  simp only
  rw [hseal, ok_bind]
  simp only
  rw [hlast]
  rfl

theorem canonical (hheader : Header.codec.Canonical) : codec.Canonical := by
  intro input request rest h
  rcases bind_ok h with ⟨⟨payload, tail⟩, hp, h⟩
  rcases bind_ok h with ⟨⟨proposal, afterHeader⟩, hprop, h⟩
  rcases bind_ok h with ⟨⟨hashes, afterHashes⟩, hhashes, h⟩
  rcases bind_ok h with ⟨⟨sealHash, afterSeal⟩, hseal, h⟩
  rcases bind_ok h with ⟨⟨extra, left⟩, hextra, h⟩
  obtain ⟨hleft, h⟩ := require_bind h
  cases h
  obtain ⟨hseal, hnone⟩ := decodeTrailing_eq_ok (Codec.fixed_canonical 32) hseal
  -- A missing seal hash was the end of the payload, so there is no placeholder to write.
  have heffe : effectiveParentSealHash ⟨proposal, hashes, sealHash, extra⟩ = sealHash := by
    cases sealHash with
    | some hash => rfl
    | none =>
      rw [hnone rfl] at hextra
      cases hextra
      rfl
  rw [(decodePayload_eq_ok hp).1, hheader _ _ _ hprop,
    Codec.Canonical.listOf (Codec.fixed_canonical 32) _ _ _ _ _ hhashes, hseal,
    (decodeTrailing_eq_ok Codec.bytes_canonical hextra).1, hleft]
  simp only [codec, heffe, List.append_nil, List.append_assoc]
  rfl

end DbftPrepareRequest

/-! ## Share packets -/

section Packets

variable [Crypto]

def takeShares : Nat → Bytes → Except DecryptionShareCodecError (List G1Bytes × Bytes)
  | 0, input => .ok ([], input)
  | count + 1, input => do
    let share ← ofOption .invalidShare (FixedBytes.ofBytes? 48 (input.take decryptionShareLen))
    require (Crypto.validG1 share = true) .invalidShare
    let (shares, rest) ← takeShares count (input.drop decryptionShareLen)
    .ok (share :: shares, rest)

/-- Decode the shares of both rounds from a packet. -/
def decodeDecryptionShares (encoded : Bytes) :
    Except DecryptionShareCodecError (List G1Bytes × List G1Bytes) := do
  require (precommitCountPrefixLen ≤ encoded.length) (.tooShort encoded.length)
  let currentLen := DbftPreCommit.littleEndian (encoded.take 4)
  let previousLen := DbftPreCommit.littleEndian ((encoded.drop 4).take 4)
  let total := currentLen + previousLen
  require (total < 2 ^ 64) (.tooManyShares (2 ^ 64 - 1))
  require (total ≤ maxDecryptionSharesPerBlock) (.tooManyShares total)
  let expected := precommitCountPrefixLen + total * decryptionShareLen
  require (encoded.length = expected) (.wrongLength expected encoded.length)
  let (current, rest) ← takeShares currentLen (encoded.drop precommitCountPrefixLen)
  let (previous, _) ← takeShares previousLen rest
  .ok (current, previous)

/-- The shares that are read are the pieces of the input, if all of them are points. -/
theorem takeShares_eq_ok {count : Nat} {input rest : Bytes} {shares : List G1Bytes}
    (hlen : count * 48 ≤ input.length) :
    takeShares count input = .ok (shares, rest) ↔
      shares = FixedBytes.chunks 48 count input ∧ rest = input.drop (count * 48) ∧
        shares.all Crypto.validG1 = true := by
  induction count generalizing input shares rest with
  | zero =>
    simp only [takeShares, FixedBytes.chunks, Nat.zero_mul, List.drop_zero, Except.ok.injEq,
      Prod.mk.injEq]
    constructor
    · rintro ⟨rfl, rfl⟩
      exact ⟨rfl, rfl, rfl⟩
    · rintro ⟨rfl, rfl, -⟩
      exact ⟨rfl, rfl⟩
  | succ count ih =>
    have hfirst : FixedBytes.ofBytes? 48 (input.take decryptionShareLen)
        = some (FixedBytes.first 48 input) := by
      rw [decryptionShareLen, ← FixedBytes.bytes_first (by omega), FixedBytes.ofBytes?_bytes]
    have hrest : count * 48 ≤ (input.drop 48).length := by
      rw [List.length_drop]
      omega
    rw [takeShares, hfirst, FixedBytes.chunks]
    simp only [ofOption, ok_bind, bind_eq_ok, require_eq_ok, Prod.exists, decryptionShareLen,
      ih hrest, List.drop_drop]
    constructor
    · rintro ⟨_, hvalid, others, left, ⟨rfl, rfl, hall⟩, h⟩
      cases h
      exact ⟨rfl, by rw [Nat.succ_mul, Nat.add_comm], by simp [hvalid, hall]⟩
    · rintro ⟨rfl, rfl, hall⟩
      simp only [List.all_cons, Bool.and_eq_true] at hall
      exact ⟨(), hall.1, _, _, ⟨rfl, rfl, hall.2⟩, by rw [Nat.succ_mul, Nat.add_comm]⟩

omit [Crypto] in
theorem chunks_add (first second : Nat) (bytes : Bytes) :
    FixedBytes.chunks 48 (first + second) bytes = FixedBytes.chunks 48 first bytes ++
      FixedBytes.chunks 48 second (bytes.drop (first * 48)) := by
  induction first generalizing bytes with
  | zero => simp [FixedBytes.chunks]
  | succ first ih =>
    rw [Nat.succ_add, FixedBytes.chunks, ih, FixedBytes.chunks, List.drop_drop, Nat.succ_mul,
      Nat.add_comm 48, List.cons_append]

/-- Both decoders accept the same packets, with the same shares. -/
theorem decodeDecryptionShares_iff {data : Bytes} {current previous : List G1Bytes} :
    decodeDecryptionShares data = .ok (current, previous) ↔
      DbftPreCommit.fromData data = .ok ⟨current, previous, data⟩ := by
  unfold decodeDecryptionShares DbftPreCommit.fromData DbftPreCommit.decodeShares
  generalize DbftPreCommit.littleEndian (data.take 4) = currentLen
  generalize DbftPreCommit.littleEndian ((data.drop 4).take 4) = previousLen
  simp only [bind_eq_ok, require_eq_ok, exists_const, Prod.exists]
  simp only [maxDecryptionSharesPerBlock, precommitCountPrefixLen, decryptionShareLen]
  refine and_congr_right fun _ => ?_
  by_cases htotal : currentLen + previousLen ≤ 1000 ∧
      data.length = 8 + (currentLen + previousLen) * 48
  · obtain ⟨hcount, hlen⟩ := htotal
    have hdrop : (data.drop 8).length = (currentLen + previousLen) * 48 := by
      rw [List.length_drop]
      omega
    have hrest : previousLen * 48 ≤ ((data.drop 8).drop (currentLen * 48)).length := by
      rw [List.length_drop]
      omega
    simp only [hcount, hlen, true_and, show currentLen + previousLen < 2 ^ 64 by omega,
      show currentLen + previousLen < 2 ^ 32 by omega, chunks_add,
      List.take_left' (FixedBytes.length_chunks _ _),
      List.drop_left' (FixedBytes.length_chunks _ _)]
    constructor
    · rintro ⟨found, rest, hfound, other, left, hother, h⟩
      obtain ⟨rfl, rfl, hall⟩ := (takeShares_eq_ok (by omega)).mp hfound
      obtain ⟨rfl, -, hothers⟩ := (takeShares_eq_ok hrest).mp hother
      cases h
      exact ⟨_, ⟨hall, rfl⟩, _, ⟨hothers, rfl⟩, rfl⟩
    · rintro ⟨found, ⟨hall, hfound⟩, other, ⟨hothers, hother⟩, h⟩
      cases hfound
      cases hother
      cases h
      exact ⟨_, _, (takeShares_eq_ok (by omega)).mpr ⟨rfl, rfl, hall⟩, _, _,
        (takeShares_eq_ok hrest).mpr ⟨rfl, rfl, hothers⟩, rfl⟩
  · constructor
    · rintro ⟨-, hcount, hlen, -⟩
      exact absurd ⟨hcount, hlen⟩ htotal
    · rintro ⟨-, hcount, hlen, -⟩
      exact absurd ⟨hcount, hlen⟩ htotal

/-- Recovery messages within their limits around a complete item are read back. Proposals are read
back with the placeholder of a missing parent seal hash, and accepted proposals are written back, as
far as that holds of their headers. Both decoders of share packets accept the same packets, and read
back what was written. -/
theorem payload_codecs :
    (∀ recovery : DbftRecoveryMessage, recovery.validateLimits = .ok () →
      (∀ request ∈ recovery.prepareRequest, DbftConsensusData.OneItem request.payload) →
      recovery.encodeFields.length < 2 ^ 64 →
      DbftRecoveryMessage.codec.decodeExact (DbftRecoveryMessage.codec.encode recovery)
        = .ok recovery) ∧
    (∀ request : DbftPrepareRequest, Header.codec.RoundTrips request.sealingProposal →
      (DbftPrepareRequest.codec.encode request).length < 2 ^ 64 →
      DbftPrepareRequest.codec.decodeExact (DbftPrepareRequest.codec.encode request)
        = .ok ⟨request.sealingProposal, request.transactionHashes, request.parentSealHashV0.or
          (request.parentExtra.map fun _ => .zero 32), request.parentExtra⟩) ∧
    (Header.codec.Canonical → ∀ input request,
      DbftPrepareRequest.codec.decodeExact input = .ok request →
      DbftPrepareRequest.codec.encode request = input) ∧
    (∀ data current previous, decodeDecryptionShares data = .ok (current, previous) ↔
      DbftPreCommit.fromData data = .ok ⟨current, previous, data⟩) ∧
    ∀ current previous data, encodeDecryptionShares current previous = .ok data →
      (∀ share ∈ current ++ previous, Crypto.validG1 share = true) →
      decodeDecryptionShares data = .ok (current, previous) ∧
        DbftPreCommit.fromData data = .ok ⟨current, previous, data⟩ := by
  refine ⟨fun recovery hlimits hitem hfits =>
    (DbftRecoveryMessage.codec_roundTrips hlimits hitem hfits).decodeExact, ?_, ?_,
    fun _ _ _ => decodeDecryptionShares_iff, ?_⟩
  · intro request hheader hfits
    have hdecode := DbftPrepareRequest.decode_encode hheader hfits []
    rw [List.append_nil] at hdecode
    rw [Codec.decodeExact_eq_ok, hdecode, DbftPrepareRequest.filled]
    cases h : request.parentSealHashV0 <;> simp [DbftPrepareRequest.effectiveParentSealHash, h]
  · intro hheader input request h
    exact ((DbftPrepareRequest.canonical hheader).of_decodeExact h).symm
  · intro current previous data h hvalid
    have hdata := DbftPreCommit.fromData_encodeDecryptionShares h hvalid
    exact ⟨decodeDecryptionShares_iff.mpr hdata, hdata⟩

end Packets

/-- A recovery message around a request without a payload. -/
def emptyRequest : DbftRecoveryMessage :=
  ⟨[], [], [], none, some ⟨.prepareRequest, 0, 0, 0, []⟩, []⟩

open ScalarCurve in
/-- It is within the limits, and its encoding is refused. -/
theorem emptyRequest_refused : emptyRequest.validateLimits = .ok () ∧
    DbftRecoveryMessage.codec.decodeExact (DbftRecoveryMessage.codec.encode emptyRequest)
      = .error .inputTooShort :=
  ⟨rfl, by decide⟩

end NeoX
