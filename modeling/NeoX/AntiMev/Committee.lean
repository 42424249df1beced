import NeoX.AntiMev.Sealing

/-!
# Committees that share a key

What members do together whose private shares are the values of one polynomial: every threshold of
them decrypts and seals as the secret of the polynomial does.

Main results:

- `thresholdDecrypt_eq`: a committee opens what its scaled secret opens, and fails
  where it fails.
- `thresholdSign_eq`: a committee seals with its scaled secret.
-/

namespace NeoX

open List
open Except hiding ok error

variable [Curve]

/-- The decryption share of a member for every ciphertext, with the index of the member. -/
def memberContribution (ciphertexts : List TpkeCiphertext) (member : UInt32 × B256) :
    Except TpkeError (UInt32 × List G1Bytes) := do
  let shares ← ciphertexts.mapM fun ciphertext => ciphertext.decryptionShare member.2
  .ok (member.1, shares)

/-- Members open ciphertexts with their private shares. -/
def thresholdDecrypt (parameters : DkgParameters) (globalPublicKey : G1Bytes)
    (members : List (UInt32 × B256)) (ciphertexts : List TpkeCiphertext) :
    Except TpkeError (List G1Bytes) := do
  let contributions ← members.mapM (memberContribution ciphertexts)
  aggregateAndDecryptKeysWithParameters ciphertexts globalPublicKey contributions
    parameters.threshold parameters

def memberSignature (message : Bytes) (negateResult : Bool) (member : UInt32 × B256) :
    Except TpkeError (UInt32 × G2Bytes) := do
  let share ← signShare message member.2 negateResult
  .ok (member.1, share)

/-- Members seal a message with their private shares. -/
def thresholdSign [Crypto] (parameters : DkgParameters) (globalPublicKey : G1Bytes)
    (members : List (UInt32 × B256)) (message : Bytes) (negateResult : Bool) :
    Except TpkeError G2Bytes := do
  let shares ← members.mapM (memberSignature message negateResult)
  aggregateAndVerifySignatureShares message globalPublicKey shares parameters.threshold
    parameters.scaler negateResult parameters.participants

/-- Enough members, with the values of a polynomial as their private shares. -/
structure HoldShares (parameters : DkgParameters) (p : Polynomial Scalar)
    (members : List (UInt32 × B256)) : Prop where
  degree_lt : p.degree < parameters.threshold
  nodup : (members.map Prod.fst).Nodup
  bounds : ∀ member ∈ members,
    1 ≤ member.1.toNat ∧ member.1.toNat ≤ parameters.participants
  share_eq : ∀ member ∈ members,
    secretScalar member.2 = some (p.eval (member.1.toNat : Scalar))
  enough : parameters.threshold ≤ members.length

omit [Curve] in
theorem secretScalar_ne_zero {enc : B256} {v : Scalar} (h : secretScalar enc = some v) : v ≠ 0 := by
  unfold secretScalar at h
  dsimp only at h
  split at h
  · next hv =>
      cases h
      intro h0
      rw [ZMod.natCast_eq_zero_iff] at h0
      have hle := Nat.le_of_dvd (Nat.pos_of_ne_zero hv.1) h0
      exact absurd hv.2 (by omega)
  · cases h

omit [Curve] in
theorem findSome?_eq_of_forall {α β : Type} {f : α → Option β} {found : Option β} {items : List α}
    (hne : items ≠ []) (h : ∀ item ∈ items, f item = found) : items.findSome? f = found := by
  cases found with
  | none => exact findSome?_eq_none_iff.mpr h
  | some v =>
    cases items with
    | nil => exact absurd rfl hne
    | cons item items => rw [findSome?_cons, h item mem_cons_self]

/-! ## Decryption -/

variable {ciphertexts : List TpkeCiphertext} {p : Polynomial Scalar}

theorem memberContribution_eq {member : UInt32 × B256}
    (h : secretScalar member.2 = some (p.eval (member.1.toNat : Scalar))) :
    memberContribution ciphertexts member
      = .ok (member.1, ciphertexts.map (polynomialShare p member.1)) := by
  have hshs : ciphertexts.mapM (fun ct => ct.decryptionShare member.2)
      = .ok (ciphertexts.map (polynomialShare p member.1)) := by
    apply mapM_eq_ok_of_forall₂
    rw [forall₂_map_right_iff, forall₂_same]
    intro ct _
    rw [TpkeCiphertext.decryptionShare, h, TpkeCiphertext.decodeG1_randomCommitment]
    rfl
  rw [memberContribution, hshs, ok_bind]

variable {contributions : List (UInt32 × List G1Bytes)}

/-- A selection of members with the shares of one polynomial does what its scaled secret does. -/
theorem decryptAll_of_mem {selected : List (UInt32 × List G1Bytes)} {t : Nat} (scaler : UInt64)
    (hdeg : p.degree < t) (hnd : (contributions.map Prod.fst).Nodup) (hshs : ∀ c ∈ contributions,
      c.2 = ciphertexts.map (polynomialShare p c.1))
    (hsel : selected ∈ combinations (sortShares contributions) t) :
    decryptAll (((scaler.toNat : Scalar) * p.eval 0) • generator1) scaler selected 0 ciphertexts
      = ciphertexts.mapM (openWithSecret ((scaler.toNat : Scalar) * p.eval 0)) := by
  rcases mem_combinations hsel with ⟨hsub, hlen⟩
  have hperm := sortShares_perm contributions
  have hidx : (selected.map Prod.fst).Nodup :=
    ((hperm.map Prod.fst).nodup_iff.mpr hnd).sublist (hsub.map Prod.fst)
  have heq : selected = (selected.map Prod.fst).map fun i =>
      (i, ciphertexts.map (polynomialShare p i)) := by
    rw [map_map]
    conv_lhs => rw [← map_id selected]
    refine map_congr_left fun c hmem => ?_
    exact Prod.ext rfl (hshs c (hperm.subset (hsub.subset hmem)))
  rw [heq]
  exact decryptAll_eq hidx (by rwa [length_map, hlen]) scaler ciphertexts

/-- The search over selections of shares of one polynomial ends as its scaled secret does. -/
theorem findSome?_decryptAll {t : Nat} (scaler : UInt64) (hdeg : p.degree < t)
    (hnd : (contributions.map Prod.fst).Nodup) (hshs : ∀ c ∈ contributions,
      c.2 = ciphertexts.map (polynomialShare p c.1))
    (henough : t ≤ contributions.length) :
    (combinations (sortShares contributions) t).findSome?
      (fun selected => (decryptAll (((scaler.toNat : Scalar) * p.eval 0) • generator1) scaler
        selected 0 ciphertexts).toOption)
      = (ciphertexts.mapM (openWithSecret ((scaler.toNat : Scalar) * p.eval 0))).toOption := by
  have hmem : ∀ i ∈ contributions.map Prod.fst,
      (i, ciphertexts.map (polynomialShare p i)) ∈ contributions := by
    intro i hi
    rcases mem_map.mp hi with ⟨c, hcont, rfl⟩
    rwa [← hshs c hcont]
  have hknown : t ≤ (contributions.map Prod.fst).length := by rwa [length_map]
  apply findSome?_eq_of_forall
  · rcases exists_combination hnd hnd hmem hknown with ⟨idx, -, -, -, hcomb⟩
    exact ne_nil_of_mem hcomb
  · intro selected hsel
    rw [decryptAll_of_mem scaler hdeg hnd hshs hsel]

variable {parameters : DkgParameters}

/-- Contributions of enough members with the shares of one polynomial open the ciphertexts that its
scaled secret opens. -/
theorem aggregateAndDecryptKeys_eq {participants : Nat}
    (hparam : DkgParameters.new participants = .ok parameters)
    (hdeg : p.degree < parameters.threshold) (hnd : (contributions.map Prod.fst).Nodup)
    (hbounds : ∀ c ∈ contributions,
      1 ≤ c.1.toNat ∧ c.1.toNat ≤ parameters.participants)
    (hshs : ∀ c ∈ contributions,
      c.2 = ciphertexts.map (polynomialShare p c.1))
    (henough : parameters.threshold ≤ contributions.length) :
    aggregateAndDecryptKeysWithParameters ciphertexts
      (compress1 (((parameters.scaler.toNat : Scalar) * p.eval 0) • generator1)) contributions
      parameters.threshold parameters
      = (ciphertexts.mapM (openWithSecret ((parameters.scaler.toNat : Scalar) * p.eval 0))).mapError
        fun _ => .decryptionAggregationFailed := by
  rcases DkgParameters.new_spec hparam with ⟨-, hscaler, hpos, -⟩
  by_cases hempty : ciphertexts = []
  · rw [hempty]
    rfl
  have helig : eligibleContributions ciphertexts.length contributions = contributions := by
    rw [eligibleContributions, filter_eq_self]
    intro c hmem
    rw [hshs c hmem, length_map]
    exact decide_eq_true rfl
  have hne : contributions ≠ [] := by
    intro hnil
    rw [hnil] at henough
    exact hpos (Nat.le_zero.mp henough)
  have hval : validateIndexedShares contributions parameters.scaler = .ok () := by
    apply validateIndexedShares_of hne hscaler _ hnd
    intro i hi h0
    rcases mem_map.mp hi with ⟨c, hcont, rfl⟩
    have hb := hbounds c hcont
    rw [h0] at hb
    exact absurd hb.1 (by decide)
  rw [aggregateAndDecryptKeysWithParameters, aggregateAndDecryptKeys,
    if_neg (by simpa using hempty), helig]
  dsimp only
  rw [require_of _ ⟨hpos, henough⟩, ok_bind, require_of _ (length_le_participants hbounds hnd),
    ok_bind, hval, ok_bind, Curve.uncompress1_compress1]
  dsimp only [Except.ofOption]
  rw [ok_bind, findSome?_decryptAll parameters.scaler hdeg hnd hshs henough]
  cases ciphertexts.mapM (openWithSecret ((parameters.scaler.toNat : Scalar) * p.eval 0)) with
  | error reason => rfl
  | ok keys => rfl

/-- A committee opens what its scaled secret opens, and fails where it fails. -/
theorem thresholdDecrypt_eq {participants : Nat}
    (hparam : DkgParameters.new participants = .ok parameters) {members : List (UInt32 × B256)}
    (hmemb : HoldShares parameters p members) (ciphertexts : List TpkeCiphertext) :
    thresholdDecrypt parameters
      (compress1 (((parameters.scaler.toNat : Scalar) * p.eval 0) • generator1)) members ciphertexts
      = (ciphertexts.mapM (openWithSecret ((parameters.scaler.toNat : Scalar) * p.eval 0))).mapError
        fun _ => .decryptionAggregationFailed := by
  have hmade : members.mapM (memberContribution ciphertexts) = .ok (members.map fun member =>
      (member.1, ciphertexts.map (polynomialShare p member.1))) := by
    apply mapM_eq_ok_of_forall₂
    rw [forall₂_map_right_iff, forall₂_same]
    exact fun member hmem => memberContribution_eq (hmemb.share_eq member hmem)
  rw [thresholdDecrypt, hmade, ok_bind]
  apply aggregateAndDecryptKeys_eq hparam hmemb.degree_lt
  · rw [map_map]
    exact hmemb.nodup
  · exact forall_mem_map.mpr hmemb.bounds
  · exact forall_mem_map.mpr fun member _ => rfl
  · rw [length_map]
    exact hmemb.enough

/-! ## Sealing -/

/-- A committee seals with its scaled secret. -/
theorem thresholdSign_eq [Crypto] [CurveCrypto] {participants : Nat}
    (hparam : DkgParameters.new participants = .ok parameters) {members : List (UInt32 × B256)}
    (hmemb : HoldShares parameters p members) (hsec : p.eval 0 ≠ 0) {msg : Bytes}
    (hm : hashToCurve msg ≠ (0 : G2)) (negateResult : Bool) :
    thresholdSign parameters
      (compress1 (((parameters.scaler.toNat : Scalar) * p.eval 0) • generator1)) members msg
      negateResult
      = .ok (compress2 (sealPoint ((parameters.scaler.toNat : Scalar) * p.eval 0) msg
        negateResult)) := by
  rcases DkgParameters.new_spec hparam with ⟨hc, -, -, -⟩
  generalize hshs : (members.map fun member => (member.1,
    signatureBytes (p.eval (member.1.toNat : Scalar)) msg negateResult)) = shares
  have hsigned : ∀ member ∈ members, signShare msg member.2 negateResult
      = .ok (signatureBytes (p.eval (member.1.toNat : Scalar)) msg negateResult) := by
    intro member hmember
    have hkey := hmemb.share_eq member hmember
    exact signShare_eq hkey (secretScalar_ne_zero hkey) fun _ => hm
  have hmade : members.mapM (memberSignature msg negateResult) = .ok shares := by
    apply mapM_eq_ok_of_forall₂
    rw [← hshs, forall₂_map_right_iff, forall₂_same]
    intro member hmember
    rw [memberSignature, hsigned member hmember, ok_bind]
  have hidx : shares.map Prod.fst = members.map Prod.fst := by
    rw [← hshs, map_map]
    rfl
  have hread : ∀ member ∈ members,
      uncompress2 (signatureBytes (p.eval (member.1.toNat : Scalar)) msg negateResult)
        = some (sealPoint (p.eval (member.1.toNat : Scalar)) msg negateResult) :=
    fun member hmember =>
      (signShare_spec (hmemb.share_eq member hmember) (hsigned member hmember)).2
  rw [thresholdSign, hmade, ok_bind]
  apply aggregateAndVerifySignatureShares_eq_seal hparam hmemb.degree_lt hsec hm
    _ _ _ (hidx ▸ hmemb.nodup) hmemb.nodup
    (by rw [length_map]; exact hmemb.enough)
  · intro i hi
    rcases mem_map.mp hi with ⟨member, hmember, rfl⟩
    exact hread member hmember
  · intro i hi
    rcases mem_map.mp hi with ⟨member, hmember, rfl⟩
    rw [← hshs]
    exact mem_map.mpr ⟨member, hmember, rfl⟩
  · rw [← hshs, length_map, ← hc]
    exact length_le_participants hmemb.bounds hmemb.nodup
  · intro share hmem
    rw [← hshs] at hmem
    rcases mem_map.mp hmem with ⟨member, hmember, rfl⟩
    rw [CurveCrypto.validG2_iff, hread member hmember, Option.isSome_some]
  · intro i hi h0
    rw [hidx] at hi
    rcases mem_map.mp hi with ⟨member, hmember, rfl⟩
    have hb := hmemb.bounds member hmember
    rw [h0] at hb
    exact absurd hb.1 (by decide)

end NeoX
