import NeoX.AntiMev.Decryption

/-!
# Threshold sealing

Signature shares of committee members over a block hash and the seal they interpolate to, on a
curve whose functions are the ones that the aggregation of `NeoX.AntiMev.Threshold` calls.

Main results:

- `validAggregate_iff`: a public key and a message have one seal.
- `sealing_robust`: enough members with the shares of one polynomial seal a block with
  the one seal of the committee, whatever else is contributed.
-/

namespace NeoX

open List
open Except hiding ok error

section Curve

variable [Curve]

/-- A share and the point it encodes. -/
def Decodes (share : UInt32 × G2Bytes) (point : UInt32 × G2) : Prop :=
  share.1 = point.1 ∧ uncompress2 share.2 = some point.2

/-- The functions of signature aggregation are those of the curve. -/
class CurveCrypto [Crypto] : Prop where
  validG2_iff : ∀ encoded, Crypto.validG2 encoded = true ↔ (uncompress2 encoded).isSome = true
  keyValidate_iff : ∀ encoded,
    Crypto.keyValidate encoded = true ↔ ∃ point, uncompress1 encoded = some point ∧ point ≠ 0
  sigValidate_iff : ∀ encoded,
    Crypto.sigValidate encoded = true ↔ ∃ point, uncompress2 encoded = some point ∧ point ≠ 0
  /-- Verification of decoded points other than infinity. -/
  blsVerify_iff : ∀ (message : Bytes) {publicKey : G1Bytes} {signature : G2Bytes} {key : G1}
    {point : G2}, uncompress1 publicKey = some key → key ≠ 0 →
      uncompress2 signature = some point → point ≠ 0 →
      (Crypto.blsVerify publicKey signature message = true ↔
        pairing key (hashToCurve message) = pairing generator1 point)
  interpolateSignatureShares_eq : ∀ {shares : List (UInt32 × G2Bytes)}
    {points : List (UInt32 × G2)} (scaler : UInt64), List.Forall₂ Decodes shares points →
      Crypto.interpolateSignatureShares shares scaler = compress2 (interpolateShares points scaler)

/-! ## Shares and seals -/

/-- The signature of a scalar over a message, negated on request. -/
def sealPoint (secret : Scalar) (message : Bytes) (negateResult : Bool) : G2 :=
  if negateResult then -(secret • hashToCurve message) else secret • hashToCurve message

/-- The signature of a scalar as it is sent: the sort bit is flipped on request. -/
def signatureBytes (secret : Scalar) (message : Bytes) (negateResult : Bool) : G2Bytes :=
  if negateResult then flipSortBit (compress2 (secret • hashToCurve message))
  else compress2 (secret • hashToCurve message)

/-- Sign the message of a threshold seal with a private share. -/
def signShare (message : Bytes) (privateKey : B256) (negateResult : Bool) :
    Except TpkeError G2Bytes := do
  let key ← ofOption .invalidPrivateKey (secretScalar privateKey)
  let encoded := signatureBytes key message negateResult
  let _ ← decodeG2 encoded "signature share"
  .ok encoded

variable {point : G2}

theorem uncompress2_flip_iff {r : G2} :
    uncompress2 (flipSortBit (compress2 point)) = some r ↔ point ≠ 0 ∧ r = -point := by
  by_cases h0 : point = 0
  · rw [h0, Curve.uncompress2_flipSortBit_zero]
    simp
  · rw [Curve.uncompress2_flipSortBit point h0, Option.some.injEq, eq_comm]
    simp [h0]

variable {message : Bytes} {secret : Scalar}

/-- A share that was made is the signature of the private scalar. -/
theorem signShare_spec {privateKey : B256} {negateResult : Bool} {share : G2Bytes}
    (hkey : secretScalar privateKey = some secret)
    (h : signShare message privateKey negateResult = .ok share) :
    share = signatureBytes secret message negateResult ∧
      uncompress2 share = some (sealPoint secret message negateResult) := by
  rcases bind_ok h with ⟨key, hread, h⟩
  rcases bind_ok h with ⟨point, hpt, h⟩
  rw [hkey, ofOption_eq_ok] at hread
  cases hread
  cases h
  rw [decodeG2, ofOption_eq_ok] at hpt
  refine ⟨rfl, ?_⟩
  cases negateResult with
  | false => exact Curve.uncompress2_compress2 _
  | true =>
    have hneg := uncompress2_flip_iff.mp hpt
    exact hpt.trans (congrArg some hneg.2)

theorem sealPoint_ne_zero (hsec : secret ≠ 0) (hm : hashToCurve message ≠ (0 : G2))
    (negateResult : Bool) : sealPoint secret message negateResult ≠ 0 := by
  have hpt : secret • hashToCurve message ≠ (0 : G2) := smul_ne_zero hsec hm
  cases negateResult with
  | false => exact hpt
  | true => exact neg_ne_zero.mpr hpt

/-! ## The seal of a committee -/

theorem uncompress2_candidate (negatedResult : Bool) (hne : point ≠ 0) :
    uncompress2 (if negatedResult then flipSortBit (compress2 point) else compress2 point)
      = some (if negatedResult then -point else point) := by
  cases negatedResult with
  | false => exact Curve.uncompress2_compress2 point
  | true => exact Curve.uncompress2_flipSortBit point hne

variable {negatedResult : Bool}

theorem eq_sealPoint_iff :
    point = sealPoint secret message negatedResult ↔
      (if negatedResult then -point else point) = secret • hashToCurve message := by
  cases negatedResult with
  | false => rfl
  | true => exact neg_eq_iff_eq_neg.symm

theorem pairing_secret_iff :
    pairing (secret • generator1) (hashToCurve message) = pairing generator1 point ↔
      point = secret • hashToCurve message := by
  rw [map_smul, LinearMap.smul_apply, ← map_smul]
  constructor
  · intro h
    exact (pairing_generator1_injective h).symm
  · rintro rfl
    rfl

theorem signShare_of_read {privateKey : B256} {negateResult : Bool}
    (hkey : secretScalar privateKey = some secret)
    (hread : uncompress2 (signatureBytes secret message negateResult) = some point) :
    signShare message privateKey negateResult
      = .ok (signatureBytes secret message negateResult) := by
  apply bind_eq_ok.mpr
  refine ⟨secret, ofOption_eq_ok.mpr hkey, ?_⟩
  exact bind_eq_ok.mpr ⟨point, ofOption_eq_ok.mpr hread, rfl⟩

/-- Nonzero scalars sign every message that does not hash to infinity; without negation the others
are signed too. -/
theorem signShare_eq {privateKey : B256} {negateResult : Bool}
    (hkey : secretScalar privateKey = some secret) (hsec : secret ≠ 0)
    (hm : negateResult = true → hashToCurve message ≠ (0 : G2)) :
    signShare message privateKey negateResult
      = .ok (signatureBytes secret message negateResult) := by
  cases negateResult with
  | false => exact signShare_of_read hkey (Curve.uncompress2_compress2 _)
  | true =>
    have hpt : secret • hashToCurve message ≠ (0 : G2) := smul_ne_zero hsec (hm rfl)
    exact signShare_of_read hkey (Curve.uncompress2_flipSortBit _ hpt)

variable [Crypto] [CurveCrypto]

theorem keyValidate_smul_generator1 :
    Crypto.keyValidate (compress1 (secret • (generator1 : G1))) = true ↔ secret ≠ 0 := by
  rw [CurveCrypto.keyValidate_iff, Curve.uncompress1_compress1]
  simp [smul_eq_zero, generator1_ne_zero]

/-- Under the key of a secret there is one valid seal of a message. -/
theorem validAggregate_iff :
    ValidAggregate message (compress1 (secret • generator1)) negatedResult (compress2 point) ↔
      secret ≠ 0 ∧ point ≠ 0 ∧ point = sealPoint secret message negatedResult := by
  have hread : uncompress1 (compress1 (secret • (generator1 : G1))) = some (secret • generator1) :=
    Curve.uncompress1_compress1 _
  rw [ValidAggregate, keyValidate_smul_generator1]
  by_cases hsec : secret = 0
  · simp [hsec]
  by_cases hpt : point = 0
  · -- Infinity is refused, and so is its encoding with a sort bit.
    have hrefu : ¬ Crypto.sigValidate (if negatedResult then flipSortBit (compress2 point)
        else compress2 point) = true := by
      rw [CurveCrypto.sigValidate_iff]
      rintro ⟨r, hres, hne⟩
      cases negatedResult with
      | false =>
        rw [if_neg Bool.false_ne_true, Curve.uncompress2_compress2] at hres
        exact hne ((Option.some.inj hres).symm.trans hpt)
      | true => exact (uncompress2_flip_iff.mp hres).1 hpt
    exact ⟨fun h => absurd h.2.1 hrefu, fun h => absurd hpt h.2.1⟩
  · have hcand := uncompress2_candidate negatedResult hpt
    have hne : (if negatedResult then -point else point) ≠ 0 := by
      cases negatedResult with
      | false => exact hpt
      | true => exact neg_ne_zero.mpr hpt
    have hnonz : secret • (generator1 : G1) ≠ 0 := smul_ne_zero hsec generator1_ne_zero
    have hver := CurveCrypto.blsVerify_iff message hread hnonz hcand hne
    have hval := (CurveCrypto.sigValidate_iff _).mpr ⟨_, hcand, hne⟩
    rw [hver, pairing_secret_iff, ← eq_sealPoint_iff]
    exact ⟨fun h => ⟨h.1, hpt, h.2.2⟩, fun h => ⟨h.1, hval, h.2.2⟩⟩

variable {shares : List (UInt32 × G2Bytes)}

theorem exists_decodes (hval : ∀ share ∈ shares, Crypto.validG2 share.2 = true) :
    ∃ points, List.Forall₂ Decodes shares points := by
  induction shares with
  | nil => exact ⟨[], List.Forall₂.nil⟩
  | cons share shares ih =>
    rcases forall_mem_cons.mp hval with ⟨hsh, hr⟩
    rcases Option.isSome_iff_exists.mp ((CurveCrypto.validG2_iff _).mp hsh) with
      ⟨point, hpt⟩
    rcases ih hr with ⟨points, hpts⟩
    exact ⟨(share.1, point) :: points, List.Forall₂.cons ⟨rfl, hpt⟩ hpts⟩

/-- Whatever shares are contributed, what the search returns under the key of a secret is the seal
of that secret. -/
theorem eq_sealPoint_of_aggregate {t maxShares : Nat} {scaler : UInt64} {sig : G2Bytes}
    (h : aggregateAndVerifySignatureShares message (compress1 (secret • generator1)) shares
      t scaler negatedResult maxShares = .ok sig) :
    sig = compress2 (sealPoint secret message negatedResult) := by
  have hpts := validG2_of_aggregate h
  rcases aggregateAndVerifySignatureShares_spec h with
    ⟨selected, hsubp, -, -, -, hsig, hval⟩
  rcases exists_decodes fun share hmem => hpts share (hsubp.subset hmem) with
    ⟨points, hdeco⟩
  rw [CurveCrypto.interpolateSignatureShares_eq scaler hdeco] at hsig
  rw [hsig] at hval ⊢
  rw [(validAggregate_iff.mp hval).2.2]

theorem aggregate_ne_ok_of_hashToCurve_eq_zero (hm : hashToCurve message = (0 : G2))
    {t maxShares : Nat} {scaler : UInt64} {signature : G2Bytes} :
    aggregateAndVerifySignatureShares message (compress1 (secret • generator1)) shares t
      scaler negatedResult maxShares ≠ .ok signature := by
  intro h
  have hsig := eq_sealPoint_of_aggregate h
  rcases aggregateAndVerifySignatureShares_spec h with ⟨_, -, -, -, -, -, hval⟩
  rw [hsig] at hval
  apply (validAggregate_iff.mp hval).2.1
  rw [sealPoint, hm, smul_zero, neg_zero, ite_self]

/-- Shares of one polynomial interpolate to the seal of its scaled value at zero. -/
theorem interpolateSignatureShares_signatureBytes {p : Polynomial Scalar} {idx : List UInt32}
    (hnd : idx.Nodup) (hdeg : p.degree < idx.length) (hpts : ∀ i ∈ idx,
      uncompress2 (signatureBytes (p.eval (i.toNat : Scalar)) message negatedResult)
        = some (sealPoint (p.eval (i.toNat : Scalar)) message negatedResult)) (scaler : UInt64) :
    Crypto.interpolateSignatureShares (idx.map fun i =>
        (i, signatureBytes (p.eval (i.toNat : Scalar)) message negatedResult)) scaler
      = compress2 (sealPoint ((scaler.toNat : Scalar) * p.eval 0) message negatedResult) := by
  have hdeco : List.Forall₂ Decodes
      (idx.map fun i =>
        (i, signatureBytes (p.eval (i.toNat : Scalar)) message negatedResult))
      (idx.map fun i =>
        (i, sealPoint (p.eval (i.toNat : Scalar)) message negatedResult)) := by
    rw [forall₂_map_left_iff, forall₂_map_right_iff, forall₂_same]
    exact fun i hi => ⟨rfl, hpts i hi⟩
  rw [CurveCrypto.interpolateSignatureShares_eq scaler hdeco]
  congr 1
  -- The negation moves to the hash of the message.
  have hseal : ∀ secret : Scalar, (sealPoint secret message negatedResult : G2)
      = secret • (if negatedResult then -hashToCurve message else hashToCurve message) := by
    intro secret
    cases negatedResult with
    | false => rfl
    | true => exact (smul_neg secret _).symm
  rw [hseal]
  apply interpolateShares_eq
  · simpa [Function.comp_def] using hnd
  · rwa [length_map]
  · intro point hmem
    rcases mem_map.mp hmem with ⟨i, -, rfl⟩
    exact hseal _

/-- The search finds the seal of the secret as soon as a threshold of shares are signatures of the
values of one polynomial. -/
theorem aggregateAndVerifySignatureShares_eq_seal {participants : Nat} {ps : DkgParameters}
    (hparam : DkgParameters.new participants = .ok ps) {p : Polynomial Scalar}
    (hdeg : p.degree < ps.threshold) (hsec : p.eval 0 ≠ 0) (hm : hashToCurve message ≠ (0 : G2))
    (hc : shares.length ≤ participants) (hpts : ∀ share ∈ shares, Crypto.validG2 share.2 = true)
    (hidx : ∀ i ∈ shares.map Prod.fst, i ≠ 0) (hnd : (shares.map Prod.fst).Nodup)
    {honest : List UInt32} (hdist : honest.Nodup) (henough : ps.threshold ≤ honest.length)
    (hread : ∀ i ∈ honest,
      uncompress2 (signatureBytes (p.eval (i.toNat : Scalar)) message negatedResult)
        = some (sealPoint (p.eval (i.toNat : Scalar)) message negatedResult))
    (hsigned : ∀ i ∈ honest,
      (i, signatureBytes (p.eval (i.toNat : Scalar)) message negatedResult) ∈ shares) :
    aggregateAndVerifySignatureShares message
      (compress1 (((ps.scaler.toNat : Scalar) * p.eval 0) • generator1)) shares
      ps.threshold ps.scaler negatedResult ps.participants
      = .ok (compress2 (sealPoint ((ps.scaler.toNat : Scalar) * p.eval 0) message
        negatedResult)) := by
  rcases DkgParameters.new_spec hparam with ⟨hpart, hscaler, hpos, -⟩
  have hscaled : (ps.scaler.toNat : Scalar) * p.eval 0 ≠ 0 := by
    refine mul_ne_zero (natCast_scalar_ne_zero ?_ ps.scaler.toNat_lt) hsec
    exact fun h0 => hscaler (UInt64.toNat_inj.mp h0)
  have hval : ValidAggregate message
      (compress1 (((ps.scaler.toNat : Scalar) * p.eval 0) • generator1)) negatedResult
      (compress2 (sealPoint ((ps.scaler.toNat : Scalar) * p.eval 0) message
        negatedResult)) :=
    validAggregate_iff.mpr ⟨hscaled, sealPoint_ne_zero hscaled hm negatedResult, rfl⟩
  rcases exists_combination hnd hdist hsigned henough with
    ⟨indices, hindi, hlen, hknown, hcomb⟩
  have hinte := interpolateSignatureShares_signatureBytes hindi
    (hlen.symm ▸ hdeg) (fun i hi => hread i (hknown i hi))
    ps.scaler
  have hlarge : ps.threshold ≤ shares.length :=
    henough.trans (length_le_of_contributed hdist hsigned)
  rw [← hinte] at hval
  -- The search succeeds, and under the global key it has one result.
  rcases exists_aggregate ⟨hpos, hlarge⟩ (hc.trans hpart.ge) hscaler hidx hnd
    hpts hcomb hval with ⟨signature, hsig⟩
  rw [hsig, eq_sealPoint_of_aggregate hsig]

/-- For every committee and every secret polynomial of a degree below the threshold with a secret
other than zero: as soon as a threshold of members signs a message that does not hash to infinity,
the search returns the seal of the secret, whatever else is contributed and in whatever order; and
under the global key it never returns anything else. -/
theorem sealing_robust {participants : Nat} {parameters : DkgParameters}
    (hparameters : DkgParameters.new participants = .ok parameters) {p : Polynomial Scalar}
    (hdegree : p.degree < parameters.threshold) (hsecret : p.eval 0 ≠ 0) {message : Bytes}
    (hmessage : hashToCurve message ≠ (0 : G2)) (negatedResult : Bool)
    {shares : List (UInt32 × G2Bytes)} (hcount : shares.length ≤ participants)
    (hpoints : ∀ share ∈ shares, Crypto.validG2 share.2 = true)
    (hindices : ∀ index ∈ shares.map Prod.fst, index ≠ 0) (hnodup : (shares.map Prod.fst).Nodup)
    {honest : List UInt32} (hdistinct : honest.Nodup)
    (henough : parameters.threshold ≤ honest.length)
    (hhonest : ∀ index ∈ honest, ∃ privateKey share,
      secretScalar privateKey = some (p.eval (index.toNat : Scalar)) ∧
      signShare message privateKey negatedResult = .ok share ∧ (index, share) ∈ shares) :
    aggregateAndVerifySignatureShares message
      (compress1 (((parameters.scaler.toNat : Scalar) * p.eval 0) • generator1)) shares
      parameters.threshold parameters.scaler negatedResult parameters.participants
      = .ok (compress2 (sealPoint ((parameters.scaler.toNat : Scalar) * p.eval 0) message
        negatedResult)) ∧
    ∀ others threshold maxShares signature,
      aggregateAndVerifySignatureShares message
        (compress1 (((parameters.scaler.toNat : Scalar) * p.eval 0) • generator1)) others
        threshold parameters.scaler negatedResult maxShares = .ok signature →
      signature = compress2 (sealPoint ((parameters.scaler.toNat : Scalar) * p.eval 0) message
        negatedResult) := by
  refine ⟨?_, fun _ _ _ _ => eq_sealPoint_of_aggregate⟩
  have hsigned : ∀ index ∈ honest,
      uncompress2 (signatureBytes (p.eval (index.toNat : Scalar)) message negatedResult)
        = some (sealPoint (p.eval (index.toNat : Scalar)) message negatedResult) ∧
      (index, signatureBytes (p.eval (index.toNat : Scalar)) message negatedResult) ∈ shares := by
    intro index hindex
    rcases hhonest index hindex with ⟨privateKey, share, hkey, hshare, hmem⟩
    rcases signShare_spec hkey hshare with ⟨rfl, hread⟩
    exact ⟨hread, hmem⟩
  exact aggregateAndVerifySignatureShares_eq_seal hparameters hdegree hsecret hmessage hcount
    hpoints
    hindices hnodup hdistinct henough (fun index hindex => (hsigned index hindex).1)
    (fun index hindex => (hsigned index hindex).2)

end Curve

/-! ## Seals on the curve of scalars -/

namespace ScalarCurve

/-- Aggregation with the functions of the curve of scalars. -/
scoped instance crypto : Crypto where
  keccak256 _ := .zero 32
  recoverAddress _ _ _ := none
  validG1 encoded := (uncompress1 encoded).isSome
  validG2 encoded := (uncompress2 encoded).isSome
  keyValidate encoded := (uncompress1 encoded).any fun point => point ≠ 0
  sigValidate encoded := (uncompress2 encoded).any fun point => point ≠ 0
  blsVerify publicKey signature message :=
    match uncompress1 publicKey, uncompress2 signature with
    | some key, some point => pairing key (hashToCurve message) = pairing generator1 point
    | _, _ => false
  interpolateSignatureShares shares scaler :=
    compress2 (interpolateShares (shares.filterMap fun share =>
      (uncompress2 share.2).map fun point => (share.1, point)) scaler)

scoped instance curveCrypto : CurveCrypto where
  validG2_iff _ := Iff.rfl
  keyValidate_iff encoded := by simp [Crypto.keyValidate, Option.any_eq_true]
  sigValidate_iff encoded := by simp [Crypto.sigValidate, Option.any_eq_true]
  blsVerify_iff message _ _ _ _ hkey _ hpoint _ := by simp [Crypto.blsVerify, hkey, hpoint]
  interpolateSignatureShares_eq scaler hdecodes := by
    simp only [Crypto.interpolateSignatureShares]
    congr 2
    induction hdecodes with
    | nil => rfl
    | cons hshare _ ih =>
      rw [List.filterMap_cons_some (by rw [hshare.2, hshare.1]; rfl), ih]

end ScalarCurve

section Example

open Polynomial ScalarCurve

/-- The secret polynomial of a committee of four, with a chosen secret. -/
noncomputable def exampleLine (secret : Nat) : Polynomial Scalar := X + C (secret : Scalar)

/-- Shares of three members of the committee, with a wrong share of the fourth. -/
noncomputable def exampleShares (secret : Nat) (message : Bytes) (negate : Bool) :
    List (UInt32 × G2Bytes) :=
  (4, signatureBytes 1 [1] false) :: [3, 1, 2].map fun index =>
    (index, signatureBytes ((exampleLine secret).eval (index.toNat : Scalar)) message negate)

/-- What is known of the shares of a committee of four with a threshold of three. -/
def ExampleShares (secret : Nat) (message : Bytes) (negate : Bool) : Prop :=
  (exampleShares secret message negate).length ≤ 4 ∧
  ((exampleShares secret message negate).map Prod.fst).Nodup ∧
  (∀ index ∈ (exampleShares secret message negate).map Prod.fst, index ≠ 0) ∧
  ∀ index ∈ ([1, 2, 3] : List UInt32), ∃ privateKey share,
    secretScalar privateKey = some ((exampleLine secret).eval (index.toNat : Scalar)) ∧
    signShare message privateKey negate = .ok share ∧
    (index, share) ∈ exampleShares secret message negate

theorem eval_exampleLine (secret i : Nat) :
    (exampleLine secret).eval (i : Scalar) = ((i + secret : ℕ) : Scalar) := by
  rw [exampleLine, eval_add, eval_X, eval_C, Nat.cast_add]

theorem degree_exampleLine (secret : Nat) : (exampleLine secret).degree < (3 : ℕ) := by
  rw [exampleLine, degree_X_add_C]
  decide

theorem secretScalar_ofNat {value : Nat} (hpos : value ≠ 0) (hlt : value < 2 ^ 64) :
    secretScalar (.ofNat 32 value) = some (value : Scalar) := by
  have hbig : 2 ^ 64 < scalarModulus := by decide +kernel
  have hv : (FixedBytes.ofNat 32 value).toNat = value := by
    rw [FixedBytes.toNat, FixedBytes.ofNat, BigEndian.ofBytes_toBytes, Nat.mod_eq_of_lt (by omega)]
  rw [secretScalar, hv, if_pos ⟨hpos, by omega⟩]

theorem hashToCurve_example : hashToCurve [1] ≠ (0 : G2) :=
  natCast_scalar_ne_zero (by decide) (by decide)

/-- The shares of the first three members are made with their private shares. -/
theorem exampleShares_spec {secret : Nat} (hlt : secret < 2 ^ 32) {message : Bytes} {negate : Bool}
    (hm : negate = true → hashToCurve message ≠ (0 : G2)) :
    ExampleShares secret message negate := by
  have hidx : (exampleShares secret message negate).map Prod.fst = [4, 3, 1, 2] := rfl
  have honest : List.Perm [1, 2, 3] ([3, 1, 2] : List UInt32) := by decide
  refine ⟨le_refl 4, by rw [hidx]; decide, by rw [hidx]; simp, ?_⟩
  intro i hmem
  have hpos : i.toNat + secret ≠ 0 := by
    have hi : i ≠ 0 := by
      rintro rfl
      exact absurd hmem (by decide)
    have hne : i.toNat ≠ 0 := fun h0 => hi (UInt32.toNat_inj.mp h0)
    omega
  have hb : i.toNat + secret < 2 ^ 64 := by
    have hi := i.toNat_lt
    omega
  have hkey := secretScalar_ofNat hpos hb
  rw [← eval_exampleLine] at hkey
  have hne : (exampleLine secret).eval (i.toNat : Scalar) ≠ 0 := by
    rw [eval_exampleLine]
    exact natCast_scalar_ne_zero hpos hb
  refine ⟨_, _, hkey, signShare_eq hkey hne hm, ?_⟩
  apply mem_cons_of_mem
  exact mem_map_of_mem (honest.mem_iff.mp hmem)

/-- All shares are points. -/
theorem validG2_exampleShares {secret : Nat} {message : Bytes} {negate : Bool}
    (h : ExampleShares secret message negate) :
    ∀ share ∈ exampleShares secret message negate, Crypto.validG2 share.2 = true := by
  intro share hmem
  rcases mem_cons.mp hmem with rfl | hmem
  · have hread : uncompress2 (signatureBytes 1 [1] false) = some ((1 : Scalar) • hashToCurve [1]) :=
      Curve.uncompress2_compress2 _
    exact (CurveCrypto.validG2_iff _).mpr (by rw [hread, Option.isSome_some])
  · rcases mem_map.mp hmem with ⟨i, hi, rfl⟩
    have honest : List.Perm [3, 1, 2] ([1, 2, 3] : List UInt32) := by decide
    rcases h.2.2.2 i (honest.mem_iff.mp hi) with ⟨privateKey, share, hkey, hsh, -⟩
    rcases signShare_spec hkey hsh with ⟨rfl, hread⟩
    exact (CurveCrypto.validG2_iff _).mpr (by rw [hread, Option.isSome_some])

/-- The committee seals a message in spite of the wrong share of the fourth member. -/
theorem sealing_robust_wrongShare :
    aggregateAndVerifySignatureShares [1]
      (compress1 ((((3 : UInt64).toNat : Scalar) * (exampleLine 5).eval 0) • generator1))
      (exampleShares 5 [1] true) 3 3 true 4
      = .ok (compress2 (sealPoint (((3 : UInt64).toNat : Scalar) * (exampleLine 5).eval 0) [1]
        true)) := by
  have hparameters : DkgParameters.new 4 = .ok ⟨4, 3, 3⟩ := by decide +kernel
  have hsecret : (exampleLine 5).eval 0 ≠ 0 := by
    have heval := eval_exampleLine 5 0
    rw [Nat.cast_zero] at heval
    rw [heval]
    exact natCast_scalar_ne_zero (by decide) (by decide)
  have hshares : ExampleShares 5 [1] true :=
    exampleShares_spec (by decide) fun _ => hashToCurve_example
  exact (sealing_robust hparameters (degree_exampleLine 5) hsecret hashToCurve_example true
    hshares.1 (validG2_exampleShares hshares) hshares.2.2.1 hshares.2.1
    (by decide : ([1, 2, 3] : List UInt32).Nodup) (by decide) hshares.2.2.2).1

/-- Without a secret other than zero the global key is infinity, which the search refuses although
a threshold of members signs; and it refuses a seal that is infinity. -/
theorem sealing_refused :
    DkgParameters.new 4 = .ok ⟨4, 3, 3⟩ ∧
    ((exampleLine 0).degree < (3 : ℕ) ∧ ExampleShares 0 [1] true ∧
      aggregateAndVerifySignatureShares [1]
        (compress1 ((((3 : UInt64).toNat : Scalar) * (exampleLine 0).eval 0) • generator1))
        (exampleShares 0 [1] true) 3 3 true 4 = .error .invalidGlobalPublicKey) ∧
    ((exampleLine 5).degree < (3 : ℕ) ∧ ExampleShares 5 [] false ∧
      ∀ signature, aggregateAndVerifySignatureShares []
        (compress1 ((((3 : UInt64).toNat : Scalar) * (exampleLine 5).eval 0) • generator1))
        (exampleShares 5 [] false) 3 3 false 4 ≠ .ok signature) := by
  have hshares : ExampleShares 0 [1] true :=
    exampleShares_spec (by decide) fun _ => hashToCurve_example
  have hzero : (exampleLine 0).eval 0 = 0 := by
    rw [exampleLine, Nat.cast_zero, C_0, add_zero, eval_X]
  have hkey : ¬ Crypto.keyValidate (compress1
      ((((3 : UInt64).toNat : Scalar) * (exampleLine 0).eval 0) • (generator1 : G1))) = true := by
    rw [keyValidate_smul_generator1, hzero, mul_zero]
    exact fun h => h rfl
  have hvalid : validateIndexedShares (exampleShares 0 [1] true) 3 = .ok () :=
    validateIndexedShares_of (List.cons_ne_nil _ _) (by decide) hshares.2.2.1 hshares.2.1
  have hempty : hashToCurve [] = (0 : G2) := (Nat.cast_zero : ((0 : ℕ) : Scalar) = 0)
  refine ⟨by decide +kernel, ⟨degree_exampleLine 0, hshares, ?_⟩, degree_exampleLine 5,
    exampleShares_spec (by decide) fun h => absurd h Bool.false_ne_true,
    fun _ => aggregate_ne_ok_of_hashToCurve_eq_zero hempty⟩
  rw [aggregateAndVerifySignatureShares, require_of _ ⟨by decide, by decide⟩, ok_bind,
    require_of _ hshares.1, ok_bind, hvalid, ok_bind, Except.require,
    if_neg hkey]
  rfl

end Example

end NeoX
