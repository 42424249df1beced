import NeoX.AntiMev.KeyGeneration

/-!
# Announcements and their polynomials

What exactly is accepted as an announcement. Its points are read at fixed offsets, the two random
points belong to one scalar, and the commitments and the public shares belong to one polynomial of a
degree below the threshold, coefficient by coefficient and value by value.

Main results:

- `DkgPvss.decodeWithParameters_eq_ok`: an announcement is accepted exactly if its
  points are read and pass the checks.
- `DkgPvss.verify_eq_ok`: the checks hold exactly for the points of a polynomial.
- `DkgPvss.decode_sound_complete`: acceptance, the check of a share and what members
  generate, in terms of the polynomial.
-/

namespace NeoX

open List
open Except hiding ok error

open BigEndian Polynomial

section Announcement

variable [Curve] {parameters : DkgParameters}

namespace DkgPvss

/-! ## Points at their offsets -/

def pointAt (encoded : Bytes) (offset size : Nat) : Bytes :=
  (encoded.drop offset).take size

/-- All points of an announcement are read at their offsets, and there is nothing else. -/
structure PointsAt (encoded : Bytes) (pvss : DkgPvss parameters) : Prop where
  length_eq : encoded.length = parameters.pvssLen
  commitments_length : pvss.commitments.length = parameters.threshold
  commitment_eq : ∀ (position : Nat) point, pvss.commitments[position]? = some point →
    decodeG1Eip2537 (pointAt encoded (position * 128) 128) "polynomial commitment" = .ok point
  randomG1_eq : decodeG1Eip2537 (pointAt encoded (parameters.threshold * 128) 128)
    "PVSS G1 randomizer" = .ok pvss.randomCommitmentG1
  randomG2_eq : decodeG2Eip2537 (pointAt encoded (parameters.threshold * 128 + 128) 256)
    "PVSS G2 randomizer" = .ok pvss.randomCommitmentG2
  shares_length : pvss.publicShares.length = parameters.participants
  share_eq : ∀ (position : Nat) point, pvss.publicShares[position]? = some point →
    decodeG1Eip2537 (pointAt encoded (parameters.threshold * 128 + 384 + position * 128) 128)
      "public secret share" = .ok point

/-- A list of points is read exactly if every point is. -/
theorem mapM_chunks_eq_ok {field : String} {count : Nat} {bs : Bytes}
    (hlen : count * 128 ≤ bs.length) {points : List G1} :
    (FixedBytes.chunks 128 count bs).mapM (fun point => decodeG1Eip2537 point.bytes field)
        = .ok points ↔
      points.length = count ∧ ∀ (pos : Nat) point, points[pos]? = some point →
        decodeG1Eip2537 (pointAt bs (pos * 128) 128) field = .ok point := by
  have hpieces : (FixedBytes.chunks 128 count bs).length = count :=
    FixedBytes.length_chunks count bs
  have hget {pos : Nat} (hpos : pos < (FixedBytes.chunks 128 count bs).length) :
      ((FixedBytes.chunks 128 count bs).get ⟨pos, hpos⟩).bytes =
        pointAt bs (pos * 128) 128 := by
    have hsome : (FixedBytes.chunks 128 count bs)[pos]? =
        some (FixedBytes.first 128 (bs.drop (pos * 128))) :=
      FixedBytes.getElem?_chunks bs (hpieces ▸ hpos)
    rw [List.getElem?_eq_getElem hpos] at hsome
    rw [List.get_eq_getElem, Option.some.inj hsome, FixedBytes.bytes_first, pointAt]
    rw [List.length_drop]
    omega
  rw [mapM_eq_ok, List.forall₂_iff_get]
  constructor
  · rintro ⟨hc, hread⟩
    refine ⟨hc.symm.trans hpieces, fun pos point hpt => ?_⟩
    obtain ⟨hlt, rfl⟩ := List.getElem?_eq_some_iff.mp hpt
    have he := hread pos (hc ▸ hlt) hlt
    rwa [hget] at he
  · rintro ⟨hc, hread⟩
    refine ⟨hpieces.trans hc.symm, fun pos hpos hlt => ?_⟩
    rw [hget hpos]
    exact hread pos _ (List.getElem?_eq_getElem hlt)

omit [Curve] in
theorem pointAt_drop (enc : Bytes) (a b size : Nat) :
    pointAt (enc.drop a) b size = pointAt enc (a + b) size := by
  rw [pointAt, pointAt, drop_drop]

variable {pvss : DkgPvss parameters}

theorem decodeWithParameters_eq_ok {enc : Bytes} :
    decodeWithParameters enc parameters = .ok pvss ↔
      PointsAt enc pvss ∧ pvss.verify = .ok () := by
  have h1 {size offset : Nat} (hfits : offset + size ≤ enc.length) :
      (FixedBytes.first size (enc.drop offset)).bytes = pointAt enc offset size := by
    rw [FixedBytes.bytes_first, pointAt]
    rw [length_drop]
    omega
  constructor
  · intro h
    obtain ⟨_, hlen, h⟩ := bind_ok h
    rw [require_eq_ok, DkgParameters.pvssLen] at hlen
    obtain ⟨coms, hcom, h⟩ := bind_ok h
    obtain ⟨randomCommitmentG1, hrand, h⟩ := bind_ok h
    obtain ⟨randomCommitmentG2, hrando, h⟩ := bind_ok h
    obtain ⟨publicShares, hpubl, h⟩ := bind_ok h
    obtain ⟨_, hver, h⟩ := bind_ok h
    cases h
    rw [mapM_chunks_eq_ok (by omega)] at hcom
    rw [drop_drop, mapM_chunks_eq_ok (by rw [length_drop]; omega)] at hpubl
    rw [h1 (by omega)] at hrand
    rw [drop_drop, h1 (by omega)] at hrando
    refine ⟨⟨hlen, hcom.1, hcom.2, hrand, hrando, hpubl.1, ?_⟩,
      hver⟩
    intro pos point hpt
    rw [← pointAt_drop]
    exact hpubl.2 pos point hpt
  · rintro ⟨h, hver⟩
    have hlen := h.length_eq
    rw [DkgParameters.pvssLen] at hlen
    have hcom := (mapM_chunks_eq_ok (by omega)).mpr
      ⟨h.commitments_length, h.commitment_eq⟩
    have hsh (pos : Nat) (point : G1) (hpt : pvss.publicShares[pos]? = some point) :
        decodeG1Eip2537 (pointAt (enc.drop (parameters.threshold * 128 + 384))
          (pos * 128) 128) "public secret share" = .ok point := by
      rw [pointAt_drop]
      exact h.share_eq pos point hpt
    have hpubl := (mapM_chunks_eq_ok (by rw [length_drop]; omega)).mpr
      ⟨h.shares_length, hsh⟩
    rw [decodeWithParameters, require_of _ h.length_eq, ok_bind, hcom, ok_bind]
    dsimp only
    rw [h1 (by omega), h.randomG1_eq, ok_bind, drop_drop, h1 (by omega), h.randomG2_eq, ok_bind,
      drop_drop, hpubl, ok_bind, hver, ok_bind]

/-! ## The polynomial -/

/-- The commitments and the public shares are those of a polynomial. -/
structure CommitsTo (pvss : DkgPvss parameters) (p : Scalar[X]) : Prop where
  degree_lt : p.degree < parameters.threshold
  commitment_eq : ∀ position < parameters.threshold,
    pvss.commitments[position]? = some (p.coeff position • generator1)
  share_eq : ∀ position < parameters.participants,
    pvss.publicShares[position]? = some (p.eval ((position + 1 : ℕ) : Scalar) • generator1)

/-- The random points are those of a scalar, the second one with a negative sign. -/
def RandomizedBy (pvss : DkgPvss parameters) (r : Scalar) : Prop :=
  pvss.randomCommitmentG1 = r • generator1 ∧ pvss.randomCommitmentG2 = -(r • generator2)

theorem CommitsTo.evaluate_eq {p : Scalar[X]} (h : pvss.CommitsTo p)
    (hlen : pvss.commitments.length = parameters.threshold) (x : Scalar) :
    Horner.evaluate x pvss.commitments = p.eval x • generator1 := by
  have hcom : pvss.commitments =
      ((range parameters.threshold).map p.coeff).map (· • generator1) := by
    apply ext_getElem?
    intro pos
    by_cases hpos : pos < parameters.threshold
    · rw [h.commitment_eq pos hpos, getElem?_map, getElem?_map, getElem?_range hpos]
      rfl
    · rw [getElem?_eq_none (by omega), getElem?_eq_none (by simpa using hpos)]
  rw [hcom, Horner.evaluate_map_smul, Horner.ofCoefficients_coeff h.degree_lt]

/-- Public points that pass the checks are those of one polynomial, and the other way round. -/
theorem verify_eq_ok (hcom : pvss.commitments.length = parameters.threshold)
    (hshs : pvss.publicShares.length = parameters.participants) :
    pvss.verify = .ok () ↔ (∃ p, pvss.CommitsTo p) ∧ ∃ r, pvss.RandomizedBy r := by
  have hrequ := TpkeCiphertext.commitmentSum_eq_zero pvss.randomCommitmentG1
    pvss.randomCommitmentG2
  constructor
  · intro h
    obtain ⟨hpair, hcheck⟩ := require_bind h
    obtain ⟨coeffs, hcoeff⟩ := exists_coefficients pvss.commitments
    have hlen : coeffs.length = parameters.threshold := by
      rw [← hcom, hcoeff, length_map]
    refine ⟨⟨Horner.ofCoefficients coeffs, ?_, ?_, ?_⟩, hrequ.mp hpair⟩
    · rw [← hlen]
      exact Horner.degree_ofCoefficients_lt coeffs
    · intro pos hpos
      have hlt : pos < coeffs.length := by omega
      rw [hcoeff, getElem?_map, Horner.coeff_ofCoefficients, getElem?_eq_getElem hlt]
      rfl
    · intro pos hpos
      have hsh := checkPublicShares_eq_ok hcheck pos (by omega)
      rwa [Nat.zero_add, hcoeff, Horner.evaluate_map_smul] at hsh
  · rintro ⟨⟨p, hp⟩, hrand⟩
    rw [verify, require_of _ (hrequ.mpr hrand), ok_bind]
    apply checkPublicShares_of
    intro pos hpos
    rw [Nat.zero_add, hp.evaluate_eq hcom]
    exact hp.share_eq pos (by omega)

theorem CommitsTo.verifyShare_iff {p : Scalar[X]} (h : pvss.CommitsTo p)
    (ht : parameters.threshold ≠ 0) {i : UInt64} {share : DkgSecretScalar} :
    pvss.verifyShare i share = .ok () ↔
      (1 ≤ i.toNat ∧ i.toNat ≤ parameters.participants) ∧
        share.value = p.eval (i.toNat : Scalar) := by
  refine verifyShare_eq_ok ⟨h.degree_lt, ?_, h.share_eq⟩
  rw [head?_eq_getElem?, h.commitment_eq 0 (Nat.pos_of_ne_zero ht), coeff_zero_eq_eval_zero]

theorem CommitsTo.eval_zero_ne_zero {p : Scalar[X]} (h : pvss.CommitsTo p)
    (ht : parameters.threshold ≠ 0) {enc : Bytes}
    (hpvss : decodeWithParameters enc parameters = .ok pvss) : p.eval 0 ≠ 0 := by
  have hcom := h.commitment_eq 0 (Nat.pos_of_ne_zero ht)
  have hpt := (decodeWithParameters_eq_ok.mp hpvss).1.commitment_eq 0 _ hcom
  intro h0
  rw [coeff_zero_eq_eval_zero, h0, zero_smul] at hpt
  exact decodeG1Eip2537_ne_zero hpt rfl

end DkgPvss

/-! ## What members generate -/

namespace DkgPolynomial

variable {polynomial : DkgPolynomial parameters}

noncomputable def toPolynomial (polynomial : DkgPolynomial parameters) : Scalar[X] :=
  Horner.ofCoefficients (polynomial.coefficients.map DkgSecretScalar.value)

/-- An announcement with the commitments of a member commits to the polynomial of the member. -/
theorem commitsTo_of_points {enc : Bytes} {pvss : DkgPvss parameters}
    (hpvss : DkgPvss.decodeWithParameters enc parameters = .ok pvss)
    (hcom : pvss.commitments = polynomial.points) :
    pvss.CommitsTo polynomial.toPolynomial where
  degree_lt := by
    have hdeg := Horner.degree_ofCoefficients_lt
      (polynomial.coefficients.map DkgSecretScalar.value)
    rwa [length_map, polynomial.length_eq] at hdeg
  commitment_eq position hpos := by
    have hlt : position < polynomial.coefficients.length := by
      rwa [polynomial.length_eq]
    rw [hcom, points, toPolynomial, Horner.coeff_ofCoefficients, getElem?_map,
      getElem?_map, getElem?_eq_getElem hlt]
    rfl
  share_eq position hpos := by
    rw [(DkgPvss.decode_eq_ok hpvss).2 position hpos, hcom, evaluate_points,
      Horner.evaluate_eq_eval, toPolynomial]

/-- What a member generates is accepted, commits to its polynomial, and accepts its shares. -/
theorem generatePvss_accepted (hpart : parameters.participants < 2 ^ 64) {entropy : Entropy}
    {material : DkgPvssMaterial} (h : polynomial.generatePvss entropy = .ok material) :
    ∃ pvss, DkgPvss.decodeWithParameters material.encoded parameters = .ok pvss ∧
      pvss.CommitsTo polynomial.toPolynomial ∧
      material.shares.length = parameters.participants ∧
      ∀ (pos : Nat) share, material.shares[pos]? = some share →
        pvss.verifyShare (UInt64.ofNat (pos + 1)) share = .ok () := by
  obtain ⟨randomizer, -, h⟩ := bind_ok h
  obtain ⟨pvss, hpvss, hcom⟩ := decode_generatePvss hpart h
  obtain ⟨shares, hshs, h⟩ := bind_ok h
  cases h
  have hvalues := List.forall₂_iff_get.mp (mapM_eq_ok.mp hshs)
  refine ⟨pvss, hpvss, commitsTo_of_points hpvss hcom, ?_, ?_⟩
  · rw [← hvalues.1, List.length_range]
  · intro pos share hsh
    obtain ⟨hlt, rfl⟩ := List.getElem?_eq_some_iff.mp hsh
    have hv := hvalues.2 pos (hvalues.1 ▸ hlt) hlt
    rw [List.get_eq_getElem, List.getElem_range] at hv
    exact verifyShare_evaluate hpvss hcom hv

end DkgPolynomial

/-- For every committee: bytes are accepted as an announcement exactly if their points are read,
the random points belong to one scalar, and the commitments and public shares belong to one
polynomial. A share is accepted exactly if it is the value of that polynomial, and what members
generate is accepted together with their shares. -/
theorem DkgPvss.decode_sound_complete {participants : Nat} {parameters : DkgParameters}
    (hparameters : DkgParameters.new participants = .ok parameters) :
    (∀ encoded (pvss : DkgPvss parameters),
      decodeWithParameters encoded parameters = .ok pvss ↔
        PointsAt encoded pvss ∧ (∃ p, pvss.CommitsTo p) ∧ ∃ r, pvss.RandomizedBy r) ∧
    (∀ (pvss : DkgPvss parameters) p, pvss.CommitsTo p → ∀ index share,
      pvss.verifyShare index share = .ok () ↔
        (1 ≤ index.toNat ∧ index.toNat ≤ parameters.participants) ∧
          share.value = p.eval (index.toNat : Scalar)) ∧
    (∀ (polynomial : DkgPolynomial parameters) entropy material,
      polynomial.generatePvss entropy = .ok material →
        ∃ pvss, decodeWithParameters material.encoded parameters = .ok pvss ∧
          pvss.CommitsTo polynomial.toPolynomial ∧
          material.shares.length = parameters.participants ∧
          ∀ (position : Nat) share, material.shares[position]? = some share →
            pvss.verifyShare (UInt64.ofNat (position + 1)) share = .ok ()) := by
  obtain ⟨-, -, hthreshold, -⟩ := DkgParameters.new_spec hparameters
  have hparticipants : parameters.participants < 2 ^ 64 :=
    lt_of_le_of_lt (DkgParameters.participants_le hparameters) (by decide)
  refine ⟨fun encoded pvss => ?_, fun pvss p hp index share => hp.verifyShare_iff hthreshold,
    fun polynomial entropy material h => polynomial.generatePvss_accepted hparticipants h⟩
  rw [decodeWithParameters_eq_ok]
  exact and_congr_right fun hpoints =>
    verify_eq_ok hpoints.commitments_length hpoints.shares_length

end Announcement

section Example

open ScalarCurve

/-- A committee of four has an announcement, with the polynomial that it commits to. -/
theorem DkgPvss.decode_sound_complete_committee :
    ∃ encoded, ∃ pvss : DkgPvss exampleCommittee,
      decodeWithParameters encoded exampleCommittee = .ok pvss ∧ PointsAt encoded pvss ∧
        (∃ p, pvss.CommitsTo p) ∧ ∃ r, pvss.RandomizedBy r := by
  have hparameters : DkgParameters.new 4 = .ok exampleCommittee := by decide +kernel
  obtain ⟨encoded, pvss, hpvss, -⟩ := exists_exampleAnnouncement (show 0 < 2 by decide)
  exact ⟨encoded, pvss, hpvss, ((decode_sound_complete hparameters).1 encoded pvss).mp hpvss⟩

end Example

end NeoX
