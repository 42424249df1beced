import NeoX.AntiMev.Curve

/-!
# Points as scalars

A curve on which every point is known by its discrete logarithm: both subgroups and the target
group are the scalar field, and the pairing is the product. It satisfies the assumptions
under which results of this development are stated.
-/

namespace NeoX
namespace ScalarCurve

open BigEndian

/-! ## Encodings -/

/-- The smaller of a residue and its negative. -/
def magnitude (value : Scalar) : Nat :=
  if scalarModulus < 2 * value.val then scalarModulus - value.val else value.val

/-- A sort bit in the first byte and the smaller of the two residues that differ by the sign. -/
def compressSigned (value : Scalar) : G2Bytes where
  bytes := (if scalarModulus < 2 * value.val then 0x20 else 0) :: toBytes 95 (magnitude value)
  length_eq := by rw [List.length_cons, length_toBytes]

/-- Read a sort bit and a residue. -/
def uncompressSigned (encoded : G2Bytes) : Option Scalar :=
  match encoded.bytes with
  | [] => none
  | sign :: rest =>
    let value := ofBytes rest
    if scalarModulus < 2 * value then none
    else if sign = 0 then some (value : Scalar)
    else if sign = 0x20 ∧ value ≠ 0 then some (-(value : Scalar))
    else none

theorem scalarModulus_lt : scalarModulus + 1 < 256 ^ 48 := by decide +kernel

theorem two_mul_magnitude_le (value : Scalar) : ¬ scalarModulus < 2 * magnitude value := by
  have hlt := ZMod.val_lt value
  unfold magnitude
  split <;> omega

theorem magnitude_lt (v : Scalar) : magnitude v < 256 ^ 95 := by
  have hlt := ZMod.val_lt v
  have hb : scalarModulus < 256 ^ 95 := by decide +kernel
  unfold magnitude
  split <;> omega

theorem cast_magnitude (value : Scalar) :
    (magnitude value : Scalar) = if scalarModulus < 2 * value.val then -value else value := by
  have hlt := ZMod.val_lt value
  unfold magnitude
  split
  · rw [Nat.cast_sub hlt.le, ZMod.natCast_self, ZMod.natCast_zmod_val, zero_sub]
  · rw [ZMod.natCast_zmod_val]

theorem magnitude_ne_zero {v : Scalar} (h : v ≠ 0) : magnitude v ≠ 0 := by
  intro h0
  have hcast := cast_magnitude v
  rw [h0, Nat.cast_zero] at hcast
  split at hcast
  · exact h (neg_eq_zero.mp hcast.symm)
  · exact h hcast.symm

theorem ofBytes_magnitude (value : Scalar) :
    ofBytes (toBytes 95 (magnitude value)) = magnitude value := by
  rw [ofBytes_toBytes, Nat.mod_eq_of_lt (magnitude_lt value)]

theorem uncompressSigned_compressSigned (value : Scalar) :
    uncompressSigned (compressSigned value) = some value := by
  have hcast := cast_magnitude value
  simp only [uncompressSigned, compressSigned, ofBytes_magnitude,
    if_neg (two_mul_magnitude_le value)]
  by_cases hsign : scalarModulus < 2 * value.val
  · have hne : value ≠ 0 := by
      rintro rfl
      rw [ZMod.val_zero] at hsign
      exact absurd hsign (Nat.not_lt_zero _)
    rw [if_pos hsign] at hcast ⊢
    rw [if_neg (by decide), if_pos ⟨rfl, magnitude_ne_zero hne⟩, hcast, neg_neg]
  · rw [if_neg hsign] at hcast ⊢
    rw [if_pos rfl, hcast]

theorem uncompressSigned_flipSortBit {v : Scalar} (hne : v ≠ 0) :
    uncompressSigned (flipSortBit (compressSigned v)) = some (-v) := by
  have hcast := cast_magnitude v
  simp only [uncompressSigned, flipSortBit, compressSigned, List.modifyHead_cons,
    ofBytes_magnitude, if_neg (two_mul_magnitude_le v)]
  by_cases hsign : scalarModulus < 2 * v.val
  · rw [if_pos hsign] at hcast ⊢
    rw [if_pos (by decide), hcast]
  · rw [if_neg hsign] at hcast ⊢
    rw [if_neg (by decide), if_pos ⟨by decide, magnitude_ne_zero hne⟩, hcast]

theorem uncompressSigned_flipSortBit_zero :
    uncompressSigned (flipSortBit (compressSigned 0)) = none := by
  have h0 : magnitude 0 = 0 := by
    rw [magnitude, ZMod.val_zero, if_neg (Nat.not_lt_zero _)]
  have hv := ofBytes_magnitude 0
  rw [h0] at hv
  have hsign : ¬ scalarModulus < 2 * (0 : Scalar).val := by
    rw [ZMod.val_zero]
    exact Nat.not_lt_zero _
  simp only [uncompressSigned, flipSortBit, compressSigned, List.modifyHead_cons, h0, hv,
    if_neg hsign, if_neg (Nat.not_lt_zero scalarModulus)]
  decide

/-- A residue in a number of bytes, moved away from zero by an offset. -/
def encodeScalar (size offset : Nat) (value : Scalar) : FixedBytes size :=
  .ofNat size (value.val + offset)

def decodeScalar {size : Nat} (offset : Nat) (encoded : FixedBytes size) : Option Scalar :=
  if offset ≤ encoded.toNat ∧ encoded.toNat - offset < scalarModulus then
    some ((encoded.toNat - offset : ℕ) : Scalar)
  else
    none

theorem decodeScalar_encodeScalar {size offset : Nat} (hsize : 48 ≤ size) (hoffset : offset ≤ 1)
    (value : Scalar) : decodeScalar offset (encodeScalar size offset value) = some value := by
  have hlt := ZMod.val_lt value
  have hb := scalarModulus_lt
  have hpow : 256 ^ 48 ≤ 256 ^ size := Nat.pow_le_pow_right (by decide) hsize
  have hv : (encodeScalar size offset value).toNat = value.val + offset := by
    rw [encodeScalar, FixedBytes.toNat, FixedBytes.ofNat, ofBytes_toBytes,
      Nat.mod_eq_of_lt (by omega)]
  rw [decodeScalar, hv, Nat.add_sub_cancel, if_pos ⟨Nat.le_add_left _ _, hlt⟩,
    ZMod.natCast_zmod_val]

/-! ## The curve -/

/-- The curve of scalars. -/
scoped instance curve : Curve where
  G1 := Scalar
  G2 := Scalar
  GT := Scalar
  generator1 := 1
  generator2 := 1
  pairing := LinearMap.mul Scalar Scalar
  compress1 := encodeScalar 48 0
  compress2 := compressSigned
  uncompress1 := decodeScalar 0
  uncompress2 := uncompressSigned
  serialize1 := encodeScalar 96 1
  serialize2 := encodeScalar 192 0
  deserialize1 := decodeScalar 1
  deserialize2 := decodeScalar 0
  hashToCurve message := (ofBytes message : Scalar)
  exists_smul_generator1 point := ⟨point, by rw [smul_eq_mul, mul_one]⟩
  exists_smul_generator2 point := ⟨point, by rw [smul_eq_mul, mul_one]⟩
  pairing_generators := by
    rw [LinearMap.mul_apply', mul_one]
    exact one_ne_zero
  uncompress1_compress1 := decodeScalar_encodeScalar (by decide) (by decide)
  uncompress2_compress2 := uncompressSigned_compressSigned
  deserialize1_serialize1 := decodeScalar_encodeScalar (by decide) (by decide)
  deserialize2_serialize2 := decodeScalar_encodeScalar (by decide) (by decide)
  uncompress2_flipSortBit _ := uncompressSigned_flipSortBit
  uncompress2_flipSortBit_zero := uncompressSigned_flipSortBit_zero
  deserialize1_zero := by
    rw [decodeScalar, if_neg]
    decide +kernel

end ScalarCurve
end NeoX
