import NeoX.Consensus.Validation
import NeoX.Library.Primality
import Mathlib.Algebra.Module.LinearMap.Basic
import Mathlib.LinearAlgebra.BilinearMap

/-!
# Scalars and points

The scalar field of BLS12-381 and the functions of the curve package on points of its two
subgroups, with the properties that the development relies on: both subgroups are
cyclic, the pairing is bilinear and not degenerate, and points are read back from
their encodings.

Main results:

- `prime_scalarModulus`: scalars form a field.
- `pairing_generator2_injective`: a point of the first subgroup is determined by its
  pairing with the generator of the second.
- `pairing_generator1_injective`: the same for the second subgroup.
-/

namespace NeoX

/-! ## Scalars -/

def scalarModulus : ℕ := 0x73eda753299d7d483339d80809a1d80553bda402fffe5bfeffffffff00000001

/-- The prime factors of the order less one, with repetition. -/
def scalarModulusFactors : List ℕ :=
  List.replicate 32 2 ++ [3, 11, 19, 10177, 125527, 859267, 906349, 906349, 2508409, 2529403,
    52437899, 254760293, 254760293]

theorem prime_scalarModulusFactors : ∀ factor ∈ scalarModulusFactors, factor.Prime := by
  have hlist : scalarModulusFactors.dedup = [2, 3, 11, 19, 10177, 125527, 859267, 906349, 2508409,
    2529403, 52437899, 254760293] := by decide +kernel
  intro factor hmem
  rw [← List.mem_dedup, hlist] at hmem
  simp only [List.mem_cons, List.not_mem_nil, or_false] at hmem
  rcases hmem with rfl | rfl | rfl | rfl | rfl | rfl | rfl | rfl | rfl | rfl | rfl | rfl
    <;> norm_num

theorem prime_scalarModulus : scalarModulus.Prime := by
  have hfact : scalarModulusFactors.prod = scalarModulus - 1 := by decide +kernel
  have hparts : ∀ factor ∈ scalarModulusFactors.dedup,
      Primality.powMod scalarModulus 255 1 7 ((scalarModulus - 1) / factor) % scalarModulus
        ≠ 1 := by
    decide +kernel
  refine @Primality.prime_of_powMod scalarModulus 255 7 (by decide +kernel) (by decide +kernel)
    (by decide +kernel) ?_
  intro q hq hdvd
  rw [← hfact] at hdvd
  exact hparts q (List.mem_dedup.mpr
    (Primality.mem_of_prime_dvd_prod prime_scalarModulusFactors hq hdvd))

instance : Fact scalarModulus.Prime := ⟨prime_scalarModulus⟩

/-- Elements of the scalar field. -/
abbrev Scalar := ZMod scalarModulus

theorem natCast_scalar_ne_zero {v : ℕ} (hpos : v ≠ 0) (hlt : v < 2 ^ 64) :
    (v : Scalar) ≠ 0 := by
  intro h0
  rw [ZMod.natCast_eq_zero_iff] at h0
  have hle := Nat.le_of_dvd (Nat.pos_of_ne_zero hpos) h0
  have hbig : 2 ^ 64 < scalarModulus := by decide +kernel
  omega

theorem natCast_scalar_injective {a b : ℕ} (h1 : a < 2 ^ 64) (h2 : b < 2 ^ 64)
    (h : (a : Scalar) = (b : Scalar)) : a = b := by
  have hbig : 2 ^ 64 < scalarModulus := by decide +kernel
  rw [ZMod.natCast_eq_natCast_iff', Nat.mod_eq_of_lt (by omega), Nat.mod_eq_of_lt (by omega)] at h
  exact h

/-! ## Hashes and ciphers -/

/-- Functions of the hash and cipher packages. -/
class Cipher where
  /-- The SHA-256 hash. -/
  sha256 : Bytes → B256
  /-- Decryption of one block with AES-256. -/
  decryptBlock : B256 → FixedBytes 16 → FixedBytes 16

/-! ## Points -/

/-- Functions of the curve package. A function that reads a point accepts only points of the
subgroup; the target group of the pairing is written additively. -/
class Curve where
  G1 : Type
  G2 : Type
  GT : Type
  [groupG1 : AddCommGroup G1]
  [groupG2 : AddCommGroup G2]
  [groupGT : AddCommGroup GT]
  [moduleG1 : Module Scalar G1]
  [moduleG2 : Module Scalar G2]
  [moduleGT : Module Scalar GT]
  [decidableG1 : DecidableEq G1]
  [decidableG2 : DecidableEq G2]
  [decidableGT : DecidableEq GT]
  generator1 : G1
  generator2 : G2
  pairing : G1 →ₗ[Scalar] G2 →ₗ[Scalar] GT
  /-- Compressed encodings. -/
  compress1 : G1 → G1Bytes
  compress2 : G2 → G2Bytes
  uncompress1 : G1Bytes → Option G1
  uncompress2 : G2Bytes → Option G2
  /-- Uncompressed encodings. -/
  serialize1 : G1 → FixedBytes 96
  serialize2 : G2 → FixedBytes 192
  deserialize1 : FixedBytes 96 → Option G1
  deserialize2 : FixedBytes 192 → Option G2
  /-- The hash of a message to the second subgroup, under the domain of threshold seals. -/
  hashToCurve : Bytes → G2
  /-- The subgroups are generated by their generators. -/
  exists_smul_generator1 : ∀ point : G1, ∃ scalar : Scalar, point = scalar • generator1
  exists_smul_generator2 : ∀ point : G2, ∃ scalar : Scalar, point = scalar • generator2
  /-- The pairing is not degenerate. -/
  pairing_generators : pairing generator1 generator2 ≠ 0
  /-- Encoded points are read back. -/
  uncompress1_compress1 : ∀ point, uncompress1 (compress1 point) = some point
  uncompress2_compress2 : ∀ point, uncompress2 (compress2 point) = some point
  deserialize1_serialize1 : ∀ point, deserialize1 (serialize1 point) = some point
  deserialize2_serialize2 : ∀ point, deserialize2 (serialize2 point) = some point
  /-- The other sort bit of a compressed point other than infinity negates it. -/
  uncompress2_flipSortBit : ∀ point, point ≠ 0 →
    uncompress2 (flipSortBit (compress2 point)) = some (-point)
  /-- Infinity has no sort bit. -/
  uncompress2_flipSortBit_zero : uncompress2 (flipSortBit (compress2 0)) = none
  /-- The origin of the coordinate plane is not on the curve. -/
  deserialize1_zero : deserialize1 (.zero 96) = none

attribute [instance] Curve.groupG1 Curve.groupG2 Curve.groupGT Curve.moduleG1 Curve.moduleG2
  Curve.moduleGT Curve.decidableG1 Curve.decidableG2 Curve.decidableGT

export Curve (G1 G2 GT generator1 generator2 pairing compress1 compress2 uncompress1 uncompress2
  serialize1 serialize2 deserialize1 deserialize2 hashToCurve)

variable [Curve]

theorem generator1_ne_zero : (generator1 : G1) ≠ 0 := by
  intro h0
  apply Curve.pairing_generators
  rw [h0, map_zero, LinearMap.zero_apply]

theorem smul_generator1_injective {a b : Scalar}
    (h : a • (generator1 : G1) = b • generator1) : a = b :=
  smul_left_injective Scalar generator1_ne_zero h

theorem pairing_generator2_injective {a b : G1}
    (h : pairing a generator2 = pairing b generator2) : a = b := by
  rcases Curve.exists_smul_generator1 (a - b) with ⟨scalar, hscalar⟩
  have h0 : scalar • pairing generator1 generator2 = 0 := by
    rw [← LinearMap.smul_apply, ← map_smul, ← hscalar, map_sub, LinearMap.sub_apply, h, sub_self]
  rcases smul_eq_zero.mp h0 with hscalar' | hpair
  · rw [hscalar', zero_smul] at hscalar
    exact sub_eq_zero.mp hscalar
  · exact absurd hpair Curve.pairing_generators

theorem pairing_generator1_injective {a b : G2}
    (h : pairing generator1 a = pairing generator1 b) : a = b := by
  rcases Curve.exists_smul_generator2 (a - b) with ⟨scalar, hscalar⟩
  have h0 : scalar • pairing generator1 generator2 = 0 := by
    rw [← map_smul, ← hscalar, map_sub, h, sub_self]
  rcases smul_eq_zero.mp h0 with hscalar' | hpair
  · rw [hscalar', zero_smul] at hscalar
    exact sub_eq_zero.mp hscalar
  · exact absurd hpair Curve.pairing_generators

end NeoX
