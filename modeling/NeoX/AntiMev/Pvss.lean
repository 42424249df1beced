import NeoX.AntiMev.Decryption
import NeoX.Library.Horner

/-!
# Publicly verifiable secret sharing

Secret scalars and polynomials of a DKG member, their EIP-2537 encodings, and the announcement that
lets everybody check the shares of a polynomial without knowing it.

Main results:

- `DkgPvss.decode_spec`: an accepted announcement belongs to a polynomial of a degree
  below the threshold, whose values its public shares are.
- `DkgPvss.verifyShare_eq_ok`: a share is accepted exactly if it is the value of that
  polynomial.
- `DkgPolynomial.decode_generatePvss`: what a member announces is accepted.
-/

namespace NeoX

open List
open Except hiding ok error

open BigEndian

/-! ## Secret scalars -/

/-- A nonzero scalar. Its canonical encoding has 32 bytes. -/
@[ext]
structure DkgSecretScalar where
  value : Scalar
  ne_zero : value ≠ 0
  deriving DecidableEq

/-- A field element as a secret scalar. -/
def trySecretFromFr (value : Scalar) : Except DkgMaterialError DkgSecretScalar :=
  if h : value ≠ 0 then .ok ⟨value, h⟩ else .error .invalidScalar

namespace DkgSecretScalar

def new (encoded : B256) : Except DkgMaterialError DkgSecretScalar :=
  match secretScalar encoded with
  | some value => trySecretFromFr value
  | none => .error .invalidScalar

def asBytes (secret : DkgSecretScalar) : B256 :=
  .ofNat 32 secret.value.val

def aggregate (shares : List DkgSecretScalar) : Except DkgMaterialError DkgSecretScalar := do
  require (shares ≠ []) .emptyScalarAggregation
  trySecretFromFr (shares.foldl (fun result share => result + share.value) 0)

end DkgSecretScalar

variable {secret : DkgSecretScalar}

theorem trySecretFromFr_eq_ok {value : Scalar} :
    trySecretFromFr value = .ok secret ↔ secret.value = value := by
  unfold trySecretFromFr
  by_cases h0 : value ≠ 0
  · rw [dif_pos h0, Except.ok.injEq, DkgSecretScalar.ext_iff]
    exact eq_comm
  · rw [dif_neg h0]
    constructor
    · exact fun h => nomatch h
    · intro h
      exact absurd (h ▸ secret.ne_zero) h0

theorem DkgSecretScalar.secretScalar_asBytes (secret : DkgSecretScalar) :
    secretScalar secret.asBytes = some secret.value := by
  have hlt : secret.value.val < scalarModulus := ZMod.val_lt _
  have hpos : secret.value.val ≠ 0 := fun h0 => secret.ne_zero ((ZMod.val_eq_zero _).mp h0)
  have hb : scalarModulus < 256 ^ 32 := by decide +kernel
  have hv : secret.asBytes.toNat = secret.value.val := by
    rw [DkgSecretScalar.asBytes, FixedBytes.toNat, FixedBytes.ofNat, ofBytes_toBytes,
      Nat.mod_eq_of_lt (by omega)]
  rw [secretScalar, hv, if_pos ⟨hpos, hlt⟩, ZMod.natCast_zmod_val]

theorem DkgSecretScalar.aggregate_eq_ok {shares : List DkgSecretScalar}
    :
    DkgSecretScalar.aggregate shares = .ok secret ↔
      shares ≠ [] ∧ secret.value = (shares.map DkgSecretScalar.value).sum := by
  have hsum : (shares.map DkgSecretScalar.value).sum
      = shares.foldl (fun r share => r + share.value) 0 := by
    rw [sum_eq_foldl, foldl_map]
  rw [DkgSecretScalar.aggregate, bind_eq_ok, hsum, ← trySecretFromFr_eq_ok]
  simp

/-! ## Encodings of points -/

/-- Field elements of 48 bytes, each of them after 16 bytes of padding. -/
def padFields (fields : List Bytes) : Bytes :=
  fields.flatMap (List.replicate 16 0 ++ ·)

def fieldAt (encoded : Bytes) (position : Nat) : Bytes :=
  (encoded.drop (64 * position + 16)).take 48

def paddingAt (encoded : Bytes) (position : Nat) : Bytes :=
  (encoded.drop (64 * position)).take 16

/-- Whether the padding before the first positions is zero. -/
def isPadded (encoded : Bytes) (count : Nat) : Bool :=
  (List.range count).all fun position => (paddingAt encoded position).all (· = 0)

variable {fields : List Bytes}

theorem length_padFields (hlen : ∀ field ∈ fields, field.length = 48) :
    (padFields fields).length = 64 * fields.length := by
  induction fields with
  | nil => rfl
  | cons field fields ih =>
    rcases forall_mem_cons.mp hlen with ⟨hfield, hr⟩
    have hih := ih hr
    simp only [padFields, flatMap_cons, length_append, length_replicate, length_cons] at hih ⊢
    omega

/-- Fields and padding are found where they were written. -/
theorem fieldAt_padFields (hlen : ∀ field ∈ fields, field.length = 48) (pos : Nat) {field : Bytes}
    (hfield : fields[pos]? = some field) :
    fieldAt (padFields fields) pos = field ∧
      paddingAt (padFields fields) pos = List.replicate 16 0 := by
  induction fields generalizing pos with
  | nil => cases hfield
  | cons a fields ih =>
    rcases forall_mem_cons.mp hlen with ⟨h1, hr⟩
    have hcons : padFields (a :: fields)
        = (replicate 16 0 ++ a) ++ padFields fields := rfl
    have hsize : (replicate 16 (0 : UInt8) ++ a).length = 64 := by
      rw [length_append, length_replicate, h1]
    cases pos with
    | zero =>
      cases hfield
      constructor
      · simp [fieldAt, hcons, h1]
      · simp [paddingAt, hcons]
    | succ pos =>
      have hdrop : ∀ offset, (padFields (a :: fields)).drop (64 + offset)
          = (padFields fields).drop offset := by
        intro offset
        rw [hcons, ← drop_drop, ← hsize, drop_left]
      have hn := ih hr pos hfield
      refine ⟨?_, ?_⟩
      · rw [fieldAt, show 64 * (pos + 1) + 16 = 64 + (64 * pos + 16) by omega, hdrop]
        exact hn.1
      · rw [paddingAt, show 64 * (pos + 1) = 64 + 64 * pos by omega, hdrop]
        exact hn.2

theorem isPadded_padFields (hlen : ∀ field ∈ fields, field.length = 48) :
    isPadded (padFields fields) fields.length = true := by
  rw [isPadded, all_eq_true]
  intro pos hpos
  have hlt : pos < fields.length := mem_range.mp hpos
  rw [(fieldAt_padFields hlen pos (getElem?_eq_getElem hlt)).2]
  simp

theorem FixedBytes.first_bytes {size : Nat} (string : FixedBytes size) :
    FixedBytes.first size string.bytes = string := by
  have h := FixedBytes.first_append string []
  rwa [append_nil] at h

section Curve

variable [Curve]

/-- The EIP-2537 encoding of a point of the first subgroup. -/
def encodeG1 (point : G1) : FixedBytes 128 where
  bytes := padFields [(serialize1 point).bytes.take 48, (serialize1 point).bytes.drop 48]
  length_eq := by
    rw [length_padFields]
    · rfl
    · simp [(serialize1 point).length_eq]

/-- The EIP-2537 encoding of a point of the second subgroup. The two parts of a coordinate change
places. -/
def encodeG2 (point : G2) : FixedBytes 256 where
  bytes := padFields [((serialize2 point).bytes.drop 48).take 48,
    (serialize2 point).bytes.take 48, (serialize2 point).bytes.drop 144,
    ((serialize2 point).bytes.drop 96).take 48]
  length_eq := by
    rw [length_padFields]
    · rfl
    · simp [(serialize2 point).length_eq]

/-- Read an encoded point of the first subgroup other than infinity. -/
def decodeG1Eip2537 (encoded : Bytes) (field : String) : Except DkgMaterialError G1 := do
  require (encoded.length = 128) (.invalidPvssPointLength field encoded.length)
  require (isPadded encoded 2 = true)
    (.invalidPvssPadding field)
  let raw := FixedBytes.first 96 (fieldAt encoded 0 ++ fieldAt encoded 1)
  let point ← ofOption (.invalidPvssG1Point field) (deserialize1 raw)
  require (point ≠ 0) (.invalidPvssG1Point field)
  .ok point

/-- Read an encoded point of the second subgroup other than infinity. -/
def decodeG2Eip2537 (encoded : Bytes) (field : String) : Except DkgMaterialError G2 := do
  require (encoded.length = 256) (.invalidPvssPointLength field encoded.length)
  require (isPadded encoded 4 = true)
    (.invalidPvssPadding field)
  let raw := FixedBytes.first 192
    (fieldAt encoded 1 ++ fieldAt encoded 0 ++ fieldAt encoded 3 ++ fieldAt encoded 2)
  let point ← ofOption (.invalidPvssG2Point field) (deserialize2 raw)
  require (point ≠ 0) (.invalidPvssG2Point field)
  .ok point

/-- The compressed global key of an encoded aggregate commitment. -/
def globalPublicKeyFromCommitment (commitment : Bytes) (scaler : UInt64) :
    Except TpkeError G1Bytes := do
  require (commitment.length = 128) (.wrongCommitmentLength commitment.length)
  require (scaler ≠ 0) .invalidScaler
  require (isPadded commitment 2 = true)
    .invalidCommitmentPadding
  let raw := FixedBytes.first 96 (fieldAt commitment 0 ++ fieldAt commitment 1)
  let point ← ofOption (.invalidG1Point "aggregated commitment") (deserialize1 raw)
  .ok (compress1 ((scaler.toNat : Scalar) • point))

theorem fields_encodeG1 (point : G1) :
    isPadded (encodeG1 point).bytes 2 = true ∧
    FixedBytes.first 96 (fieldAt (encodeG1 point).bytes 0 ++ fieldAt (encodeG1 point).bytes 1)
      = serialize1 point := by
  have hlen : ∀ field ∈ [(serialize1 point).bytes.take 48, (serialize1 point).bytes.drop 48],
      field.length = 48 := by simp [(serialize1 point).length_eq]
  refine ⟨isPadded_padFields hlen, ?_⟩
  rw [encodeG1, (fieldAt_padFields hlen 0 rfl).1, (fieldAt_padFields hlen 1 rfl).1,
    take_append_drop, FixedBytes.first_bytes]

theorem fields_encodeG2 (point : G2) :
    isPadded (encodeG2 point).bytes 4 = true ∧
    FixedBytes.first 192 (fieldAt (encodeG2 point).bytes 1 ++ fieldAt (encodeG2 point).bytes 0
      ++ fieldAt (encodeG2 point).bytes 3 ++ fieldAt (encodeG2 point).bytes 2)
      = serialize2 point := by
  have hsize := (serialize2 point).length_eq
  have hlen : ∀ field ∈ [((serialize2 point).bytes.drop 48).take 48,
      (serialize2 point).bytes.take 48, (serialize2 point).bytes.drop 144,
      ((serialize2 point).bytes.drop 96).take 48], field.length = 48 := by simp [hsize]
  refine ⟨isPadded_padFields hlen, ?_⟩
  have hjoin : (serialize2 point).bytes.take 48 ++ ((serialize2 point).bytes.drop 48).take 48
      ++ ((serialize2 point).bytes.drop 96).take 48 ++ (serialize2 point).bytes.drop 144
      = (serialize2 point).bytes := by
    have h96 : (serialize2 point).bytes.drop 96 = ((serialize2 point).bytes.drop 48).drop 48 := by
      rw [drop_drop]
    have h144 : (serialize2 point).bytes.drop 144
        = (((serialize2 point).bytes.drop 48).drop 48).drop 48 := by
      rw [drop_drop, drop_drop]
    rw [h96, h144, append_assoc, append_assoc, take_append_drop, take_append_drop, take_append_drop]
  rw [encodeG2, (fieldAt_padFields hlen 0 rfl).1, (fieldAt_padFields hlen 1 rfl).1,
    (fieldAt_padFields hlen 2 rfl).1, (fieldAt_padFields hlen 3 rfl).1, hjoin,
    FixedBytes.first_bytes]

variable {point : G1}

theorem decodeG1Eip2537_encodeG1 (hne : point ≠ 0) (field : String) :
    decodeG1Eip2537 (encodeG1 point).bytes field = .ok point := by
  rcases fields_encodeG1 point with ⟨hpadded, hfields⟩
  rw [decodeG1Eip2537, require_of _ (encodeG1 point).length_eq, ok_bind,
    require_of _ hpadded, ok_bind]
  dsimp only
  rw [hfields, Curve.deserialize1_serialize1]
  exact bind_eq_ok.mpr ⟨point, rfl,
    bind_eq_ok.mpr ⟨(), require_of _ hne, rfl⟩⟩

theorem decodeG2Eip2537_encodeG2 {point : G2} (hne : point ≠ 0) (field : String) :
    decodeG2Eip2537 (encodeG2 point).bytes field = .ok point := by
  rcases fields_encodeG2 point with ⟨hpadded, hfields⟩
  rw [decodeG2Eip2537, require_of _ (encodeG2 point).length_eq, ok_bind,
    require_of _ hpadded, ok_bind]
  dsimp only
  rw [hfields, Curve.deserialize2_serialize2]
  exact bind_eq_ok.mpr ⟨point, rfl,
    bind_eq_ok.mpr ⟨(), require_of _ hne, rfl⟩⟩

variable {enc : Bytes}

theorem decodeG1Eip2537_ne_zero {field : String}
    (h : decodeG1Eip2537 enc field = .ok point) : point ≠ 0 := by
  obtain ⟨_, h⟩ := of_bind h
  obtain ⟨_, h⟩ := of_bind h
  obtain ⟨found, -, h⟩ := bind_ok h
  obtain ⟨hne, h⟩ := require_bind h
  cases h
  exact hne

theorem encodeG1_injective {a b : G1} (h : encodeG1 a = encodeG1 b) :
    a = b := by
  have hseri : serialize1 a = serialize1 b := by
    rw [← (fields_encodeG1 a).2, h, (fields_encodeG1 b).2]
  have hread := congrArg deserialize1 hseri
  rwa [Curve.deserialize1_serialize1, Curve.deserialize1_serialize1, Option.some.injEq] at hread

/-- A point as the contract encodes it: infinity is the origin of the coordinate plane. -/
def contractCommitment (point : G1) : FixedBytes 128 :=
  if point = 0 then .zero 128 else encodeG1 point

/-- A commitment is accepted exactly if it is not infinity, and its key is the scaled point. -/
theorem globalPublicKeyFromCommitment_eq_ok {scaler : UInt64} {key : G1Bytes} :
    globalPublicKeyFromCommitment (contractCommitment point).bytes scaler = .ok key ↔
      scaler ≠ 0 ∧ point ≠ 0 ∧ key = compress1 ((scaler.toNat : Scalar) • point) := by
  by_cases h0 : point = 0
  · subst h0
    have horigin : FixedBytes.first 96 (fieldAt (contractCommitment (0 : G1)).bytes 0
        ++ fieldAt (contractCommitment (0 : G1)).bytes 1) = .zero 96 := by
      rw [contractCommitment, if_pos rfl]
      rfl
    simp [globalPublicKeyFromCommitment, bind_eq_ok, horigin, Curve.deserialize1_zero]
  · rcases fields_encodeG1 point with ⟨hpadded, hfields⟩
    have hpt : globalPublicKeyFromCommitment (contractCommitment point).bytes scaler
        = require (scaler ≠ 0) .invalidScaler >>=
          fun _ => .ok (compress1 ((scaler.toNat : Scalar) • point)) := by
      rw [contractCommitment, if_neg h0, globalPublicKeyFromCommitment,
        require_of _ (encodeG1 point).length_eq, ok_bind]
      dsimp only
      rw [hfields, Curve.deserialize1_serialize1, require_of _ hpadded]
      rfl
    rw [hpt, bind_eq_ok]
    simp [h0, eq_comm (a := key)]

/-! ## Polynomials -/

def DkgParameters.pvssLen (parameters : DkgParameters) : Nat :=
  (parameters.threshold + parameters.participants + 1) * 128 + 256

/-- The random scalars that one call draws, by position. -/
abbrev Entropy := Nat → Except String DkgSecretScalar

/-- A secret polynomial, the constant coefficient first. -/
@[ext]
structure DkgPolynomial (parameters : DkgParameters) where
  coefficients : List DkgSecretScalar
  length_eq : coefficients.length = parameters.threshold
  deriving DecidableEq

/-- An announcement with the secret values it commits to. -/
structure DkgPvssMaterial where
  encoded : Bytes
  shares : List DkgSecretScalar

/-- The scalar that a seed and a number of appended zero bytes give. -/
def candidateScalar [Cipher] (seed : Bytes) (zeroSuffix : Nat) :
    Except DkgMaterialError DkgSecretScalar :=
  let candidate := (Cipher.sha256 (seed ++ List.replicate zeroSuffix 0)).toNat
  DkgSecretScalar.new (.ofNat 32
    (if scalarModulus < candidate then candidate % scalarModulus else candidate))

/-- The search for a scalar ends on every seed. -/
class PredictableScalars [Cipher] : Prop where
  exists_candidate : ∀ seed : Bytes,
    ∃ zeroSuffix, (candidateScalar seed zeroSuffix).toOption.isSome = true

/-- The first scalar that a seed gives. -/
def predictableScalar [Cipher] [PredictableScalars] (seed : Bytes) : DkgSecretScalar :=
  (candidateScalar seed (Nat.find (PredictableScalars.exists_candidate seed))).toOption.get
    (Nat.find_spec (PredictableScalars.exists_candidate seed))

namespace DkgPolynomial

variable {parameters : DkgParameters}

/-- The polynomial of a member for a round. Round and position are reduced to one byte. -/
def deterministicWithParameters [Cipher] [PredictableScalars] (messagePrivateKey : B256)
    (chainId : U256) (round : UInt64) (parameters : DkgParameters) :
    Except DkgMaterialError (DkgPolynomial parameters) := do
  require (messagePrivateKey ≠ .zero 32) .emptyPrivateSource
  require (chainId ≠ 0) .emptyReplayProtection
  let privateSource := messagePrivateKey.bytes.dropWhile (· = 0)
  let publicSource := (toBytes 32 chainId.toNat).dropWhile (· = 0)
  .ok ⟨(List.range parameters.threshold).map fun index =>
    predictableScalar (privateSource ++ publicSource ++ [round.toUInt8, UInt8.ofNat index]),
    by simp⟩

/-- The polynomial of coefficients that are computed one after the other. -/
def ofPositions (coefficient : Nat → Except DkgMaterialError DkgSecretScalar) :
    Except DkgMaterialError (DkgPolynomial parameters) :=
  match h : (List.range parameters.threshold).mapM coefficient with
  | .ok coefficients =>
    .ok ⟨coefficients, by
      have hlength := (mapM_eq_ok.mp h).length_eq
      rwa [List.length_range, eq_comm] at hlength⟩
  | .error reason => .error reason

/-- Draw all coefficients after the constant one again. -/
def renovate (polynomial : DkgPolynomial parameters) (entropy : Entropy) :
    Except DkgMaterialError (DkgPolynomial parameters) :=
  ofPositions fun position =>
    match position, polynomial.coefficients with
    | 0, constant :: _ => .ok constant
    | _, _ => (entropy position).mapError .entropy

def randomWithParameters (entropy : Entropy) :
    Except DkgMaterialError (DkgPolynomial parameters) :=
  ofPositions fun position => (entropy position).mapError .entropy

/-- Check that recovery shares have distinct indices of members. -/
def validateRecoveryShares (parameters : DkgParameters) :
    List UInt64 → List UInt64 → Except DkgMaterialError Unit
  | _, [] => .ok ()
  | prior, index :: indices => do
      require (1 ≤ index.toNat ∧ index.toNat ≤ parameters.participants)
        (.invalidParticipantIndex index)
      require (index ∉ prior) (.duplicateRecoveryShareIndex index)
      validateRecoveryShares parameters (index :: prior) indices

/-- Interpolate the constant coefficient of a missing member and draw the others. -/
def recoverAndRenovateWithParameters (shares : List (UInt64 × DkgSecretScalar))
    (entropy : Entropy) : Except DkgMaterialError (DkgPolynomial parameters) := do
  require (parameters.threshold ≤ shares.length)
    (.insufficientRecoveryShares shares.length)
  let selected := shares.take parameters.threshold
  validateRecoveryShares parameters [] (selected.map Prod.fst)
  let constant := Interpolation.atZero (1 : Scalar)
    (selected.map fun share => ((share.1.toNat : Scalar), share.2.value))
  let polynomial ← randomWithParameters entropy
  let secret ← trySecretFromFr constant
  .ok ⟨polynomial.coefficients.set 0 secret, by rw [List.length_set, polynomial.length_eq]⟩

/-- The value at the index of a member. -/
def evaluate (polynomial : DkgPolynomial parameters) (index : UInt64) :
    Except DkgMaterialError DkgSecretScalar := do
  require (1 ≤ index.toNat ∧ index.toNat ≤ parameters.participants)
    (.invalidParticipantIndex index)
  trySecretFromFr (Horner.evaluate (index.toNat : Scalar)
    (polynomial.coefficients.map DkgSecretScalar.value))

def commitment (polynomial : DkgPolynomial parameters) : Bytes :=
  polynomial.coefficients.flatMap fun coefficient =>
    (encodeG1 (coefficient.value • generator1)).bytes

/-- The announcement of a polynomial with a given random scalar. -/
def generatePvssWithRandomizer (polynomial : DkgPolynomial parameters)
    (randomizer : DkgSecretScalar) : Except DkgMaterialError DkgPvssMaterial := do
  let shares ← (List.range parameters.participants).mapM fun position =>
    polynomial.evaluate (UInt64.ofNat (position + 1))
  .ok ⟨polynomial.commitment ++ (encodeG1 (randomizer.value • generator1)).bytes
    ++ (encodeG2 (-(randomizer.value • generator2))).bytes
    ++ shares.flatMap (fun share => (encodeG1 (share.value • generator1)).bytes), shares⟩

/-- The announcement of a polynomial, with the random scalar after those of its coefficients. -/
def generatePvss (polynomial : DkgPolynomial parameters) (entropy : Entropy) :
    Except DkgMaterialError DkgPvssMaterial := do
  let randomizer ← (entropy parameters.threshold).mapError .entropy
  polynomial.generatePvssWithRandomizer randomizer

end DkgPolynomial

/-! ## Announcements -/

/-- A decoded announcement. -/
structure DkgPvss (parameters : DkgParameters) where
  commitments : List G1
  randomCommitmentG1 : G1
  randomCommitmentG2 : G2
  publicShares : List G1

/-- Check public shares, from a position on, against the committed polynomial. -/
def checkPublicShares (commitments : List G1) : Nat → List G1 → Except DkgMaterialError Unit
  | _, [] => .ok ()
  | position, actual :: publicShares => do
      require (Horner.evaluate ((position + 1 : ℕ) : Scalar) commitments = actual)
        (.invalidPvssPublicShare (position + 1))
      checkPublicShares commitments (position + 1) publicShares

variable {share : DkgSecretScalar} {i : UInt64}

namespace DkgPvss

variable {parameters : DkgParameters}

/-- Check the random scalar and all public shares. -/
def verify (pvss : DkgPvss parameters) : Except DkgMaterialError Unit := do
  require (TpkeCiphertext.commitmentSum pvss.randomCommitmentG1 pvss.randomCommitmentG2 = 0)
    .invalidPvssRandomizer
  checkPublicShares pvss.commitments 0 pvss.publicShares

def decodeWithParameters (encoded : Bytes) (parameters : DkgParameters) :
    Except DkgMaterialError (DkgPvss parameters) := do
  require (encoded.length = parameters.pvssLen) (.wrongPvssLength encoded.length)
  let commitments ← (FixedBytes.chunks 128 parameters.threshold encoded).mapM fun point =>
    decodeG1Eip2537 point.bytes "polynomial commitment"
  let rest := encoded.drop (parameters.threshold * 128)
  let randomCommitmentG1 ←
    decodeG1Eip2537 (FixedBytes.first 128 rest).bytes "PVSS G1 randomizer"
  let randomCommitmentG2 ←
    decodeG2Eip2537 (FixedBytes.first 256 (rest.drop 128)).bytes "PVSS G2 randomizer"
  let publicShares ←
    (FixedBytes.chunks 128 parameters.participants (rest.drop 384)).mapM fun point =>
      decodeG1Eip2537 point.bytes "public secret share"
  let pvss : DkgPvss parameters :=
    ⟨commitments, randomCommitmentG1, randomCommitmentG2, publicShares⟩
  pvss.verify
  .ok pvss

def commitment (pvss : DkgPvss parameters) : Bytes :=
  pvss.commitments.flatMap fun point => (encodeG1 point).bytes

/-- Whether two announcements have the same constant coefficient. -/
def renovates (pvss previous : DkgPvss parameters) : Bool :=
  pvss.commitments.head? = previous.commitments.head?

/-- Check a decrypted share against the public share of a member. -/
def verifyShare (pvss : DkgPvss parameters) (index : UInt64) (share : DkgSecretScalar) :
    Except DkgMaterialError Unit := do
  require (1 ≤ index.toNat ∧ index.toNat ≤ parameters.participants)
    (.invalidParticipantIndex index)
  require (pvss.publicShares[index.toNat - 1]? = some (share.value • generator1))
    (.invalidDecryptedShare index)

/-! ## What an announcement commits to -/

/-- The public data of an announcement belong to a polynomial. -/
structure SharesOf (pvss : DkgPvss parameters) (p : Polynomial Scalar) : Prop where
  degree_lt : p.degree < parameters.threshold
  constant_eq : pvss.commitments.head? = some (p.eval 0 • generator1)
  share_eq : ∀ position < parameters.participants,
    pvss.publicShares[position]? = some (p.eval ((position + 1 : ℕ) : Scalar) • generator1)

variable {start : Nat}

theorem checkPublicShares_eq_ok {coms publicShares : List G1}
    (h : checkPublicShares coms start publicShares = .ok ()) :
    ∀ pos < publicShares.length, publicShares[pos]?
      = some (Horner.evaluate ((start + pos + 1 : ℕ) : Scalar) coms) := by
  induction publicShares generalizing start with
  | nil => exact fun pos hpos => absurd hpos (Nat.not_lt_zero _)
  | cons actual publicShares ih =>
    obtain ⟨hactual, h⟩ := require_bind h
    intro pos hpos
    cases pos with
    | zero => rw [getElem?_cons_zero, ← hactual, Nat.add_zero]
    | succ pos =>
      rw [length_cons] at hpos
      rw [getElem?_cons_succ, ih h pos (by omega),
        show start + 1 + pos = start + (pos + 1) by omega]

theorem exists_coefficients (points : List G1) :
    ∃ coeffs : List Scalar, points = coeffs.map (· • generator1) := by
  induction points with
  | nil => exact ⟨[], rfl⟩
  | cons point points ih =>
    rcases Curve.exists_smul_generator1 point with ⟨coefficient, rfl⟩
    rcases ih with ⟨coeffs, rfl⟩
    exact ⟨coefficient :: coeffs, rfl⟩

variable {pvss : DkgPvss parameters}

/-- A decoded announcement has a commitment to each coefficient, and its public shares are the
values of the committed polynomial. -/
theorem decode_eq_ok (h : decodeWithParameters enc parameters = .ok pvss) :
    pvss.commitments.length = parameters.threshold ∧
    ∀ pos < parameters.participants, pvss.publicShares[pos]?
      = some (Horner.evaluate ((pos + 1 : ℕ) : Scalar) pvss.commitments) := by
  obtain ⟨_, h⟩ := of_bind h
  rcases bind_ok h with ⟨coms, hcom, h⟩
  rcases bind_ok h with ⟨randomCommitmentG1, -, h⟩
  rcases bind_ok h with ⟨randomCommitmentG2, -, h⟩
  rcases bind_ok h with ⟨publicShares, hpubl, h⟩
  rcases bind_ok h with ⟨_, hver, h⟩
  cases h
  rcases bind_ok hver with ⟨_, -, hshs⟩
  have hlen := (mapM_eq_ok.mp hcom).length_eq
  have hc := (mapM_eq_ok.mp hpubl).length_eq
  rw [FixedBytes.length_chunks] at hlen hc
  refine ⟨hlen.symm, fun pos hpos => ?_⟩
  have hsh := checkPublicShares_eq_ok hshs pos (hc ▸ hpos)
  rwa [Nat.zero_add] at hsh

theorem decode_spec (ht : parameters.threshold ≠ 0)
    (h : decodeWithParameters enc parameters = .ok pvss) :
    ∃ p : Polynomial Scalar, pvss.SharesOf p := by
  rcases decode_eq_ok h with ⟨hlen, hshs⟩
  rcases exists_coefficients pvss.commitments with ⟨coeffs, hcoeff⟩
  rw [hcoeff, length_map] at hlen
  refine ⟨Horner.ofCoefficients coeffs, ?_, ?_, ?_⟩
  · rw [← hlen]
    exact Horner.degree_ofCoefficients_lt coeffs
  · cases coeffs with
    | nil => exact absurd hlen.symm ht
    | cons coefficient coeffs =>
      rw [hcoeff, Horner.eval_zero_ofCoefficients]
      rfl
  · intro pos hpos
    rw [hshs pos hpos, hcoeff, Horner.evaluate_map_smul]

/-- A share is accepted exactly if it is the value of the polynomial at the index. -/
theorem verifyShare_eq_ok {p : Polynomial Scalar} (hp : pvss.SharesOf p)
    :
    pvss.verifyShare i share = .ok () ↔
      (1 ≤ i.toNat ∧ i.toNat ≤ parameters.participants) ∧
        share.value = p.eval (i.toNat : Scalar) := by
  constructor
  · intro h
    obtain ⟨hi, hsh⟩ := require_bind h
    rw [require_eq_ok] at hsh
    refine ⟨hi, ?_⟩
    rw [hp.share_eq _ (by omega), Nat.sub_add_cancel hi.1, Option.some.injEq] at hsh
    exact (smul_generator1_injective hsh).symm
  · rintro ⟨hi, hsh⟩
    rw [verifyShare, require_of _ hi, ok_bind]
    apply require_of
    rw [hp.share_eq _ (by omega), Nat.sub_add_cancel hi.1, hsh]

theorem checkPublicShares_of {coms publicShares : List G1}
    (h : ∀ pos < publicShares.length, publicShares[pos]?
      = some (Horner.evaluate ((start + pos + 1 : ℕ) : Scalar) coms)) :
    checkPublicShares coms start publicShares = .ok () := by
  induction publicShares generalizing start with
  | nil => rfl
  | cons actual publicShares ih =>
    have hactual := h 0 (Nat.succ_pos _)
    rw [getElem?_cons_zero, Option.some.injEq, Nat.add_zero] at hactual
    rw [checkPublicShares, require_of _ hactual.symm, ok_bind]
    refine ih fun pos hpos => ?_
    have hn := h (pos + 1) (Nat.succ_lt_succ hpos)
    rwa [getElem?_cons_succ, show start + (pos + 1) = start + 1 + pos by omega]
      at hn

theorem mapM_decodeG1_encodeG1 {points : List G1} (hne : ∀ point ∈ points, point ≠ 0)
    (field : String) :
    (points.map encodeG1).mapM (fun point => decodeG1Eip2537 point.bytes field) = .ok points := by
  apply mapM_eq_ok_of_forall₂
  rw [forall₂_map_left_iff, forall₂_same]
  exact fun point hmem => decodeG1Eip2537_encodeG1 (hne point hmem) field

def encodePoints (commitments : List G1) (randomCommitmentG1 : G1) (randomCommitmentG2 : G2)
    (publicShares : List G1) : Bytes :=
  (commitments.map encodeG1).flatMap FixedBytes.bytes ++ (encodeG1 randomCommitmentG1).bytes
    ++ (encodeG2 randomCommitmentG2).bytes ++ (publicShares.map encodeG1).flatMap FixedBytes.bytes

/-- Points that pass the checks are read from their encoding. -/
theorem decode_encodePoints (hcom : pvss.commitments.length = parameters.threshold)
    (hpubl : pvss.publicShares.length = parameters.participants)
    (hnonz : ∀ point ∈ pvss.commitments, point ≠ 0) (hrand : pvss.randomCommitmentG1 ≠ 0)
    (hrando : pvss.randomCommitmentG2 ≠ 0) (hshs : ∀ point ∈ pvss.publicShares, point ≠ 0)
    (hver : pvss.verify = .ok ()) :
    decodeWithParameters (encodePoints pvss.commitments pvss.randomCommitmentG1
      pvss.randomCommitmentG2 pvss.publicShares) parameters = .ok pvss := by
  let tail := (encodeG1 pvss.randomCommitmentG1).bytes ++ ((encodeG2 pvss.randomCommitmentG2).bytes
    ++ (pvss.publicShares.map encodeG1).flatMap FixedBytes.bytes)
  have henco : encodePoints pvss.commitments pvss.randomCommitmentG1 pvss.randomCommitmentG2
      pvss.publicShares = (pvss.commitments.map encodeG1).flatMap FixedBytes.bytes ++ tail := by
    rw [encodePoints, append_assoc, append_assoc]
  have hsize : ((pvss.commitments.map encodeG1).flatMap FixedBytes.bytes).length
      = parameters.threshold * 128 := by
    rw [FixedBytes.length_flatMap_bytes, length_map, hcom]
  have hlen : (encodePoints pvss.commitments pvss.randomCommitmentG1 pvss.randomCommitmentG2
      pvss.publicShares).length = parameters.pvssLen := by
    rw [henco, length_append, hsize, length_append, length_append,
      (encodeG1 _).length_eq, (encodeG2 _).length_eq, FixedBytes.length_flatMap_bytes,
      length_map, hpubl, DkgParameters.pvssLen]
    ring
  have hchunks : FixedBytes.chunks 128 parameters.threshold
      ((pvss.commitments.map encodeG1).flatMap FixedBytes.bytes ++ tail)
      = pvss.commitments.map encodeG1 := by
    have h := FixedBytes.chunks_flatMap (pvss.commitments.map encodeG1) tail
    rwa [length_map, hcom] at h
  have hdrop : ((pvss.commitments.map encodeG1).flatMap FixedBytes.bytes ++ tail).drop
      (parameters.threshold * 128) = tail := drop_left' hsize
  have htail : tail.drop 128 = (encodeG2 pvss.randomCommitmentG2).bytes
      ++ (pvss.publicShares.map encodeG1).flatMap FixedBytes.bytes :=
    drop_left' (encodeG1 _).length_eq
  have hend : tail.drop 384 = (pvss.publicShares.map encodeG1).flatMap FixedBytes.bytes := by
    rw [show 384 = 128 + 256 from rfl, ← drop_drop, htail, drop_left' (encodeG2 _).length_eq]
  have hl : FixedBytes.chunks 128 parameters.participants
      ((pvss.publicShares.map encodeG1).flatMap FixedBytes.bytes)
      = pvss.publicShares.map encodeG1 := by
    have h := FixedBytes.chunks_flatMap (pvss.publicShares.map encodeG1) []
    rwa [length_map, hpubl, append_nil] at h
  rw [decodeWithParameters, require_of _ hlen, ok_bind, henco, hchunks,
    mapM_decodeG1_encodeG1 hnonz, ok_bind]
  dsimp only
  rw [hdrop, FixedBytes.first_append, decodeG1Eip2537_encodeG1 hrand, ok_bind, htail,
    FixedBytes.first_append, decodeG2Eip2537_encodeG2 hrando, ok_bind, hend, hl,
    mapM_decodeG1_encodeG1 hshs, ok_bind]
  exact bind_eq_ok.mpr ⟨(), hver, rfl⟩

end DkgPvss

namespace DkgPolynomial

variable {parameters : DkgParameters}

def points (polynomial : DkgPolynomial parameters) : List G1 :=
  polynomial.coefficients.map fun coefficient => coefficient.value • generator1

theorem smul_generator1_ne_zero (secret : DkgSecretScalar) :
    secret.value • (generator1 : G1) ≠ 0 :=
  smul_ne_zero secret.ne_zero generator1_ne_zero

theorem smul_generator2_ne_zero (secret : DkgSecretScalar) :
    secret.value • (generator2 : G2) ≠ 0 := by
  refine smul_ne_zero secret.ne_zero fun h0 => Curve.pairing_generators ?_
  rw [h0, map_zero]

variable {polynomial : DkgPolynomial parameters}

omit [Curve] in
theorem value_of_evaluate (h : polynomial.evaluate i = .ok share) :
    share.value = Horner.evaluate (i.toNat : Scalar)
      (polynomial.coefficients.map DkgSecretScalar.value) := by
  obtain ⟨_, h⟩ := of_bind h
  exact trySecretFromFr_eq_ok.mp h

theorem evaluate_points (polynomial : DkgPolynomial parameters) (x : Scalar) :
    Horner.evaluate x polynomial.points = Horner.evaluate x
      (polynomial.coefficients.map DkgSecretScalar.value) • generator1 := by
  have hpts : polynomial.points
      = (polynomial.coefficients.map DkgSecretScalar.value).map (· • generator1) := by
    rw [map_map]
    rfl
  rw [hpts, Horner.evaluate_map_smul, Horner.evaluate_eq_eval]

/-- What a member announces is accepted, and it commits to the coefficients. -/
theorem decode_generatePvss (hpart : parameters.participants < 2 ^ 64)
    {randomizer : DkgSecretScalar} {material : DkgPvssMaterial}
    (h : polynomial.generatePvssWithRandomizer randomizer = .ok material) :
    ∃ pvss : DkgPvss parameters,
      DkgPvss.decodeWithParameters material.encoded parameters = .ok pvss ∧
        pvss.commitments = polynomial.points := by
  rcases bind_ok h with ⟨shares, hshs, h⟩
  cases h
  have hvalues := mapM_eq_ok.mp hshs
  have hc := hvalues.length_eq
  rw [length_range] at hc
  let pvss : DkgPvss parameters := ⟨polynomial.points, randomizer.value • generator1,
    -(randomizer.value • generator2), shares.map fun share => share.value • generator1⟩
  have henco : DkgPvss.encodePoints pvss.commitments pvss.randomCommitmentG1
      pvss.randomCommitmentG2 pvss.publicShares
      = polynomial.commitment ++ (encodeG1 (randomizer.value • generator1)).bytes
        ++ (encodeG2 (-(randomizer.value • generator2))).bytes
        ++ shares.flatMap (fun share => (encodeG1 (share.value • generator1)).bytes) := by
    simp only [DkgPvss.encodePoints, pvss, points, commitment, flatMap_map]
  have hver : pvss.verify = .ok () := by
    have hbala := (TpkeCiphertext.commitmentSum_eq_zero _ _).mpr ⟨randomizer.value, rfl, rfl⟩
    rw [DkgPvss.verify, require_of _ hbala, ok_bind]
    apply DkgPvss.checkPublicShares_of
    intro pos hpos
    have hlt : pos < shares.length := by rwa [length_map] at hpos
    have hv := hvalues.get (by rw [length_range]; omega) hlt
    rw [getElem?_map, getElem?_eq_getElem hlt, Option.map_some]
    simp only [get_eq_getElem, getElem_range] at hv
    have hsize : pos + 1 < UInt64.size := lt_of_le_of_lt (by omega) hpart
    rw [value_of_evaluate hv, UInt64.toNat_ofNat_of_lt' hsize, Nat.zero_add, evaluate_points]
  refine ⟨pvss, ?_, rfl⟩
  rw [← henco]
  apply DkgPvss.decode_encodePoints _ _ _ (smul_generator1_ne_zero _)
    (neg_ne_zero.mpr (smul_generator2_ne_zero _)) _ hver
  · exact (length_map _).trans polynomial.length_eq
  · exact (length_map _).trans hc.symm
  · intro point hmem
    rcases mem_map.mp hmem with ⟨coefficient, -, rfl⟩
    exact smul_generator1_ne_zero coefficient
  · intro point hmem
    rcases mem_map.mp hmem with ⟨share, -, rfl⟩
    exact smul_generator1_ne_zero share

theorem verifyShare_evaluate {pvss : DkgPvss parameters}
    (hpvss : DkgPvss.decodeWithParameters enc parameters = .ok pvss)
    (hcom : pvss.commitments = polynomial.points)
    (h : polynomial.evaluate i = .ok share) : pvss.verifyShare i share = .ok () := by
  obtain ⟨hi, -⟩ := require_bind h
  rw [DkgPvss.verifyShare, require_of _ hi, ok_bind]
  apply require_of
  rw [(DkgPvss.decode_eq_ok hpvss).2 _ (by omega), Nat.sub_add_cancel hi.1, hcom,
    evaluate_points, value_of_evaluate h]

/-- The encoded commitments of an announcement determine them. -/
theorem commitments_eq_points {pvss : DkgPvss parameters}
    (hpvss : DkgPvss.decodeWithParameters enc parameters = .ok pvss)
    (h : polynomial.commitment = pvss.commitment) : pvss.commitments = polynomial.points := by
  have hpts : polynomial.commitment
      = (polynomial.points.map encodeG1).flatMap FixedBytes.bytes := by
    rw [commitment, points, map_map, flatMap_map]
    rfl
  have hcom : pvss.commitment
      = (pvss.commitments.map encodeG1).flatMap FixedBytes.bytes := by
    rw [DkgPvss.commitment, flatMap_map]
  have hlen : (pvss.commitments.map encodeG1).length
      = (polynomial.points.map encodeG1).length := by
    rw [length_map, (DkgPvss.decode_eq_ok hpvss).1, length_map, points, length_map,
      polynomial.length_eq]
  apply map_injective_iff.mpr (fun a b => encodeG1_injective)
  have hread := FixedBytes.chunks_flatMap (pvss.commitments.map encodeG1) []
  rwa [hlen, ← hcom, ← h, hpts, FixedBytes.chunks_flatMap, eq_comm] at hread

omit [Curve] in
theorem ofPositions_eq_ok {coefficient : Nat → Except DkgMaterialError DkgSecretScalar}
    (h : ofPositions coefficient = .ok polynomial) :
    (List.range parameters.threshold).mapM coefficient = .ok polynomial.coefficients := by
  unfold ofPositions at h
  split at h
  · next coefficients hcoeff =>
      cases h
      exact hcoeff
  · cases h

omit [Curve] in
/-- Renovation keeps the constant coefficient. -/
theorem head_renovate (ht : parameters.threshold ≠ 0) {renovated : DkgPolynomial parameters}
    {entropy : Entropy} (h : polynomial.renovate entropy = .ok renovated) :
    renovated.coefficients.head? = polynomial.coefficients.head? := by
  have hposi := mapM_eq_ok.mp (ofPositions_eq_ok h)
  have hlen := polynomial.length_eq
  have h1 := hposi.get (by rw [length_range]; exact Nat.pos_of_ne_zero ht)
    (by rw [renovated.length_eq]; exact Nat.pos_of_ne_zero ht)
  simp only [get_eq_getElem, getElem_range] at h1
  cases hcoeff : polynomial.coefficients with
  | nil =>
    rw [hcoeff, length_nil] at hlen
    exact absurd hlen.symm ht
  | cons constant rest =>
    rw [hcoeff] at h1
    rw [head?_eq_getElem?, getElem?_eq_getElem, Except.ok.inj h1, head?_cons]

/-- The announcement of a renovated polynomial renovates every announcement of the polynomial. -/
theorem renovates_generatePvss (ht : parameters.threshold ≠ 0)
    (hpart : parameters.participants < 2 ^ 64) {renovated : DkgPolynomial parameters}
    {entropy : Entropy} (hreno : polynomial.renovate entropy = .ok renovated)
    {material : DkgPvssMaterial} (hmat : renovated.generatePvss entropy = .ok material)
    {prev : DkgPvss parameters} (hprev : prev.commitments = polynomial.points) :
    ∃ pvss : DkgPvss parameters,
      DkgPvss.decodeWithParameters material.encoded parameters = .ok pvss ∧
        pvss.renovates prev = true := by
  rcases bind_ok hmat with ⟨randomizer, -, hmat⟩
  rcases decode_generatePvss hpart hmat with ⟨pvss, hpvss, hcom⟩
  refine ⟨pvss, hpvss, decide_eq_true ?_⟩
  rw [hcom, hprev, points, points, head?_map, head?_map, head_renovate ht hreno]

end DkgPolynomial

end Curve

end NeoX
