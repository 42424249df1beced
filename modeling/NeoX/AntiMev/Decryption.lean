import NeoX.AntiMev.ScalarCurve
import NeoX.AntiMev.Threshold
import NeoX.Library.Interpolation

/-!
# Threshold decryption

Ciphertexts of threshold encryption, the decryption shares of committee members, and the search
for a threshold-sized set of members whose shares open every ciphertext of a block.

Main results:

- `Opens.unique`: a ciphertext and a public key determine the opened key, whatever
  shares it comes from.
- `aggregateAndDecryptKeys_opens`: what the search returns opens the ciphertexts.
- `decryption_robust`: enough members with the shares of one polynomial open every
  ciphertext, whatever else is contributed.
-/

namespace NeoX

open List
open Except hiding ok error

section Curve

variable [Curve]

/-! ## Ciphertexts -/

def tpkeSerializedLen : Nat := 192

/-- Read a compressed point of the first subgroup. -/
def decodeG1 (encoded : G1Bytes) (field : String) : Except TpkeError G1 :=
  ofOption (.invalidG1Point field) (uncompress1 encoded)

/-- Read a compressed point of the second subgroup. -/
def decodeG2 (encoded : G2Bytes) (field : String) : Except TpkeError G2 :=
  ofOption (.invalidG2Point field) (uncompress2 encoded)

/-- A ciphertext `M + r PK` with its commitments `r G1` and `-r G2`, all of them points. -/
structure TpkeCiphertext where
  encryptedMessage : G1Bytes
  randomCommitment : G1Bytes
  pairingCommitment : G2Bytes
  messageValid : (uncompress1 encryptedMessage).isSome = true
  randomValid : (uncompress1 randomCommitment).isSome = true
  pairingValid : (uncompress2 pairingCommitment).isSome = true

/-- A scalar in its 32-byte encoding: not zero and below the order. -/
def secretScalar (encoded : B256) : Option Scalar :=
  let value := encoded.toNat
  if value ≠ 0 ∧ value < scalarModulus then some (value : Scalar) else none

variable {ct : TpkeCiphertext}

namespace TpkeCiphertext

/-- Read a ciphertext of three points. -/
def decode (encoded : Bytes) : Except TpkeError TpkeCiphertext := do
  require (encoded.length = tpkeSerializedLen) (.wrongCiphertextLength encoded.length)
  let encryptedMessage := FixedBytes.first 48 encoded
  let randomCommitment := FixedBytes.first 48 (encoded.drop 48)
  let pairingCommitment := FixedBytes.first 96 (encoded.drop 96)
  if hmessage : (uncompress1 encryptedMessage).isSome = true then
    if hrandom : (uncompress1 randomCommitment).isSome = true then
      if hpairing : (uncompress2 pairingCommitment).isSome = true then
        .ok ⟨encryptedMessage, randomCommitment, pairingCommitment, hmessage, hrandom, hpairing⟩
      else
        .error (.invalidG2Point "pairing commitment")
    else
      .error (.invalidG1Point "random commitment")
  else
    .error (.invalidG1Point "encrypted message")

def message (ciphertext : TpkeCiphertext) : G1 :=
  (uncompress1 ciphertext.encryptedMessage).get ciphertext.messageValid

def random (ciphertext : TpkeCiphertext) : G1 :=
  (uncompress1 ciphertext.randomCommitment).get ciphertext.randomValid

def commitment (ciphertext : TpkeCiphertext) : G2 :=
  (uncompress2 ciphertext.pairingCommitment).get ciphertext.pairingValid

/-- The sum that vanishes at commitments of opposite scalars. -/
abbrev commitmentSum (random : G1) (commitment : G2) : GT :=
  pairing random generator2 + pairing generator1 commitment

/-- Check that both commitments contain the same scalar. -/
def verify (ciphertext : TpkeCiphertext) : Except TpkeError Unit := do
  let randomCommitment ← decodeG1 ciphertext.randomCommitment "random commitment"
  let pairingCommitment ← decodeG2 ciphertext.pairingCommitment "pairing commitment"
  require (commitmentSum randomCommitment pairingCommitment = 0) .invalidCiphertextCommitment

/-- The share of a member: the random point times the private share. -/
def decryptionShare (ciphertext : TpkeCiphertext) (privateKey : B256) :
    Except TpkeError G1Bytes := do
  let scalar ← ofOption .invalidPrivateKey (secretScalar privateKey)
  let point ← decodeG1 ciphertext.randomCommitment "random commitment"
  .ok (compress1 (scalar • point))

theorem decodeG1_encryptedMessage (ct : TpkeCiphertext) (field : String) :
    decodeG1 ct.encryptedMessage field = .ok ct.message :=
  ofOption_eq_ok.mpr (Option.some_get ct.messageValid).symm

theorem decodeG1_randomCommitment (ct : TpkeCiphertext) (field : String) :
    decodeG1 ct.randomCommitment field = .ok ct.random :=
  ofOption_eq_ok.mpr (Option.some_get ct.randomValid).symm

theorem decodeG2_pairingCommitment (ct : TpkeCiphertext) (field : String) :
    decodeG2 ct.pairingCommitment field = .ok ct.commitment :=
  ofOption_eq_ok.mpr (Option.some_get ct.pairingValid).symm

theorem commitmentSum_eq_zero (random : G1) (commitment : G2) :
    commitmentSum random commitment = 0 ↔
      ∃ scalar : Scalar, random = scalar • generator1 ∧ commitment = -(scalar • generator2) := by
  constructor
  · intro hpair
    obtain ⟨scalar, rfl⟩ := Curve.exists_smul_generator1 random
    refine ⟨scalar, rfl, pairing_generator1_injective ?_⟩
    rw [commitmentSum, map_smul, LinearMap.smul_apply] at hpair
    rw [map_neg, map_smul]
    exact eq_neg_of_add_eq_zero_right hpair
  · rintro ⟨scalar, rfl, rfl⟩
    rw [commitmentSum, map_smul, LinearMap.smul_apply, map_neg, map_smul, add_neg_cancel]

theorem verify_eq_ok :
    ct.verify = .ok () ↔
      ∃ scalar : Scalar, ct.random = scalar • generator1 ∧
        ct.commitment = -(scalar • generator2) := by
  rw [verify, decodeG1_randomCommitment, ok_bind, decodeG2_pairingCommitment,
    ok_bind, require_eq_ok, commitmentSum_eq_zero]

/-- The ciphertext of a point under a public key, for a chosen random scalar. -/
def encrypt (publicKey point : G1) (scalar : Scalar) : TpkeCiphertext where
  encryptedMessage := compress1 (point + scalar • publicKey)
  randomCommitment := compress1 (scalar • generator1)
  pairingCommitment := compress2 (-(scalar • generator2))
  messageValid := by rw [Curve.uncompress1_compress1, Option.isSome_some]
  randomValid := by rw [Curve.uncompress1_compress1, Option.isSome_some]
  pairingValid := by rw [Curve.uncompress2_compress2, Option.isSome_some]

theorem verify_encrypt (publicKey point : G1) (scalar : Scalar) :
    (encrypt publicKey point scalar).verify = .ok () := by
  apply verify_eq_ok.mpr
  refine ⟨scalar, ?_, ?_⟩
  · simp only [random, encrypt, Curve.uncompress1_compress1, Option.get_some]
  · simp only [commitment, encrypt, Curve.uncompress2_compress2, Option.get_some]

end TpkeCiphertext

/-! ## Interpolation of shares -/

/-- The coefficient of the share at a position, scaled by the DKG scaler. -/
def lagrangeCoefficient (position : Nat) (indices : List UInt32) (scaler : UInt64) : Scalar :=
  Interpolation.weightAt (scaler.toNat : Scalar) (indices.map fun index => (index.toNat : Scalar))
    position

/-- The weighted sum of indexed points, in either subgroup. -/
def interpolateShares {G : Type} [AddCommGroup G] [Module Scalar G] (points : List (UInt32 × G))
    (scaler : UInt64) : G :=
  (points.zipIdx.map fun entry =>
    lagrangeCoefficient entry.2 (points.map Prod.fst) scaler • entry.1.2).sum

omit [Curve] in
theorem interpolateShares_eq_atZero {G : Type} [AddCommGroup G] [Module Scalar G]
    (points : List (UInt32 × G)) (scaler : UInt64) :
    interpolateShares points scaler = Interpolation.atZero (scaler.toNat : Scalar)
      (points.map fun point => ((point.1.toNat : Scalar), point.2)) := by
  rw [interpolateShares, Interpolation.atZero, zipIdx_map, map_map]
  congr 1
  refine map_congr_left fun e _ => ?_
  simp [lagrangeCoefficient, Function.comp_def]

omit [Curve] in
theorem nodup_scalars {idx : List UInt32} (hnd : idx.Nodup) :
    (idx.map fun i => (i.toNat : Scalar)).Nodup := by
  refine hnd.map_on ?_
  intro a _ b _ heq
  have h1 := a.toNat_lt
  have h2 := b.toNat_lt
  exact UInt32.toNat_inj.mp (natCast_scalar_injective (by omega) (by omega) heq)

omit [Curve] in
/-- Shares of one polynomial interpolate to its scaled value at zero. -/
theorem interpolateShares_eq {G : Type} [AddCommGroup G] [Module Scalar G]
    {points : List (UInt32 × G)} (hnd : (points.map Prod.fst).Nodup) (scaler : UInt64)
    {p : Polynomial Scalar} (hdeg : p.degree < points.length) {element : G}
    (hshs : ∀ point ∈ points, point.2 = p.eval (point.1.toNat : Scalar) • element) :
    interpolateShares points scaler = ((scaler.toNat : Scalar) * p.eval 0) • element := by
  rw [interpolateShares_eq_atZero]
  apply Interpolation.atZero_eq
  · have hscal := nodup_scalars hnd
    rw [map_map] at hscal ⊢
    exact hscal
  · rwa [length_map]
  · intro point hmem
    rcases mem_map.mp hmem with ⟨share, hsh, rfl⟩
    exact hshs share hsh

/-! ## Aggregation -/

/-- Open a ciphertext with the shares of some members, if they interpolate to the right point. -/
def aggregateAndDecryptWithKey (ciphertext : TpkeCiphertext) (publicKey : G1)
    (shares : List (UInt32 × G1Bytes)) (scaler : UInt64) : Except TpkeError G1Bytes := do
  let points ← shares.mapM fun share => do
    let point ← decodeG1 share.2 "decryption share"
    Except.ok (share.1, point)
  let recovered := interpolateShares points scaler
  let commitment ← decodeG2 ciphertext.pairingCommitment "pairing commitment"
  require (pairing publicKey commitment + pairing recovered generator2 = 0)
    .invalidDecryptionShares
  let message ← decodeG1 ciphertext.encryptedMessage "encrypted message"
  .ok (compress1 (message - recovered))

/-- The shares that a selection of members contributes to one ciphertext. -/
def sharesAt (selected : List (UInt32 × List G1Bytes)) (position : Nat) :
    List (UInt32 × G1Bytes) :=
  selected.map fun contribution =>
    (contribution.1, contribution.2.getD position (.zero 48))

/-- Open every ciphertext with one selection of members. -/
def decryptAll (publicKey : G1) (scaler : UInt64) (selected : List (UInt32 × List G1Bytes)) :
    Nat → List TpkeCiphertext → Except TpkeError (List G1Bytes)
  | _, [] => .ok []
  | position, ciphertext :: ciphertexts => do
      let key ← aggregateAndDecryptWithKey ciphertext publicKey (sharesAt selected position) scaler
      let keys ← decryptAll publicKey scaler selected (position + 1) ciphertexts
      .ok (key :: keys)

/-- The contributions with one share for every ciphertext. -/
def eligibleContributions (count : Nat) (contributions : List (UInt32 × List G1Bytes)) :
    List (UInt32 × List G1Bytes) :=
  contributions.filter fun contribution => contribution.2.length = count

/-- Try threshold-sized selections of the members that contributed to every ciphertext and return
the keys of the first one that opens all of them. -/
def aggregateAndDecryptKeys (ciphertexts : List TpkeCiphertext) (globalPublicKey : G1Bytes)
    (contributions : List (UInt32 × List G1Bytes)) (threshold : Nat) (scaler : UInt64)
    (maxContributions : Nat) : Except TpkeError (List G1Bytes) :=
  if ciphertexts.isEmpty then
    .ok []
  else do
    let eligible := eligibleContributions ciphertexts.length contributions
    require (threshold ≠ 0 ∧ threshold ≤ eligible.length)
      (.notEnoughDecryptionContributions threshold eligible.length)
    require (eligible.length ≤ maxContributions)
      (.tooManyDecryptionContributions eligible.length)
    validateIndexedShares eligible scaler
    let publicKey ← ofOption .decryptionAggregationFailed (uncompress1 globalPublicKey)
    ofOption .decryptionAggregationFailed
      ((combinations (sortShares eligible) threshold).findSome? fun selected =>
        (decryptAll publicKey scaler selected 0 ciphertexts).toOption)

/-- The search with the dimensions of a committee. -/
def aggregateAndDecryptKeysWithParameters (ciphertexts : List TpkeCiphertext)
    (globalPublicKey : G1Bytes) (contributions : List (UInt32 × List G1Bytes)) (threshold : Nat)
    (parameters : DkgParameters) : Except TpkeError (List G1Bytes) :=
  aggregateAndDecryptKeys ciphertexts globalPublicKey contributions threshold parameters.scaler
    parameters.participants

/-! ## What a ciphertext opens to -/

/-- A key that a ciphertext opens to under a public key: the encrypted point less the point whose
pairing balances the commitment. -/
def Opens (publicKey : G1) (ciphertext : TpkeCiphertext) (key : G1Bytes) : Prop :=
  ∃ point : G1, pairing publicKey ciphertext.commitment + pairing point generator2 = 0 ∧
    key = compress1 (ciphertext.message - point)

theorem Opens.unique {publicKey : G1} {a b : G1Bytes} (h1 : Opens publicKey ct a)
    (h2 : Opens publicKey ct b) :
    a = b := by
  rcases h1 with ⟨point, hpt, rfl⟩
  rcases h2 with ⟨other, ho, rfl⟩
  have hsame : point = other := by
    apply pairing_generator2_injective
    exact (eq_neg_of_add_eq_zero_right hpt).trans (eq_neg_of_add_eq_zero_right ho).symm
  rw [hsame]

variable {scaler : UInt64}

theorem opens_of_aggregate {publicKey : G1} {shares : List (UInt32 × G1Bytes)} {key : G1Bytes}
    (h : aggregateAndDecryptWithKey ct publicKey shares scaler = .ok key) :
    Opens publicKey ct key := by
  rcases bind_ok h with ⟨points, -, h⟩
  rcases bind_ok h with ⟨commitment, hcom, h⟩
  obtain ⟨hpair, h⟩ := require_bind h
  rcases bind_ok h with ⟨message, hm, h⟩
  rw [TpkeCiphertext.decodeG2_pairingCommitment] at hcom
  rw [TpkeCiphertext.decodeG1_encryptedMessage] at hm
  cases hcom
  cases hm
  cases h
  exact ⟨interpolateShares points scaler, hpair, rfl⟩

variable {cts : List TpkeCiphertext} {keys : List G1Bytes}

theorem opens_of_decryptAll {publicKey : G1} {selected : List (UInt32 × List G1Bytes)} {pos : Nat}
    (h : decryptAll publicKey scaler selected pos cts = .ok keys) :
    List.Forall₂ (Opens publicKey) cts keys := by
  induction cts generalizing pos keys with
  | nil =>
    cases h
    exact List.Forall₂.nil
  | cons ciphertext cts ih =>
    rcases bind_ok h with ⟨key, hkey, h⟩
    rcases bind_ok h with ⟨rest, hr, h⟩
    cases h
    exact List.Forall₂.cons (opens_of_aggregate hkey) (ih hr)

/-- What the search returns opens the ciphertexts under the global key. -/
theorem aggregateAndDecryptKeys_opens {globalPublicKey : G1Bytes}
    {cs : List (UInt32 × List G1Bytes)} {t : Nat} {maxContributions : Nat}
    (h : aggregateAndDecryptKeys cts globalPublicKey cs t scaler
      maxContributions = .ok keys) (hne : cts ≠ []) :
    ∃ publicKey, uncompress1 globalPublicKey = some publicKey ∧
      List.Forall₂ (Opens publicKey) cts keys := by
  unfold aggregateAndDecryptKeys at h
  rw [if_neg (by simpa using hne)] at h
  iterate 3 obtain ⟨_, h⟩ := of_bind h
  obtain ⟨publicKey, hkey, h⟩ := ofOption_bind h
  rw [ofOption_eq_ok] at h
  rcases exists_of_findSome?_eq_some h with ⟨selected, -, hsel⟩
  refine ⟨publicKey, hkey, ?_⟩
  cases hkeys : decryptAll publicKey scaler selected 0 cts with
  | error reason =>
    rw [hkeys] at hsel
    cases hsel
  | ok found =>
    rw [hkeys] at hsel
    cases hsel
    exact opens_of_decryptAll hkeys

/-! ## Robustness -/

/-- The share of a member of a committee with a secret polynomial, for one ciphertext. -/
noncomputable def polynomialShare (p : Polynomial Scalar) (index : UInt32)
    (ciphertext : TpkeCiphertext) : G1Bytes :=
  compress1 (p.eval (index.toNat : Scalar) • ciphertext.random)

/-- What a ciphertext opens to with a committee secret. -/
def openedWith (secret : Scalar) (ciphertext : TpkeCiphertext) : G1Bytes :=
  compress1 (ciphertext.message - secret • ciphertext.random)

/-- Open a ciphertext with a committee secret, if its commitments balance. -/
def openWithSecret (secret : Scalar) (ciphertext : TpkeCiphertext) : Except TpkeError G1Bytes := do
  require (pairing (secret • generator1) ciphertext.commitment
    + pairing (secret • ciphertext.random) generator2 = 0) .invalidDecryptionShares
  .ok (openedWith secret ciphertext)

theorem balanced_of_verify (h : ct.verify = .ok ()) (secret : Scalar) :
    pairing (secret • generator1) ct.commitment
      + pairing (secret • ct.random) generator2 = 0 := by
  rcases TpkeCiphertext.verify_eq_ok.mp h with ⟨scalar, hrandom, hcom⟩
  rw [hrandom, hcom, map_neg, map_smul, map_smul, map_smul, map_smul, LinearMap.smul_apply,
    LinearMap.smul_apply, LinearMap.smul_apply, smul_comm scalar secret, neg_add_cancel]

theorem opens_openedWith (h : ct.verify = .ok ())
    (secret : Scalar) : Opens (secret • generator1) ct (openedWith secret ct) :=
  ⟨secret • ct.random, balanced_of_verify h secret, rfl⟩

theorem openWithSecret_of_verify (h : ct.verify = .ok ())
    (secret : Scalar) : openWithSecret secret ct = .ok (openedWith secret ct) := by
  rw [openWithSecret, require_of _ (balanced_of_verify h secret), ok_bind]

theorem mapM_openWithSecret (hver : ∀ ct ∈ cts, ct.verify = .ok ()) (secret : Scalar) :
    cts.mapM (openWithSecret secret) = .ok (cts.map (openedWith secret)) := by
  apply mapM_eq_ok_of_forall₂
  rw [forall₂_map_right_iff, forall₂_same]
  exact fun ct hmem => openWithSecret_of_verify (hver ct hmem) secret

/-- Enough shares of one polynomial do what its scaled secret does. -/
theorem aggregateAndDecryptWithKey_eq (ciphertext : TpkeCiphertext) {p : Polynomial Scalar}
    {idx : List UInt32} (hnd : idx.Nodup) (hdeg : p.degree < idx.length) (scaler : UInt64) :
    aggregateAndDecryptWithKey ciphertext (((scaler.toNat : Scalar) * p.eval 0) • generator1)
      (idx.map fun i => (i, polynomialShare p i ciphertext)) scaler
      = openWithSecret ((scaler.toNat : Scalar) * p.eval 0) ciphertext := by
  have hpts : (idx.map fun i => (i, polynomialShare p i ciphertext)).mapM
      (fun share => (do
        let point ← decodeG1 share.2 "decryption share"
        Except.ok (share.1, point) : Except TpkeError (UInt32 × G1)))
      = .ok (idx.map fun i =>
        (i, p.eval (i.toNat : Scalar) • ciphertext.random)) := by
    apply mapM_eq_ok_of_forall₂
    rw [forall₂_map_left_iff, forall₂_map_right_iff, forall₂_same]
    intro i _
    rw [decodeG1, polynomialShare, Curve.uncompress1_compress1]
    rfl
  have hreco : interpolateShares (idx.map fun i =>
        (i, p.eval (i.toNat : Scalar) • ciphertext.random)) scaler
      = ((scaler.toNat : Scalar) * p.eval 0) • ciphertext.random := by
    apply interpolateShares_eq
    · simpa [Function.comp_def] using hnd
    · rwa [length_map]
    · intro point hmem
      rcases mem_map.mp hmem with ⟨i, -, rfl⟩
      rfl
  rw [aggregateAndDecryptWithKey, hpts, ok_bind, hreco, TpkeCiphertext.decodeG2_pairingCommitment,
    ok_bind, TpkeCiphertext.decodeG1_encryptedMessage]
  rfl

/-- A selection of honest members does to every ciphertext what the scaled secret does. -/
theorem decryptAll_eq {p : Polynomial Scalar} {idx : List UInt32} (hnd : idx.Nodup)
    (hdeg : p.degree < idx.length) (scaler : UInt64) (cts : List TpkeCiphertext) :
    decryptAll (((scaler.toNat : Scalar) * p.eval 0) • generator1) scaler
      (idx.map fun i => (i, cts.map (polynomialShare p i))) 0 cts
      = cts.mapM (openWithSecret ((scaler.toNat : Scalar) * p.eval 0)) := by
  -- The cts before a position are opened already.
  suffices hr : ∀ opened rest, cts = opened ++ rest →
      decryptAll (((scaler.toNat : Scalar) * p.eval 0) • generator1) scaler
        (idx.map fun i => (i, cts.map (polynomialShare p i)))
        opened.length rest
      = rest.mapM (openWithSecret ((scaler.toNat : Scalar) * p.eval 0)) from
    hr [] cts rfl
  intro opened rest
  induction rest generalizing opened with
  | nil => exact fun _ => rfl
  | cons ct rest ih =>
    intro hsplit
    have hshs : sharesAt
        (idx.map fun i => (i, cts.map (polynomialShare p i)))
        opened.length = idx.map fun i => (i, polynomialShare p i ct) := by
      rw [sharesAt, map_map]
      refine map_congr_left fun i _ => ?_
      simp [hsplit]
    have htail := ih (opened ++ [ct]) (by rw [hsplit, append_assoc]; rfl)
    rw [length_append, length_singleton] at htail
    rw [decryptAll, hshs, aggregateAndDecryptWithKey_eq ct hnd hdeg, htail, mapM_cons]
    rfl

theorem keys_unique {publicKey : G1} {a b : List G1Bytes}
    (h1 : List.Forall₂ (Opens publicKey) cts a)
    (h2 : List.Forall₂ (Opens publicKey) cts b) : a = b := by
  induction h1 generalizing b with
  | nil =>
    cases h2
    rfl
  | cons hkey _ ih =>
    cases h2 with
    | cons ho hr => rw [hkey.unique ho, ih hr]

omit [Curve] in
/-- Members with distinct indices of a committee are not more than it has. -/
theorem length_le_participants {α : Type} {cs : List (UInt32 × α)} {participants : Nat}
    (hidx : ∀ c ∈ cs,
      1 ≤ c.1.toNat ∧ c.1.toNat ≤ participants)
    (hnd : (cs.map Prod.fst).Nodup) : cs.length ≤ participants := by
  have hnumb : ((cs.map Prod.fst).map UInt32.toNat).Nodup :=
    hnd.map fun _ _ => UInt32.toNat_inj.mp
  have hsub : (cs.map Prod.fst).map UInt32.toNat ⊆ range' 1 participants := by
    intro number hmem
    rcases mem_map.mp hmem with ⟨i, hi, rfl⟩
    rcases mem_map.mp hi with ⟨c, hcont, rfl⟩
    have hbounds := hidx c hcont
    exact mem_range'_1.mpr (by omega)
  simpa using (subperm_of_subset hnumb hsub).length_le

omit [Curve] in
theorem length_le_of_contributed {α : Type} {cs : List (UInt32 × α)} {members : List UInt32}
    (hdist : members.Nodup) {share : UInt32 → α} (hmem : ∀ i ∈ members, (i, share i) ∈ cs) :
    members.length ≤ cs.length := by
  have hsub : members ⊆ cs.map Prod.fst := fun i hi =>
    mem_map.mpr ⟨_, hmem i hi, rfl⟩
  have hle := (subperm_of_subset hdist hsub).length_le
  rwa [length_map] at hle

/-- The search succeeds as soon as a threshold of members contributes the shares of one
polynomial. -/
theorem exists_decryptedKeys {participants : Nat} {ps : DkgParameters}
    (hparam : DkgParameters.new participants = .ok ps) {p : Polynomial Scalar}
    (hdeg : p.degree < ps.threshold) (hver : ∀ ct ∈ cts, ct.verify = .ok ())
    {contributions : List (UInt32 × List G1Bytes)} (hidx : ∀ c ∈ contributions,
      1 ≤ c.1.toNat ∧ c.1.toNat ≤ participants)
    (hnd : (contributions.map Prod.fst).Nodup) {honest : List UInt32} (hdist : honest.Nodup)
    (henough : ps.threshold ≤ honest.length)
    (hhonest : ∀ i ∈ honest,
      (i, cts.map (polynomialShare p i)) ∈ contributions) :
    ∃ keys, aggregateAndDecryptKeysWithParameters cts
      (compress1 (((ps.scaler.toNat : Scalar) * p.eval 0) • generator1)) contributions
      ps.threshold ps = .ok keys := by
  rcases DkgParameters.new_spec hparam with ⟨hc, hscaler, hpos, -⟩
  by_cases hempty : cts = []
  · rw [hempty]
    exact ⟨[], rfl⟩
  generalize helig : eligibleContributions cts.length contributions = eligible
  have hsub : eligible.Sublist contributions := helig ▸ filter_sublist
  have hunique : (eligible.map Prod.fst).Nodup := hnd.sublist (hsub.map Prod.fst)
  have hin : ∀ i ∈ honest, (i, cts.map (polynomialShare p i)) ∈ eligible := by
    intro i hi
    rw [← helig]
    exact mem_filter.mpr ⟨hhonest i hi, by simp⟩
  have hmany : ps.threshold ≤ eligible.length :=
    henough.trans (length_le_of_contributed hdist hin)
  have hfew : eligible.length ≤ ps.participants := by
    rw [hc]
    exact hsub.length_le.trans (length_le_participants hidx hnd)
  have hne : eligible ≠ [] := by
    intro hnil
    rw [hnil, length_nil] at hmany
    exact hpos (Nat.le_zero.mp hmany)
  have hval : validateIndexedShares eligible ps.scaler = .ok () := by
    apply validateIndexedShares_of hne hscaler _ hunique
    intro i hi h0
    rcases mem_map.mp hi with ⟨c, hcont, rfl⟩
    have hbounds := hidx c (hsub.subset hcont)
    rw [h0] at hbounds
    exact absurd hbounds.1 (by decide)
  -- One of the selections consists of honest members.
  rcases exists_combination hunique hdist hin henough with
    ⟨indices, hindi, hlen, -, hcomb⟩
  have hopened := decryptAll_eq hindi (hlen.symm ▸ hdeg) ps.scaler cts
  rw [mapM_openWithSecret hver] at hopened
  have hsome : ((combinations (sortShares eligible) ps.threshold).findSome?
      fun selected => (decryptAll (((ps.scaler.toNat : Scalar) * p.eval 0) • generator1)
        ps.scaler selected 0 cts).toOption).isSome = true :=
    findSome?_isSome_iff.mpr ⟨_, hcomb, by rw [hopened]; rfl⟩
  rcases Option.isSome_iff_exists.mp hsome with ⟨keys, hkeys⟩
  refine ⟨keys, ?_⟩
  rw [aggregateAndDecryptKeysWithParameters, aggregateAndDecryptKeys,
    if_neg (by simpa using hempty), helig]
  dsimp only
  rw [require_of _ ⟨hpos, hmany⟩, ok_bind, require_of _ hfew,
    ok_bind, hval, ok_bind, Curve.uncompress1_compress1]
  exact ofOption_eq_ok.mpr hkeys

/-- For every committee and every secret polynomial of a degree below the threshold: verified
ciphertexts open to what the secret opens them to, as soon as a threshold of members contributes the
shares of the polynomial, whatever else is contributed and in whatever order. -/
theorem decryption_robust {participants : Nat} {parameters : DkgParameters}
    (hparameters : DkgParameters.new participants = .ok parameters) {p : Polynomial Scalar}
    (hdegree : p.degree < parameters.threshold) {ciphertexts : List TpkeCiphertext}
    (hverified : ∀ ciphertext ∈ ciphertexts, ciphertext.verify = .ok ())
    {contributions : List (UInt32 × List G1Bytes)} (hindices : ∀ contribution ∈ contributions,
      1 ≤ contribution.1.toNat ∧ contribution.1.toNat ≤ participants)
    (hnodup : (contributions.map Prod.fst).Nodup) {honest : List UInt32} (hdistinct : honest.Nodup)
    (henough : parameters.threshold ≤ honest.length)
    (hhonest : ∀ index ∈ honest,
      (index, ciphertexts.map (polynomialShare p index)) ∈ contributions) :
    aggregateAndDecryptKeysWithParameters ciphertexts
      (compress1 (((parameters.scaler.toNat : Scalar) * p.eval 0) • generator1)) contributions
      parameters.threshold parameters
      = .ok (ciphertexts.map (openedWith ((parameters.scaler.toNat : Scalar) * p.eval 0))) := by
  by_cases hempty : ciphertexts = []
  · rw [hempty]
    rfl
  rcases exists_decryptedKeys hparameters hdegree hverified hindices hnodup hdistinct henough
    hhonest with ⟨keys, hkeys⟩
  rcases aggregateAndDecryptKeys_opens hkeys hempty with ⟨publicKey, hpublicKey, hopens⟩
  rw [Curve.uncompress1_compress1] at hpublicKey
  cases hpublicKey
  have hexpected : List.Forall₂
      (Opens (((parameters.scaler.toNat : Scalar) * p.eval 0) • generator1)) ciphertexts
      (ciphertexts.map (openedWith ((parameters.scaler.toNat : Scalar) * p.eval 0))) := by
    rw [List.forall₂_map_right_iff, List.forall₂_same]
    exact fun ciphertext hmem => opens_openedWith (hverified ciphertext hmem) _
  rw [hkeys, keys_unique hopens hexpected]

end Curve

section Example

open Polynomial ScalarCurve

/-- The secret polynomial of a committee of four. -/
noncomputable def examplePolynomial : Polynomial Scalar := X + C 5

/-- Two ciphertexts for the committee of four. -/
def exampleCiphertexts : List TpkeCiphertext :=
  [TpkeCiphertext.encrypt ((15 : Scalar) • generator1) ((9 : Scalar) • generator1) 2,
    TpkeCiphertext.encrypt ((15 : Scalar) • generator1) ((10 : Scalar) • generator1) 7]

/-- Three members contribute their shares and the fourth one contributes other bytes. -/
noncomputable def exampleContributions : List (UInt32 × List G1Bytes) :=
  (4, [.zero 48, .zero 48]) :: [3, 1, 2].map fun index =>
    (index, exampleCiphertexts.map (polynomialShare examplePolynomial index))

theorem degree_examplePolynomial : examplePolynomial.degree < (3 : ℕ) := by
  rw [examplePolynomial, degree_X_add_C]
  decide

theorem verify_exampleCiphertexts :
    ∀ ct ∈ exampleCiphertexts, ct.verify = .ok () := by
  intro ct hmem
  simp only [exampleCiphertexts, mem_cons, not_mem_nil, or_false] at hmem
  rcases hmem with rfl | rfl
  · exact TpkeCiphertext.verify_encrypt _ _ _
  · exact TpkeCiphertext.verify_encrypt _ _ _

/-- Both ciphertexts open in spite of the wrong shares of the fourth member. -/
theorem decryption_robust_wrongShares :
    aggregateAndDecryptKeysWithParameters exampleCiphertexts
      (compress1 ((((3 : UInt64).toNat : Scalar) * examplePolynomial.eval 0) • generator1))
      exampleContributions 3 ⟨4, 3, 3⟩
      = .ok (exampleCiphertexts.map (openedWith
        (((3 : UInt64).toNat : Scalar) * examplePolynomial.eval 0))) := by
  have hparameters : DkgParameters.new 4 = .ok ⟨4, 3, 3⟩ := by decide +kernel
  have hindices : exampleContributions.map Prod.fst = [4, 3, 1, 2] := rfl
  have honest : List.Perm [1, 2, 3] ([3, 1, 2] : List UInt32) := by decide
  refine decryption_robust hparameters degree_examplePolynomial verify_exampleCiphertexts ?_
    (by rw [hindices]; decide) (by decide : ([1, 2, 3] : List UInt32).Nodup) (by decide) ?_
  · intro contribution hmem
    have hindex := List.mem_map_of_mem (f := Prod.fst) hmem
    rw [hindices] at hindex
    generalize contribution.1 = index at hindex ⊢
    fin_cases hindex <;> decide
  · intro index hmem
    apply List.mem_cons_of_mem
    exact List.mem_map_of_mem (honest.mem_iff.mp hmem)

end Example

end NeoX
