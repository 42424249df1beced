import NeoX.Primitives

/-!
# The dBFT header extra data

The versioned `extraData` of a dBFT header: a hashable prefix that the
seal covers, followed by the seal itself. A V0 header carries only ECDSA
signatures; V1 and V2 headers name their scheme and a fallback commitment.

Main results:

- `DbftExtra.decode_tryEncode`: a sealed extra that encodes decodes to
  itself under its own validator count.
- `DbftExtra.hashablePrefix_tryEncode`: sealing leaves the hashable
  prefix unchanged.
- `DbftExtra.decode_inverse_tryEncode`: encoding and decoding are inverse to each
  other.
-/

namespace NeoX

open List
open Except hiding ok error

/-- Number of bytes of a recoverable ECDSA signature. -/
def ecdsaSignatureLen : Nat := 65

def hashableExtraV0Len : Nat := 1

def hashableExtraV1Len : Nat := 1 + 1 + 32

/-- Format version of the extra data. -/
inductive ExtraVersion where
  | v0
  | v1
  | v2
  deriving DecidableEq, Repr

/-- Seal scheme of V1 and V2 extras. -/
inductive SignatureScheme where
  | ecdsa
  | threshold
  deriving DecidableEq, Repr

inductive DbftExtraError where
  | empty
  | unsupportedVersion (version : UInt8)
  | unsupportedSignatureScheme (scheme : UInt8)
  | invalidLength (expected actual : Nat)
  | emptyValidatorSet
  | lengthOverflow (validatorCount : Nat)
  | invalidPrefixFields
  | invalidSignatureCount (expected actual : Nat)
  deriving DecidableEq, Repr

variable {byte : UInt8}

namespace ExtraVersion

def toByte : ExtraVersion → UInt8
  | v0 => 0
  | v1 => 1
  | v2 => 2

def ofByte (byte : UInt8) : Except DbftExtraError ExtraVersion :=
  if byte = 0 then .ok v0
  else if byte = 1 then .ok v1
  else if byte = 2 then .ok v2
  else .error (.unsupportedVersion byte)

@[simp] theorem ofByte_toByte (version : ExtraVersion) : ofByte version.toByte = .ok version := by
  cases version <;> rfl

theorem ofByte_eq_ok {version : ExtraVersion} (h : ofByte byte = .ok version) :
    version.toByte = byte := by
  unfold ofByte at h
  split at h
  · next hbyte =>
      cases h
      exact hbyte.symm
  · split at h
    · next hbyte =>
        cases h
        exact hbyte.symm
    · split at h
      · next hbyte =>
          cases h
          exact hbyte.symm
      · cases h

/-- The length of the hashable prefix of this version. -/
def prefixLen : ExtraVersion → Nat
  | v0 => hashableExtraV0Len
  | v1 | v2 => hashableExtraV1Len

end ExtraVersion

variable {scheme : SignatureScheme}

namespace SignatureScheme

def toByte : SignatureScheme → UInt8
  | ecdsa => 0
  | threshold => 1

def ofByte (byte : UInt8) : Except DbftExtraError SignatureScheme :=
  if byte = 0 then .ok ecdsa
  else if byte = 1 then .ok threshold
  else .error (.unsupportedSignatureScheme byte)

@[simp] theorem ofByte_toByte (scheme : SignatureScheme) : ofByte scheme.toByte = .ok scheme := by
  cases scheme <;> rfl

theorem ofByte_eq_ok (h : ofByte byte = .ok scheme) :
    scheme.toByte = byte := by
  unfold ofByte at h
  split at h
  · next hbyte =>
      cases h
      exact hbyte.symm
  · split at h
    · next hbyte =>
        cases h
        exact hbyte.symm
    · cases h

end SignatureScheme

/-- Minimum number of honest nodes required by Neo X dBFT. -/
def bftHonestNodeCount (nodeCount : Nat) : Nat :=
  nodeCount - (nodeCount - 1) / 3

/-! ## The hashable prefix -/

/-- Field combinations a prefix may carry: V0 is ECDSA without a fallback commitment, V1
and V2 always have one. -/
def validPrefixFields : ExtraVersion → SignatureScheme → Option B256 → Bool
  | .v0, scheme, fallback => scheme = .ecdsa && fallback.isNone
  | .v1, _, fallback => fallback.isSome
  | .v2, _, fallback => fallback.isSome

/-- Hashable extra data of an unsealed proposal. -/
structure DbftExtraPrefix where
  version : ExtraVersion
  signatureScheme : SignatureScheme
  fallbackNextConsensus : Option B256
  valid : validPrefixFields version signatureScheme fallbackNextConsensus = true
  deriving DecidableEq

variable {raw : Bytes} {extra : DbftExtraPrefix} {fallback : Option B256}

namespace DbftExtraPrefix

/-- Construct the prefix of an unsealed proposal. -/
def new (version : ExtraVersion) (scheme : SignatureScheme) (fallback : Option B256) :
    Except DbftExtraError DbftExtraPrefix :=
  if valid : validPrefixFields version scheme fallback = true then
    .ok ⟨version, scheme, fallback, valid⟩
  else
    .error .invalidPrefixFields

/-- Decode the prefix and ignore a seal that may follow it. -/
def decode (raw : Bytes) : Except DbftExtraError DbftExtraPrefix := do
  let versionByte ← ofOption .empty raw.head?
  match ← ExtraVersion.ofByte versionByte with
  | .v0 => .ok ⟨.v0, .ecdsa, none, rfl⟩
  | .v1 => do
      require (hashableExtraV1Len ≤ raw.length)
        (.invalidLength hashableExtraV1Len raw.length)
      let scheme ← SignatureScheme.ofByte (raw.getD 1 0)
      .ok ⟨.v1, scheme, some (FixedBytes.first 32 (raw.drop 2)), rfl⟩
  | .v2 => do
      require (hashableExtraV1Len ≤ raw.length)
        (.invalidLength hashableExtraV1Len raw.length)
      let scheme ← SignatureScheme.ofByte (raw.getD 1 0)
      .ok ⟨.v2, scheme, some (FixedBytes.first 32 (raw.drop 2)), rfl⟩

def encode (extra : DbftExtraPrefix) : Bytes :=
  match extra.version, extra.fallbackNextConsensus with
  | .v0, _ => [ExtraVersion.v0.toByte]
  | version, some fallback =>
    version.toByte :: extra.signatureScheme.toByte :: fallback.bytes
  | version, none => [version.toByte, extra.signatureScheme.toByte]

theorem decode_encode_append (extra : DbftExtraPrefix) (sealBytes : Bytes) :
    decode (extra.encode ++ sealBytes) = .ok extra := by
  obtain ⟨version, scheme, fallback, valid⟩ := extra
  cases version with
  | v0 =>
    cases scheme <;> cases fallback <;> first | rfl | simp [validPrefixFields] at valid
  | v1 | v2 =>
    cases fallback with
    | none => simp [validPrefixFields] at valid
    | some fallback =>
      have hlen := fallback.length_eq
      simp [decode, encode, Except.ofOption, Except.require, ExtraVersion.toByte,
        ExtraVersion.ofByte, hashableExtraV1Len, hlen]

theorem length_encode (extra : DbftExtraPrefix) :
    extra.encode.length = extra.version.prefixLen := by
  obtain ⟨version, scheme, fallback, valid⟩ := extra
  cases version with
  | v0 => rfl
  | v1 | v2 =>
    cases fallback with
    | none => simp [validPrefixFields] at valid
    | some fallback =>
      simp [encode, ExtraVersion.prefixLen, hashableExtraV1Len, fallback.length_eq]

theorem new_eq_ok {version : ExtraVersion}
    (hnew : new version scheme fallback = .ok extra) :
    extra.version = version ∧ extra.signatureScheme = scheme ∧
      extra.fallbackNextConsensus = fallback := by
  unfold new at hnew
  split at hnew
  · cases hnew
    exact ⟨rfl, rfl, rfl⟩
  · cases hnew

theorem new_self (extra : DbftExtraPrefix) :
    new extra.version extra.signatureScheme extra.fallbackNextConsensus = .ok extra := by
  rw [new, dif_pos extra.valid]

theorem exists_fallback (extra : DbftExtraPrefix) (hsch : extra.signatureScheme = .threshold) :
    ∃ fallback, extra.fallbackNextConsensus = some fallback := by
  rcases extra with ⟨version, scheme, fallback, valid⟩
  cases hsch
  cases fallback with
  | none => cases version <;> cases valid
  | some fallback => exact ⟨fallback, rfl⟩

theorem head?_encode (extra : DbftExtraPrefix) :
    extra.encode.head? = some extra.version.toByte := by
  obtain ⟨version, scheme, fallback, valid⟩ := extra
  cases version <;> cases fallback <;> rfl

/-- The fields after the version byte of a bare V1 or V2 prefix. -/
theorem fields_of_length {versionByte : UInt8} {rest : Bytes}
    (hlen : (versionByte :: rest).length = hashableExtraV1Len)
    (hsch : SignatureScheme.ofByte ((versionByte :: rest).getD 1 0) = .ok scheme) :
    rest = scheme.toByte :: (FixedBytes.first 32 (rest.drop 1)).bytes := by
  cases rest with
  | nil => cases hlen
  | cons schemeByte fallback =>
    have hfall : fallback.length = 32 := by
      simp only [length_cons, hashableExtraV1Len] at hlen
      omega
    have hbyte : scheme.toByte = schemeByte := SignatureScheme.ofByte_eq_ok hsch
    have h1 : (FixedBytes.first 32 fallback).bytes = fallback := by
      change (fallback ++ replicate 32 0).take 32 = fallback
      rw [take_append_of_le_length hfall.ge, take_of_length_le hfall.le]
    rw [drop_one, tail_cons, h1, hbyte]

theorem encode_of_decode (h : decode raw = .ok extra)
    (hlen : raw.length = extra.version.prefixLen) : extra.encode = raw := by
  obtain ⟨versionByte, hhead, h⟩ := ofOption_bind h
  rcases bind_ok h with ⟨version, hver, h⟩
  have hbyte := ExtraVersion.ofByte_eq_ok hver
  cases raw with
  | nil => cases hhead
  | cons first rest =>
    cases hhead
    cases version with
    | v0 =>
      cases h
      have hr : rest = [] := eq_nil_of_length_eq_zero (Nat.succ.inj hlen)
      rw [hr, ← hbyte]
      rfl
    | v1 | v2 =>
      obtain ⟨_, h⟩ := of_bind h
      rcases bind_ok h with ⟨scheme, hsch, h⟩
      cases h
      exact congrArg₂ cons hbyte (fields_of_length hlen hsch).symm

end DbftExtraPrefix

/-! ## Sealed extras -/

/-- Decoded header extra data. -/
inductive DbftExtra where
  | ecdsa (version : ExtraVersion) (fallbackNextConsensus : Option B256)
      (validators : List Address) (signatures : List (FixedBytes 65))
  | threshold (version : ExtraVersion) (fallbackNextConsensus : B256)
      (publicKey : G1Bytes) (signature : G2Bytes)
  deriving DecidableEq

namespace DbftExtra

def version : DbftExtra → ExtraVersion
  | ecdsa version .. => version
  | threshold version .. => version

def signatureScheme : DbftExtra → SignatureScheme
  | ecdsa .. => .ecdsa
  | threshold .. => .threshold

/-- The fallback next-consensus commitment of V1 and V2 extras. -/
def fallbackNextConsensus : DbftExtra → Option B256
  | ecdsa _ fallback .. => fallback
  | threshold _ fallback .. => some fallback

def validators : DbftExtra → Option (List Address)
  | ecdsa _ _ validators _ => some validators
  | threshold .. => none

def signatures : DbftExtra → Option (List (FixedBytes 65))
  | ecdsa _ _ _ signatures => some signatures
  | threshold .. => none

def thresholdPublicKey : DbftExtra → Option G1Bytes
  | ecdsa .. => none
  | threshold _ _ publicKey _ => some publicKey

def thresholdSignature : DbftExtra → Option G2Bytes
  | ecdsa .. => none
  | threshold _ _ _ signature => some signature

def checkedLength (validatorCount length : Nat) : Except DbftExtraError Unit :=
  require (length < 2 ^ 64) (.lengthOverflow validatorCount)

/-- Decode the validators and signatures that follow an ECDSA prefix. -/
def decodeEcdsa (raw : Bytes) (version : ExtraVersion) (validatorCount : Nat)
    (fallback : Option B256) : Except DbftExtraError DbftExtra := do
  require (validatorCount ≠ 0) .emptyValidatorSet
  let signatureCount := bftHonestNodeCount validatorCount
  let validatorBytes := validatorCount * 20
  checkedLength validatorCount validatorBytes
  let signatureBytes := signatureCount * ecdsaSignatureLen
  checkedLength validatorCount signatureBytes
  let signaturesStart := version.prefixLen + validatorBytes
  checkedLength validatorCount signaturesStart
  let expected := signaturesStart + signatureBytes
  checkedLength validatorCount expected
  require (raw.length = expected) (.invalidLength expected raw.length)
  .ok (.ecdsa version fallback
    (FixedBytes.chunks 20 validatorCount (raw.drop version.prefixLen))
    (FixedBytes.chunks 65 signatureCount (raw.drop signaturesStart)))

/-- Decode a sealed extra with the active validator count. -/
def decode (raw : Bytes) (validatorCount : Nat) : Except DbftExtraError DbftExtra := do
  let extra ← DbftExtraPrefix.decode raw
  match extra.signatureScheme with
  | .ecdsa => decodeEcdsa raw extra.version validatorCount extra.fallbackNextConsensus
  | .threshold => do
      let fallback ← ofOption .invalidPrefixFields extra.fallbackNextConsensus
      let expected := hashableExtraV1Len + 48 + 96
      require (raw.length = expected) (.invalidLength expected raw.length)
      .ok (.threshold extra.version fallback
        (FixedBytes.first 48 (raw.drop hashableExtraV1Len))
        (FixedBytes.first 96 (raw.drop (hashableExtraV1Len + 48))))

/-- The bytes after the hashable prefix. -/
def sealBytes : DbftExtra → Bytes
  | ecdsa _ _ validators signatures =>
    validators.flatMap FixedBytes.bytes ++ signatures.flatMap FixedBytes.bytes
  | threshold _ _ publicKey signature => publicKey.bytes ++ signature.bytes

/-- Encode a sealed extra after checking its layout. -/
def tryEncode (extra : DbftExtra) : Except DbftExtraError Bytes :=
  match extra with
  | ecdsa version fallback validators signatures => do
      let hashable ← DbftExtraPrefix.new version .ecdsa fallback
      require (validators ≠ []) .emptyValidatorSet
      let expected := bftHonestNodeCount validators.length
      require (signatures.length = expected)
        (.invalidSignatureCount expected signatures.length)
      .ok (hashable.encode ++ extra.sealBytes)
  | threshold version fallback _ _ => do
      let hashable ← DbftExtraPrefix.new version .threshold (some fallback)
      .ok (hashable.encode ++ extra.sealBytes)

def hashablePrefix (raw : Bytes) : Except DbftExtraError Bytes := do
  let versionByte ← ofOption .empty raw.head?
  let version ← ExtraVersion.ofByte versionByte
  require (version.prefixLen ≤ raw.length) (.invalidLength version.prefixLen raw.length)
  .ok (raw.take version.prefixLen)

theorem length_hashablePrefix_le {hashable : Bytes} (h : hashablePrefix raw = .ok hashable) :
    hashable.length ≤ hashableExtraV1Len := by
  rcases bind_ok h with ⟨versionByte, -, h⟩
  rcases bind_ok h with ⟨version, -, h⟩
  obtain ⟨_, h⟩ := of_bind h
  cases h
  refine (length_take_le _ _).trans ?_
  cases version <;> decide

theorem decode_hashablePrefix {hashable : Bytes} (h : hashablePrefix raw = .ok hashable) :
    DbftExtraPrefix.decode raw = DbftExtraPrefix.decode hashable := by
  obtain ⟨versionByte, hhead, h⟩ := ofOption_bind h
  rcases bind_ok h with ⟨version, hver, h⟩
  obtain ⟨hlen, h⟩ := require_bind h
  have htake : raw.take version.prefixLen = hashable := Except.ok.inj h
  have hcove : hashable.length = version.prefixLen := by
    rw [← htake, length_take, Nat.min_eq_left hlen]
  have hraw : raw = hashable ++ raw.drop version.prefixLen := by
    rw [← htake, take_append_drop]
  generalize raw.drop version.prefixLen = rest at hraw
  subst hraw
  have hsame : hashable.head? = some versionByte := by
    cases hashable with
    | nil => cases version <;> cases hcove
    | cons byte hashable => exact hhead
  have hfields : version ≠ .v0 → hashable.length = 34 := by
    intro hne
    cases version <;> first | exact absurd rfl hne | exact hcove
  unfold DbftExtraPrefix.decode
  rw [hhead, hsame]
  simp only [Except.ofOption, ok_bind, hver]
  cases version with
  | v0 => rfl
  | v1 | v2 =>
    have hlong := hfields (by decide)
    have hsch : (hashable ++ rest).getD 1 0 = hashable.getD 1 0 := by
      have h2 : 1 < hashable.length := by omega
      simp [getD_eq_getElem?_getD, getElem?_append_left h2]
    have hfall : FixedBytes.first 32 ((hashable ++ rest).drop 2)
        = FixedBytes.first 32 (hashable.drop 2) := by
      rw [drop_append_of_le_length (by omega)]
      exact FixedBytes.first_append_of_le (by rw [length_drop, hlong]) rest
    have hr : hashableExtraV1Len ≤ (hashable ++ rest).length := by
      simp [hashableExtraV1Len, hlong]
    have hown : hashableExtraV1Len ≤ hashable.length := by
      simp [hashableExtraV1Len, hlong]
    simp only [hsch, hfall, require_of _ hr, require_of _ hown]

theorem hashablePrefix_of_decode (h : DbftExtraPrefix.decode raw = .ok extra) :
    ∃ hashable, hashablePrefix raw = .ok hashable := by
  obtain ⟨versionByte, hhead, h⟩ := ofOption_bind h
  rcases bind_ok h with ⟨version, hver, h⟩
  have hlen : version.prefixLen ≤ raw.length := by
    cases version with
    | v0 =>
      cases raw with
      | nil => cases hhead
      | cons byte raw => exact Nat.le_add_left 1 raw.length
    | v1 | v2 =>
      rcases bind_ok h with ⟨_, hlen, -⟩
      exact require_eq_ok.mp hlen
  refine ⟨raw.take version.prefixLen, ?_⟩
  rw [hashablePrefix, hhead, ofOption, ok_bind, hver, ok_bind, require_of _ hlen, ok_bind]

theorem hashablePrefix_eq_encode
    (h : DbftExtraPrefix.decode raw = .ok extra) : hashablePrefix raw = .ok extra.encode := by
  rcases hashablePrefix_of_decode h with ⟨hashable, hhash⟩
  have hdec : DbftExtraPrefix.decode hashable = .ok extra :=
    (decode_hashablePrefix hhash).symm.trans h
  have hlen : hashable.length = extra.version.prefixLen := by
    rcases bind_ok hhash with ⟨versionByte, hhead, hhash⟩
    rcases bind_ok hhash with ⟨version, hver, hhash⟩
    obtain ⟨hlen, hhash⟩ := require_bind hhash
    cases hhash
    have hsame : extra.version = version := by
      rw [DbftExtraPrefix.decode, hhead, ok_bind, hver, ok_bind] at h
      cases version with
      | v0 =>
        cases h
        rfl
      | v1 | v2 =>
        obtain ⟨_, h⟩ := of_bind h
        rcases bind_ok h with ⟨scheme, -, h⟩
        cases h
        rfl
    rw [hsame, length_take, Nat.min_eq_left hlen]
  rw [hhash, DbftExtraPrefix.encode_of_decode hdec hlen]

theorem hashablePrefix_encode_append (extra : DbftExtraPrefix) (sealBytes : Bytes) :
    hashablePrefix (extra.encode ++ sealBytes) = .ok extra.encode := by
  have hhead : (extra.encode ++ sealBytes).head? = some extra.version.toByte := by
    rw [head?_append, extra.head?_encode]
    rfl
  have hlen := extra.length_encode
  unfold hashablePrefix
  rw [hhead]
  simp [Except.ofOption, Except.require, ← hlen]

/-- What an encodable extra looks like: its prefix is valid and its seal follows. -/
theorem tryEncode_eq_ok {extra : DbftExtra} (henc : extra.tryEncode = .ok raw) :
    ∃ hashable : DbftExtraPrefix,
      hashable.version = extra.version ∧
      hashable.signatureScheme = extra.signatureScheme ∧
      hashable.fallbackNextConsensus = extra.fallbackNextConsensus ∧
      raw = hashable.encode ++ extra.sealBytes := by
  cases extra with
  | ecdsa version fallback validators signatures =>
    obtain ⟨hashable, hnew, henc⟩ := bind_ok henc
    obtain ⟨_, henc⟩ := of_bind henc
    obtain ⟨_, henc⟩ := of_bind henc
    obtain ⟨hver, hsch, hfall⟩ := DbftExtraPrefix.new_eq_ok hnew
    cases henc
    exact ⟨hashable, hver, hsch, hfall, rfl⟩
  | threshold version fallback publicKey sig =>
    obtain ⟨hashable, hnew, henc⟩ := bind_ok henc
    obtain ⟨hver, hsch, hfall⟩ := DbftExtraPrefix.new_eq_ok hnew
    cases henc
    exact ⟨hashable, hver, hsch, hfall, rfl⟩

theorem signatures_length_of_tryEncode {version : ExtraVersion} {validators : List Address}
    {signatures : List (FixedBytes 65)}
    (henc : (ecdsa version fallback validators signatures).tryEncode = .ok raw) :
    validators ≠ [] ∧ signatures.length = bftHonestNodeCount validators.length := by
  obtain ⟨_, henc⟩ := of_bind henc
  obtain ⟨hne, henc⟩ := require_bind henc
  obtain ⟨hc, -⟩ := require_bind henc
  exact ⟨hne, hc⟩

/-- The configured count must be the number of validators an ECDSA extra lists. -/
def MatchesCount (extra : DbftExtra) (validatorCount : Nat) : Prop :=
  ∀ validators ∈ extra.validators, validators.length = validatorCount

variable {validatorCount : Nat}

/-- A sealed extra that encodes decodes to itself under its own validator count. Every encoding has
the length of a machine word. -/
theorem decode_of_tryEncode {extra : DbftExtra}
    (henc : extra.tryEncode = .ok raw) (hc : extra.MatchesCount validatorCount)
    (hword : raw.length < 2 ^ 64) : decode raw validatorCount = .ok extra := by
  obtain ⟨hashable, hver, hsch, hfall, rfl⟩ := tryEncode_eq_ok henc
  have hdec := hashable.decode_encode_append extra.sealBytes
  have hlen := hashable.length_encode
  cases extra with
  | ecdsa version fallback validators signatures =>
    obtain ⟨hne, hsigs⟩ := signatures_length_of_tryEncode henc
    have hvals : validators.length = validatorCount := hc validators rfl
    have hpos : 0 < validators.length := length_pos_iff.mpr hne
    simp only [DbftExtra.version, signatureScheme, fallbackNextConsensus]
      at hver hsch hfall
    rw [hver] at hlen
    have hvali := FixedBytes.length_flatMap_bytes validators
    have hsign := FixedBytes.length_flatMap_bytes signatures
    have hrawL : (hashable.encode ++
        (ecdsa version fallback validators signatures).sealBytes).length
        = version.prefixLen + validatorCount * 20
          + bftHonestNodeCount validatorCount * ecdsaSignatureLen := by
      simp only [sealBytes, length_append, hvali, hsign, hlen, hsigs, hvals, ecdsaSignatureLen]
      omega
    rw [hrawL] at hword
    have hdropP : (hashable.encode ++
        (ecdsa version fallback validators signatures).sealBytes).drop version.prefixLen
        = validators.flatMap FixedBytes.bytes ++ signatures.flatMap FixedBytes.bytes :=
      drop_left' hlen
    have hdropV : (hashable.encode ++
        (ecdsa version fallback validators signatures).sealBytes).drop
          (version.prefixLen + validatorCount * 20)
        = signatures.flatMap FixedBytes.bytes ++ [] := by
      rw [← drop_drop, hdropP, append_nil]
      exact drop_left' (by rw [hvali, hvals])
    have hcutV := FixedBytes.chunks_flatMap validators
      (signatures.flatMap FixedBytes.bytes)
    have hcutS := FixedBytes.chunks_flatMap signatures []
    rw [hvals] at hcutV
    rw [hsigs, hvals] at hcutS
    unfold decode
    rw [hdec, ok_bind, hsch]
    simp only [decodeEcdsa, checkedLength, hver, hfall]
    rw [require_of _ (by omega), ok_bind, require_of _ (by omega),
      ok_bind, require_of _ (by omega), ok_bind,
      require_of _ (by omega), ok_bind, require_of _ (by omega), ok_bind,
      require_of _ hrawL, ok_bind, hdropP, hdropV,
      hcutV, hcutS]
  | threshold version fallback publicKey sig =>
    simp only [DbftExtra.version, signatureScheme, fallbackNextConsensus]
      at hver hsch hfall
    have hv1 : hashable.version.prefixLen = hashableExtraV1Len := by
      have hval := hashable.valid
      rw [hsch] at hval
      cases hv : hashable.version with
      | v0 => simp [hv, validPrefixFields] at hval
      | v1 | v2 => rfl
    rw [hv1] at hlen
    have hkey := publicKey.length_eq
    have hsig := sig.length_eq
    have hdropP : (hashable.encode ++
        (threshold version fallback publicKey sig).sealBytes).drop hashableExtraV1Len
        = publicKey.bytes ++ sig.bytes :=
      drop_left' hlen
    have hdrop : (hashable.encode ++
        (threshold version fallback publicKey sig).sealBytes).drop
          (hashableExtraV1Len + 48) = sig.bytes ++ [] := by
      rw [← drop_drop, hdropP, append_nil]
      exact drop_left' hkey
    have hrawL : (hashable.encode ++
        (threshold version fallback publicKey sig).sealBytes).length
        = hashableExtraV1Len + 48 + 96 := by
      simp only [sealBytes, length_append, hlen, hkey, hsig]
    unfold decode
    rw [hdec, ok_bind, hsch]
    simp only [hfall, Except.ofOption, ok_bind]
    rw [require_of _ hrawL, ok_bind, hdropP, hdrop,
      FixedBytes.first_append, FixedBytes.first_append, hver]

theorem prefixLen_le (version : ExtraVersion) : version.prefixLen ≤ hashableExtraV1Len := by
  cases version with
  | v0 => simp [ExtraVersion.prefixLen, hashableExtraV0Len, hashableExtraV1Len]
  | v1 | v2 => exact le_rfl

theorem length_of_tryEncode {extra : DbftExtra}
    (henc : extra.tryEncode = .ok raw) (hc : extra.MatchesCount validatorCount)
    (hsmall : validatorCount ≤ 256) : raw.length < 2 ^ 64 := by
  obtain ⟨hashable, -, -, -, rfl⟩ := tryEncode_eq_ok henc
  have hlen := hashable.length_encode
  have hprefix := prefixLen_le hashable.version
  rw [hashableExtraV1Len] at hprefix
  rw [length_append, hlen]
  cases extra with
  | ecdsa version fallback validators signatures =>
    obtain ⟨-, hsigs⟩ := signatures_length_of_tryEncode henc
    have hvals : validators.length = validatorCount := hc validators rfl
    have hq : bftHonestNodeCount validators.length ≤ validators.length := Nat.sub_le _ _
    rw [sealBytes, length_append, FixedBytes.length_flatMap_bytes, FixedBytes.length_flatMap_bytes]
    omega
  | threshold version fallback publicKey sig =>
    rw [sealBytes, length_append, publicKey.length_eq, sig.length_eq]
    omega

theorem decode_tryEncode {extra : DbftExtra}
    (henc : extra.tryEncode = .ok raw) (hc : extra.MatchesCount validatorCount)
    (hsmall : validatorCount ≤ 256) : decode raw validatorCount = .ok extra :=
  decode_of_tryEncode henc hc (length_of_tryEncode henc hc hsmall)

theorem hashablePrefix_tryEncode {extra : DbftExtra} (henc : extra.tryEncode = .ok raw) :
    ∃ hashable : DbftExtraPrefix,
      hashable.version = extra.version ∧
      hashable.signatureScheme = extra.signatureScheme ∧
      hashable.fallbackNextConsensus = extra.fallbackNextConsensus ∧
      hashablePrefix raw = .ok hashable.encode := by
  obtain ⟨hashable, hver, hsch, hfall, rfl⟩ := tryEncode_eq_ok henc
  exact ⟨hashable, hver, hsch, hfall, hashablePrefix_encode_append hashable _⟩

/-! ## Bytes that decode -/

theorem eq_encode_append {hashable : DbftExtraPrefix}
    (h : DbftExtraPrefix.decode raw = .ok hashable) :
    raw = hashable.encode ++ raw.drop hashable.version.prefixLen := by
  have hprefix := hashablePrefix_eq_encode h
  obtain ⟨versionByte, hhead, hprefix⟩ := bind_ok hprefix
  obtain ⟨version, hver, hprefix⟩ := bind_ok hprefix
  obtain ⟨hlen, hprefix⟩ := require_bind hprefix
  have htake : raw.take version.prefixLen = hashable.encode := Except.ok.inj hprefix
  have hsame : version.prefixLen = hashable.version.prefixLen := by
    rw [← hashable.length_encode, ← htake, length_take, Nat.min_eq_left hlen]
  rw [← htake, hsame, take_append_drop]

/-- What a decoded extra looks like: its fields are those of the prefix, its seal is what follows,
and an ECDSA seal lists a validator for each expected one and a quorum of signatures. -/
structure DecodedFrom (raw : Bytes) (validatorCount : Nat) (extra : DbftExtra)
    (hashable : DbftExtraPrefix) : Prop where
  version_eq : extra.version = hashable.version
  scheme_eq : extra.signatureScheme = hashable.signatureScheme
  fallback_eq : extra.fallbackNextConsensus = hashable.fallbackNextConsensus
  seal_eq : extra.sealBytes = raw.drop hashable.version.prefixLen
  validators_eq : ∀ validators ∈ extra.validators,
    validators.length = validatorCount ∧ validatorCount ≠ 0
  signatures_eq : ∀ signatures ∈ extra.signatures,
    signatures.length = bftHonestNodeCount validatorCount

theorem decodeEcdsa_spec {extra : DbftExtra} {hashable : DbftExtraPrefix}
    (hsch : hashable.signatureScheme = .ecdsa)
    (h : decodeEcdsa raw hashable.version validatorCount hashable.fallbackNextConsensus
      = .ok extra) : DecodedFrom raw validatorCount extra hashable := by
  obtain ⟨hpos, h⟩ := require_bind h
  iterate 4 obtain ⟨_, h⟩ := of_bind h
  obtain ⟨hlen, h⟩ := require_bind h
  cases h
  rw [ecdsaSignatureLen] at hlen
  refine ⟨rfl, hsch.symm, rfl, ?_, ?_, ?_⟩
  · -- The length leaves no bytes between or after the pieces.
    have hvals : validatorCount * 20 ≤ (raw.drop hashable.version.prefixLen).length := by
      rw [length_drop]
      omega
    have hr : (raw.drop (hashable.version.prefixLen + validatorCount * 20)).length
        = bftHonestNodeCount validatorCount * 65 := by
      rw [length_drop]
      omega
    rw [sealBytes, FixedBytes.flatMap_chunks hvals, FixedBytes.flatMap_chunks hr.ge,
      ← hr, take_length, ← drop_drop, take_append_drop]
  · intro validators hvals
    cases hvals
    exact ⟨FixedBytes.length_chunks _ _, hpos⟩
  · intro signatures hsigs
    cases hsigs
    exact FixedBytes.length_chunks _ _

/-- A decoded extra has a prefix and a seal that make up the bytes. -/
theorem decode_spec {extra : DbftExtra}
    (h : decode raw validatorCount = .ok extra) :
    ∃ hashable, DbftExtraPrefix.decode raw = .ok hashable ∧
      DecodedFrom raw validatorCount extra hashable := by
  obtain ⟨hashable, hhash, h⟩ := bind_ok h
  refine ⟨hashable, hhash, ?_⟩
  cases hsch : hashable.signatureScheme with
  | ecdsa =>
    rw [hsch] at h
    exact decodeEcdsa_spec hsch h
  | threshold =>
    rw [hsch] at h
    obtain ⟨fallback, hfall, h⟩ := ofOption_bind h
    obtain ⟨hlen, h⟩ := require_bind h
    cases h
    have hver : hashable.version.prefixLen = hashableExtraV1Len := by
      have hval := hashable.valid
      rw [hsch] at hval
      cases hv : hashable.version with
      | v0 => simp [hv, validPrefixFields] at hval
      | v1 | v2 => rfl
    refine ⟨rfl, hsch.symm, hfall.symm, ?_, nofun, nofun⟩
    have hkey : (FixedBytes.first 48 (raw.drop hashableExtraV1Len)).bytes
        = (raw.drop hashableExtraV1Len).take 48 := by
      rw [FixedBytes.bytes_first]
      rw [length_drop]
      omega
    have hsig : (FixedBytes.first 96 (raw.drop (hashableExtraV1Len + 48))).bytes
        = raw.drop (hashableExtraV1Len + 48) := by
      rw [FixedBytes.bytes_first, take_of_length_le]
      · rw [length_drop]
        omega
      · rw [length_drop]
        omega
    rw [sealBytes, hkey, hsig, hver, ← drop_drop, take_append_drop]

theorem tryEncode_decode {extra : DbftExtra}
    (h : decode raw validatorCount = .ok extra) : extra.tryEncode = .ok raw := by
  obtain ⟨hashable, hhash, hdec⟩ := decode_spec h
  have hraw := eq_encode_append hhash
  rw [← hdec.seal_eq] at hraw
  have hnew := hashable.new_self
  rw [← hdec.version_eq, ← hdec.scheme_eq, ← hdec.fallback_eq] at hnew
  cases extra with
  | ecdsa version fallback validators signatures =>
    obtain ⟨hc, hpos⟩ := hdec.validators_eq validators rfl
    have hne : validators ≠ [] := by
      intro hempty
      rw [hempty] at hc
      exact hpos hc.symm
    have hsigs := hdec.signatures_eq signatures rfl
    rw [← hc] at hsigs
    simp only [DbftExtra.version, signatureScheme, fallbackNextConsensus] at hnew
    simp only [tryEncode, hnew, ok_bind, require_of _ hne, require_of _ hsigs]
    rw [← hraw]
  | threshold version fallback publicKey sig =>
    simp only [DbftExtra.version, signatureScheme, fallbackNextConsensus] at hnew
    simp only [tryEncode, hnew, ok_bind]
    rw [← hraw]

/-- The bytes start with a prefix that decodes to the fields of an extra, that the seal covers and
that is read back from its own encoding. -/
def StartsWithPrefix (raw : Bytes) (extra : DbftExtra) : Prop :=
  ∃ hashable : DbftExtraPrefix, DbftExtraPrefix.decode raw = .ok hashable ∧
    hashable.version = extra.version ∧ hashable.signatureScheme = extra.signatureScheme ∧
    hashable.fallbackNextConsensus = extra.fallbackNextConsensus ∧
    hashablePrefix raw = .ok hashable.encode ∧
    DbftExtraPrefix.decode hashable.encode = .ok hashable

theorem startsWithPrefix_of_decode {extra : DbftExtra}
    (h : decode raw validatorCount = .ok extra) : StartsWithPrefix raw extra := by
  obtain ⟨hashable, hhash, hdec⟩ := decode_spec h
  have hself := hashable.decode_encode_append []
  rw [append_nil] at hself
  exact ⟨hashable, hhash, hdec.version_eq.symm, hdec.scheme_eq.symm,
    hdec.fallback_eq.symm, hashablePrefix_eq_encode hhash, hself⟩

/-- Decoding and encoding are inverse to each other and agree on the bytes that a seal covers: what
decodes encodes to the same bytes, and what encodes decodes to the same extra under its own
validator count. The length of an encoding is a machine word. -/
theorem decode_inverse_tryEncode (validatorCount : Nat) :
    (∀ raw extra, decode raw validatorCount = .ok extra →
      extra.tryEncode = .ok raw ∧ StartsWithPrefix raw extra) ∧
    (∀ extra raw, extra.tryEncode = .ok raw → raw.length < 2 ^ 64 →
      extra.MatchesCount validatorCount →
        decode raw validatorCount = .ok extra ∧ StartsWithPrefix raw extra) := by
  constructor
  · intro raw extra h
    exact ⟨tryEncode_decode h, startsWithPrefix_of_decode h⟩
  · intro extra raw hencode hword hcount
    have h := decode_of_tryEncode hencode hcount hword
    exact ⟨h, startsWithPrefix_of_decode h⟩

/-- The empty seal of a genesis block with one validator. -/
def soloGenesis : DbftExtra :=
  .ecdsa .v0 none [.ofNat 20 1] [.zero 65]

theorem decode_inverse_tryEncode_soloGenesis :
    soloGenesis.tryEncode = .ok (0 :: (FixedBytes.ofNat 20 1).bytes ++ List.replicate 65 0) ∧
      decode (0 :: (FixedBytes.ofNat 20 1).bytes ++ List.replicate 65 0) 1 = .ok soloGenesis := by
  have hencode : soloGenesis.tryEncode
      = .ok (0 :: (FixedBytes.ofNat 20 1).bytes ++ List.replicate 65 0) := by decide
  have hcount : soloGenesis.MatchesCount 1 := by
    intro validators hvalidators
    cases hvalidators
    rfl
  exact ⟨hencode, ((decode_inverse_tryEncode 1).2 _ _ hencode (by decide) hcount).1⟩

end DbftExtra

end NeoX
