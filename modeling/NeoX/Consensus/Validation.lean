import NeoX.Consensus.Extra
import Mathlib.Data.List.Sort

/-!
# Static validation of dBFT headers

The seal hash and seal message of a header, the commitment of a parent to its
child's signers, the checks of an ECDSA quorum and of a threshold signature, and
the difficulty rule.

Main results:

- `verifyEcdsaSignatures_spec`: an accepted ECDSA seal lists as many
  distinct signers as signatures, all of them validators of the extra.
- `decoded_ecdsaSeal_iff`: the check of a decoded ECDSA seal accepts exactly the
  quorums of distinct listed validators, in any order.
- `thresholdSealMessage_ne_hash`: seal messages and seal hashes never
  coincide.
-/

namespace NeoX

open List
open Except hiding ok error

open Rlp

inductive DbftValidationError where
  | extra (error : DbftExtraError)
  | wrongScheme
  | missingFallbackNextConsensus
  | nextConsensusMismatch (expected actual : B256)
  | zeroValidator
  | duplicateValidator (validator : Address)
  | invalidRecoveryId (index : Nat) (value : UInt8)
  | invalidSignature (index : Nat)
  | duplicateSigner (signer : Address)
  | unauthorizedSigner (signer : Address)
  | invalidThresholdPublicKey
  | invalidThresholdSignature
  | emptyStandbyValidatorSet
  | wrongDifficulty (expected actual : U256)
  | wrongPrimary (expected : UInt8) (actual : UInt64)
  deriving DecidableEq

/-! ## Sorted address lists -/

def sortAddresses (addresses : List Address) : List Address :=
  addresses.insertionSort (· ≤ ·)

/-- The first of two equal neighbours. -/
def adjacentDuplicate : List Address → Option Address
  | first :: second :: rest =>
    if first = second then some first else adjacentDuplicate (second :: rest)
  | _ => none

/-- Match sorted signers against sorted allowed addresses in one pass. -/
def mergeSigners : List Address → List Address → Except DbftValidationError Unit
  | _, [] => .ok ()
  | allowed, signer :: signers =>
    match allowed.dropWhile (· ≠ signer) with
    | [] => .error (.unauthorizedSigner signer)
    | _ :: allowed => mergeSigners allowed signers

variable {addresses : List Address}

theorem nodup_of_adjacentDuplicate (hsorted : addresses.Pairwise (· ≤ ·))
    (hno : adjacentDuplicate addresses = none) : addresses.Pairwise (· < ·) := by
  induction addresses with
  | nil => exact List.Pairwise.nil
  | cons first addresses ih =>
    rcases pairwise_cons.mp hsorted with ⟨h1, hr⟩
    cases addresses with
    | nil => exact pairwise_singleton _ _
    | cons second addresses =>
      rw [adjacentDuplicate] at hno
      split at hno
      · cases hno
      rename_i hne
      have htail := ih hr hno
      refine pairwise_cons.mpr ⟨?_, htail⟩
      -- The second address is strictly above the first, and bounds the others below.
      have hlt : first < second := lt_of_le_of_ne (h1 second (by simp)) hne
      intro o ho
      rcases mem_cons.mp ho with rfl | ho
      · exact hlt
      · exact hlt.trans ((pairwise_cons.mp htail).1 o ho)

theorem adjacentDuplicate_eq_none (hsorted : addresses.Pairwise (· < ·)) :
    adjacentDuplicate addresses = none := by
  induction addresses with
  | nil => rfl
  | cons first addresses ih =>
    rcases pairwise_cons.mp hsorted with ⟨h1, hr⟩
    cases addresses with
    | nil => rfl
    | cons second addresses =>
      have hlt : first < second := h1 second mem_cons_self
      rw [adjacentDuplicate, if_neg (ne_of_lt hlt)]
      exact ih hr

theorem sortAddresses_perm (addresses : List Address) :
    (sortAddresses addresses).Perm addresses :=
  perm_insertionSort _ _

theorem sortAddresses_sorted (addresses : List Address) :
    (sortAddresses addresses).Pairwise (· ≤ ·) :=
  pairwise_insertionSort _ _

variable {signers : List Address}

theorem mem_of_mergeSigners {allowed : List Address}
    (hmerge : mergeSigners allowed signers = .ok ()) : ∀ signer ∈ signers, signer ∈ allowed := by
  induction signers generalizing allowed with
  | nil => simp
  | cons signer signers ih =>
    rw [mergeSigners] at hmerge
    split at hmerge
    · cases hmerge
    rename_i found rest hdrop
    have hsuffix : (found :: rest) <:+ allowed := hdrop ▸ dropWhile_suffix _
    have hf : found = signer := by
      have hhead := head?_dropWhile_not (fun address => decide (address ≠ signer)) allowed
      rw [hdrop] at hhead
      simpa using hhead
    intro o ho
    rcases mem_cons.mp ho with rfl | ho
    · exact hsuffix.subset (by simp [hf])
    · exact hsuffix.subset (mem_cons_of_mem _ (ih hmerge o ho))

/-- The one-pass merge accepts distinct sorted signers among distinct sorted addresses. -/
theorem mergeSigners_eq_ok {allowed : List Address} (hallo : allowed.Pairwise (· < ·))
    (hsign : signers.Pairwise (· < ·)) (hsub : ∀ signer ∈ signers, signer ∈ allowed) :
    mergeSigners allowed signers = .ok () := by
  induction signers generalizing allowed with
  | nil => rfl
  | cons signer signers ih =>
    rcases pairwise_cons.mp hsign with ⟨h1, hr⟩
    rcases append_of_mem (hsub signer mem_cons_self) with ⟨before, later, rfl⟩
    rw [pairwise_append] at hallo
    rcases hallo with ⟨-, hlater, hbefore⟩
    -- Everything before the signer is smaller, so it is dropped and not needed again.
    have hdrop : (before ++ signer :: later).dropWhile (· ≠ signer) = signer :: later := by
      rw [dropWhile_append_of_pos]
      · rw [dropWhile_cons_of_neg (by simp)]
      · intro address haddr
        exact decide_eq_true (ne_of_lt (hbefore address haddr signer mem_cons_self))
    rw [mergeSigners, hdrop]
    refine ih (pairwise_cons.mp hlater).2 hr ?_
    intro o ho
    rcases mem_append.mp (hsub o (mem_cons_of_mem _ ho)) with hmem | hmem
    · have hlt := hbefore o hmem signer mem_cons_self
      exact absurd (hlt.trans (h1 o ho)) (lt_irrefl _)
    · rcases mem_cons.mp hmem with rfl | hmem
      · exact absurd (h1 o ho) (lt_irrefl _)
      · exact hmem

variable [Crypto]

/-! ## What a seal covers -/

/-- The header as it stood when it was signed. -/
def unsignedHeader (header : Header) : Except DbftExtraError Header := do
  let extraData ← DbftExtra.hashablePrefix header.extraData
  .ok { header with extraData := extraData, blockAccessListHash := none, slotNumber := none }

def ecdsaSealHash (header : Header) : Except DbftExtraError B256 := do
  let unsigned ← unsignedHeader header
  .ok (keccak256 unsigned.encode)

def thresholdSealMessage (header : Header) : Except DbftExtraError Bytes := do
  let unsigned ← unsignedHeader header
  .ok unsigned.encode

variable {header : Header}

theorem ecdsaSealHash_eq_ok {hash : B256} :
    ecdsaSealHash header = .ok hash ↔
      ∃ message, thresholdSealMessage header = .ok message ∧ hash = keccak256 message := by
  unfold ecdsaSealHash thresholdSealMessage
  cases unsignedHeader header with
  | error reason => simp
  | ok unsigned => simp [eq_comm]

omit [Crypto] in
theorem thresholdSealMessage_ne_hash {message : Bytes}
    (hm : thresholdSealMessage header = .ok message) (hash : B256) :
    message ≠ hash.bytes := by
  rcases bind_ok hm with ⟨unsigned, -, hm⟩
  have henc : unsigned.encode = message := Except.ok.inj hm
  have hlong := unsigned.length_encode_gt
  intro heq
  rw [henc, heq, hash.length_eq] at hlong
  exact lt_irrefl _ hlong

omit [Crypto] in
theorem unsignedHeader_eq_ok {unsigned : Header} (h : unsignedHeader header = .ok unsigned) :
    unsigned.number = header.number ∧ unsigned.extraData.length ≤ hashableExtraV1Len := by
  rcases bind_ok h with ⟨extraData, hx, h⟩
  have hfields := Except.ok.inj h
  exact ⟨(congrArg Header.number hfields).symm,
    (congrArg Header.extraData hfields) ▸ DbftExtra.length_hashablePrefix_le hx⟩

omit [Crypto] in
theorem number_eq_of_thresholdSealMessage {a b : Header} {msg : Bytes}
    (h1 : thresholdSealMessage a = .ok msg)
    (h2 : thresholdSealMessage b = .ok msg) : a.number = b.number := by
  have hfits : ∀ {header unsigned : Header}, unsignedHeader header = .ok unsigned →
      unsigned.encodeFields.length < 2 ^ 64 := by
    intro header unsigned hunsi
    have hshort := (unsignedHeader_eq_ok hunsi).2
    have hb := unsigned.length_encodeFields_le
    unfold hashableExtraV1Len at hshort
    omega
  rcases bind_ok h1 with ⟨left, hleft, hleftM⟩
  rcases bind_ok h2 with ⟨right, hright, hrigh⟩
  have henc : encodeList left.encodeFields = encodeList right.encodeFields :=
    (Except.ok.inj hleftM).trans (Except.ok.inj hrigh).symm
  have hfields := encodeList_injective (hfits hleft) (hfits hright) henc
  rw [← (unsignedHeader_eq_ok hleft).1, ← (unsignedHeader_eq_ok hright).1]
  exact Header.number_eq_of_encodeFields hfields

def nextConsensusHash (validators : List Address) : B256 :=
  keccak256 (validators.flatMap FixedBytes.bytes)

/-! ## The parent commitment -/

/-- Verify the next-consensus commitment inherited by a child header. -/
def validateParentConsensus (child parent : DbftExtra) (parentNextConsensus : B256) :
    Except DbftValidationError Unit := do
  let (expected, actual) ← match child.signatureScheme with
    | .ecdsa => do
        let validators ← ofOption .wrongScheme child.validators
        let expected ←
          if child.version = .v0 ∨ parent.version = .v0 then
            .ok parentNextConsensus
          else
            ofOption .missingFallbackNextConsensus parent.fallbackNextConsensus
        .ok (expected, nextConsensusHash validators)
    | .threshold => do
        let publicKey ← ofOption .wrongScheme child.thresholdPublicKey
        .ok (parentNextConsensus, keccak256 publicKey.bytes)
  require (expected = actual) (.nextConsensusMismatch expected actual)

/-- A parent commits to the signers of a child: to the validators of an ECDSA child in its mix
hash, or in the fallback commitment once both carry one, and to the public key of a threshold
child in its mix hash. -/
def CommitsTo (parent : DbftExtra) (parentMixHash : B256) : DbftExtra → Prop
  | .ecdsa version _ validators _ =>
    if version = .v0 ∨ parent.version = .v0 then parentMixHash = nextConsensusHash validators
    else parent.fallbackNextConsensus = some (nextConsensusHash validators)
  | .threshold _ _ publicKey _ => parentMixHash = keccak256 publicKey.bytes

/-- The check of the parent commitment accepts exactly the children committed to. -/
theorem validateParentConsensus_eq_ok {child parent : DbftExtra} {parentMixHash : B256} :
    validateParentConsensus child parent parentMixHash = .ok () ↔
      CommitsTo parent parentMixHash child := by
  cases child with
  | threshold version fallback publicKey sig =>
    simp [validateParentConsensus, CommitsTo, DbftExtra.signatureScheme,
      DbftExtra.thresholdPublicKey, Except.ofOption]
  | ecdsa version fallback validators signatures =>
    have hver : (DbftExtra.ecdsa version fallback validators signatures).version = version :=
      rfl
    by_cases hv0 : version = .v0 ∨ parent.version = .v0
    · simp [validateParentConsensus, CommitsTo, DbftExtra.signatureScheme, DbftExtra.validators,
        Except.ofOption, hver, hv0]
    · cases hfall : parent.fallbackNextConsensus with
      | none =>
        simp [validateParentConsensus, CommitsTo, DbftExtra.signatureScheme,
          DbftExtra.validators, Except.ofOption, hver, hv0, hfall]
      | some committed =>
        simp [validateParentConsensus, CommitsTo, DbftExtra.signatureScheme,
          DbftExtra.validators, Except.ofOption, hver, hv0, hfall]

/-! ## ECDSA seals -/

def signatureParity (signature : FixedBytes 65) : Option Bool :=
  if signature.bytes.getD 64 0 = 0 then some false
  else if signature.bytes.getD 64 0 = 1 then some true
  else none

/-- Recover the signer of a hash from a signature with a valid parity byte. -/
def recoverSigner (signature : FixedBytes 65) (hash : B256) : Option Address := do
  let parity ← signatureParity signature
  Crypto.recoverAddress (signature.bytes.take 64) parity hash

def recoverSigners (sealHash : B256) :
    Nat → List (FixedBytes 65) → Except DbftValidationError (List Address)
  | _, [] => .ok []
  | index, raw :: signatures => do
      let parity ← ofOption (.invalidRecoveryId index (raw.bytes.getD 64 0))
        (signatureParity raw)
      let signer ← ofOption (.invalidSignature index)
        (Crypto.recoverAddress (raw.bytes.take 64) parity sealHash)
      let signers ← recoverSigners sealHash (index + 1) signatures
      .ok (signer :: signers)

def verifyEcdsaSignatures (sealHash : B256) (extra : DbftExtra) :
    Except DbftValidationError (List Address) := do
  let validators ← ofOption .wrongScheme extra.validators
  let signatures ← ofOption .wrongScheme extra.signatures
  let allowed := sortAddresses validators
  require (allowed.head? ≠ some (.zero 20)) .zeroValidator
  match adjacentDuplicate allowed with
  | some duplicate => .error (.duplicateValidator duplicate)
  | none => do
      let recovered ← recoverSigners sealHash 0 signatures
      let recovered := sortAddresses recovered
      match adjacentDuplicate recovered with
      | some duplicate => .error (.duplicateSigner duplicate)
      | none => do
          mergeSigners allowed recovered
          .ok recovered

variable {sealHash : B256} {signatures : List (FixedBytes 65)}

/-- Every recovered signer belongs to the signature at its position. -/
theorem recoverSigners_spec {i : Nat} (hrecv : recoverSigners sealHash i signatures = .ok signers) :
    List.Forall₂ (fun sig signer => recoverSigner sig sealHash = some signer)
      signatures signers := by
  induction signatures generalizing i signers with
  | nil =>
    cases hrecv
    exact List.Forall₂.nil
  | cons raw signatures ih =>
    obtain ⟨parity, hparity, hrecv⟩ := ofOption_bind hrecv
    obtain ⟨signer, hsigner, hrecv⟩ := ofOption_bind hrecv
    rcases bind_ok hrecv with ⟨others, hothers, hrecv⟩
    cases hrecv
    refine List.Forall₂.cons ?_ (ih hothers)
    simp [recoverSigner, hparity, hsigner]

theorem recoverSigners_eq_ok
    (hrecv : List.Forall₂ (fun sig signer => recoverSigner sig sealHash = some signer)
      signatures signers) (i : Nat) :
    recoverSigners sealHash i signatures = .ok signers := by
  induction hrecv generalizing i with
  | nil => rfl
  | @cons sig signer signatures signers hsigner _ ih =>
    rcases Option.bind_eq_some_iff.mp hsigner with ⟨parity, hparity, haddr⟩
    simp only [recoverSigners, hparity, haddr, Except.ofOption, ok_bind, ih]

/-- What an accepted ECDSA seal is, whatever the order of its signatures and validators: every
signature has a parity byte and recovers, the signers are distinct and listed, and the listed
validators are distinct and not zero. -/
structure EcdsaQuorum (sealHash : B256) (validators : List Address)
    (signatures : List (FixedBytes 65)) (signers : List Address) : Prop where
  parity : ∀ signature ∈ signatures,
    signature.bytes.getD 64 0 = 0 ∨ signature.bytes.getD 64 0 = 1
  recovered : List.Forall₂ (fun signature signer => Crypto.recoverAddress
    (signature.bytes.take 64) (decide (signature.bytes.getD 64 0 = 1)) sealHash = some signer)
    signatures signers
  signers_nodup : signers.Nodup
  signers_listed : ∀ signer ∈ signers, signer ∈ validators
  validators_nodup : validators.Nodup
  validators_nonzero : .zero 20 ∉ validators

/-- A signature recovers a signer exactly if it has a parity byte and the recovery for that parity
gives the signer. -/
theorem recoverSigner_iff {sig : FixedBytes 65} {signer : Address} :
    recoverSigner sig sealHash = some signer ↔
      (sig.bytes.getD 64 0 = 0 ∨ sig.bytes.getD 64 0 = 1) ∧
        Crypto.recoverAddress (sig.bytes.take 64)
          (decide (sig.bytes.getD 64 0 = 1)) sealHash = some signer := by
  unfold recoverSigner signatureParity
  generalize sig.bytes.getD 64 0 = byte
  by_cases h0 : byte = 0
  · simp [h0]
  · by_cases hone : byte = 1
    · simp [hone]
    · simp [h0, hone]

variable {validators : List Address}

theorem ecdsaQuorum_recovers (h : EcdsaQuorum sealHash validators signatures signers) :
    List.Forall₂ (fun sig signer => recoverSigner sig sealHash = some signer)
      signatures signers := by
  refine (forall₂_and_left (p := fun sig : FixedBytes 65 =>
    sig.bytes.getD 64 0 = 0 ∨ sig.bytes.getD 64 0 = 1) signatures signers).mpr
      ⟨h.parity, h.recovered⟩ |>.imp ?_
  intro sig signer hboth
  exact recoverSigner_iff.mpr hboth

omit [Crypto] in
theorem sortAddresses_strict (hnd : addresses.Nodup) :
    (sortAddresses addresses).Pairwise (· < ·) := by
  have hdist := (sortAddresses_perm addresses).nodup_iff.mpr hnd
  exact ((sortAddresses_sorted addresses).and hdist).imp
    fun ⟨hle, hne⟩ => lt_of_le_of_ne hle hne

omit [Crypto] in
theorem head?_sortAddresses_ne :
    (sortAddresses addresses).head? ≠ some (.zero 20) ↔
      .zero 20 ∉ addresses := by
  have hmem := (sortAddresses_perm addresses).mem_iff (a := .zero 20)
  have hsorted := sortAddresses_sorted addresses
  rw [← hmem]
  cases hlist : sortAddresses addresses with
  | nil => simp
  | cons first rest =>
    rw [hlist, pairwise_cons] at hsorted
    constructor
    · intro hne h0
      rcases mem_cons.mp h0 with heq | hr
      · exact hne (by rw [heq]; rfl)
      · have hle := hsorted.1 _ hr
        have h1 := le_antisymm hle (FixedBytes.zero_le first)
        exact hne (by rw [h1]; rfl)
    · intro h0 heq
      simp only [head?_cons, Option.some.injEq] at heq
      exact h0 (by simp [heq])

variable {version : ExtraVersion}

/-- The seal check accepts exactly the quorums, and returns their signers in order. -/
theorem verifyEcdsaSignatures_iff {fallback : Option B256} {accepted : List Address} :
    verifyEcdsaSignatures sealHash (.ecdsa version fallback validators signatures) = .ok accepted ↔
      ∃ signers, EcdsaQuorum sealHash validators signatures signers ∧
        accepted = sortAddresses signers := by
  constructor
  · intro h
    obtain ⟨_, hvals, h⟩ := bind_ok h
    obtain ⟨_, hsigs, h⟩ := bind_ok h
    obtain ⟨_, h0, h⟩ := bind_ok h
    cases hvals
    cases hsigs
    rw [require_eq_ok, head?_sortAddresses_ne] at h0
    split at h
    · cases h
    next hallo =>
      obtain ⟨recovered, hreco, h⟩ := bind_ok h
      simp only at h
      split at h
      · cases h
      next hdist =>
        obtain ⟨_, hmerge, h⟩ := bind_ok h
        cases h
        have hspec := recoverSigners_spec hreco
        have hboth : List.Forall₂ (fun (sig : FixedBytes 65) signer =>
            (sig.bytes.getD 64 0 = 0 ∨ sig.bytes.getD 64 0 = 1) ∧
              Crypto.recoverAddress (sig.bytes.take 64)
                (decide (sig.bytes.getD 64 0 = 1)) sealHash = some signer)
            signatures recovered := hspec.imp fun _ _ hsigner => recoverSigner_iff.mp hsigner
        have hsplit := (forall₂_and_left (p := fun sig : FixedBytes 65 =>
          sig.bytes.getD 64 0 = 0 ∨ sig.bytes.getD 64 0 = 1) _ _).mp hboth
        have hsign := nodup_of_adjacentDuplicate (sortAddresses_sorted recovered) hdist
        have hlisted := nodup_of_adjacentDuplicate (sortAddresses_sorted validators) hallo
        refine ⟨recovered, ⟨hsplit.1, hsplit.2, ?_, ?_, ?_, h0⟩, rfl⟩
        · exact (sortAddresses_perm recovered).nodup_iff.mp (hsign.imp fun hlt => ne_of_lt hlt)
        · intro signer hsigner
          have hmem := (sortAddresses_perm recovered).mem_iff.mpr hsigner
          exact (sortAddresses_perm validators).subset (mem_of_mergeSigners hmerge signer hmem)
        · exact (sortAddresses_perm validators).nodup_iff.mp (hlisted.imp fun hlt => ne_of_lt hlt)
  · rintro ⟨signers, hq, rfl⟩
    have h0 := head?_sortAddresses_ne.mpr hq.validators_nonzero
    have hallo := sortAddresses_strict hq.validators_nodup
    have hsorted := sortAddresses_strict hq.signers_nodup
    have hmerge : mergeSigners (sortAddresses validators) (sortAddresses signers) = .ok () := by
      apply mergeSigners_eq_ok hallo hsorted
      intro signer hsigner
      have hmem := (sortAddresses_perm signers).subset hsigner
      exact (sortAddresses_perm validators).mem_iff.mpr (hq.signers_listed signer hmem)
    simp only [verifyEcdsaSignatures, DbftExtra.validators, DbftExtra.signatures, Except.ofOption,
      ok_bind, require_of _ h0, adjacentDuplicate_eq_none hallo,
      recoverSigners_eq_ok (ecdsaQuorum_recovers hq), adjacentDuplicate_eq_none hsorted, hmerge]

/-- An ECDSA seal of distinct validators is accepted, unless the zero address is a validator. -/
theorem verifyEcdsaSignatures_eq_ok {fallback : Option B256} (hvals : validators.Pairwise (· < ·))
    (h0 : validators.head? ≠ some (.zero 20)) (hnd : signers.Nodup)
    (hsub : ∀ signer ∈ signers, signer ∈ validators)
    (hrecv : List.Forall₂ (fun sig signer => recoverSigner sig sealHash = some signer)
      signatures signers) :
    verifyEcdsaSignatures sealHash (.ecdsa version fallback validators signatures)
      = .ok (sortAddresses signers) := by
  have hallo : sortAddresses validators = validators :=
    (hvals.imp fun h => le_of_lt h).insertionSort_eq
  have hsplit := (forall₂_and_left (p := fun sig : FixedBytes 65 =>
    sig.bytes.getD 64 0 = 0 ∨ sig.bytes.getD 64 0 = 1) _ _).mp
      (hrecv.imp fun _ _ hsigner => recoverSigner_iff.mp hsigner)
  refine verifyEcdsaSignatures_iff.mpr ⟨signers, ⟨hsplit.1, hsplit.2, hnd, hsub,
    hvals.imp fun hlt => ne_of_lt hlt, ?_⟩, rfl⟩
  rw [← head?_sortAddresses_ne, hallo]
  exact h0

/-- The check of a decoded ECDSA seal succeeds exactly on the quorums, whatever the order of
signatures and validators, and then the signers are a quorum of distinct members of the committee.
-/
theorem decoded_ecdsaSeal_iff {raw : Bytes} {validatorCount : Nat} {version : ExtraVersion}
    {fallback : Option B256} {validators : List Address} {signatures : List (FixedBytes 65)}
    (hdecode : DbftExtra.decode raw validatorCount
      = .ok (.ecdsa version fallback validators signatures)) (sealHash : B256) :
    ((∃ accepted, verifyEcdsaSignatures sealHash (.ecdsa version fallback validators signatures)
        = .ok accepted) ↔
      ∃ signers, EcdsaQuorum sealHash validators signatures signers) ∧
    ∀ accepted, verifyEcdsaSignatures sealHash (.ecdsa version fallback validators signatures)
        = .ok accepted →
      accepted.Nodup ∧ accepted.length = validatorCount - (validatorCount - 1) / 3 ∧
        (∀ signer ∈ accepted, signer ∈ validators) ∧
        validators.Nodup ∧ validators.length = validatorCount := by
  constructor
  · simp only [verifyEcdsaSignatures_iff]
    constructor
    · rintro ⟨_, signers, hquorum, -⟩
      exact ⟨signers, hquorum⟩
    · rintro ⟨signers, hquorum⟩
      exact ⟨_, signers, hquorum, rfl⟩
  · intro accepted haccepted
    obtain ⟨signers, hquorum, rfl⟩ := verifyEcdsaSignatures_iff.mp haccepted
    obtain ⟨_, -, hdecoded⟩ := DbftExtra.decode_spec hdecode
    have hperm := sortAddresses_perm signers
    have hcount := hdecoded.signatures_eq signatures rfl
    refine ⟨hperm.nodup_iff.mpr hquorum.signers_nodup, ?_, ?_, hquorum.validators_nodup,
      (hdecoded.validators_eq validators rfl).1⟩
    · rw [hperm.length_eq, ← hquorum.recovered.length_eq, hcount]
      rfl
    · intro signer hsigner
      exact hquorum.signers_listed signer (hperm.subset hsigner)

/-- Functions under which every signature is one of a single account. -/
def soleSigner : Crypto where
  keccak256 _ := .zero 32
  recoverAddress _ _ _ := some (.ofNat 20 1)
  validG1 _ := true
  validG2 _ := true
  keyValidate _ := true
  sigValidate _ := true
  blsVerify _ _ _ := true
  interpolateSignatureShares _ _ := .zero 96

omit [Crypto] in
theorem decoded_ecdsaSeal_iff_soloGenesis :
    (∃ accepted, @verifyEcdsaSignatures soleSigner (.zero 32) DbftExtra.soloGenesis
        = .ok accepted) ∧
      ∃ signers, @EcdsaQuorum soleSigner (.zero 32) [.ofNat 20 1]
        [.zero 65] signers := by
  have hdecode : DbftExtra.decode (0 :: (FixedBytes.ofNat 20 1).bytes ++ List.replicate 65 0) 1
      = .ok DbftExtra.soloGenesis := by decide
  have hiff := (@decoded_ecdsaSeal_iff soleSigner _ _ _ _ _ _ hdecode (.zero 32)).1
  have haccepted : ∃ accepted, @verifyEcdsaSignatures soleSigner (.zero 32)
      DbftExtra.soloGenesis = .ok accepted := ⟨[.ofNat 20 1], by decide⟩
  exact ⟨haccepted, hiff.mp haccepted⟩

/-! ## Threshold seals -/

/-- Flip the sort bit of a compressed point, which negates it. -/
def flipSortBit (signature : G2Bytes) : G2Bytes :=
  ⟨signature.bytes.modifyHead (· ^^^ 0x20), by
    rw [List.length_modifyHead, signature.length_eq]⟩

def verifyThresholdSignature (header : Header) (extra : DbftExtra) :
    Except DbftValidationError Unit := do
  let publicKey ← ofOption .wrongScheme extra.thresholdPublicKey
  let signature ← ofOption .wrongScheme extra.thresholdSignature
  let signature := if extra.version = .v1 then flipSortBit signature else signature
  require (Crypto.keyValidate publicKey = true) .invalidThresholdPublicKey
  require (Crypto.sigValidate signature = true) .invalidThresholdSignature
  let message ← (thresholdSealMessage header).mapError .extra
  require (Crypto.blsVerify publicKey signature message = true) .invalidThresholdSignature

/-- A threshold seal that verifies over the seal message is accepted. -/
theorem verifyThresholdSignature_eq_ok {fallback : B256} {publicKey : G1Bytes} {sig : G2Bytes}
    {msg : Bytes} (hkey : Crypto.keyValidate publicKey = true)
    (hsigned : Crypto.sigValidate (if version = .v1 then flipSortBit sig else sig)
      = true) (hm : thresholdSealMessage header = .ok msg)
    (hver : Crypto.blsVerify publicKey
      (if version = .v1 then flipSortBit sig else sig) msg = true) :
    verifyThresholdSignature header (.threshold version fallback publicKey sig) = .ok () := by
  have hvers : (DbftExtra.threshold version fallback publicKey sig).version = version := rfl
  unfold verifyThresholdSignature
  simp only [DbftExtra.thresholdPublicKey, DbftExtra.thresholdSignature, hvers, Except.ofOption,
    ok_bind]
  rw [require_of _ hkey, ok_bind, require_of _ hsigned, ok_bind, hm,
    mapError_ok, ok_bind, require_of _ hver]

/-! ## Headers -/

def difficultyInTurn : U256 := 2

def difficultyOutOfTurn : U256 := 1

/-- The difficulty a primary must give its block. -/
def expectedDifficulty (number : UInt64) (primary : UInt8) (standbyValidatorCount : Nat) : U256 :=
  if number.toNat % standbyValidatorCount = primary.toNat then difficultyInTurn
  else difficultyOutOfTurn

/-- Check a header's difficulty against its primary. -/
def validateExpectedDifficulty (header : Header) (primary : UInt8) (standbyValidatorCount : Nat) :
    Except DbftValidationError Unit := do
  require (standbyValidatorCount ≠ 0) .emptyStandbyValidatorSet
  let expected := expectedDifficulty header.number primary standbyValidatorCount
  require (header.difficulty = expected) (.wrongDifficulty expected header.difficulty)

/-- The primary index encoded by a header's nonce. -/
def noncePrimary (header : Header) : UInt8 :=
  UInt8.ofNat header.nonce.toNat

/-- Check a header's difficulty against the primary of its own nonce. -/
def validateDifficulty (header : Header) (standbyValidatorCount : Nat) :
    Except DbftValidationError Unit :=
  validateExpectedDifficulty header (noncePrimary header) standbyValidatorCount

/-- Check the primary-dependent fields of an unsealed proposal. -/
def validateProposalPrimary (header : Header) (expectedPrimary : UInt8)
    (standbyValidatorCount : Nat) : Except DbftValidationError Unit := do
  require (header.nonce.toNat = expectedPrimary.toNat)
    (.wrongPrimary expectedPrimary (UInt64.ofNat header.nonce.toNat))
  validateExpectedDifficulty header expectedPrimary standbyValidatorCount

/-- Decode a header and its parent, and check the parent commitment and the difficulty. -/
def validateHeaderAgainstParent (header parent : Header)
    (validatorCount standbyValidatorCount : Nat) : Except DbftValidationError DbftExtra := do
  let extra ← (DbftExtra.decode header.extraData validatorCount).mapError .extra
  let parentExtra ← (DbftExtra.decode parent.extraData validatorCount).mapError .extra
  validateParentConsensus extra parentExtra parent.mixHash
  validateDifficulty header standbyValidatorCount
  .ok extra

/-- Result of validating a header seal. -/
inductive VerifiedSeal where
  | ecdsa (signers : List Address)
  | threshold
  deriving DecidableEq

/-- Verify a header: its parent commitment, its difficulty and its seal. -/
def validateHeader (header parent : Header) (validatorCount standbyValidatorCount : Nat) :
    Except DbftValidationError VerifiedSeal := do
  let extra ← validateHeaderAgainstParent header parent validatorCount standbyValidatorCount
  match extra.signatureScheme with
  | .ecdsa => do
      let sealHash ← (ecdsaSealHash header).mapError .extra
      let signers ← verifyEcdsaSignatures sealHash extra
      .ok (.ecdsa signers)
  | .threshold => do
      verifyThresholdSignature header extra
      .ok .threshold

end NeoX
