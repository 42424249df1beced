import NeoX.Node.Symbolic
import NeoX.Validator.Invariant

/-!
# Sealed headers

What `sealedHeader` returns, and that every node accepts it: the sealed extra
decodes to what was sealed, and the checks of an importing node read the same seal
hash, the same signers and the same parent commitment.

Main results:

- `sealedHeader_eq_ok`: the parts of a sealed header and the check of its
  seal.
- `sealedHeader_importable`: a sealed header with the difficulty of its
  primary passes the validation of an importing node.
-/

namespace NeoX

open Except hiding ok error
namespace DbftRoundState

section Sealing

variable [Crypto]

/-- How a sealed header was assembled from the final header of a view. -/
structure Assembled (round : DbftRoundState) (view : UInt8) (header : Header) (state : ViewState)
    (final : Header) (extra : DbftExtraPrefix) (sealedExtra : DbftExtra) : Prop where
  state_eq : round.views.lookup view = some state
  final_eq : state.finalHeader = some final
  prefix_eq : DbftExtraPrefix.decode final.extraData = .ok extra
  encode_eq : sealedExtra.tryEncode = .ok header.extraData
  header_eq : header = { final with extraData := header.extraData }

/-- A sealed header carries a quorum of signatures of the validators, or an aggregate under the
installed key, that was checked against the sealed header itself. -/
theorem sealedHeader_eq_ok {round : DbftRoundState} {view : UInt8} {header : Header}
    (h : round.sealedHeader view = .ok header) :
    ∃ state final extra sealedExtra,
      Assembled round view header state final extra sealedExtra ∧
      ((∃ signatures sealHash signers,
          extra.signatureScheme = .ecdsa ∧ state.verifiedSeal = some (.ecdsa signatures) ∧
          sealedExtra = .ecdsa extra.version extra.fallbackNextConsensus
            round.validators.accounts signatures ∧
          ecdsaSealHash header = .ok sealHash ∧
          verifyEcdsaSignatures sealHash sealedExtra = .ok signers) ∨
        ∃ signature dkgState fallback,
          extra.signatureScheme = .threshold ∧ state.verifiedSeal = some (.threshold signature) ∧
          round.dkgState = some dkgState ∧ extra.fallbackNextConsensus = some fallback ∧
          sealedExtra = .threshold extra.version fallback dkgState.current.globalPublicKey
            signature ∧
          verifyThresholdSignature header sealedExtra = .ok ()) := by
  obtain ⟨state, hs, h⟩ := ofOption_bind h
  obtain ⟨final, hfinal, h⟩ := ofOption_bind h
  obtain ⟨verifiedSeal, hseal, h⟩ := ofOption_bind h
  obtain ⟨extra, hx, h⟩ := mapError_bind h
  rcases bind_ok h with ⟨sealedExtra, hsealed, h⟩
  obtain ⟨raw, hraw, h⟩ := mapError_bind h
  rcases bind_ok h with ⟨done, hver, h⟩
  have hh := Except.ok.inj h
  subst hh
  unfold DbftRoundState.sealedExtra at hsealed
  cases hsch : extra.signatureScheme with
  | ecdsa =>
    cases verifiedSeal with
    | threshold signature => simp [hsch] at hsealed
    | ecdsa signatures =>
      rw [hsch] at hsealed
      cases hsealed
      obtain ⟨sealHash, hhash, hver⟩ := mapError_bind hver
      obtain ⟨signers, hsign, -⟩ := mapError_bind hver
      exact ⟨state, final, extra, _, ⟨hs, hfinal, hx, hraw, rfl⟩,
        Or.inl ⟨signatures, sealHash, signers, hsch, hseal, rfl, hhash, hsign⟩⟩
  | threshold =>
    cases verifiedSeal with
    | ecdsa signatures => simp [hsch] at hsealed
    | threshold signature =>
      rw [hsch] at hsealed
      obtain ⟨dkgState, hdkg, hsealed⟩ := ofOption_bind hsealed
      obtain ⟨fallback, hfall, hsealed⟩ := ofOption_bind hsealed
      cases hsealed
      have hval := mapError_eq_ok.mp hver
      exact ⟨state, final, extra, _, ⟨hs, hfinal, hx, hraw, rfl⟩,
        Or.inr ⟨signature, dkgState, fallback, hsch, hseal, hdkg, hfall, rfl, hval⟩⟩

omit [Crypto] in
/-- Sealing keeps the prefix of the extra data. -/
theorem Assembled.decode_eq {round : DbftRoundState} {view : UInt8} {header final : Header}
    {s : ViewState} {extra : DbftExtraPrefix} {sealedExtra : DbftExtra}
    (h : Assembled round view header s final extra sealedExtra)
    (hver : sealedExtra.version = extra.version)
    (hsch : sealedExtra.signatureScheme = extra.signatureScheme)
    (hfall : sealedExtra.fallbackNextConsensus = extra.fallbackNextConsensus) :
    DbftExtraPrefix.decode header.extraData = .ok extra := by
  rcases DbftExtra.tryEncode_eq_ok h.encode_eq with ⟨hashable, hv, hs, hf, hraw⟩
  have hsame : hashable = extra := by
    cases hashable
    cases extra
    simp only [DbftExtraPrefix.mk.injEq]
    exact ⟨hv.trans hver, hs.trans hsch, hf.trans hfall⟩
  rw [hraw, hsame]
  exact extra.decode_encode_append _

/-- The parent of a header commits to the validators or to the key of the round that seals it, as
the scheme and the version of the header ask. -/
def ParentCommits (round : DbftRoundState) (header : Header) (parent : DbftExtra)
    (parentMixHash : B256) : Prop :=
  ∀ extra, DbftExtraPrefix.decode header.extraData = .ok extra →
    match extra.signatureScheme with
    | .ecdsa =>
      if extra.version = .v0 ∨ parent.version = .v0 then
        parentMixHash = nextConsensusHash round.validators.accounts
      else
        parent.fallbackNextConsensus = some (nextConsensusHash round.validators.accounts)
    | .threshold =>
      ∀ dkgState, round.dkgState = some dkgState →
        parentMixHash = keccak256 dkgState.current.globalPublicKey.bytes

/--
A sealed header whose parent commits to its signers, and whose difficulty is the one its
primary must give it, decodes and passes the validation of an importing node.
-/
theorem sealedHeader_importable (round : DbftRoundState) (view : UInt8) (header parent : Header)
    (parentExtra : DbftExtra) (validatorCount standbyValidatorCount : Nat)
    (hsealed : round.sealedHeader view = .ok header) (hcount : validatorCount = round.count)
    (hparent : DbftExtra.decode parent.extraData validatorCount = .ok parentExtra)
    (hcommits : round.ParentCommits header parentExtra parent.mixHash)
    (hstandby : standbyValidatorCount ≠ 0) (hdifficulty : header.difficulty
      = expectedDifficulty header.number (noncePrimary header) standbyValidatorCount) :
    ∃ extra verified, DbftExtra.decode header.extraData validatorCount = .ok extra ∧
      validateParentConsensus extra parentExtra parent.mixHash = .ok () ∧
      validateHeader header parent validatorCount standbyValidatorCount = .ok verified := by
  have hsmall : validatorCount ≤ 256 := hcount ▸ round.validators.size_le
  have hvalidDifficulty : validateDifficulty header standbyValidatorCount = .ok () := by
    simp [validateDifficulty, validateExpectedDifficulty, hstandby, ← hdifficulty]
  have hagainst : ∀ extra, DbftExtra.decode header.extraData validatorCount = .ok extra →
      validateParentConsensus extra parentExtra parent.mixHash = .ok () →
      validateHeaderAgainstParent header parent validatorCount standbyValidatorCount
        = .ok extra := by
    intro extra hdecode hconsensus
    simp [validateHeaderAgainstParent, hdecode, hparent, hconsensus, hvalidDifficulty]
  rcases sealedHeader_eq_ok hsealed with ⟨state, final, extra, sealedExtra, hassembled,
    ⟨signatures, sealHash, signers, hscheme, -, rfl, hhash, hverify⟩ |
    ⟨signature, dkgState, fallback, hscheme, -, hdkg, hfallback, rfl, hverify⟩⟩
  · have hdecode := DbftExtra.decode_tryEncode hassembled.encode_eq
      (fun accounts haccounts => by cases haccounts; exact hcount.symm) hsmall
    have hprefix := hassembled.decode_eq rfl hscheme.symm rfl
    have hconsensus : validateParentConsensus (.ecdsa extra.version extra.fallbackNextConsensus
        round.validators.accounts signatures) parentExtra parent.mixHash = .ok () := by
      have hparentCommits := hcommits extra hprefix
      rw [hscheme] at hparentCommits
      exact validateParentConsensus_eq_ok.mpr hparentCommits
    refine ⟨_, .ecdsa signers, hdecode, hconsensus, ?_⟩
    simp [validateHeader, hagainst _ hdecode hconsensus, DbftExtra.signatureScheme, hhash, hverify]
  · have hdecode := DbftExtra.decode_tryEncode hassembled.encode_eq
      (fun accounts haccounts => by cases haccounts) hsmall
    have hprefix := hassembled.decode_eq rfl hscheme.symm hfallback.symm
    have hconsensus : validateParentConsensus (.threshold extra.version fallback
        dkgState.current.globalPublicKey signature) parentExtra parent.mixHash = .ok () := by
      have hparentCommits := hcommits extra hprefix
      rw [hscheme] at hparentCommits
      exact validateParentConsensus_eq_ok.mpr (hparentCommits dkgState hdkg)
    refine ⟨_, .threshold, hdecode, hconsensus, ?_⟩
    simp [validateHeader, hagainst _ hdecode hconsensus, DbftExtra.signatureScheme, hverify]

end Sealing

/-! ### A round of one validator -/

open Symbolic

/-- One validator proposes a header, installs it and commits to it. -/
def soloOperations (header : Header) : List Operation :=
  [.process (signed 1 0 0 .prepareRequest
      (DbftPrepareRequest.codec.encode ⟨header, [], none, none⟩)),
    .finalizeProposal 0 header,
    .process (signed 1 0 0 .commit (DbftCommit.codec.encode (headerCommit 0 header)))]

/-- The round of one validator after it committed to a header. -/
def soloRound (header : Header) : DbftRoundState :=
  Machine.run perform (start 1 solo false) (soloOperations header)

def soloSealed (header : Header) : Header :=
  { header with extraData := 0 :: (account 0).bytes ++ (headerCommit 0 header).signature }

def soloParent : Header :=
  { header 0 (0 :: (account 0).bytes ++ List.replicate 65 0) 2 with
    mixHash := nextConsensusHash [account 0] }

theorem validators_soloRound (header : Header) : (soloRound header).validators = solo :=
  ((consistent_start 1 solo false).extends_run (soloOperations header)).validators

theorem sealedHeader_solo :
    (soloRound (header 1 [0] 2)).sealedHeader 0 = .ok (soloSealed (header 1 [0] 2)) := by
  decide +kernel

/-- The header of one validator is importable. -/
theorem sealedHeader_importable_solo :
    ∃ extra verified, DbftExtra.decode (soloSealed (header 1 [0] 2)).extraData 1 = .ok extra ∧
      validateParentConsensus extra (.ecdsa .v0 none [account 0] [.zero 65])
        soloParent.mixHash = .ok () ∧
      validateHeader (soloSealed (header 1 [0] 2)) soloParent 1 1 = .ok verified := by
  apply sealedHeader_importable (soloRound (header 1 [0] 2)) 0 _ soloParent _ 1 1 sealedHeader_solo
  · rw [count, validators_soloRound]
    rfl
  · decide +kernel
  · intro extra hextra
    cases hextra
    rw [validators_soloRound]
    rfl
  · decide
  · decide

/-- Sealing does not check the difficulty: a header with another one is sealed, and refused by
every importing node. -/
theorem sealedHeader_wrongDifficulty :
    (soloRound (header 1 [0] 5)).sealedHeader 0 = .ok (soloSealed (header 1 [0] 5)) ∧
      validateHeader (soloSealed (header 1 [0] 5)) soloParent 1 1
        = .error (.wrongDifficulty 2 5) := by
  decide +kernel

end DbftRoundState
end NeoX
