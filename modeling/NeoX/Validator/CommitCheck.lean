import NeoX.Validator.Invariant

/-!
# The commit check

What the check of a view's commits returns, and when it does not fail.

Main results:

- `verifyCommitQuorum_spec`: the commit check returns seals of a quorum
  of validators over the final header.
- `verifyCommitQuorum_isOk`: the commit check fails only on an extra that
  does not decode or without usable DKG data.
-/

namespace NeoX

open List FiniteMap
open Except hiding ok error
namespace DbftRoundState

variable [Crypto]

/-! ## Valid seals -/

/-- A stored commit of a validator is an ECDSA signature over the seal hash by its account. -/
def SignsHash (round : DbftRoundState) (commits : FiniteMap UInt8 DbftCommit) (sealHash : B256)
    (index : UInt8) (signature : FixedBytes 65) : Prop :=
  (∃ body, commits.lookup index = some body ∧ body.validatedSignature = .ok (.ecdsa signature)) ∧
    ∃ account, round.validators.accounts[index.toNat]? = some account ∧
      recoverSigner signature sealHash = some account

/-- A stored commit of a validator is a threshold share at its DKG index. -/
def ContributesShare (commits : FiniteMap UInt8 DbftCommit) (dkgIndices : List UInt32)
    (index : UInt8) (share : UInt32 × G2Bytes) : Prop :=
  (∃ body, commits.lookup index = some body ∧
    body.validatedSignature = .ok (.threshold share.2)) ∧
    share.1 = dkgIndices.getD index.toNat 0

/-- A seal made from the commits of a quorum of validators over a header. -/
def SealValid (round : DbftRoundState) (commits : FiniteMap UInt8 DbftCommit) (header : Header) :
    DbftVerifiedCommitSeal → Prop
  | .ecdsa signatures =>
    ∃ extra sealHash contributors, DbftExtraPrefix.decode header.extraData = .ok extra ∧
      extra.signatureScheme = .ecdsa ∧ ecdsaSealHash header = .ok sealHash ∧
      contributors.Nodup ∧ contributors.length = round.quorum ∧
      List.Forall₂ (round.SignsHash commits sealHash) contributors signatures
  | .threshold signature =>
    ∃ extra message dkgState dkgIndices contributors selected,
      DbftExtraPrefix.decode header.extraData = .ok extra ∧
      extra.signatureScheme = .threshold ∧ thresholdSealMessage header = .ok message ∧
      round.dkgState = some dkgState ∧ round.dkgIndices = some dkgIndices ∧
      contributors.Nodup ∧ contributors.length = round.quorum ∧
      List.Forall₂ (ContributesShare commits dkgIndices) contributors selected ∧
      dkgState.parameters.scaler ≠ 0 ∧
      signature = Crypto.interpolateSignatureShares selected dkgState.parameters.scaler ∧
      ValidAggregate message dkgState.current.globalPublicKey (extra.version = .v1) signature

variable {round : DbftRoundState} {commits later : FiniteMap UInt8 DbftCommit} {header : Header}
  {checked : DbftVerifiedCommitSeal}

/-- A seal stays valid when commits or missing DKG data are added. -/
theorem SealValid.grow {next : DbftRoundState} (h : round.SealValid commits header checked)
    (hvals : next.validators = round.validators)
    (hdkgS : ∀ s, round.dkgState = some s → next.dkgState = some s)
    (hdkgI : ∀ idx, round.dkgIndices = some idx → next.dkgIndices = some idx)
    (hcomm : ∀ i body, commits.lookup i = some body → later.lookup i = some body) :
    next.SealValid later header checked := by
  have hq : next.quorum = round.quorum := by simp [quorum, count, hvals]
  cases checked with
  | ecdsa signatures =>
    rcases h with ⟨extra, sealHash, contributors, hx, hsch, hhash, hnd, hlen, hsigns⟩
    refine ⟨extra, sealHash, contributors, hx, hsch, hhash, hnd, hq ▸ hlen,
      hsigns.imp ?_⟩
    rintro i sig ⟨⟨body, hget, hb⟩, hrecv⟩
    exact ⟨⟨body, hcomm i body hget, hb⟩, hvals ▸ hrecv⟩
  | threshold sig =>
    rcases h with ⟨extra, msg, dkgState, dkgIndices, contributors, selected, hx, hsch,
      hm, hs, hidx, hnd, hlen, hshs, hval⟩
    refine ⟨extra, msg, dkgState, dkgIndices, contributors, selected, hx, hsch, hm,
      hdkgS _ hs, hdkgI _ hidx, hnd, hq ▸ hlen, hshs.imp ?_,
      hval⟩
    rintro i share ⟨⟨body, hget, hb⟩, hi⟩
    exact ⟨⟨body, hcomm i body hget, hb⟩, hi⟩

theorem SealValid.mono {next : DbftRoundState} (h : round.SealValid commits header checked)
    (hvals : next.validators = round.validators) (hdkgS : next.dkgState = round.dkgState)
    (hdkgI : next.dkgIndices = round.dkgIndices)
    (hcomm : ∀ i body, commits.lookup i = some body → later.lookup i = some body) :
    next.SealValid later header checked :=
  h.grow hvals (fun _ hs => hdkgS.trans hs)
    (fun _ hidx => hdkgI.trans hidx) hcomm

/-! ## The commit check -/

omit [Crypto] in
theorem sortedByIndex_perm {α : Type} (entries : List (UInt8 × α)) :
    (sortedByIndex entries).Perm entries :=
  perm_insertionSort _ _

/-- Signatures appended to a collection belong to validators that committed, in their order. -/
def Collected (validators : List Address) (sealHash : B256) (commits : List (UInt8 × DbftCommit))
    (signatures result : List (FixedBytes 65)) : Prop :=
  ∃ contributors added, result = signatures ++ added ∧
    contributors.Sublist (commits.map Prod.fst) ∧
    List.Forall₂ (fun index signature =>
      (∃ body, (index, body) ∈ commits ∧ body.validatedSignature = .ok (.ecdsa signature)) ∧
        ∃ account, validators[index.toNat]? = some account ∧
          recoverSigner signature sealHash = some account) contributors added

section Collecting

variable {validators : List Address} {quorum : Nat} {sealHash : B256}
  {signatures result : List (FixedBytes 65)} {commits : List (UInt8 × DbftCommit)}
  {entry : UInt8 × DbftCommit}

theorem Collected.refl : Collected validators sealHash commits signatures signatures :=
  ⟨[], [], (append_nil _).symm, nil_sublist _, List.Forall₂.nil⟩

theorem Collected.skip (h : Collected validators sealHash commits signatures result) :
    Collected validators sealHash (entry :: commits) signatures result := by
  rcases h with ⟨contributors, added, hres, hsub, hsigns⟩
  refine ⟨contributors, added, hres, hsub.cons _, hsigns.imp ?_⟩
  rintro i sig ⟨⟨body, hmem, hb⟩, hrecv⟩
  exact ⟨⟨body, mem_cons_of_mem _ hmem, hb⟩, hrecv⟩

/-- A commit whose signature is appended. -/
theorem Collected.take {raw : FixedBytes 65} {acct : Address}
    (hb : entry.2.validatedSignature = .ok (.ecdsa raw))
    (hacco : validators[entry.1.toNat]? = some acct)
    (hrecv : recoverSigner raw sealHash = some acct)
    (h : Collected validators sealHash commits (signatures ++ [raw]) result) :
    Collected validators sealHash (entry :: commits) signatures result := by
  rcases h with ⟨contributors, added, hres, hsub, hsigns⟩
  refine ⟨entry.1 :: contributors, raw :: added, ?_, hsub.cons_cons _, ?_⟩
  · rw [hres, append_assoc, singleton_append]
  · refine List.Forall₂.cons ⟨⟨entry.2, mem_cons_self, hb⟩, acct, hacco, hrecv⟩
      (hsigns.imp ?_)
    rintro i sig ⟨⟨body, hmem, hf⟩, hothers⟩
    exact ⟨⟨body, mem_cons_of_mem _ hmem, hf⟩, hothers⟩

/-- The collection returns a quorum of such signatures. -/
theorem collectEcdsaSignatures_spec
    (h : collectEcdsaSignatures validators quorum sealHash signatures commits = some result) :
    result.length = quorum ∧ Collected validators sealHash commits signatures result := by
  induction commits generalizing signatures with
  | nil => cases h
  | cons entry commits ih =>
    rcases entry with ⟨i, commit⟩
    have hskip : collectEcdsaSignatures validators quorum sealHash signatures commits
        = some result →
        result.length = quorum ∧
          Collected validators sealHash ((i, commit) :: commits) signatures result :=
      fun h => ⟨(ih h).1, (ih h).2.skip⟩
    rw [collectEcdsaSignatures] at h
    split at h
    · rename_i raw hb
      cases hrecv : recoverSigner raw sealHash with
      | none =>
        rw [hrecv] at h
        exact hskip h
      | some recovered =>
        rw [hrecv] at h
        dsimp only at h
        by_cases hown : validators[i.toNat]? = some recovered
        · rw [if_pos hown] at h
          by_cases hfull : (signatures ++ [raw]).length = quorum
          · rw [if_pos hfull] at h
            cases h
            exact ⟨hfull, Collected.take hb hown hrecv Collected.refl⟩
          · rw [if_neg hfull] at h
            exact ⟨(ih h).1, Collected.take hb hown hrecv (ih h).2⟩
        · rw [if_neg hown] at h
          by_cases hfull : signatures.length = quorum
          · rw [if_pos hfull] at h
            cases h
            exact ⟨hfull, Collected.refl⟩
          · rw [if_neg hfull] at h
            exact hskip h
    · exact hskip h

end Collecting

variable {dkgIndices : List UInt32}

theorem mem_thresholdShares {share : UInt32 × G2Bytes}
    (h : share ∈ thresholdShares dkgIndices (sortedByIndex commits.toList)) :
    ∃ i, ContributesShare commits dkgIndices i share := by
  rcases mem_filterMap.mp h with ⟨⟨i, body⟩, he, hsh⟩
  have hget := mem_toList.mp ((sortedByIndex_perm _).subset he)
  split at hsh
  · rename_i found hb
    cases hsh
    exact ⟨i, ⟨body, hget, hb⟩, rfl⟩
  · cases hsh

/-- Shares with distinct DKG indices come from distinct validators. -/
theorem exists_contributors {selected : List (UInt32 × G2Bytes)}
    (hnd : (selected.map Prod.fst).Nodup)
    (hshs : ∀ share ∈ selected, ∃ i, ContributesShare commits dkgIndices i share) :
    ∃ contributors : List UInt8, contributors.Nodup ∧
      List.Forall₂ (ContributesShare commits dkgIndices) contributors selected := by
  have hexists : ∃ contributors : List UInt8,
      List.Forall₂ (ContributesShare commits dkgIndices) contributors selected := by
    clear hnd
    induction selected with
    | nil => exact ⟨[], List.Forall₂.nil⟩
    | cons share selected ih =>
      rcases hshs share mem_cons_self with ⟨i, hi⟩
      rcases ih fun o ho => hshs o (mem_cons_of_mem _ ho) with
        ⟨contributors, hcont⟩
      exact ⟨i :: contributors, List.Forall₂.cons hi hcont⟩
  rcases hexists with ⟨contributors, hcont⟩
  -- The DKG i is a function of the validator i.
  have hmap : contributors.map (fun i => dkgIndices.getD i.toNat 0)
      = selected.map Prod.fst := by
    clear hnd hshs
    induction hcont with
    | nil => rfl
    | cons hi _ ih => rw [map_cons, map_cons, ih, hi.2]
  rw [← hmap] at hnd
  exact ⟨contributors, hnd.of_map _, hcont⟩

variable {extra : DbftExtraPrefix} {signatures : List (FixedBytes 65)}

/-- The ECDSA seals that the commit check returns. -/
theorem sealValid_ecdsa {sealHash : B256} (hx : DbftExtraPrefix.decode header.extraData = .ok extra)
    (hsch : extra.signatureScheme = .ecdsa) (hhash : ecdsaSealHash header = .ok sealHash)
    (hcoll : collectEcdsaSignatures round.validators.accounts round.quorum sealHash []
      (sortedByIndex commits.toList) = some signatures) :
    round.SealValid commits header (.ecdsa signatures) := by
  rcases collectEcdsaSignatures_spec hcoll with
    ⟨hlen, contributors, added, hadded, hsub, hsigns⟩
  rw [nil_append] at hadded
  subst hadded
  have hnd : contributors.Nodup := by
    have hkeys := ((sortedByIndex_perm commits.toList).map Prod.fst).nodup_iff.mpr
      commits.keys_toList_nodup
    exact hkeys.sublist hsub
  refine ⟨extra, sealHash, contributors, hx, hsch, hhash, hnd,
    hsigns.length_eq.trans hlen, hsigns.imp ?_⟩
  rintro i sig ⟨⟨body, hmem, hb⟩, hrecv⟩
  have hget := mem_toList.mp ((sortedByIndex_perm _).subset hmem)
  exact ⟨⟨body, hget, hb⟩, hrecv⟩

/-- The threshold seals that the commit check returns. -/
theorem sealValid_threshold {msg : Bytes} {dkgState : DkgState} {sig : G2Bytes}
    (hx : DbftExtraPrefix.decode header.extraData = .ok extra)
    (hsch : extra.signatureScheme = .threshold) (hm : thresholdSealMessage header = .ok msg)
    (hdkgS : round.dkgState = some dkgState) (hdkgI : round.dkgIndices = some dkgIndices)
    (haggr : aggregateAndVerifySignatureShares msg dkgState.current.globalPublicKey
      (thresholdShares dkgIndices (sortedByIndex commits.toList)) round.quorum
      dkgState.parameters.scaler (extra.version = .v1) dkgState.parameters.participants
        = .ok sig) : round.SealValid commits header (.threshold sig) := by
  rcases aggregateAndVerifySignatureShares_spec haggr with
    ⟨selected, hsubp, hlen, hnd, hscaler, hsig, hval⟩
  rcases exists_contributors hnd fun share hsh =>
    mem_thresholdShares (hsubp.subset hsh) with ⟨contributors, hdist, hshs⟩
  exact ⟨extra, msg, dkgState, dkgIndices, contributors, selected, hx, hsch, hm,
    hdkgS, hdkgI, hdist, hshs.length_eq.trans hlen, hshs, hscaler, hsig,
    hval⟩

/-- A seal that the commit check returns, with the run of the search that found it. -/
def Found (round : DbftRoundState) (commits : FiniteMap UInt8 DbftCommit) (header : Header)
    (extra : DbftExtraPrefix) : DbftVerifiedCommitSeal → Prop
  | .ecdsa signatures =>
    extra.signatureScheme = .ecdsa ∧ ∃ sealHash, ecdsaSealHash header = .ok sealHash ∧
      collectEcdsaSignatures round.validators.accounts round.quorum sealHash []
        (sortedByIndex commits.toList) = some signatures
  | .threshold signature =>
    extra.signatureScheme = .threshold ∧ ∃ message dkgState dkgIndices,
      thresholdSealMessage header = .ok message ∧ round.dkgState = some dkgState ∧
      round.dkgIndices = some dkgIndices ∧
      aggregateAndVerifySignatureShares message dkgState.current.globalPublicKey
        (thresholdShares dkgIndices (sortedByIndex commits.toList)) round.quorum
        dkgState.parameters.scaler (extra.version = .v1) dkgState.parameters.participants
          = .ok signature

/-- What a seal of the commit check was found in. -/
theorem verifyCommitQuorum_eq_some {view : UInt8}
    (h : round.verifyCommitQuorum view = .ok (some checked)) :
    ∃ state header extra, round.views.lookup view = some state ∧
      state.finalHeader = some header ∧ round.quorum ≤ state.commits.size ∧
      DbftExtraPrefix.decode header.extraData = .ok extra ∧
      round.Found state.commits header extra checked := by
  unfold verifyCommitQuorum at h
  cases hs : round.views.lookup view with
  | none => simp [hs] at h
  | some state =>
    cases hh : state.finalHeader with
    | none => simp [hs, hh] at h
    | some header =>
      rw [hs] at h
      simp only [hh] at h
      split at h
      · cases h
      rename_i hsize
      obtain ⟨extra, hx, h⟩ := mapError_bind h
      refine ⟨state, header, extra, rfl, hh, Nat.le_of_not_lt hsize, hx, ?_⟩
      cases hsch : extra.signatureScheme with
      | ecdsa =>
        rw [hsch] at h
        obtain ⟨sealHash, hhash, h⟩ := mapError_bind h
        rcases Option.map_eq_some_iff.mp (Except.ok.inj h) with ⟨signatures, hcoll, rfl⟩
        exact ⟨hsch, sealHash, hhash, hcoll⟩
      | threshold =>
        rw [hsch] at h
        obtain ⟨dkgState, hdkgS, h⟩ := ofOption_bind h
        obtain ⟨dkgIndices, hdkgI, h⟩ := ofOption_bind h
        split at h
        · cases h
        obtain ⟨message, hm, h⟩ := mapError_bind h
        split at h
        · rename_i signature haggregate
          cases h
          exact ⟨hsch, message, dkgState, dkgIndices, hm, hdkgS, hdkgI,
            haggregate⟩
        · cases h
        · cases h
        · cases h

theorem Found.sealValid (hx : DbftExtraPrefix.decode header.extraData = .ok extra)
    (h : round.Found commits header extra checked) : round.SealValid commits header checked := by
  cases checked with
  | ecdsa signatures =>
    rcases h with ⟨hsch, sealHash, hhash, hcoll⟩
    exact sealValid_ecdsa hx hsch hhash hcoll
  | threshold sig =>
    rcases h with ⟨hsch, msg, dkgState, dkgIndices, hm, hdkgS, hdkgI,
      haggregate⟩
    exact sealValid_threshold hx hsch hm hdkgS hdkgI haggregate

theorem verifyCommitQuorum_spec {view : UInt8}
    (h : round.verifyCommitQuorum view = .ok (some checked)) :
    ∃ s header, round.views.lookup view = some s ∧ s.finalHeader = some header ∧
      round.SealValid s.commits header checked := by
  rcases verifyCommitQuorum_eq_some h with ⟨s, header, extra, hs, hh, -, hx, hf⟩
  exact ⟨s, header, hs, hh, hf.sealValid hx⟩

/-! ## When the commit check does not fail -/

/-- An index map that the round accepts gives every validator its own positive index. -/
def IndexMap (round : DbftRoundState) (indices : List UInt32) : Prop :=
  indices.length = round.count ∧
    indices.insertionSort (· ≤ ·) = (List.range' 1 round.count).map UInt32.ofNat

omit [Crypto] in
theorem IndexMap.perm {idx : List UInt32} (h : round.IndexMap idx) :
    idx.Perm ((List.range' 1 round.count).map UInt32.ofNat) :=
  h.2 ▸ (perm_insertionSort _ idx).symm

omit [Crypto] in
theorem count_le (round : DbftRoundState) : round.count ≤ 256 :=
  round.validators.size_le

omit [Crypto] in
theorem toNat_position {position : Nat} (h : position ∈ List.range' 1 round.count) :
    (UInt32.ofNat position).toNat = position ∧ 0 < position := by
  rw [mem_range'_1] at h
  have hc := round.count_le
  have hsize : UInt32.size = 4294967296 := rfl
  exact ⟨UInt32.toNat_ofNat_of_lt' (by omega), by omega⟩

omit [Crypto] in
theorem IndexMap.nodup {idx : List UInt32} (h : round.IndexMap idx) : idx.Nodup := by
  refine h.perm.nodup_iff.mpr (List.Nodup.map_on ?_ nodup_range')
  intro a h1 b h2 heq
  have hv := congrArg UInt32.toNat heq
  rwa [(toNat_position h1).1, (toNat_position h2).1] at hv

omit [Crypto] in
theorem IndexMap.ne_zero {idx : List UInt32} (h : round.IndexMap idx) {i : UInt32}
    (hi : i ∈ idx) : i ≠ 0 := by
  rcases mem_map.mp (h.perm.subset hi) with ⟨pos, hpos, rfl⟩
  rcases toNat_position hpos with ⟨hv, hposi⟩
  intro h0
  rw [h0] at hv
  exact absurd hv.symm (Nat.ne_of_gt hposi)

/-- The DKG indices of shares are those of the validators that committed. -/
theorem map_fst_thresholdShares_sublist (dkgIndices : List UInt32)
    (commits : List (UInt8 × DbftCommit)) :
    ((thresholdShares dkgIndices commits).map Prod.fst).Sublist
      ((commits.map Prod.fst).map fun i => dkgIndices.getD i.toNat 0) := by
  induction commits with
  | nil => exact List.Sublist.slnil
  | cons entry commits ih =>
    simp only [thresholdShares, filterMap_cons, map_cons] at ih ⊢
    split
    · exact ih.cons _
    · rename_i share hsh
      have hfst : share.1 = dkgIndices.getD entry.1.toNat 0 := by
        split at hsh
        · cases hsh
          rfl
        · cases hsh
      rw [map_cons, hfst]
      exact ih.cons_cons _

/-- Validators have distinct positive DKG indices. -/
theorem IndexMap.thresholdShares (h : round.IndexMap dkgIndices)
    {commits : List (UInt8 × DbftCommit)} (hnd : (commits.map Prod.fst).Nodup)
    (hr : ∀ entry ∈ commits, entry.1.toNat < round.count) :
    ((thresholdShares dkgIndices commits).map Prod.fst).Nodup ∧
      ∀ i ∈ (thresholdShares dkgIndices commits).map Prod.fst, i ≠ 0 := by
  have hsub := map_fst_thresholdShares_sublist dkgIndices commits
  have hmem : ∀ i ∈ commits.map Prod.fst, ∃ hi : i.toNat < dkgIndices.length,
      dkgIndices.getD i.toNat 0 = dkgIndices[i.toNat] := by
    intro i hi
    rcases mem_map.mp hi with ⟨entry, he, rfl⟩
    have hlt : entry.1.toNat < dkgIndices.length := h.1 ▸ hr entry he
    exact ⟨hlt, by simp [getD_eq_getElem?_getD, hlt]⟩
  constructor
  · refine List.Nodup.sublist hsub (List.Nodup.map_on ?_ hnd)
    intro a h1 b h2 heq
    rcases hmem a h1 with ⟨hlt, hget⟩
    rcases hmem b h2 with ⟨hlt', hget'⟩
    rw [hget, hget'] at heq
    exact UInt8.toNat_inj.mp ((h.nodup.getElem_inj_iff).mp heq)
  · intro i hi
    rcases mem_map.mp (hsub.subset hi) with ⟨validator, hvali, rfl⟩
    rcases hmem validator hvali with ⟨hlt, hget⟩
    rw [hget]
    exact h.ne_zero (getElem_mem hlt)

theorem validG2_of_mem_thresholdShares {commits : List (UInt8 × DbftCommit)}
    {share : UInt32 × G2Bytes} (h : share ∈ thresholdShares dkgIndices commits) :
    Crypto.validG2 share.2 = true := by
  rcases mem_filterMap.mp h with ⟨entry, -, he⟩
  split at he
  · rename_i found hval
    cases he
    unfold DbftCommit.validatedSignature at hval
    split at hval
    · obtain ⟨_, hval⟩ := of_bind hval
      cases hval
    · split at hval
      · obtain ⟨hpt, hval⟩ := require_bind hval
        cases hval
        exact hpt
      · cases hval
  · cases he

theorem Consistent.commit_lt (h : Consistent round) {view : UInt8} {index : UInt8}
    {body : DbftCommit}
    (hget : ((round.views.lookup view).getD {}).commits.lookup index = some body) :
    index.toNat < round.count := by
  rcases (h.viewBacked view).commits index body hget with ⟨msg, hm, -⟩
  rcases h.retained _ msg hm with ⟨data, p, ha, hkey⟩
  have hi : data.validatorIndex = index := congrArg MessageKey.index hkey
  have hsd := ha.sender
  rw [hi] at hsd
  exact (List.getElem?_eq_some_iff.mp hsd).1

/-- A commit is recorded in an empty slot, so its view holds no commit of its validator. -/
theorem Consistent.commit_fresh (h : Consistent round) {data : DbftConsensusData}
    (hprior : round.priorHash data = none) (hk : data.messageType = .commit) :
    ((round.views.lookup data.viewNumber).getD {}).commits.lookup data.validatorIndex = none := by
  have hempty := h.messages_eq_none hprior (by rw [hk]; rfl)
  by_contra hsome
  rcases Option.ne_none_iff_exists'.mp hsome with ⟨earlier, hearl⟩
  rcases (h.viewBacked data.viewNumber).commits _ _ hearl with ⟨kept, hkept, -⟩
  rw [DbftConsensusData.key, hk] at hempty
  exact absurd (hempty.symm.trans hkept) (Option.some_ne_none _).symm

/-- DKG data with which the shares of these commits can be checked. -/
def Checkable (round : DbftRoundState) (commits : FiniteMap UInt8 DbftCommit) : Prop :=
  ∃ dkgState dkgIndices, round.dkgState = some dkgState ∧ round.dkgIndices = some dkgIndices ∧
    round.IndexMap dkgIndices ∧ Crypto.keyValidate dkgState.current.globalPublicKey = true ∧
    dkgState.parameters.scaler ≠ 0 ∧
    (thresholdShares dkgIndices commits.toList).length ≤ dkgState.parameters.participants

/-- The commit check fails only on an extra that does not decode or without usable DKG data. -/
theorem verifyCommitQuorum_isOk {view : UInt8} {state : ViewState}
    (hs : round.views.lookup view = some state) (hh : state.finalHeader = some header)
    (hx : DbftExtraPrefix.decode header.extraData = .ok extra)
    (hr : ∀ index body, state.commits.lookup index = some body → index.toNat < round.count)
    (hchec : extra.signatureScheme = .threshold → round.Checkable state.commits) :
    ∃ checked, round.verifyCommitQuorum view = .ok checked := by
  rcases DbftExtra.hashablePrefix_of_decode hx with ⟨hashable, hhash⟩
  unfold verifyCommitQuorum
  rw [hs]
  simp only [hh]
  split
  · exact ⟨_, rfl⟩
  · rw [hx, mapError_ok, ok_bind]
    cases hsch : extra.signatureScheme with
    | ecdsa =>
      simp only [ecdsaSealHash, unsignedHeader, hhash, ok_bind, mapError_ok]
      exact ⟨_, rfl⟩
    | threshold =>
      rcases hchec hsch with
        ⟨dkgState, dkgIndices, hdkgS, hdkgI, hmap, hkey, hscaler, hc⟩
      simp only [hdkgS, hdkgI, Except.ofOption, ok_bind]
      split
      · exact ⟨_, rfl⟩
      · simp only [thresholdSealMessage, unsignedHeader, hhash, ok_bind, mapError_ok]
        split
        · exact ⟨_, rfl⟩
        · exact ⟨_, rfl⟩
        · exact ⟨_, rfl⟩
        · rename_i reason hshort hfailed hsearch
          have hperm := sortedByIndex_perm state.commits.toList
          have hshs := hmap.thresholdShares
            ((hperm.map Prod.fst).nodup_iff.mpr state.commits.keys_toList_nodup)
            (fun entry he => hr entry.1 entry.2
              (mem_toList.mp (hperm.subset he)))
          have hlen : (thresholdShares dkgIndices (sortedByIndex state.commits.toList)).length
              = (thresholdShares dkgIndices state.commits.toList).length :=
            (hperm.filterMap _).length_eq
          rw [← hlen] at hc
          rcases aggregateAndVerifySignatureShares_error hc hscaler hkey hshs.2 hshs.1
              (fun share hsh => validG2_of_mem_thresholdShares hsh) hsearch
            with hreason | hreason
          · exact absurd hreason (hshort _ _)
          · exact absurd hreason hfailed

/-! ## Seals found again -/

section FoundAgain

variable {validators : List Address} {quorum : Nat} {sealHash : B256}

/-- A commit carries a signature of its validator over the seal hash. -/
def SignedBy (validators : List Address) (sealHash : B256) (entry : UInt8 × DbftCommit) : Prop :=
  ∃ raw account, entry.2.validatedSignature = .ok (.ecdsa raw) ∧
    validators[entry.1.toNat]? = some account ∧ recoverSigner raw sealHash = some account

/-- One step of the collection: a signed commit adds its signature, any other is passed over. -/
theorem collectEcdsaSignatures_cons {signatures : List (FixedBytes 65)} (entry : UInt8 × DbftCommit)
    (commits : List (UInt8 × DbftCommit)) (hshort : signatures.length < quorum) :
    (∃ raw, collectEcdsaSignatures validators quorum sealHash signatures (entry :: commits)
        = if signatures.length + 1 = quorum then some (signatures ++ [raw])
          else collectEcdsaSignatures validators quorum sealHash (signatures ++ [raw]) commits) ∨
      (¬ SignedBy validators sealHash entry ∧
        collectEcdsaSignatures validators quorum sealHash signatures (entry :: commits)
          = collectEcdsaSignatures validators quorum sealHash signatures commits) := by
  rcases entry with ⟨i, commit⟩
  rw [collectEcdsaSignatures]
  split
  · rename_i raw hb
    cases hrecv : recoverSigner raw sealHash with
    | none =>
      refine Or.inr ⟨?_, rfl⟩
      rintro ⟨found, acct, hf, -, hacco⟩
      rw [hb] at hf
      cases hf
      rw [hrecv] at hacco
      cases hacco
    | some recovered =>
      by_cases hown : validators[i.toNat]? = some recovered
      · refine Or.inl ⟨raw, ?_⟩
        simp [hown]
      · refine Or.inr ⟨?_, ?_⟩
        · rintro ⟨found, acct, hf, hi, hacco⟩
          rw [hb] at hf
          cases hf
          rw [hrecv] at hacco
          cases hacco
          exact hown hi
        · simp [hown, Nat.ne_of_lt hshort]
  · rename_i ho
    refine Or.inr ⟨?_, rfl⟩
    rintro ⟨found, acct, hf, -, -⟩
    exact ho found hf

/-- Enough signed commits among the commits are collected. -/
theorem collectEcdsaSignatures_isSome {signatures : List (FixedBytes 65)}
    {commits : List (UInt8 × DbftCommit)} (signed : List (UInt8 × DbftCommit))
    (hsubl : signed.Sublist commits)
    (hsigned : ∀ entry ∈ signed, SignedBy validators sealHash entry)
    (hshort : signatures.length < quorum) (henough : quorum ≤ signatures.length + signed.length) :
    (collectEcdsaSignatures validators quorum sealHash signatures commits).isSome = true := by
  induction commits generalizing signatures signed with
  | nil =>
    rw [sublist_nil.mp hsubl, length_nil] at henough
    omega
  | cons entry commits ih =>
    -- The commits after the first hold all signed ones, or all but the first.
    have hr : ∃ others : List (UInt8 × DbftCommit), others.Sublist commits ∧
      (∀ entry ∈ others, entry ∈ signed) ∧
        (others.length = signed.length ∨
          (others.length + 1 = signed.length ∧ SignedBy validators sealHash entry)) := by
      cases hsubl with
      | cons _ hothers => exact ⟨signed, hothers, fun _ h => h, Or.inl rfl⟩
      | @cons_cons others _ _ hothers =>
        exact ⟨others, hothers, fun _ h => mem_cons_of_mem _ h,
          Or.inr ⟨rfl, hsigned entry mem_cons_self⟩⟩
    rcases hr with ⟨others, hothers, hsub, hlen⟩
    have hothe : ∀ entry ∈ others, SignedBy validators sealHash entry :=
      fun entry he => hsigned entry (hsub entry he)
    rcases collectEcdsaSignatures_cons entry commits hshort with ⟨raw, hstep⟩ | ⟨hunsi, hstep⟩
    · rw [hstep]
      split
      · rfl
      · refine ih others hothers hothe ?_ ?_
        · rw [length_append, length_singleton]
          omega
        · rw [length_append, length_singleton]
          omega
    · rw [hstep]
      refine ih others hothers hothe hshort ?_
      rcases hlen with hlen | ⟨-, h1⟩
      · omega
      · exact absurd h1 hunsi

end FoundAgain

theorem exists_signsHash {sealHash : B256} {contributors : List UInt8}
    (hsigns : List.Forall₂ (round.SignsHash commits sealHash) contributors signatures) {i : UInt8}
    (hi : i ∈ contributors) :
    ∃ signature, round.SignsHash commits sealHash i signature := by
  rcases mem_iff_getElem.mp hi with ⟨pos, hpos, rfl⟩
  exact ⟨_, hsigns.get hpos (hsigns.length_eq ▸ hpos)⟩

/-- The signatures of a valid seal are found again among the commits. -/
theorem SealValid.collect {sealHash : B256} (h : round.SealValid commits header (.ecdsa signatures))
    (hq : 0 < round.quorum) (hhash : ecdsaSealHash header = .ok sealHash) :
    (collectEcdsaSignatures round.validators.accounts round.quorum sealHash []
      (sortedByIndex commits.toList)).isSome = true := by
  rcases h with ⟨extra, found, contributors, -, -, hf, hnd, hlen, hsigns⟩
  rw [hhash] at hf
  cases hf
  have hmem : ∀ entry, entry ∈ sortedByIndex commits.toList ↔
      commits.lookup entry.1 = some entry.2 := by
    intro entry
    rw [(sortedByIndex_perm _).mem_iff, ← mem_toList]
  refine collectEcdsaSignatures_isSome
    ((sortedByIndex commits.toList).filter fun entry => entry.1 ∈ contributors)
    filter_sublist ?_ hq ?_
  · intro entry he
    rcases mem_filter.mp he with ⟨he, hi⟩
    rcases exists_signsHash hsigns (of_decide_eq_true hi) with
      ⟨sig, ⟨body, hget, hb⟩, account, hacco, hrecv⟩
    rw [(hmem entry).mp he] at hget
    cases hget
    exact ⟨sig, account, hb, hacco, hrecv⟩
  · rw [length_nil, Nat.zero_add, ← hlen, ← length_map (f := Prod.fst)]
    refine (subperm_of_subset hnd ?_).length_le
    intro i hi
    rcases exists_signsHash hsigns hi with ⟨sig, ⟨body, hget, -⟩, -⟩
    exact mem_map.mpr ⟨(i, body), mem_filter.mpr
      ⟨(hmem (i, body)).mpr hget, decide_eq_true hi⟩, rfl⟩

theorem thresholdShares_subset (dkgIndices : List UInt32)
    (hcomm : ∀ i body, commits.lookup i = some body → later.lookup i = some body) :
    thresholdShares dkgIndices (sortedByIndex commits.toList) ⊆
      thresholdShares dkgIndices (sortedByIndex later.toList) := by
  intro share hsh
  rcases mem_filterMap.mp hsh with ⟨entry, he, hread⟩
  refine mem_filterMap.mpr ⟨entry, ?_, hread⟩
  rw [(sortedByIndex_perm _).mem_iff] at he ⊢
  exact toList_subset hcomm he

/-- An aggregate is found again when commits are added, unless there are more shares than the
committee has members. -/
theorem aggregate_again {msg : Bytes} {publicKey : G1Bytes} {scaler : UInt64} {negatedResult : Bool}
    {quorum maxShares : Nat} {sig : G2Bytes} (hmap : round.IndexMap dkgIndices)
    (hr : ∀ i body, later.lookup i = some body → i.toNat < round.count)
    (hcomm : ∀ i body, commits.lookup i = some body → later.lookup i = some body) (hq : 0 < quorum)
    (haggr : aggregateAndVerifySignatureShares msg publicKey
      (thresholdShares dkgIndices (sortedByIndex commits.toList)) quorum scaler negatedResult
      maxShares = .ok sig) :
    quorum ≤ (thresholdShares dkgIndices (sortedByIndex later.toList)).length ∧
      ((∃ found, aggregateAndVerifySignatureShares msg publicKey
        (thresholdShares dkgIndices (sortedByIndex later.toList)) quorum scaler negatedResult
        maxShares = .ok found) ∨
      ∃ count, aggregateAndVerifySignatureShares msg publicKey
        (thresholdShares dkgIndices (sortedByIndex later.toList)) quorum scaler negatedResult
        maxShares = .error (.tooManySignatureShares count)) := by
  have hsub := thresholdShares_subset dkgIndices hcomm
  generalize hshs : thresholdShares dkgIndices (sortedByIndex commits.toList) = shares
    at haggr hsub
  have hperm := sortedByIndex_perm later.toList
  have hlarger := hmap.thresholdShares
    ((hperm.map Prod.fst).nodup_iff.mpr later.keys_toList_nodup)
    (fun entry he => hr entry.1 entry.2
      (mem_toList.mp (hperm.subset he)))
  have hpts : ∀ share ∈ thresholdShares dkgIndices (sortedByIndex later.toList),
      Crypto.validG2 share.2 = true := fun _ hsh => validG2_of_mem_thresholdShares hsh
  generalize thresholdShares dkgIndices (sortedByIndex later.toList) = larger
    at hsub hlarger hpts
  rcases exists_combination_of_aggregate haggr with
    ⟨hnd, hscaler, selected, hsel, rfl, hval⟩
  rcases mem_combinations hsel with ⟨hsubl, hlen⟩
  have hagain : selected.Sublist (sortShares larger) :=
    hsubl.trans (sortShares_sublist hsub hnd hlarger.1)
  have henough : quorum ≤ larger.length := by
    rw [← hlen, ← (sortShares_perm larger).length_eq]
    exact hagain.length_le
  refine ⟨henough, ?_⟩
  by_cases hc : larger.length ≤ maxShares
  · refine Or.inl (exists_aggregate ⟨Nat.ne_of_gt hq, henough⟩ hc hscaler hlarger.2
      hlarger.1 hpts ?_ hval)
    have hcomb := mem_combinations_of_sublist hagain
    rwa [hlen] at hcomb
  · refine Or.inr ⟨larger.length, ?_⟩
    rw [aggregateAndVerifySignatureShares, require_of _ ⟨Nat.ne_of_gt hq, henough⟩, ok_bind,
      Except.require, if_neg hc]
    rfl

end DbftRoundState
end NeoX
