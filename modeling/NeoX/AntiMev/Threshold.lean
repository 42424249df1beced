import NeoX.Consensus.Validation

/-!
# Threshold keys and signature aggregation

The dimensions of a DKG committee, the keys it publishes, and the search for a
threshold-sized set of signature shares that interpolates to a valid signature.

Main results:

- `aggregateAndVerifySignatureShares_spec`: an aggregate that is
  returned comes from a threshold-sized set of the supplied shares and verifies.
- `aggregateAndVerifySignatureShares_error`: with valid committee data
  the search fails only for lack of a valid set of shares.
-/

namespace NeoX

open List
open Except hiding ok error

/-! ## Committee dimensions -/

inductive DkgMaterialError where
  | invalidParameters (participants threshold : Nat)
  | scalerOverflow (participants threshold : Nat)
  | invalidScalar
  | emptyScalarAggregation
  | emptyPrivateSource
  | emptyReplayProtection
  | invalidParticipantIndex (index : UInt64)
  | insufficientRecoveryShares (actual : Nat)
  | duplicateRecoveryShareIndex (index : UInt64)
  | wrongPvssLength (actual : Nat)
  | invalidPvssPointLength (field : String) (actual : Nat)
  | invalidPvssPadding (field : String)
  | invalidPvssG1Point (field : String)
  | invalidPvssG2Point (field : String)
  | invalidPvssRandomizer
  | invalidPvssPublicShare (index : Nat)
  | invalidDecryptedShare (index : UInt64)
  | invalidPvssContributionCount (actual : Nat)
  | invalidAggregatedShare (index : UInt64)
  | invalidAggregatedCommitment
  | wrongEciesMessageLength (actual : Nat)
  | invalidMessagePrivateKey
  | invalidEciesEphemeralPoint
  | eciesAuthentication
  | invalidEciesPlaintextLength (actual : Nat)
  | entropy (message : String)
  deriving DecidableEq

/-- Dimensions of a DKG committee. -/
structure DkgParameters where
  participants : Nat
  threshold : Nat
  scaler : UInt64
  deriving DecidableEq

/-- Sublists with `choose` entries, in the order of their positions. -/
def combinations {α : Type} : List α → Nat → List (List α)
  | _, 0 => [[]]
  | [], _ + 1 => []
  | item :: items, choose + 1 =>
    (combinations items choose).map (item :: ·) ++ combinations items (choose + 1)

/-- Product of signed 128-bit integers. -/
def checkedMulI128 (left right : Int) : Option Int :=
  if -(2 ^ 127) ≤ left * right ∧ left * right < 2 ^ 127 then some (left * right) else none

/-- Product of unsigned 128-bit integers. -/
def checkedMulU128 (left right : Nat) : Option Nat :=
  if left * right < 2 ^ 128 then some (left * right) else none

/-- Reduced denominator of one Lagrange coefficient at zero. -/
def reducedDenominator (selected : List Nat) (index : Nat) : Option Nat := do
  let others := selected.filter (· ≠ index)
  let numerator ← others.foldlM
    (fun product (other : Nat) => checkedMulI128 product (-(other : Int))) 1
  let denominator ← others.foldlM
    (fun product (other : Nat) => checkedMulI128 product ((index : Int) - (other : Int))) 1
  some (denominator.natAbs / Nat.gcd numerator.natAbs denominator.natAbs)

/-- Fold one denominator into the common scaler. -/
def foldScaler (selected : List Nat) (scaler index : Nat) : Option Nat := do
  let reduced ← reducedDenominator selected index
  checkedMulU128 (scaler / Nat.gcd scaler reduced) reduced

/-- Least common interpolation denominator of a committee. -/
def dkgInterpolationScaler (participants threshold : Nat) : Except DkgMaterialError UInt64 := do
  require (threshold ≠ 0 ∧ threshold ≤ participants)
    (.invalidParameters participants threshold)
  require (participants ≤ 16) (.scalerOverflow participants threshold)
  let scaler ← ofOption (.scalerOverflow participants threshold)
    ((combinations (List.range' 1 participants) threshold).foldlM
      (fun scaler selected => selected.foldlM (foldScaler selected) scaler) 1)
  require (scaler < 2 ^ 64) (.scalerOverflow participants threshold)
  .ok (UInt64.ofNat scaler)

/-- Parameters of a committee with `participants` members. -/
def DkgParameters.new (participants : Nat) : Except DkgMaterialError DkgParameters := do
  require (participants ≠ 0 ∧ participants ≤ 256) (.invalidParameters participants 0)
  let threshold := participants - (participants - 1) / 3
  let scaler ← dkgInterpolationScaler participants threshold
  .ok ⟨participants, threshold, scaler⟩

theorem foldlM_checkedMulI128_ne_zero {f : Nat → Int} {others : List Nat}
    (hf : ∀ o ∈ others, f o ≠ 0) {start r : Int} (hst : start ≠ 0)
    (h : others.foldlM (fun product o => checkedMulI128 product (f o)) start
      = some r) : r ≠ 0 := by
  induction others generalizing start with
  | nil =>
    cases h
    exact hst
  | cons o others ih =>
    rw [foldlM_cons] at h
    rcases Option.bind_eq_some_iff.mp h with ⟨product, hprod, h⟩
    unfold checkedMulI128 at hprod
    rw [Option.ite_none_right_eq_some] at hprod
    have hne : product ≠ 0 := by
      rw [← Option.some.inj hprod.2]
      exact mul_ne_zero hst (hf o mem_cons_self)
    exact ih (fun i hmem => hf i (mem_cons_of_mem _ hmem)) hne h

variable {selected : List Nat}

theorem reducedDenominator_ne_zero {i reduced : Nat}
    (h : reducedDenominator selected i = some reduced) : reduced ≠ 0 := by
  rcases Option.bind_eq_some_iff.mp h with ⟨numerator, -, h⟩
  rcases Option.bind_eq_some_iff.mp h with ⟨denominator, hdeno, h⟩
  have hne : denominator ≠ 0 := by
    apply foldlM_checkedMulI128_ne_zero _ one_ne_zero hdeno
    intro o hmem
    have ho := of_decide_eq_true (mem_filter.mp hmem).2
    omega
  rw [← Option.some.inj h]
  have hpos : 0 < denominator.natAbs := Int.natAbs_pos.mpr hne
  have hdvd : Nat.gcd numerator.natAbs denominator.natAbs ∣ denominator.natAbs :=
    Nat.gcd_dvd_right _ _
  exact (Nat.div_pos (Nat.le_of_dvd hpos hdvd) (Nat.gcd_pos_of_pos_right _ hpos)).ne'

theorem foldScaler_ne_zero {scaler i r : Nat} (hscaler : scaler ≠ 0)
    (h : foldScaler selected scaler i = some r) : r ≠ 0 := by
  rcases Option.bind_eq_some_iff.mp h with ⟨reduced, hredu, h⟩
  unfold checkedMulU128 at h
  rw [Option.ite_none_right_eq_some] at h
  rw [← Option.some.inj h.2]
  have hpos : 0 < scaler := Nat.pos_of_ne_zero hscaler
  have hdvd : Nat.gcd scaler reduced ∣ scaler := Nat.gcd_dvd_left _ _
  have hquot := Nat.div_pos (Nat.le_of_dvd hpos hdvd) (Nat.gcd_pos_of_pos_left _ hpos)
  exact mul_ne_zero hquot.ne' (reducedDenominator_ne_zero hredu)

variable {α : Type}

theorem foldlM_ne_zero {step : Nat → α → Option Nat}
    (hstep : ∀ v item next, v ≠ 0 → step v item = some next → next ≠ 0) {items : List α}
    {start r : Nat} (hst : start ≠ 0) (h : items.foldlM step start = some r) :
    r ≠ 0 := by
  induction items generalizing start with
  | nil =>
    cases h
    exact hst
  | cons item items ih =>
    rw [foldlM_cons] at h
    rcases Option.bind_eq_some_iff.mp h with ⟨next, hn, h⟩
    exact ih (hstep start item next hst hn) h

/-- The common denominator of a committee is not zero, and its threshold is between one and the
number of members. -/
theorem DkgParameters.new_spec {participants : Nat} {ps : DkgParameters}
    (h : DkgParameters.new participants = .ok ps) :
    ps.participants = participants ∧ ps.scaler ≠ 0 ∧
      ps.threshold ≠ 0 ∧ ps.threshold ≤ participants := by
  obtain ⟨_, h⟩ := of_bind h
  rcases bind_ok h with ⟨scaler, hscaler, h⟩
  cases h
  obtain ⟨ht, hscaler⟩ := require_bind hscaler
  obtain ⟨_, hscaler⟩ := of_bind hscaler
  obtain ⟨common, hcommon, hscaler⟩ := ofOption_bind hscaler
  obtain ⟨hb, hscaler⟩ := require_bind hscaler
  cases hscaler
  have hne : common ≠ 0 := by
    apply foldlM_ne_zero _ one_ne_zero hcommon
    intro v selected next hv hn
    exact foldlM_ne_zero (fun _ _ _ => foldScaler_ne_zero) hv hn
  refine ⟨rfl, ?_, ht.1, ht.2⟩
  intro h0
  apply hne
  have hnat := congrArg UInt64.toNat h0
  rwa [UInt64.toNat_ofNat_of_lt' hb] at hnat

example : DkgParameters.new 7 = .ok ⟨7, 5, 360⟩ := by decide +kernel

/-! ## Published keys -/

/-- One successful DKG round and its scaled global public key. -/
structure DkgPublicKey where
  round : UInt64
  commitment : FixedBytes 128
  globalPublicKey : G1Bytes
  deriving DecidableEq

/-- Current and preceding DKG keys. -/
structure DkgState where
  parameters : DkgParameters
  current : DkgPublicKey
  previous : Option DkgPublicKey
  deriving DecidableEq

/-! ## Aggregation -/

/-- Errors of threshold encryption and of signature aggregation. -/
inductive TpkeError where
  | wrongCiphertextLength (actual : Nat)
  | wrongCommitmentLength (actual : Nat)
  | invalidCommitmentPadding
  | invalidGlobalPublicKey
  | notEnoughSignatureShares (threshold actual : Nat)
  | tooManySignatureShares (count : Nat)
  | signatureAggregationFailed
  | notEnoughDecryptionContributions (threshold actual : Nat)
  | tooManyDecryptionContributions (count : Nat)
  | decryptionAggregationFailed
  | invalidG1Point (field : String)
  | invalidG2Point (field : String)
  | invalidCiphertextCommitment
  | invalidPrivateKey
  | notEnoughShares
  | invalidShareIndex (index : UInt32)
  | duplicateShareIndex (index : UInt32)
  | invalidScaler
  | invalidDecryptionShares
  | invalidAesCiphertextLength (actual : Nat)
  | invalidPkcs7Padding
  deriving DecidableEq

/-- Check that share indices are positive and distinct. -/
def validateShareIndices : List UInt32 → List UInt32 → Except TpkeError Unit
  | _, [] => .ok ()
  | prior, index :: indices => do
      require (index ≠ 0) (.invalidShareIndex 0)
      require (index ∉ prior) (.duplicateShareIndex index)
      validateShareIndices (index :: prior) indices

/-- Check a set of indexed shares before interpolation. -/
def validateIndexedShares {α : Type} (shares : List (UInt32 × α)) (scaler : UInt64) :
    Except TpkeError Unit := do
  require (shares ≠ []) .notEnoughShares
  require (scaler ≠ 0) .invalidScaler
  validateShareIndices [] (shares.map Prod.fst)

def sortShares {α : Type} (shares : List (UInt32 × α)) : List (UInt32 × α) :=
  shares.insertionSort fun first second => first.1 ≤ second.1

variable [Crypto]

/-- Interpolate a selection of shares and keep the result when it verifies. -/
def verifiedAggregate (message : Bytes) (publicKey : G1Bytes) (scaler : UInt64)
    (negatedResult : Bool) (selected : List (UInt32 × G2Bytes)) : Option G2Bytes :=
  let signature := Crypto.interpolateSignatureShares selected scaler
  let candidate := if negatedResult then flipSortBit signature else signature
  if Crypto.sigValidate candidate = true ∧
      Crypto.blsVerify publicKey candidate message = true then
    some signature
  else
    none

/-- Try threshold-sized combinations of shares and return the first valid aggregate. -/
def aggregateAndVerifySignatureShares (message : Bytes) (globalPublicKey : G1Bytes)
    (shares : List (UInt32 × G2Bytes)) (threshold : Nat) (scaler : UInt64) (negatedResult : Bool)
    (maxShares : Nat) : Except TpkeError G2Bytes := do
  require (threshold ≠ 0 ∧ threshold ≤ shares.length)
    (.notEnoughSignatureShares threshold shares.length)
  require (shares.length ≤ maxShares) (.tooManySignatureShares shares.length)
  validateIndexedShares shares scaler
  require (Crypto.keyValidate globalPublicKey = true) .invalidGlobalPublicKey
  let ordered := sortShares shares
  require (∀ share ∈ ordered, Crypto.validG2 share.2 = true)
    (.invalidG2Point "signature share")
  ofOption .signatureAggregationFailed
    ((combinations ordered threshold).findSome?
      (verifiedAggregate message globalPublicKey scaler negatedResult))

/-! ## What aggregation returns -/

omit [Crypto] in
theorem mem_combinations {items selected : List α} {choose : Nat}
    (hmem : selected ∈ combinations items choose) :
    selected.Sublist items ∧ selected.length = choose := by
  induction items generalizing choose selected with
  | nil =>
    cases choose with
    | zero =>
      rw [combinations, mem_singleton] at hmem
      subst hmem
      exact ⟨List.Sublist.refl _, rfl⟩
    | succ choose => simp [combinations] at hmem
  | cons item items ih =>
    cases choose with
    | zero =>
      rw [combinations, mem_singleton] at hmem
      subst hmem
      exact ⟨nil_sublist _, rfl⟩
    | succ choose =>
      rw [combinations, mem_append, mem_map] at hmem
      rcases hmem with ⟨tail, htail, rfl⟩ | hskip
      · rcases ih htail with ⟨hsub, hlen⟩
        exact ⟨hsub.cons_cons item, by rw [length_cons, hlen]⟩
      · rcases ih hskip with ⟨hsub, hlen⟩
        exact ⟨hsub.cons item, hlen⟩

omit [Crypto] in
theorem mem_combinations_of_sublist {items selected : List α} (hsub : selected.Sublist items) :
    selected ∈ combinations items selected.length := by
  induction hsub with
  | slnil => exact mem_singleton.mpr rfl
  | @cons selected items item _ ih =>
    cases selected with
    | nil => exact mem_singleton.mpr rfl
    | cons first selected =>
      rw [length_cons, combinations]
      exact mem_append_right _ ih
  | @cons_cons selected items item _ ih =>
    rw [length_cons, combinations]
    exact mem_append_left _ (mem_map_of_mem ih)

omit [Crypto] in
theorem sortShares_perm (shares : List (UInt32 × α)) : (sortShares shares).Perm shares :=
  perm_insertionSort _ _

instance totalIndex {α : Type} : Std.Total fun first second : UInt32 × α => first.1 ≤ second.1 where
  total first second := UInt32.le_total first.1 second.1

instance transIndex {α : Type} : IsTrans (UInt32 × α) fun first second => first.1 ≤ second.1 where
  trans _ _ _ := UInt32.le_trans

omit [Crypto] in
/-- The order of shares with distinct indices is kept when shares are added. -/
theorem sortShares_sublist {shares larger : List (UInt32 × α)} (hsub : shares ⊆ larger)
    (hshs : (shares.map Prod.fst).Nodup) (hlarger : (larger.map Prod.fst).Nodup) :
    (sortShares shares).Sublist (sortShares larger) := by
  have hsubp : (sortShares shares).Subperm (sortShares larger) :=
    (sortShares_perm shares).subperm.trans
      ((subperm_of_subset (hshs.of_map _) hsub).trans
        (sortShares_perm larger).symm.subperm)
  rcases hsubp with ⟨chosen, hperm, hsubl⟩
  have hmem : ∀ share ∈ chosen, share ∈ larger :=
    fun share hsh => (sortShares_perm larger).subset (hsubl.subset hsh)
  have hsame : chosen = sortShares shares := by
    refine hperm.eq_of_pairwise ?_ ((pairwise_insertionSort _ larger).sublist hsubl)
      (pairwise_insertionSort _ shares)
    intro a b h1 h2 hle hge
    exact inj_on_of_nodup_map hlarger (hmem a h1)
      (hmem b (hperm.symm.subset h2)) (UInt32.le_antisymm hle hge)
  rwa [hsame] at hsubl

variable {threshold : Nat}

omit [Crypto] in
/-- Shares of distinct members, among which enough members are known, have a combination of
known members. -/
theorem exists_combination {shares : List (UInt32 × α)} (hnd : (shares.map Prod.fst).Nodup)
    {known : List UInt32} (hknown : known.Nodup) {share : UInt32 → α}
    (hmem : ∀ i ∈ known, (i, share i) ∈ shares) (ht : threshold ≤ known.length) :
    ∃ idx : List UInt32, idx.Nodup ∧ idx.length = threshold ∧
      (∀ i ∈ idx, i ∈ known) ∧
      (idx.map fun i => (i, share i)) ∈
        combinations (sortShares shares) threshold := by
  have hsorted : ((sortShares shares).map Prod.fst).Nodup :=
    ((sortShares_perm shares).map Prod.fst).nodup_iff.mpr hnd
  have hin : ∀ i ∈ known, (i, share i) ∈ sortShares shares :=
    fun i hi => (sortShares_perm shares).symm.subset (hmem i hi)
  -- The known members in the order of their idx.
  let found := (sortShares shares).filter fun e => e.1 ∈ known
  have hf : found = (found.map Prod.fst).map fun i => (i, share i) := by
    rw [map_map]
    conv_lhs => rw [← map_id found]
    refine map_congr_left fun e he => ?_
    rcases mem_filter.mp he with ⟨he, hi⟩
    exact inj_on_of_nodup_map hsorted he (hin e.1 (of_decide_eq_true hi)) rfl
  have hfoun : (found.map Prod.fst).Nodup :=
    hsorted.sublist (filter_sublist.map Prod.fst)
  have hlen : known.length ≤ (found.map Prod.fst).length := by
    apply (subperm_of_subset hknown _).length_le
    intro i hi
    exact mem_map.mpr ⟨(i, share i),
      mem_filter.mpr ⟨hin i hi, decide_eq_true hi⟩, rfl⟩
  refine ⟨(found.map Prod.fst).take threshold, hfoun.sublist (take_sublist _ _), ?_, ?_,
    ?_⟩
  · rw [length_take, min_eq_left (ht.trans hlen)]
  · intro i hi
    rcases mem_map.mp (mem_of_mem_take hi) with ⟨e, he, rfl⟩
    exact of_decide_eq_true (mem_filter.mp he).2
  · rw [map_take, ← hf]
    have hsub : (found.take threshold).Sublist (sortShares shares) :=
      (take_sublist _ _).trans filter_sublist
    have hc : (found.take threshold).length = threshold := by
      rw [length_map] at hlen
      rw [length_take, min_eq_left (ht.trans hlen)]
    have hcomb := mem_combinations_of_sublist hsub
    rwa [hc] at hcomb

omit [Crypto] in
theorem validateShareIndices_spec {prior idx : List UInt32}
    (hval : validateShareIndices prior idx = .ok ()) :
    (∀ i ∈ idx, i ≠ 0 ∧ i ∉ prior) ∧ idx.Nodup := by
  induction idx generalizing prior with
  | nil => simp
  | cons i idx ih =>
    obtain ⟨hpos, hval⟩ := require_bind hval
    obtain ⟨hfresh, hval⟩ := require_bind hval
    rcases ih hval with ⟨hothers, hnd⟩
    refine ⟨?_, nodup_cons.mpr ⟨?_, hnd⟩⟩
    · intro o ho
      rcases mem_cons.mp ho with rfl | ho
      · exact ⟨hpos, hfresh⟩
      · have hspec := hothers o ho
        exact ⟨hspec.1, fun h => hspec.2 (mem_cons_of_mem _ h)⟩
    · intro hagain
      exact (hothers i hagain).2 mem_cons_self

omit [Crypto] in
theorem validateShareIndices_of {prior idx : List UInt32} (hfresh : ∀ i ∈ idx, i ≠ 0 ∧ i ∉ prior)
    (hnd : idx.Nodup) :
    validateShareIndices prior idx = .ok () := by
  induction idx generalizing prior with
  | nil => rfl
  | cons i idx ih =>
    rcases nodup_cons.mp hnd with ⟨hnew, hr⟩
    have hi := hfresh i mem_cons_self
    have htail : validateShareIndices (i :: prior) idx = .ok () := by
      refine ih ?_ hr
      intro o ho
      have hspec := hfresh o (mem_cons_of_mem _ ho)
      refine ⟨hspec.1, ?_⟩
      rw [mem_cons, not_or]
      exact ⟨fun heq => hnew (heq ▸ ho), hspec.2⟩
    rw [validateShareIndices, require_of _ hi.1, ok_bind, require_of _ hi.2, ok_bind, htail]

variable {scaler : UInt64}

omit [Crypto] in
theorem validateIndexedShares_of {shares : List (UInt32 × α)} (hne : shares ≠ [])
    (hscaler : scaler ≠ 0) (hidx : ∀ i ∈ shares.map Prod.fst, i ≠ 0)
    (hnd : (shares.map Prod.fst).Nodup) : validateIndexedShares shares scaler = .ok () := by
  rw [validateIndexedShares, require_of _ hne, ok_bind, require_of _ hscaler, ok_bind]
  exact validateShareIndices_of (fun i hi => ⟨hidx i hi, by simp⟩) hnd

/-- The aggregate is a valid signature over the message under the key. -/
def ValidAggregate (message : Bytes) (publicKey : G1Bytes) (negatedResult : Bool)
    (signature : G2Bytes) : Prop :=
  Crypto.keyValidate publicKey = true ∧
  Crypto.sigValidate (if negatedResult then flipSortBit signature else signature) = true ∧
  Crypto.blsVerify publicKey (if negatedResult then flipSortBit signature else signature) message
    = true

variable {message : Bytes} {publicKey : G1Bytes} {negatedResult : Bool} {signature : G2Bytes}
  {selected : List (UInt32 × G2Bytes)}

theorem verifiedAggregate_eq_some
    (hf : verifiedAggregate message publicKey scaler negatedResult selected
      = some signature) :
    signature = Crypto.interpolateSignatureShares selected scaler ∧
    Crypto.sigValidate (if negatedResult then flipSortBit signature else signature) = true ∧
    Crypto.blsVerify publicKey (if negatedResult then flipSortBit signature else signature) message
      = true := by
  unfold verifiedAggregate at hf
  rw [Option.ite_none_right_eq_some] at hf
  rcases hf with ⟨hver, hsig⟩
  have heq : Crypto.interpolateSignatureShares selected scaler = signature :=
    Option.some.inj hsig
  rw [heq] at hver
  exact ⟨heq.symm, hver.1, hver.2⟩

variable {shares : List (UInt32 × G2Bytes)} {maxShares : Nat}

/-- A returned aggregate interpolates one of the combinations of the shares and verifies. -/
theorem exists_combination_of_aggregate
    (hsearch : aggregateAndVerifySignatureShares message publicKey shares threshold scaler
      negatedResult maxShares = .ok signature) :
    (shares.map Prod.fst).Nodup ∧ scaler ≠ 0 ∧
      ∃ selected ∈ combinations (sortShares shares) threshold,
        signature = Crypto.interpolateSignatureShares selected scaler ∧
        ValidAggregate message publicKey negatedResult signature := by
  obtain ⟨_, hsearch⟩ := of_bind hsearch
  obtain ⟨_, hsearch⟩ := of_bind hsearch
  rcases bind_ok hsearch with ⟨_, hval, hsearch⟩
  obtain ⟨hkey, hsearch⟩ := require_bind hsearch
  obtain ⟨_, hsearch⟩ := of_bind hsearch
  rw [ofOption_eq_ok] at hsearch
  rcases exists_of_findSome?_eq_some hsearch with ⟨selected, hsel, hf⟩
  obtain ⟨_, hval⟩ := of_bind hval
  obtain ⟨hscaler, hidx⟩ := require_bind hval
  rcases verifiedAggregate_eq_some hf with ⟨hsign, hsig, hbls⟩
  exact ⟨(validateShareIndices_spec hidx).2, hscaler, selected, hsel, hsign, hkey,
    hsig, hbls⟩

/-- A returned aggregate interpolates a threshold-sized set of the shares and verifies. -/
theorem aggregateAndVerifySignatureShares_spec
    (hsearch : aggregateAndVerifySignatureShares message publicKey shares threshold scaler
      negatedResult maxShares = .ok signature) :
    ∃ selected : List (UInt32 × G2Bytes),
      selected.Subperm shares ∧ selected.length = threshold ∧
      (selected.map Prod.fst).Nodup ∧ scaler ≠ 0 ∧
      signature = Crypto.interpolateSignatureShares selected scaler ∧
      ValidAggregate message publicKey negatedResult signature := by
  rcases exists_combination_of_aggregate hsearch with
    ⟨hnd, hscaler, selected, hsel, hsig, hval⟩
  rcases mem_combinations hsel with ⟨hsub, hlen⟩
  have hsubp : selected.Subperm shares :=
    hsub.subperm.trans (sortShares_perm shares).subperm
  have hsele : (selected.map Prod.fst).Nodup := by
    have hperm : ((sortShares shares).map Prod.fst).Perm (shares.map Prod.fst) :=
      (sortShares_perm shares).map _
    exact (hperm.nodup_iff.mpr hnd).sublist (hsub.map _)
  exact ⟨selected, hsubp, hlen, hsele, hscaler, hsig, hval⟩

theorem validG2_of_aggregate
    (hsearch : aggregateAndVerifySignatureShares message publicKey shares threshold scaler
      negatedResult maxShares = .ok signature) :
    ∀ share ∈ shares, Crypto.validG2 share.2 = true := by
  iterate 4 obtain ⟨_, hsearch⟩ := of_bind hsearch
  obtain ⟨hpts, -⟩ := require_bind hsearch
  intro share hsh
  exact hpts share ((sortShares_perm shares).symm.subset hsh)

/-- With valid committee data and enough shares the search goes through all combinations. -/
theorem aggregateAndVerifySignatureShares_eq (negatedResult : Bool)
    (henough : threshold ≠ 0 ∧ threshold ≤ shares.length) (hc : shares.length ≤ maxShares)
    (hscaler : scaler ≠ 0) (hkey : Crypto.keyValidate publicKey = true)
    (hidx : ∀ i ∈ shares.map Prod.fst, i ≠ 0) (hnd : (shares.map Prod.fst).Nodup)
    (hpts : ∀ share ∈ shares, Crypto.validG2 share.2 = true) :
    aggregateAndVerifySignatureShares message publicKey shares threshold scaler negatedResult
      maxShares = ofOption .signatureAggregationFailed
        ((combinations (sortShares shares) threshold).findSome?
          (verifiedAggregate message publicKey scaler negatedResult)) := by
  have hne : shares ≠ [] := by
    rintro rfl
    exact henough.1 (Nat.le_zero.mp henough.2)
  have hval := validateIndexedShares_of hne hscaler hidx hnd
  have horde : ∀ share ∈ sortShares shares, Crypto.validG2 share.2 = true := by
    intro share hsh
    exact hpts share ((sortShares_perm shares).subset hsh)
  rw [aggregateAndVerifySignatureShares, require_of _ henough, ok_bind, require_of _ hc, ok_bind,
    hval, ok_bind, require_of _ hkey, ok_bind]
  dsimp only
  rw [require_of _ horde, ok_bind]

/-- With valid committee data the search fails only for lack of valid shares. -/
theorem aggregateAndVerifySignatureShares_error {reason : TpkeError}
    (hc : shares.length ≤ maxShares) (hscaler : scaler ≠ 0)
    (hkey : Crypto.keyValidate publicKey = true) (hidx : ∀ i ∈ shares.map Prod.fst, i ≠ 0)
    (hnd : (shares.map Prod.fst).Nodup) (hpts : ∀ share ∈ shares, Crypto.validG2 share.2 = true)
    (hsearch : aggregateAndVerifySignatureShares message publicKey shares threshold scaler
      negatedResult maxShares = .error reason) :
    reason = .notEnoughSignatureShares threshold shares.length ∨
      reason = .signatureAggregationFailed := by
  by_cases henough : threshold ≠ 0 ∧ threshold ≤ shares.length
  · right
    rw [aggregateAndVerifySignatureShares_eq negatedResult henough hc hscaler hkey hidx
      hnd hpts] at hsearch
    cases hf : (combinations (sortShares shares) threshold).findSome?
        (verifiedAggregate message publicKey scaler negatedResult) with
    | none =>
      rw [hf] at hsearch
      cases hsearch
      rfl
    | some signature =>
      rw [hf] at hsearch
      cases hsearch
  · left
    rw [aggregateAndVerifySignatureShares, Except.require, if_neg henough] at hsearch
    cases hsearch
    rfl

/-- With valid committee data a combination with a valid aggregate is enough. -/
theorem exists_aggregate (henough : threshold ≠ 0 ∧ threshold ≤ shares.length)
    (hc : shares.length ≤ maxShares) (hscaler : scaler ≠ 0)
    (hidx : ∀ i ∈ shares.map Prod.fst, i ≠ 0) (hnd : (shares.map Prod.fst).Nodup)
    (hpts : ∀ share ∈ shares, Crypto.validG2 share.2 = true)
    (hsel : selected ∈ combinations (sortShares shares) threshold)
    (hval : ValidAggregate message publicKey negatedResult
      (Crypto.interpolateSignatureShares selected scaler)) :
    ∃ signature, aggregateAndVerifySignatureShares message publicKey shares threshold scaler
      negatedResult maxShares = .ok signature := by
  rcases hval with ⟨hkey, hver⟩
  have hsome : ((combinations (sortShares shares) threshold).findSome?
      (verifiedAggregate message publicKey scaler negatedResult)).isSome = true := by
    refine findSome?_isSome_iff.mpr ⟨selected, hsel, ?_⟩
    rw [verifiedAggregate, if_pos hver, Option.isSome_some]
  rcases Option.isSome_iff_exists.mp hsome with ⟨signature, hsig⟩
  refine ⟨signature, ?_⟩
  rw [aggregateAndVerifySignatureShares_eq negatedResult henough hc hscaler hkey hidx hnd hpts]
  exact ofOption_eq_ok.mpr hsig

end NeoX
