import NeoX.AntiMev.Announcement

/-!
# Recovery of a missing member

The shares that a validator collects for a missing member, and the announcement it prepares with
the constant coefficient of that member.

Main results:

- `DkgKeyStore.receiveRecovery_spec`: a recovery share is recorded exactly if it is the
  value of the announced polynomial at the index of its sender.
- `DkgPolynomial.recoverAndRenovate_of_values`: values of one polynomial recover its
  constant coefficient.
- `DkgKeyStore.recovered_reshare_renovates`: whatever is delivered, once a threshold of
  senders was accepted the prepared announcement renovates the one of the missing member.
-/

namespace NeoX

open List
open Except hiding ok error

open Curve Polynomial

variable {i : UInt64}

section Recovery

variable {parameters : DkgParameters}

/-! ## Collected shares -/

namespace DkgKeyGroup

/-- The shares of a group with the indices of their senders, in the order of the indices. -/
def collected (group : DkgKeyGroup parameters) : List (UInt64 × DkgSecretScalar) :=
  group.receivedSecrets.zipIdx.filterMap fun entry =>
    entry.1.map fun share => (UInt64.ofNat (entry.2 + 1), share)

/-- A collected share stands at the position of its index. -/
theorem mem_collected (hpart : parameters.participants < 2 ^ 64) {group : DkgKeyGroup parameters}
    {share : DkgSecretScalar} :
    (i, share) ∈ group.collected ↔
      1 ≤ i.toNat ∧ group.receivedSecrets[i.toNat - 1]? = some (some share) := by
  constructor
  · intro h
    obtain ⟨⟨slot, pos⟩, he, hsh⟩ := List.mem_filterMap.mp h
    obtain ⟨found, rfl, hf⟩ := Option.map_eq_some_iff.mp hsh
    cases hf
    have hsl : group.receivedSecrets[pos]? = some (some share) :=
      List.mem_zipIdx_iff_getElem?.mp he
    have hlt := (List.getElem?_eq_some_iff.mp hsl).1
    rw [group.length_received] at hlt
    rw [UInt64.toNat_ofNat_of_lt' (show pos + 1 < 2 ^ 64 by omega), Nat.add_sub_cancel]
    exact ⟨Nat.le_add_left 1 pos, hsl⟩
  · rintro ⟨hpos, hsl⟩
    refine List.mem_filterMap.mpr
      ⟨(some share, i.toNat - 1), List.mem_zipIdx_iff_getElem?.mpr hsl, ?_⟩
    rw [Option.map_some, Nat.sub_add_cancel hpos, UInt64.ofNat_toNat]

theorem nodup_collected (hpart : parameters.participants < 2 ^ 64)
    (group : DkgKeyGroup parameters) : (group.collected.map Prod.fst).Nodup := by
  have hposi : (group.receivedSecrets.zipIdx.map Prod.snd).Nodup := by
    rw [List.zipIdx_map_snd]
    exact List.nodup_range'
  have hpairs : group.receivedSecrets.zipIdx.Pairwise fun a b =>
      a.2 ≠ b.2 ∧ a.2 < parameters.participants ∧
        b.2 < parameters.participants := by
    refine (List.pairwise_map.mp hposi).imp_of_mem fun h1 h2 hne => ⟨hne, ?_, ?_⟩
    · rw [← group.length_received]
      exact (List.getElem?_eq_some_iff.mp (List.mem_zipIdx_iff_getElem?.mp h1)).1
    · rw [← group.length_received]
      exact (List.getElem?_eq_some_iff.mp (List.mem_zipIdx_iff_getElem?.mp h2)).1
  rw [List.nodup_iff_pairwise_ne, List.pairwise_map]
  refine hpairs.filterMap _ ?_
  intro a b hne left hleft right hright heq
  obtain ⟨_, -, rfl⟩ := Option.map_eq_some_iff.mp hleft
  obtain ⟨_, -, rfl⟩ := Option.map_eq_some_iff.mp hright
  have hv := congrArg UInt64.toNat heq
  rw [UInt64.toNat_ofNat_of_lt' (show a.2 + 1 < 2 ^ 64 by omega),
    UInt64.toNat_ofNat_of_lt' (show b.2 + 1 < 2 ^ 64 by omega)] at hv
  omega

end DkgKeyGroup

/-! ## The recovered polynomial -/

variable {p : Scalar[X]} {secret : DkgSecretScalar}

namespace DkgPolynomial

/-- Distinct indices of members pass the check. -/
theorem validateRecoveryShares_of {idx prior : List UInt64}
    (hr : ∀ i ∈ idx, 1 ≤ i.toNat ∧ i.toNat ≤ parameters.participants)
    (hprior : ∀ i ∈ idx, i ∉ prior) (hnd : idx.Nodup) :
    validateRecoveryShares parameters prior idx = .ok () := by
  induction idx generalizing prior with
  | nil => rfl
  | cons i idx ih =>
    obtain ⟨hfresh, hnd⟩ := nodup_cons.mp hnd
    rw [validateRecoveryShares, require_of _ (hr i mem_cons_self),
      ok_bind, require_of _ (hprior i mem_cons_self), ok_bind]
    refine ih (fun o ho => hr o (mem_cons_of_mem _ ho)) ?_ hnd
    intro o ho hmem
    obtain rfl | hmem := mem_cons.mp hmem
    · exact hfresh ho
    · exact hprior o (mem_cons_of_mem _ ho) hmem

/-- The polynomial of a known constant coefficient and drawn other coefficients. -/
def withConstant (secret : DkgSecretScalar) (draw : Nat → DkgSecretScalar) :
    DkgPolynomial parameters where
  coefficients := ((List.range parameters.threshold).map draw).set 0 secret
  length_eq := by simp

variable {entropy : Entropy} {draw : Nat → DkgSecretScalar}

/-- A polynomial whose coefficients are all drawn. -/
theorem randomWithParameters_of
    (hdraw : ∀ pos < parameters.threshold, entropy pos = .ok (draw pos)) :
    ∃ poly : DkgPolynomial parameters, randomWithParameters entropy = .ok poly ∧
      poly.coefficients = (List.range parameters.threshold).map draw := by
  have hcoeff : (range parameters.threshold).mapM
      (fun pos => (entropy pos).mapError DkgMaterialError.entropy)
      = .ok ((range parameters.threshold).map draw) := by
    apply mapM_eq_ok_of_forall₂
    rw [forall₂_map_right_iff, forall₂_same]
    intro pos hpos
    rw [hdraw pos (mem_range.mp hpos), mapError_ok]
  unfold randomWithParameters ofPositions
  split
  · next coefficients hf =>
      exact ⟨_, rfl, Except.ok.inj (hf.symm.trans hcoeff)⟩
  · next hf => exact nomatch hf.symm.trans hcoeff

/-- Enough values of one polynomial recover its constant coefficient. -/
theorem recoverAndRenovate_of_values {shares : List (UInt64 × DkgSecretScalar)}
    (hdeg : p.degree < parameters.threshold) (hc : parameters.threshold ≤ shares.length)
    (hr : ∀ share ∈ shares, 1 ≤ share.1.toNat ∧ share.1.toNat ≤ parameters.participants)
    (hnd : (shares.map Prod.fst).Nodup)
    (hv : ∀ share ∈ shares, share.2.value = p.eval (share.1.toNat : Scalar))
    (hsec : secret.value = p.eval 0)
    (hdraw : ∀ pos < parameters.threshold, entropy pos = .ok (draw pos)) :
    recoverAndRenovateWithParameters shares entropy
      = .ok (withConstant secret draw : DkgPolynomial parameters) := by
  have hmem : ∀ share ∈ shares.take parameters.threshold, share ∈ shares :=
    fun share hsh => mem_of_mem_take hsh
  have hsel : ((shares.take parameters.threshold).map Prod.fst).Nodup :=
    hnd.sublist ((take_sublist _ _).map _)
  have hval : validateRecoveryShares parameters []
      ((shares.take parameters.threshold).map Prod.fst) = .ok () := by
    refine validateRecoveryShares_of ?_ (fun _ _ => not_mem_nil) hsel
    intro i hi
    obtain ⟨share, hsh, rfl⟩ := mem_map.mp hi
    exact hr share (hmem share hsh)
  have hnodes : (((shares.take parameters.threshold).map fun share =>
      ((share.1.toNat : Scalar), share.2.value)).map Prod.fst).Nodup := by
    have heq : ((shares.take parameters.threshold).map fun share =>
        ((share.1.toNat : Scalar), share.2.value)).map Prod.fst
        = ((shares.take parameters.threshold).map Prod.fst).map
          fun i => (i.toNat : Scalar) := by
      rw [map_map, map_map]
      rfl
    rw [heq]
    refine hsel.map fun a b hsame => UInt64.toNat_inj.mp ?_
    exact natCast_scalar_injective a.toNat_lt b.toNat_lt hsame
  have hcons : Interpolation.atZero (1 : Scalar)
      ((shares.take parameters.threshold).map fun share =>
        ((share.1.toNat : Scalar), share.2.value)) = p.eval 0 := by
    have hpts : Interpolation.atZero (1 : Scalar) _ = (1 * p.eval 0) • (1 : Scalar) :=
      Interpolation.atZero_eq hnodes 1
        (by rwa [length_map, length_take, Nat.min_eq_left hc]) ?_
    · rw [hpts, one_mul, smul_eq_mul, mul_one]
    · intro point hpt
      obtain ⟨share, hsh, rfl⟩ := mem_map.mp hpt
      rw [smul_eq_mul, mul_one]
      exact hv share (hmem share hsh)
  obtain ⟨drawn, hrandom, hdrawn⟩ := randomWithParameters_of hdraw
  rw [recoverAndRenovateWithParameters, require_of _ hc, ok_bind]
  dsimp only
  rw [hval, ok_bind, hrandom, ok_bind, hcons,
    trySecretFromFr_eq_ok.mpr hsec, ok_bind, Except.ok.injEq]
  ext1
  show drawn.coefficients.set 0 secret = _
  rw [hdrawn]
  rfl

/-- The value of a polynomial with a known constant coefficient. -/
theorem evaluate_withConstant (ht : parameters.threshold ≠ 0) (secret : DkgSecretScalar)
    (draw : Nat → DkgSecretScalar) (x : Scalar) :
    Horner.evaluate x ((withConstant secret draw :
        DkgPolynomial parameters).coefficients.map DkgSecretScalar.value)
      = secret.value + ∑ power ∈ Finset.Ico 1 parameters.threshold,
          (draw power).value * x ^ power := by
  have hpos : 0 < parameters.threshold := Nat.pos_of_ne_zero ht
  have hlen : ((withConstant secret draw :
      DkgPolynomial parameters).coefficients.map DkgSecretScalar.value).length
      = parameters.threshold := by
    rw [length_map, length_eq]
  rw [Horner.evaluate_eq_sum, hlen, Finset.range_eq_Ico, Finset.sum_eq_sum_Ico_succ_bot hpos]
  congr 1
  · simp [withConstant, hpos]
  · refine Finset.sum_congr rfl fun power hpower => ?_
    obtain ⟨hnonz, hlt⟩ := Finset.mem_Ico.mp hpower
    simp [withConstant, hlt, show 0 ≠ power by omega]

variable [Curve]

/-- A polynomial without a zero among the indices of the members has an announcement. -/
theorem exists_generatePvss {poly : DkgPolynomial parameters}
    (hpart : parameters.participants < 2 ^ 64) {randomizer : DkgSecretScalar}
    (hrand : entropy parameters.threshold = .ok randomizer)
    (hnonz : ∀ i : Nat, 1 ≤ i → i ≤ parameters.participants →
      Horner.evaluate (i : Scalar) (poly.coefficients.map DkgSecretScalar.value) ≠ 0) :
    ∃ material, poly.generatePvss entropy = .ok material := by
  have hshs : ∃ shares, (range parameters.participants).mapM (fun pos =>
      poly.evaluate (UInt64.ofNat (pos + 1))) = .ok shares := by
    apply exists_mapM_eq_ok
    intro pos hpos
    have hlt := mem_range.mp hpos
    have hi : (UInt64.ofNat (pos + 1)).toNat = pos + 1 :=
      UInt64.toNat_ofNat_of_lt' (show pos + 1 < 2 ^ 64 by omega)
    refine ⟨⟨_, hnonz (pos + 1) (by omega) (by omega)⟩, ?_⟩
    rw [evaluate, hi, require_of _ (by omega), ok_bind, trySecretFromFr_eq_ok]
  obtain ⟨shares, hshs⟩ := hshs
  rw [generatePvss, hrand, mapError_ok, ok_bind, generatePvssWithRandomizer, hshs]
  exact ⟨_, rfl⟩

/-- An announcement of a polynomial with the constant coefficient of another one renovates the
announcement of that one. -/
theorem renovates_withConstant (ht : parameters.threshold ≠ 0)
    (hpart : parameters.participants < 2 ^ 64) {prev : DkgPvss parameters} (hp : prev.CommitsTo p)
    (hsec : secret.value = p.eval 0) {material : DkgPvssMaterial}
    (h : (withConstant secret draw : DkgPolynomial parameters).generatePvss entropy
      = .ok material) :
    ∃ pvss, DkgPvss.decodeWithParameters material.encoded parameters = .ok pvss ∧
      pvss.renovates prev = true := by
  have hpos : 0 < parameters.threshold := Nat.pos_of_ne_zero ht
  obtain ⟨pvss, hpvss, hcomm, -⟩ := generatePvss_accepted hpart h
  refine ⟨pvss, hpvss, decide_eq_true ?_⟩
  rw [head?_eq_getElem?, head?_eq_getElem?, hcomm.commitment_eq 0 hpos,
    hp.commitment_eq 0 hpos, coeff_zero_eq_eval_zero, coeff_zero_eq_eval_zero, ← hsec,
    toPolynomial, ← Horner.evaluate_eq_eval, evaluate_withConstant ht]
  congr 3
  rw [Finset.sum_eq_zero, add_zero]
  intro power hpower
  rw [zero_pow (by have := (Finset.mem_Ico.mp hpower).1; omega), mul_zero]

end DkgPolynomial

/-! ## Deliveries -/

namespace DkgKeyStore

variable [Curve] [Ecies] {pvss : DkgPvss parameters}

/-- A recovery share is recorded if it is the value of the announced polynomial. -/
theorem receiveRecovery_spec (ht : parameters.threshold ≠ 0) {store next : DkgKeyStore parameters}
    {fromIndex : UInt64} {msg enc : Bytes} {fresh : Bool}
    (h : store.receiveRecovery fromIndex msg enc = .ok (fresh, next))
    (hpvss : DkgPvss.decodeWithParameters enc parameters = .ok pvss) (hp : pvss.CommitsTo p) :
    ∃ group share, store.recovering = some group ∧
      decryptDkgShareMessage store.messagePrivateKey.bytes msg = .ok share ∧
      (1 ≤ fromIndex.toNat ∧ fromIndex.toNat ≤ parameters.participants) ∧
      share.value = p.eval (fromIndex.toNat : Scalar) ∧
      (∀ old, group.receivedSecrets[fromIndex.toNat - 1]? = some (some old) →
        old = share) ∧
      next = { store with recovering := some (group.record fromIndex share) } := by
  obtain ⟨group, share, decoded, hg, hdec, hsh, hver, hr, hsl, hn⟩ :=
    receiveRecovery_eq_ok h
  cases hpvss.symm.trans hdec
  exact ⟨group, share, hg, hsh, hr,
    ((hp.verifyShare_iff ht).mp hver).2, hsl, hn⟩

/-- One delivery to a validator that recovers a missing member, with the senders it has accepted:
a refused message changes nothing. -/
def deliver (encoded : Bytes) (state : DkgKeyStore parameters × List UInt64)
    (delivery : UInt64 × Bytes) : DkgKeyStore parameters × List UInt64 :=
  match state.1.receiveRecovery delivery.1 delivery.2 encoded with
  | .ok (_, next) => (next, delivery.1 :: state.2)
  | .error _ => state

/-- The shares of the accepted senders are collected, and all collected shares are values of one
polynomial. -/
def Collecting (p : Scalar[X]) (state : DkgKeyStore parameters × List UInt64) : Prop :=
  ∃ group, state.1.recovering = some group ∧
    group.Recorded (fun position share => share.value = p.eval ((position + 1 : ℕ) : Scalar)) ∧
    ∀ sender ∈ state.2, ∃ share, (sender, share) ∈ group.collected

theorem collecting_deliver (ht : parameters.threshold ≠ 0)
    (hpart : parameters.participants < 2 ^ 64) {enc : Bytes}
    (hpvss : DkgPvss.decodeWithParameters enc parameters = .ok pvss) (hp : pvss.CommitsTo p)
    (s : DkgKeyStore parameters × List UInt64) (delivery : UInt64 × Bytes) (hs : Collecting p s) :
    Collecting p (deliver enc s delivery) := by
  unfold deliver
  split
  · next fresh next hrecv =>
      obtain ⟨group, hg, hrec, hsend⟩ := hs
      obtain ⟨found, share, hf, -, hr, hv, hsl, rfl⟩ :=
        receiveRecovery_spec ht hrecv hpvss hp
      cases hg.symm.trans hf
      refine ⟨group.record delivery.1 share, rfl, ?_, ?_⟩
      · refine DkgKeyGroup.recorded_record hrec ?_
        rw [Nat.sub_add_cancel hr.1]
        exact hv
      · intro sender hsd
        obtain rfl | hsd := mem_cons.mp hsd
        · exact ⟨share, (DkgKeyGroup.mem_collected hpart).mpr
            ⟨hr.1, DkgKeyGroup.receivedSecrets_record_self hr share⟩⟩
        · obtain ⟨o, ho⟩ := hsend sender hsd
          obtain ⟨hpos, ho⟩ := (DkgKeyGroup.mem_collected hpart).mp ho
          exact ⟨o, (DkgKeyGroup.mem_collected hpart).mpr
            ⟨hpos, DkgKeyGroup.receivedSecrets_record_of_some hsl ho⟩⟩
  · exact hs

/-- A validator with a threshold of accepted senders prepares an announcement that renovates the
one it recovers. -/
theorem prepareRecoveredReshare_of_collecting (ht : parameters.threshold ≠ 0)
    (hpart : parameters.participants < 2 ^ 64) {prev : DkgPvss parameters} (hp : prev.CommitsTo p)
    (hsec : secret.value = p.eval 0) {s : DkgKeyStore parameters × List UInt64}
    (hs : Collecting p s) (hsend : parameters.threshold ≤ s.2.dedup.length) {entropy : Entropy}
    {draw : Nat → DkgSecretScalar}
    (hdraw : ∀ pos ≤ parameters.threshold, entropy pos = .ok (draw pos))
    (hnonz : ∀ i : Nat, 1 ≤ i → i ≤ parameters.participants →
      p.eval 0 + ∑ power ∈ Finset.Ico 1 parameters.threshold,
        (draw power).value * (i : Scalar) ^ power ≠ 0) :
    ∃ material next pvss, s.1.prepareRecoveredReshare entropy = .ok (material, next) ∧
      DkgPvss.decodeWithParameters material.encoded parameters = .ok pvss ∧
      pvss.renovates prev = true := by
  obtain ⟨group, hg, hrec, hcoll⟩ := hs
  have hc : parameters.threshold ≤ group.collected.length := by
    have hsub : s.2.dedup ⊆ group.collected.map Prod.fst := by
      intro sender hsd
      obtain ⟨share, hsh⟩ := hcoll sender (List.mem_dedup.mp hsd)
      exact List.mem_map_of_mem hsh
    have hlen := ((List.nodup_dedup _).subperm hsub).length_le
    rw [List.length_map] at hlen
    exact hsend.trans hlen
  have hslots : ∀ share ∈ group.collected,
      (1 ≤ share.1.toNat ∧ share.1.toNat ≤ parameters.participants) ∧
        share.2.value = p.eval (share.1.toNat : Scalar) := by
    intro share hsh
    obtain ⟨hposi, hsl⟩ := (DkgKeyGroup.mem_collected hpart).mp hsh
    have hlt := (List.getElem?_eq_some_iff.mp hsl).1
    rw [group.length_received] at hlt
    have hv : share.2.value = p.eval ((share.1.toNat - 1 + 1 : ℕ) : Scalar) :=
      hrec _ _ hsl
    rw [Nat.sub_add_cancel hposi] at hv
    exact ⟨⟨hposi, by omega⟩, hv⟩
  have hpoly := DkgPolynomial.recoverAndRenovate_of_values hp.degree_lt hc
    (fun share hsh => (hslots share hsh).1) (group.nodup_collected hpart)
    (fun share hsh => (hslots share hsh).2) hsec
    fun pos hpos => hdraw pos hpos.le
  have hvalues : ∀ i : Nat, 1 ≤ i → i ≤ parameters.participants →
      Horner.evaluate (i : Scalar) ((DkgPolynomial.withConstant secret draw :
        DkgPolynomial parameters).coefficients.map DkgSecretScalar.value) ≠ 0 := by
    intro i hposi hle
    rw [DkgPolynomial.evaluate_withConstant ht, hsec]
    exact hnonz i hposi hle
  obtain ⟨material, hmat⟩ :=
    DkgPolynomial.exists_generatePvss hpart (hdraw _ le_rfl) hvalues
  obtain ⟨pvss, hpvss, hreno⟩ :=
    DkgPolynomial.renovates_withConstant ht hpart hp hsec hmat
  have hprep : s.1.prepareRecoveredReshare entropy = .ok (material,
      { s.1 with
        recovering := some { group with
          localSecret := some (DkgPolynomial.withConstant secret draw) } }) := by
    refine bind_eq_ok.mpr ⟨group, ofOption_eq_ok.mpr hg, ?_⟩
    refine bind_eq_ok.mpr ⟨(), require_of _ hc, ?_⟩
    refine bind_eq_ok.mpr ⟨_, mapError_eq_ok.mpr hpoly, ?_⟩
    exact bind_eq_ok.mpr ⟨material, mapError_eq_ok.mpr hmat, rfl⟩
  exact ⟨material, _, pvss, hprep, hpvss, hreno⟩

/-- Shares that are values of the announced polynomial are accepted in every order. -/
theorem senders_run (ht : parameters.threshold ≠ 0) (hpart : parameters.participants < 2 ^ 64)
    {enc : Bytes} (hpvss : DkgPvss.decodeWithParameters enc parameters = .ok pvss)
    (hp : pvss.CommitsTo p) {deliveries : List (UInt64 × Bytes)} (hdeli : ∀ delivery ∈ deliveries,
      (1 ≤ delivery.1.toNat ∧ delivery.1.toNat ≤ parameters.participants) ∧
        ∃ share : DkgSecretScalar, share.value = p.eval (delivery.1.toNat : Scalar) ∧
          ∀ key, decryptDkgShareMessage key delivery.2 = .ok share)
    {s : DkgKeyStore parameters × List UInt64} (hs : Collecting p s) :
    (Machine.run (deliver enc) s deliveries).2
      = (deliveries.map Prod.fst).reverse ++ s.2 := by
  induction deliveries generalizing s with
  | nil => rfl
  | cons delivery deliveries ih =>
    obtain ⟨hr, share, hv, hdecr⟩ := hdeli delivery mem_cons_self
    have hn := collecting_deliver ht hpart hpvss hp s delivery hs
    obtain ⟨group, hg, hrec, -⟩ := hs
    have hsl : ∀ old,
        group.receivedSecrets[delivery.1.toNat - 1]? = some (some old) →
          old = share := by
      intro old hexisting
      have ho : old.value = p.eval ((delivery.1.toNat - 1 + 1 : ℕ) : Scalar) :=
        hrec _ _ hexisting
      rw [Nat.sub_add_cancel hr.1, ← hv] at ho
      exact DkgSecretScalar.ext ho
    obtain ⟨fresh, hstored⟩ := DkgKeyGroup.storeReceived_of hr hsl
    have hrecv : s.1.receiveRecovery delivery.1 delivery.2 enc = .ok (fresh,
        { s.1 with recovering := some (group.record delivery.1 share) }) := by
      have hver := (hp.verifyShare_iff ht).mpr ⟨hr, hv⟩
      rw [receiveRecovery, hg, ofOption_eq_ok.mpr rfl, ok_bind, validateIndex, require_of _ hr,
        ok_bind, hpvss, mapError_ok, ok_bind, hdecr, mapError_ok, ok_bind, hver, mapError_ok,
        ok_bind, hstored, ok_bind]
    have hsend : (deliver enc s delivery).2 = delivery.1 :: s.2 := by
      rw [deliver, hrecv]
    rw [Machine.run_cons, ih (fun o ho =>
      hdeli o (mem_cons_of_mem _ ho)) hn, hsend]
    simp

omit [Curve] in
theorem collecting_start (p : Scalar[X]) (store : DkgKeyStore parameters) :
    Collecting p (store.onRecoverPeriodStart, []) :=
  ⟨DkgKeyGroup.new parameters, rfl, DkgKeyGroup.recorded_replicate rfl,
    fun _ hsd => absurd hsd not_mem_nil⟩

/-- For every committee and every accepted announcement: whatever a recovering validator is sent,
once it has accepted shares from a threshold of senders it prepares an announcement that renovates
the given one, unless a value of the drawn polynomial is zero. A share that is not the value of the
announced polynomial at the index of its sender is refused. -/
theorem recovered_reshare_renovates {participants : Nat} {parameters : DkgParameters}
    (hparameters : DkgParameters.new participants = .ok parameters) {encoded : Bytes}
    {previous : DkgPvss parameters}
    (hprevious : DkgPvss.decodeWithParameters encoded parameters = .ok previous) {p : Scalar[X]}
    (hp : previous.CommitsTo p) :
    (∀ (store : DkgKeyStore parameters) deliveries (draw : Nat → DkgSecretScalar)
      (entropy : Entropy),
      parameters.threshold ≤ (Machine.run (deliver encoded) (store.onRecoverPeriodStart, [])
        deliveries).2.dedup.length →
      (∀ position ≤ parameters.threshold, entropy position = .ok (draw position)) →
      (∀ index : Nat, 1 ≤ index → index ≤ parameters.participants →
        p.eval 0 + ∑ power ∈ Finset.Ico 1 parameters.threshold,
          (draw power).value * (index : Scalar) ^ power ≠ 0) →
      ∃ material next pvss,
        (Machine.run (deliver encoded) (store.onRecoverPeriodStart, [])
          deliveries).1.prepareRecoveredReshare entropy = .ok (material, next) ∧
        DkgPvss.decodeWithParameters material.encoded parameters = .ok pvss ∧
        pvss.renovates previous = true) ∧
    (∀ (store : DkgKeyStore parameters) fromIndex message share,
      decryptDkgShareMessage store.messagePrivateKey.bytes message = .ok share →
      share.value ≠ p.eval (fromIndex.toNat : Scalar) →
      ∃ reason, store.receiveRecovery fromIndex message encoded = .error reason) := by
  obtain ⟨-, -, hthreshold, -⟩ := DkgParameters.new_spec hparameters
  have hparticipants : parameters.participants < 2 ^ 64 :=
    lt_of_le_of_lt (DkgParameters.participants_le hparameters) (by decide)
  refine ⟨fun store deliveries draw entropy hsenders hdraw hnonzero => ?_,
    fun store fromIndex message share hshare hvalue => ?_⟩
  · have hcollecting := Machine.invariant_run
      (collecting_deliver hthreshold hparticipants hprevious hp) (collecting_start p store)
      deliveries
    have hsecret : p.eval 0 ≠ 0 := hp.eval_zero_ne_zero hthreshold hprevious
    exact prepareRecoveredReshare_of_collecting hthreshold hparticipants hp
      (show (⟨p.eval 0, hsecret⟩ : DkgSecretScalar).value = p.eval 0 from rfl) hcollecting hsenders
      hdraw hnonzero
  · cases hreceived : store.receiveRecovery fromIndex message encoded with
    | error reason => exact ⟨reason, rfl⟩
    | ok result =>
      obtain ⟨_, found, _, hfound, -, hfoundValue, -⟩ :=
        receiveRecovery_spec hthreshold hreceived hprevious hp
      cases hshare.symm.trans hfound
      exact absurd hfoundValue hvalue

end DkgKeyStore

end Recovery

section Example

open ScalarCurve PlainMessages

/-- The recovery messages of three members. -/
def exampleDeliveries : List (UInt64 × Bytes) :=
  [3, 1, 4].map fun index => (index, shareMessage (exampleShare 0 index))

theorem eval_exampleDealer (hi : 1 ≤ i.toNat ∧ i.toNat ≤ exampleCommittee.participants) :
    (exampleShare 0 i).value
      = (exampleDealer 0).toPolynomial.eval (i.toNat : Scalar) := by
  obtain ⟨_, -, hv⟩ := bind_ok (evaluate_exampleDealer (show 0 < 2 by decide) hi)
  rw [DkgPolynomial.toPolynomial, ← Horner.evaluate_eq_eval]
  exact trySecretFromFr_eq_ok.mp hv

/-- Three of four members recover the constant coefficient of the dealer. -/
theorem DkgKeyStore.recovered_reshare_renovates_committee :
    ∃ encoded previous material next pvss,
      DkgPvss.decodeWithParameters encoded exampleCommittee = .ok previous ∧
      (Machine.run (deliver encoded) (exampleStart.onRecoverPeriodStart, [])
        exampleDeliveries).1.prepareRecoveredReshare (fun _ => .ok (exampleScalar 0))
        = .ok (material, next) ∧
      DkgPvss.decodeWithParameters material.encoded exampleCommittee = .ok pvss ∧
      pvss.renovates previous = true := by
  have hparameters : DkgParameters.new 4 = .ok exampleCommittee := by decide +kernel
  obtain ⟨encoded, previous, hprevious, hcommitments⟩ :=
    exists_exampleAnnouncement (show 0 < 2 by decide)
  have hp := DkgPolynomial.commitsTo_of_points hprevious hcommitments
  have hdeliveries : ∀ delivery ∈ exampleDeliveries,
      (1 ≤ delivery.1.toNat ∧ delivery.1.toNat ≤ exampleCommittee.participants) ∧
        ∃ share : DkgSecretScalar,
          share.value = (exampleDealer 0).toPolynomial.eval (delivery.1.toNat : Scalar) ∧
          ∀ key, decryptDkgShareMessage key delivery.2 = .ok share := by
    intro delivery hdelivery
    obtain ⟨index, hindex, rfl⟩ := List.mem_map.mp hdelivery
    have hrange : 1 ≤ index.toNat ∧ index.toNat ≤ exampleCommittee.participants := by
      simp only [List.mem_cons, List.not_mem_nil, or_false] at hindex
      obtain rfl | rfl | rfl := hindex <;> decide
    exact ⟨hrange, _, eval_exampleDealer hrange, fun key => decrypt_shareMessage key _⟩
  have hsenders := senders_run (by decide) (by decide) hprevious hp hdeliveries
    (collecting_start _ exampleStart)
  have hnonzero : ∀ index : Nat, 1 ≤ index → index ≤ exampleCommittee.participants →
      (exampleDealer 0).toPolynomial.eval 0
        + ∑ power ∈ Finset.Ico 1 exampleCommittee.threshold,
          (exampleScalar 0).value * (index : Scalar) ^ power ≠ 0 := by
    intro index hpositive hle
    have hbound : index ^ 2 ≤ 4 ^ 2 := Nat.pow_le_pow_left hle 2
    have hvalue : (exampleDealer 0).toPolynomial.eval 0
        + ∑ power ∈ Finset.Ico 1 exampleCommittee.threshold,
          (exampleScalar 0).value * (index : Scalar) ^ power
        = ((1 + index + index ^ 2 : ℕ) : Scalar) := by
      simp [DkgPolynomial.toPolynomial, exampleDealer, Horner.eval_zero_ofCoefficients,
        exampleCommittee, exampleScalar, Finset.sum_Ico_succ_top, add_assoc]
    rw [hvalue]
    have hle : index ≤ 4 := hle
    exact natCast_scalar_ne_zero (by omega) (by omega)
  obtain ⟨material, next, pvss, hprepared, hpvss, hrenovates⟩ :=
    (recovered_reshare_renovates hparameters hprevious hp).1 exampleStart exampleDeliveries
      (fun _ => exampleScalar 0) (fun _ => .ok (exampleScalar 0))
      (by rw [hsenders]; decide) (fun _ _ => rfl) hnonzero
  exact ⟨encoded, previous, material, next, pvss, hprevious, hprepared, hpvss, hrenovates⟩

end Example

end NeoX
