import NeoX.AntiMev.Committee
import NeoX.AntiMev.KeyStoreRuns

/-!
# Distributed key generation

What the members of a committee hold after a round: the values of one polynomial, whose scaled
constant is the secret of the global key. Resharing gives the members of the next committee the
values of another polynomial with the same constant.

Main results:

- `DkgMember.shares_of_one_polynomial`: whatever the senders announced, the receivers
  hold the shares of one polynomial under its key.
- `DkgMember.resharing_keeps_key`: the next committee opens under the key of the
  committee before what that committee opens.
-/

namespace NeoX

open List DkgKeyStore
open Except hiding ok error

open Polynomial

variable {i : UInt64} {share : DkgSecretScalar}

section KeyGeneration

variable [Curve]

/-! ## Announcements of a committee -/

def DkgPvss.constant {parameters : DkgParameters} (pvss : DkgPvss parameters) : G1 :=
  pvss.commitments.headD 0

/-- The encoded sum of the constant commitments. -/
def aggregateConstants {parameters : DkgParameters} (pvsses : List (DkgPvss parameters)) :
    FixedBytes 128 :=
  contractCommitment (pvsses.map DkgPvss.constant).sum

/-- Announcements that are accepted, one of each member. -/
structure Announced (parameters : DkgParameters) (encoded : List Bytes)
    (pvsses : List (DkgPvss parameters)) : Prop where
  length_eq : encoded.length = parameters.participants
  accepted : List.Forall₂
    (fun bytes pvss => DkgPvss.decodeWithParameters bytes parameters = .ok pvss) encoded pvsses

/-- The polynomials that announcements commit to. -/
structure Dealt (parameters : DkgParameters) (pvsses : List (DkgPvss parameters))
    (polynomials : List (Polynomial Scalar)) : Prop where
  length_eq : polynomials.length = parameters.participants
  shares : List.Forall₂ DkgPvss.SharesOf pvsses polynomials

/-- The global key of a committee that holds the shares of a polynomial. -/
def committeeKey (parameters : DkgParameters) (secret : Scalar) : G1Bytes :=
  compress1 (((parameters.scaler.toNat : Scalar) * secret) • generator1)

variable {parameters : DkgParameters}

omit [Curve] in
theorem DkgParameters.participants_le {participants : Nat}
    (h : DkgParameters.new participants = .ok parameters) : parameters.participants ≤ 16 := by
  obtain ⟨_, h⟩ := of_bind h
  rcases bind_ok h with ⟨scaler, hscaler, h⟩
  cases h
  obtain ⟨_, hscaler⟩ := of_bind hscaler
  obtain ⟨hc, -⟩ := require_bind hscaler
  exact hc

variable {p : Polynomial Scalar}

theorem DkgPvss.SharesOf.constant_value {pvss : DkgPvss parameters}
    (h : pvss.SharesOf p) : pvss.constant = p.eval 0 • generator1 := by
  rw [DkgPvss.constant, headD_eq_head?_getD, h.constant_eq, Option.getD_some]

variable {pvsses : List (DkgPvss parameters)}

/-- Accepted announcements commit to polynomials of a degree below the threshold. -/
theorem Announced.dealt (ht : parameters.threshold ≠ 0) {encoded : List Bytes}
    (h : Announced parameters encoded pvsses) :
    ∃ polynomials, Dealt parameters pvsses polynomials := by
  have hshs : ∃ polynomials, List.Forall₂ DkgPvss.SharesOf pvsses polynomials := by
    have hacc := h.accepted
    clear h
    induction hacc with
    | nil => exact ⟨[], .nil⟩
    | cons hpvss _ ih =>
      rcases DkgPvss.decode_spec ht hpvss with ⟨p, hp⟩
      rcases ih with ⟨polynomials, hpoly⟩
      exact ⟨p :: polynomials, .cons hp hpoly⟩
  rcases hshs with ⟨polynomials, hshs⟩
  exact ⟨polynomials, by rw [← hshs.length_eq, ← h.accepted.length_eq, h.length_eq], hshs⟩

namespace Dealt

variable {pvsses : List (DkgPvss parameters)} {polynomials : List (Polynomial Scalar)}

theorem degree_sum_lt (h : Dealt parameters pvsses polynomials) :
    polynomials.sum.degree < parameters.threshold := by
  rw [← mem_degreeLT]
  apply list_sum_mem
  intro p hp
  rcases mem_iff_getElem.mp hp with ⟨pos, hpos, rfl⟩
  rw [mem_degreeLT]
  have hlt : pos < pvsses.length := h.shares.length_eq ▸ hpos
  exact (h.shares.get hlt hpos).degree_lt

theorem sum_constants (h : Dealt parameters pvsses polynomials) :
    (pvsses.map DkgPvss.constant).sum = polynomials.sum.eval 0 • generator1 := by
  have hshs := h.shares
  clear h
  induction hshs with
  | nil => simp
  | cons hp _ ih =>
    rw [map_cons, sum_cons, hp.constant_value, ih, sum_cons, eval_add, add_smul]

theorem key_eq (h : Dealt parameters pvsses polynomials) {key : G1Bytes}
    (hkey : globalPublicKeyFromCommitment (aggregateConstants pvsses).bytes parameters.scaler
      = .ok key) :
    polynomials.sum.eval 0 ≠ 0 ∧ key = committeeKey parameters (polynomials.sum.eval 0) := by
  rcases globalPublicKeyFromCommitment_eq_ok.mp hkey with ⟨-, hpt, rfl⟩
  rw [h.sum_constants] at hpt
  refine ⟨fun h0 => hpt (by rw [h0, zero_smul]), ?_⟩
  rw [h.sum_constants, committeeKey, smul_smul]

end Dealt

/-! ## What a member settles to -/

variable [Ecies]

/-- A share that a member accepts from the polynomial of a sender. -/
def AcceptedShare (parameters : DkgParameters) (polynomials : List (Polynomial Scalar))
    (index : UInt64) (position : Nat) (share : DkgSecretScalar) : Prop :=
  (1 ≤ index.toNat ∧ index.toNat ≤ parameters.participants) ∧
    ∃ p, polynomials[position]? = some p ∧ share.value = p.eval (index.toNat : Scalar)

/-- A share that passes the checks against the announcement of a sender is accepted. -/
theorem acceptedShare_of_decrypt {encoded : List Bytes} (hann : Announced parameters encoded pvsses)
    {polynomials : List (Polynomial Scalar)} (hdealt : Dealt parameters pvsses polynomials)
    {store : DkgKeyStore parameters} {pos : Nat} {msgs : List Bytes} {bs : Bytes}
    (hbs : encoded[pos]? = some bs) (h : store.decryptReceivedShare i msgs bs = .ok share) :
    AcceptedShare parameters polynomials i pos share := by
  obtain ⟨_, h⟩ := of_bind h
  obtain ⟨_, h⟩ := of_bind h
  obtain ⟨pvss, hpvss, h⟩ := mapError_bind h
  rcases bind_ok h with ⟨received, -, h⟩
  obtain ⟨_, hver, h⟩ := mapError_bind h
  cases h
  rcases List.getElem?_eq_some_iff.mp hbs with ⟨hlt, rfl⟩
  have hpvsses : pos < pvsses.length := hann.accepted.length_eq ▸ hlt
  have hpoly : pos < polynomials.length := hdealt.shares.length_eq ▸ hpvsses
  have hdec := hann.accepted.get hlt hpvsses
  simp only [List.get_eq_getElem] at hdec
  cases hpvss.symm.trans hdec
  have hsh := (DkgPvss.verifyShare_eq_ok (hdealt.shares.get hpvsses hpoly)).mp hver
  exact ⟨hsh.1, _, List.getElem?_eq_getElem hpoly, hsh.2⟩

omit [Ecies] in
/-- A group of accepted shares settles to the value of the sum, under the key of the sum. -/
theorem settled_of_recorded (ht : parameters.participants ≠ 0)
    {polynomials : List (Polynomial Scalar)} (hdealt : Dealt parameters pvsses polynomials)
    {group settled : DkgKeyGroup parameters}
    (hg : group.Recorded (AcceptedShare parameters polynomials i))
    (hsett : group.Settled settled (aggregateConstants pvsses).bytes) :
    (1 ≤ i.toNat ∧ i.toNat ≤ parameters.participants) ∧
      polynomials.sum.eval 0 ≠ 0 ∧
      settled.globalPublicKey = some (committeeKey parameters (polynomials.sum.eval 0)) ∧
      ∃ share, settled.localPrivateKey = some share ∧
        share.value = polynomials.sum.eval (i.toNat : Scalar) := by
  rcases hsett.global_eq with ⟨key, hkey, hglobal⟩
  rcases hdealt.key_eq hkey with ⟨hsec, rfl⟩
  rcases hsett.local_eq with ⟨shares, share, hrecv, hlocal, hv⟩
  have hlen : shares.length = polynomials.length := by
    rw [hdealt.length_eq, ← group.length_received, hrecv, length_map]
  have hacc : ∀ (pos : Nat) (hlt : pos < shares.length),
      AcceptedShare parameters polynomials i pos shares[pos] := by
    intro pos hlt
    apply hg
    rw [hrecv, getElem?_map, getElem?_eq_getElem hlt, Option.map_some]
  have hvalues : shares.map DkgSecretScalar.value
      = polynomials.map (Polynomial.eval (i.toNat : Scalar)) := by
    apply ext_getElem
    · rw [length_map, length_map, hlen]
    · intro pos hleft hright
      rw [length_map] at hleft hright
      rcases (hacc pos hleft).2 with ⟨p, hp, hsh⟩
      rw [getElem?_eq_getElem hright, Option.some.injEq] at hp
      rw [getElem_map, getElem_map, hsh, hp]
  have hpos : 0 < shares.length := by
    rw [hlen, hdealt.length_eq]
    exact Nat.pos_of_ne_zero ht
  refine ⟨(hacc 0 hpos).1, hsec, hglobal, share, hlocal, ?_⟩
  rw [hv, hvalues]
  exact (map_list_sum (evalRingHom (i.toNat : Scalar)) polynomials).symm

/-! ## Members -/

variable [Cipher] [PredictableScalars]

/-- A member that begins a share period, takes any steps and settles the round. -/
structure DkgMember (parameters : DkgParameters) where
  index : UInt64
  start : DkgKeyStore parameters
  forceReshare : Bool
  operations : List DkgKeyStore.Operation
  selfPvss : Bytes
  aggregatedCommitment : Bytes
  previousCommitment : Bytes
  round : UInt64
  settled : DkgKeyStore parameters
  settles : (Machine.run DkgKeyStore.step (start.onSharePeriodStart forceReshare)
    operations).onEpochChange selfPvss aggregatedCommitment previousCommitment true
      = .ok (.advanced round, settled)

namespace DkgMember

/-- The store before the round is settled. -/
def collected (member : DkgMember parameters) : DkgKeyStore parameters :=
  Machine.run DkgKeyStore.step (member.start.onSharePeriodStart member.forceReshare)
    member.operations

/-- The member records shares for its own index from the announcements, and settles with the sum of
their constants. -/
structure Receives (member : DkgMember parameters) (encoded : List Bytes)
    (pvsses : List (DkgPvss parameters)) : Prop where
  records : ∀ selfIndex fromIndex messages bytes,
    .receiveShare selfIndex fromIndex messages bytes ∈ member.operations →
      selfIndex = member.index ∧ encoded[fromIndex.toNat - 1]? = some bytes
  commitment_eq : member.aggregatedCommitment = (aggregateConstants pvsses).bytes

/-- The member records reshares for its own index from the announcements, and settles them with the
commitment of the round before. -/
structure ReceivesReshares (member : DkgMember parameters) (encoded : List Bytes)
    (previous : List (DkgPvss parameters)) : Prop where
  records : ∀ selfIndex fromIndex messages bytes,
    .receiveReshare selfIndex fromIndex messages bytes ∈ member.operations →
      selfIndex = member.index ∧ encoded[fromIndex.toNat - 1]? = some bytes
  resharing : member.collected.resharing.isSome = true
  commitment_eq : member.previousCommitment = (aggregateConstants previous).bytes

end DkgMember

theorem guarded_of_forall {share reshare : Nat → DkgSecretScalar → Prop}
    {operations : List DkgKeyStore.Operation}
    (h : ∀ op ∈ operations, ∀ store : DkgKeyStore parameters,
      store.Accepts share reshare op) (store : DkgKeyStore parameters) :
    Machine.Guarded DkgKeyStore.step (DkgKeyStore.Accepts share reshare) store operations := by
  induction operations generalizing store with
  | nil => exact trivial
  | cons op operations ih =>
    rcases forall_mem_cons.mp h with ⟨hoper, hr⟩
    exact ⟨hoper store, ih hr _⟩

namespace DkgMember

variable {member : DkgMember parameters} {encoded : List Bytes} {pvsses : List (DkgPvss parameters)}
  {polynomials : List (Polynomial Scalar)}

/-- The store of a member, before it settles, holds accepted shares of the next key. -/
theorem Receives.recording (h : member.Receives encoded pvsses)
    (hann : Announced parameters encoded pvsses) (hdealt : Dealt parameters pvsses polynomials) :
    member.collected.Recording (AcceptedShare parameters polynomials member.index)
      (fun _ _ => True) := by
  apply recorded_run (recording_onSharePeriodStart _ _)
  apply guarded_of_forall
  intro op hoper store
  cases op with
  | receiveShare selfIndex fromIndex messages bs =>
    rcases h.records _ _ _ _ hoper with ⟨rfl, hbs⟩
    exact fun received hrecv => acceptedShare_of_decrypt hann hdealt hbs hrecv
  | receiveReshare selfIndex fromIndex messages bs => exact fun _ _ => trivial
  | _ => exact trivial

variable {reshares : List (DkgPvss parameters)}

/-- The store of a member, before it settles, holds accepted reshares. -/
theorem ReceivesReshares.recording {prev : List (DkgPvss parameters)}
    (h : member.ReceivesReshares encoded prev) (hann : Announced parameters encoded reshares)
    (hdealt : Dealt parameters reshares polynomials) :
    member.collected.Recording (fun _ _ => True)
      (AcceptedShare parameters polynomials member.index) := by
  apply recorded_run (recording_onSharePeriodStart _ _)
  apply guarded_of_forall
  intro op hoper store
  cases op with
  | receiveReshare selfIndex fromIndex messages bs =>
    rcases h.records _ _ _ _ hoper with ⟨rfl, hbs⟩
    exact fun received hrecv => acceptedShare_of_decrypt hann hdealt hbs hrecv
  | receiveShare selfIndex fromIndex messages bs => exact fun _ _ => trivial
  | _ => exact trivial

/-- A member that receives settles to the value of the sum at its index. -/
theorem Receives.settled_eq (hpart : parameters.participants ≠ 0)
    (h : member.Receives encoded pvsses) (hann : Announced parameters encoded pvsses)
    (hdealt : Dealt parameters pvsses polynomials) :
    (1 ≤ member.index.toNat ∧ member.index.toNat ≤ parameters.participants) ∧
      polynomials.sum.eval 0 ≠ 0 ∧
      member.settled.currentGlobalPublicKey
        = some (committeeKey parameters (polynomials.sum.eval 0)) ∧
      ∃ share, member.settled.currentPrivateShare = some share ∧
        share.value = polynomials.sum.eval (member.index.toNat : Scalar) := by
  rcases onEpochChange_advanced.mp member.settles with
    ⟨-, sharing, confirmed, shared, reshared, hshar, hconf, hshared, -, hsett⟩
  have hrec := (h.recording hann hdealt).sharing sharing hshar
  have hg : confirmed.Recorded (AcceptedShare parameters polynomials member.index) := by
    intro pos share hsh
    rw [(DkgKeyGroup.confirmSelf_spec hconf).1] at hsh
    exact hrec pos share hsh
  rw [h.commitment_eq] at hshared
  rw [hsett]
  exact settled_of_recorded hpart hdealt hg (DkgKeyGroup.settle_eq_ok hshared)

/-- A member that receives reshares settles to the value of their sum at its index. -/
theorem ReceivesReshares.settled_eq (hpart : parameters.participants ≠ 0)
    {prev : List (DkgPvss parameters)} (h : member.ReceivesReshares encoded prev)
    (hann : Announced parameters encoded reshares) (hdealt : Dealt parameters reshares polynomials)
    (hsame : aggregateConstants prev = aggregateConstants reshares) :
    (1 ≤ member.index.toNat ∧ member.index.toNat ≤ parameters.participants) ∧
      polynomials.sum.eval 0 ≠ 0 ∧
      member.settled.previousGlobalPublicKey
        = some (committeeKey parameters (polynomials.sum.eval 0)) ∧
      ∃ share, member.settled.previousPrivateShare = some share ∧
        share.value = polynomials.sum.eval (member.index.toNat : Scalar) := by
  rcases onEpochChange_advanced.mp member.settles with
    ⟨-, sharing, confirmed, shared, reshared, -, -, -, hresh, hsett⟩
  rcases Option.isSome_iff_exists.mp h.resharing with ⟨resharing, hresha⟩
  have hg := (h.recording hann hdealt).resharing resharing hresha
  rw [collected] at hresha
  rw [hresha] at hresh
  obtain ⟨_, hresh⟩ := of_bind hresh
  rcases bind_ok hresh with ⟨settled, hgrou, hresh⟩
  cases hresh
  rw [h.commitment_eq, hsame] at hgrou
  rw [hsett]
  exact settled_of_recorded hpart hdealt hg (DkgKeyGroup.settle_eq_ok hgrou)

/-! ## Committees -/

/-- The private shares that the stores of members have, with the indices of the members. -/
def privateShares (share : DkgKeyStore parameters → Option DkgSecretScalar)
    (members : List (DkgMember parameters)) : List (UInt32 × B256) :=
  members.filterMap fun member =>
    (share member.settled).map fun secret => (member.index.toUInt32, secret.asBytes)

omit [Curve] [Ecies] [Cipher] [PredictableScalars] in
theorem toNat_toUInt32 (h : i.toNat ≤ 16) :
    i.toUInt32.toNat = i.toNat := by
  rw [UInt64.toNat_toUInt32]
  omega

/-- Members whose stores have the values of a polynomial hold its shares. -/
theorem holdShares {participants : Nat} (hparam : DkgParameters.new participants = .ok parameters)
    (hdeg : p.degree < parameters.threshold)
    {share : DkgKeyStore parameters → Option DkgSecretScalar}
    {members : List (DkgMember parameters)} (hnd : (members.map DkgMember.index).Nodup)
    (henough : parameters.threshold ≤ members.length) (hmemb : ∀ member ∈ members,
      (1 ≤ member.index.toNat ∧ member.index.toNat ≤ parameters.participants) ∧
      ∃ secret, share member.settled = some secret ∧
        secret.value = p.eval (member.index.toNat : Scalar)) :
    HoldShares parameters p (privateShares share members) := by
  have hc := DkgParameters.participants_le hparam
  have hi : ∀ member ∈ members, member.index.toUInt32.toNat = member.index.toNat :=
    fun member hmember => toNat_toUInt32 ((hmemb member hmember).1.2.trans hc)
  have hidx : (privateShares share members).map Prod.fst
      = members.map fun member => member.index.toUInt32 := by
    clear hnd henough hi
    induction members with
    | nil => rfl
    | cons member members ih =>
      rcases forall_mem_cons.mp hmemb with ⟨⟨-, secret, hsec, -⟩, hr⟩
      rw [privateShares, filterMap_cons, hsec, Option.map_some]
      exact congrArg (member.index.toUInt32 :: ·) (ih hr)
  have hmem : ∀ holder ∈ privateShares share members, ∃ member ∈ members, ∃ secret,
      share member.settled = some secret ∧
        (member.index.toUInt32, secret.asBytes) = holder := by
    intro holder hholder
    rcases mem_filterMap.mp hholder with ⟨member, hmember, hsome⟩
    rcases Option.map_eq_some_iff.mp hsome with ⟨secret, hsec, heq⟩
    exact ⟨member, hmember, secret, hsec, heq⟩
  constructor
  · exact hdeg
  · rw [hidx]
    apply List.Nodup.of_map UInt32.toNat
    rw [map_map]
    have hnat : members.map (UInt32.toNat ∘ fun member => member.index.toUInt32)
        = (members.map DkgMember.index).map UInt64.toNat := by
      rw [map_map]
      exact map_congr_left hi
    rw [hnat]
    exact hnd.map fun _ _ => UInt64.toNat_inj.mp
  · intro holder hholder
    rcases hmem holder hholder with ⟨member, hmember, secret, -, rfl⟩
    rw [hi member hmember]
    exact (hmemb member hmember).1
  · intro holder hholder
    rcases hmem holder hholder with ⟨member, hmember, secret, hsec, rfl⟩
    rcases (hmemb member hmember).2 with ⟨expected, hexpected, hv⟩
    cases hsec.symm.trans hexpected
    rw [DkgSecretScalar.secretScalar_asBytes, hi member hmember, hv]
  · have hlen := congrArg length hidx
    rw [length_map, length_map] at hlen
    rw [hlen]
    exact henough

/-- Whatever the senders announced, there is one polynomial of a degree below the threshold such
that every member that records the announcements and settles with the sum of their constants has the
value at its index, under the key of its scaled constant; and a threshold of members decrypts and
seals under that key. -/
theorem shares_of_one_polynomial [Crypto] [CurveCrypto] {participants : Nat}
    (hparameters : DkgParameters.new participants = .ok parameters) {encoded : List Bytes}
    {pvsses : List (DkgPvss parameters)} (hannounced : Announced parameters encoded pvsses) :
    ∃ p : Polynomial Scalar, p.degree < parameters.threshold ∧
      (∀ member : DkgMember parameters, member.Receives encoded pvsses →
        member.settled.currentGlobalPublicKey = some (committeeKey parameters (p.eval 0)) ∧
        ∃ share, member.settled.currentPrivateShare = some share ∧
          share.value = p.eval (member.index.toNat : Scalar)) ∧
      ∀ members : List (DkgMember parameters),
        (∀ member ∈ members, member.Receives encoded pvsses) →
        (members.map DkgMember.index).Nodup → parameters.threshold ≤ members.length →
        (∀ ciphertexts : List TpkeCiphertext,
          (∀ ciphertext ∈ ciphertexts, ciphertext.verify = .ok ()) →
          thresholdDecrypt parameters (committeeKey parameters (p.eval 0))
            (privateShares DkgKeyStore.currentPrivateShare members) ciphertexts
            = .ok (ciphertexts.map
              (openedWith ((parameters.scaler.toNat : Scalar) * p.eval 0)))) ∧
        ∀ message negateResult, hashToCurve message ≠ (0 : G2) →
          thresholdSign parameters (committeeKey parameters (p.eval 0))
            (privateShares DkgKeyStore.currentPrivateShare members) message negateResult
            = .ok (compress2 (sealPoint ((parameters.scaler.toNat : Scalar) * p.eval 0) message
              negateResult)) := by
  rcases DkgParameters.new_spec hparameters with ⟨hcount, -, hpositive, hthreshold⟩
  have hparticipants : parameters.participants ≠ 0 := by omega
  rcases hannounced.dealt hpositive with ⟨polynomials, hdealt⟩
  refine ⟨polynomials.sum, hdealt.degree_sum_lt, ?_, ?_⟩
  · intro member hmember
    exact (hmember.settled_eq hparticipants hannounced hdealt).2.2
  · intro members hmembers hnodup henough
    have hsettled := fun member hmember =>
      (hmembers member hmember).settled_eq hparticipants hannounced hdealt
    have hhold : HoldShares parameters polynomials.sum
        (privateShares DkgKeyStore.currentPrivateShare members) :=
      holdShares hparameters hdealt.degree_sum_lt hnodup henough fun member hmember =>
        ⟨(hsettled member hmember).1, (hsettled member hmember).2.2.2⟩
    have hsecret : polynomials.sum.eval 0 ≠ 0 := by
      cases members with
      | nil => exact absurd (Nat.le_zero.mp henough) hpositive
      | cons member members => exact (hsettled member List.mem_cons_self).2.1
    refine ⟨fun ciphertexts hverified => ?_, fun message negateResult hmessage => ?_⟩
    · rw [committeeKey, thresholdDecrypt_eq hparameters hhold, mapM_openWithSecret hverified]
      rfl
    · exact thresholdSign_eq hparameters hhold hsecret hmessage negateResult

/-! ## Resharing -/

omit [Ecies] [Cipher] [PredictableScalars] in
theorem constants_eq_of_renovates
    (h : List.Forall₂ (fun reshare pvss => reshare.renovates pvss = true) reshares pvsses) :
    reshares.map DkgPvss.constant = pvsses.map DkgPvss.constant := by
  induction h with
  | nil => rfl
  | cons hreno _ ih =>
    have hhead := of_decide_eq_true hreno
    rw [map_cons, map_cons, ih, DkgPvss.constant, DkgPvss.constant,
      headD_eq_head?_getD, headD_eq_head?_getD, hhead]

/-- What a member announces to transfer its confirmed secret is accepted and renovates its
announcement of the settled round. -/
theorem renovates_prepareReshare (ht : parameters.threshold ≠ 0)
    (hpart : parameters.participants < 2 ^ 64) {own : DkgPvss parameters}
    (hown : DkgPvss.decodeWithParameters member.selfPvss parameters = .ok own)
    {store : DkgKeyStore parameters} (hstore : store.shared = member.settled.shared)
    {entropy : Entropy} {material : DkgPvssMaterial}
    (h : store.prepareReshare entropy = .ok material) :
    ∃ reshare, DkgPvss.decodeWithParameters material.encoded parameters = .ok reshare ∧
      reshare.renovates own = true := by
  rcases onEpochChange_advanced.mp member.settles with
    ⟨-, sharing, confirmed, shared, reshared, hshar, hconf, hshared, -, hsett⟩
  obtain ⟨_, h⟩ := of_bind h
  rcases bind_ok h with ⟨secret, hsec, h⟩
  obtain ⟨renovated, hreno, hmat⟩ := mapError_bind h
  rw [ofOption_eq_ok, hstore, hsett, Option.bind_some,
    DkgKeyGroup.localSecret_settle hshared] at hsec
  rw [mapError_eq_ok] at hmat
  have hunco : sharing.localSecret = none := by
    have hreco : member.collected.Recording (fun _ _ => True) (fun _ _ => True) := by
      apply recorded_run (recording_onSharePeriodStart _ _)
      apply guarded_of_forall
      intro op _ o
      cases op <;> simp [DkgKeyStore.Accepts]
    exact hreco.unconfirmed sharing hshar
  have hcom := (DkgKeyGroup.confirmSelf_spec hconf).2 own secret hown hunco
    hsec
  exact DkgPolynomial.renovates_generatePvss ht hpart hreno hmat
    (DkgPolynomial.commitments_eq_points hown hcom)

/-- When each announcement of the next committee renovates one of the committee before, a threshold
of the next committee opens, under the unchanged key, exactly what a threshold of the committee
before opens. The announcements of members that follow the protocol are of that kind. -/
theorem resharing_keeps_key {participants : Nat}
    (hparameters : DkgParameters.new participants = .ok parameters) {encoded : List Bytes}
    {pvsses : List (DkgPvss parameters)} (hannounced : Announced parameters encoded pvsses)
    {encodedReshares : List Bytes} {reshares : List (DkgPvss parameters)}
    (hreshared : Announced parameters encodedReshares reshares)
    (hrenovates : List.Forall₂ (fun reshare pvss => reshare.renovates pvss = true)
      reshares pvsses) :
    (∀ old next : List (DkgMember parameters),
      (∀ member ∈ old, member.Receives encoded pvsses) →
      (∀ member ∈ next, member.ReceivesReshares encodedReshares pvsses) →
      (old.map DkgMember.index).Nodup → (next.map DkgMember.index).Nodup →
      parameters.threshold ≤ old.length → parameters.threshold ≤ next.length →
      ∃ key, (∀ member ∈ old, member.settled.currentGlobalPublicKey = some key) ∧
        (∀ member ∈ next, member.settled.previousGlobalPublicKey = some key) ∧
        ∀ ciphertexts : List TpkeCiphertext,
          thresholdDecrypt parameters key (privateShares DkgKeyStore.previousPrivateShare next)
            ciphertexts
            = thresholdDecrypt parameters key (privateShares DkgKeyStore.currentPrivateShare old)
              ciphertexts ∧
          ((∀ ciphertext ∈ ciphertexts, ciphertext.verify = .ok ()) → ∃ keys,
            thresholdDecrypt parameters key (privateShares DkgKeyStore.previousPrivateShare next)
              ciphertexts = .ok keys)) ∧
    ∀ (member : DkgMember parameters) (own : DkgPvss parameters) (store : DkgKeyStore parameters)
      (entropy : Entropy) (material : DkgPvssMaterial),
      DkgPvss.decodeWithParameters member.selfPvss parameters = .ok own →
      store.shared = member.settled.shared → store.prepareReshare entropy = .ok material →
      ∃ reshare, DkgPvss.decodeWithParameters material.encoded parameters = .ok reshare ∧
        reshare.renovates own = true := by
  rcases DkgParameters.new_spec hparameters with ⟨hcount, -, hpositive, hthreshold⟩
  have hparticipants : parameters.participants ≠ 0 := by omega
  have hbound := DkgParameters.participants_le hparameters
  refine ⟨?_, fun member own store entropy material hown hstore hmaterial =>
    renovates_prepareReshare hpositive (by omega) hown hstore hmaterial⟩
  intro old next hold hnext holdNodup hnextNodup holdEnough hnextEnough
  rcases hannounced.dealt hpositive with ⟨dealt, hdealt⟩
  rcases hreshared.dealt hpositive with ⟨redealt, hredealt⟩
  have hconstants := constants_eq_of_renovates hrenovates
  have hsame : aggregateConstants pvsses = aggregateConstants reshares := by
    rw [aggregateConstants, aggregateConstants, hconstants]
  have holdSettled := fun member hmember =>
    (hold member hmember).settled_eq hparticipants hannounced hdealt
  have hnextSettled := fun member hmember =>
    (hnext member hmember).settled_eq hparticipants hreshared hredealt hsame
  have hbefore : HoldShares parameters dealt.sum
      (privateShares DkgKeyStore.currentPrivateShare old) :=
    holdShares hparameters hdealt.degree_sum_lt holdNodup holdEnough fun member hmember =>
      ⟨(holdSettled member hmember).1, (holdSettled member hmember).2.2.2⟩
  have hafter : HoldShares parameters redealt.sum
      (privateShares DkgKeyStore.previousPrivateShare next) :=
    holdShares hparameters hredealt.degree_sum_lt hnextNodup hnextEnough fun member hmember =>
      ⟨(hnextSettled member hmember).1, (hnextSettled member hmember).2.2.2⟩
  -- Both sums have the constant that the commitments of the settled round commit to.
  have hsecret : redealt.sum.eval 0 = dealt.sum.eval 0 := by
    apply smul_generator1_injective
    rw [← hredealt.sum_constants, ← hdealt.sum_constants, hconstants]
  refine ⟨committeeKey parameters (dealt.sum.eval 0),
    fun member hmember => (holdSettled member hmember).2.2.1, ?_, ?_⟩
  · intro member hmember
    rw [(hnextSettled member hmember).2.2.1, hsecret]
  · intro ciphertexts
    have hopen := thresholdDecrypt_eq hparameters hafter ciphertexts
    rw [hsecret] at hopen
    refine ⟨?_, fun hverified => ?_⟩
    · rw [committeeKey, hopen, thresholdDecrypt_eq hparameters hbefore]
    · rw [committeeKey, hopen, mapM_openWithSecret hverified]
      exact ⟨_, rfl⟩

end DkgMember

end KeyGeneration

/-! ## A committee of four -/

section Example

open ScalarCurve PlainMessages

def exampleCommittee : DkgParameters := ⟨4, 3, 3⟩

def exampleScalar (value : Nat) : DkgSecretScalar where
  value := ((value % 2 ^ 32 + 1 : ℕ) : Scalar)
  ne_zero := natCast_scalar_ne_zero (Nat.succ_ne_zero _) (by omega)

/-- The polynomial `1 + (slope + 1) X + X ^ 2`. -/
def exampleDealer (slope : Nat) : DkgPolynomial exampleCommittee :=
  ⟨[exampleScalar 0, exampleScalar slope, exampleScalar 0], rfl⟩

/-- Its value at the index of a member. -/
def exampleShare (slope : Nat) (index : UInt64) : DkgSecretScalar :=
  exampleScalar ((slope + 1) * index.toNat + index.toNat * index.toNat)

variable {slope : Nat}

theorem evaluate_exampleDealer (hslope : slope < 2)
    (hi : 1 ≤ i.toNat ∧ i.toNat ≤ exampleCommittee.participants) :
    (exampleDealer slope).evaluate i = .ok (exampleShare slope i) := by
  rw [DkgPolynomial.evaluate, require_of _ hi, ok_bind, trySecretFromFr_eq_ok]
  have hlinear : (slope + 1) * i.toNat ≤ 2 * 4 := Nat.mul_le_mul (by omega) hi.2
  have hsquare : i.toNat * i.toNat ≤ 4 * 4 := Nat.mul_le_mul hi.2 hi.2
  simp only [exampleShare, exampleDealer, exampleScalar, map_cons, map_nil,
    Horner.evaluate_cons, Horner.evaluate_nil, smul_eq_mul]
  rw [Nat.mod_eq_of_lt (by omega), Nat.mod_eq_of_lt (by omega : slope < 2 ^ 32)]
  push_cast
  ring

/-- The dealer has an announcement that is accepted. -/
theorem exists_exampleAnnouncement (hslope : slope < 2) :
    ∃ encoded pvss, DkgPvss.decodeWithParameters encoded exampleCommittee = .ok pvss ∧
      pvss.commitments = (exampleDealer slope).points := by
  have hshs : (range exampleCommittee.participants).mapM (fun pos =>
      (exampleDealer slope).evaluate (UInt64.ofNat (pos + 1)))
      = .ok ((range exampleCommittee.participants).map fun pos =>
        exampleShare slope (UInt64.ofNat (pos + 1))) := by
    apply mapM_eq_ok_of_forall₂
    rw [forall₂_map_right_iff, forall₂_same]
    intro pos hpos
    have hlt : pos < 4 := mem_range.mp hpos
    have hv : (UInt64.ofNat (pos + 1)).toNat = pos + 1 :=
      UInt64.toNat_ofNat_of_lt' (lt_of_le_of_lt (by omega) (by decide : 5 < UInt64.size))
    apply evaluate_exampleDealer hslope
    rw [hv]
    exact ⟨Nat.le_add_left _ _, hlt⟩
  have hmat : ∃ material,
      (exampleDealer slope).generatePvssWithRandomizer (exampleScalar 0) = .ok material := by
    rw [DkgPolynomial.generatePvssWithRandomizer, hshs]
    exact ⟨_, rfl⟩
  rcases hmat with ⟨material, hmat⟩
  rcases DkgPolynomial.decode_generatePvss (by decide) hmat with ⟨pvss, hpvss, hcom⟩
  exact ⟨material.encoded, pvss, hpvss, hcom⟩

/-- A store that has not taken part in a round. -/
def exampleStart : DkgKeyStore exampleCommittee :=
  DkgKeyStore.newWithParameters ⟨.zero 32, rfl⟩ exampleCommittee

variable {encoded : Bytes} {pvss : DkgPvss exampleCommittee}

/-- A member decrypts its share of a dealer and finds it in the announcement. -/
theorem decrypt_exampleShare (hslope : slope < 2)
    (hpvss : DkgPvss.decodeWithParameters encoded exampleCommittee = .ok pvss)
    (hcom : pvss.commitments = (exampleDealer slope).points)
    (hi : 1 ≤ i.toNat ∧ i.toNat ≤ exampleCommittee.participants)
    (store : DkgKeyStore exampleCommittee) :
    store.decryptReceivedShare i
      (List.replicate 4 (shareMessage (exampleShare slope i))) encoded
      = .ok (exampleShare slope i) := by
  have hm : (replicate 4 (shareMessage (exampleShare slope i))).getD
      (i.toNat - 1) [] = shareMessage (exampleShare slope i) := by
    have hlt : i.toNat - 1 < 4 := by
      have hle : i.toNat ≤ 4 := hi.2
      omega
    rw [getD_eq_getElem?_getD, getElem?_replicate, if_pos hlt, Option.getD_some]
  have hc : (replicate 4 (shareMessage (exampleShare slope i))).length
      = exampleCommittee.participants := length_replicate
  have hver := DkgPolynomial.verifyShare_evaluate hpvss hcom
    (evaluate_exampleDealer hslope hi)
  rw [decryptReceivedShare, validateIndex, require_of _ hi, ok_bind, require_of _ hc, ok_bind,
    hpvss, mapError_ok, ok_bind, hm, decrypt_shareMessage, mapError_ok, ok_bind, hver, mapError_ok,
    ok_bind]

/-- A member that receives the shares of four senders and then their reshares. -/
def exampleOperations (index : UInt64) (encoded encodedReshare : Bytes) :
    List DkgKeyStore.Operation :=
  ([1, 2, 3, 4].map fun sender => .receive .sharing index sender
    (List.replicate 4 (shareMessage (exampleShare 0 index))) encoded) ++
  [1, 2, 3, 4].map fun sender => .receive .resharing index sender
    (List.replicate 4 (shareMessage (exampleShare 1 index))) encodedReshare

/-- The group of a member with one share of each of the four senders. -/
def exampleGroup (share : DkgSecretScalar) : DkgKeyGroup exampleCommittee :=
  (DkgKeyGroup.new exampleCommittee).recordAll share [1, 2, 3, 4]

variable {reshare : DkgPvss exampleCommittee} {encodedReshare : Bytes}

theorem run_exampleOperations
    (hpvss : DkgPvss.decodeWithParameters encoded exampleCommittee = .ok pvss)
    (hcom : pvss.commitments = (exampleDealer 0).points)
    (hresh : DkgPvss.decodeWithParameters encodedReshare exampleCommittee = .ok reshare)
    (hreco : reshare.commitments = (exampleDealer 1).points)
    (hi : 1 ≤ i.toNat ∧ i.toNat ≤ exampleCommittee.participants) :
    Machine.run DkgKeyStore.step (exampleStart.onSharePeriodStart true)
      (exampleOperations i encoded encodedReshare)
      = { exampleStart with
          sharing := some (exampleGroup (exampleShare 0 i))
          resharing := some (exampleGroup (exampleShare 1 i)) } := by
  have hsend : ∀ sender ∈ ([1, 2, 3, 4] : List UInt64),
      1 ≤ sender.toNat ∧ sender.toNat ≤ exampleCommittee.participants := by
    simp [exampleCommittee]
  have hrec : ∀ share : DkgSecretScalar,
      (DkgKeyGroup.new exampleCommittee).Recorded fun _ o => o = share :=
    fun share => DkgKeyGroup.recorded_replicate rfl
  rw [exampleOperations, Machine.run, foldl_append]
  have hshar : (exampleStart.onSharePeriodStart true).sharing
      = some (DkgKeyGroup.new exampleCommittee) := rfl
  have hshs := run_receive .sharing hshar
    (decrypt_exampleShare (by decide) hpvss hcom hi _) (hrec _) hsend
  rw [Machine.run] at hshs
  rw [hshs]
  exact run_receive .resharing rfl
    (decrypt_exampleShare (by decide) hresh hreco hi _) (hrec _) hsend

theorem receivedSecrets_exampleGroup (share : DkgSecretScalar) :
    (exampleGroup share).receivedSecrets = (List.replicate 4 share).map some := rfl

theorem sum_exampleConstants (hcom : pvss.commitments = (exampleDealer slope).points) :
    ((List.replicate 4 pvss).map DkgPvss.constant).sum = ((4 : ℕ) : Scalar) • generator1 := by
  have hcons : pvss.constant = (1 : Scalar) • generator1 := by
    rw [DkgPvss.constant, hcom]
    exact congrArg (· • generator1) (Nat.cast_one : ((1 : ℕ) : Scalar) = 1)
  rw [map_replicate, sum_replicate, hcons, one_smul, Nat.cast_smul_eq_nsmul]

theorem exists_settle_exampleGroup (hcom : pvss.commitments = (exampleDealer slope).points)
    {group : DkgKeyGroup exampleCommittee}
    (hg : group.receivedSecrets = (List.replicate 4 share).map some) :
    ∃ settled, group.settle (aggregateConstants (List.replicate 4 pvss)).bytes true
      = .ok settled := by
  have hfour : ((4 : ℕ) : Scalar) ≠ 0 := natCast_scalar_ne_zero (by decide) (by decide)
  apply DkgKeyGroup.exists_settle hg
  · rw [map_replicate, sum_replicate, nsmul_eq_mul]
    exact mul_ne_zero hfour share.ne_zero
  · rw [sum_exampleConstants hcom]
    exact smul_ne_zero hfour generator1_ne_zero
  · decide

/-- Each of the four members settles. -/
theorem exists_exampleMember
    (hpvss : DkgPvss.decodeWithParameters encoded exampleCommittee = .ok pvss)
    (hcom : pvss.commitments = (exampleDealer 0).points)
    (hresh : DkgPvss.decodeWithParameters encodedReshare exampleCommittee = .ok reshare)
    (hreco : reshare.commitments = (exampleDealer 1).points)
    (hi : 1 ≤ i.toNat ∧ i.toNat ≤ exampleCommittee.participants) :
    ∃ member : DkgMember exampleCommittee, member.index = i ∧
      member.Receives (List.replicate 4 encoded) (List.replicate 4 pvss) ∧
      member.ReceivesReshares (List.replicate 4 encodedReshare) (List.replicate 4 pvss) := by
  have hrun := run_exampleOperations hpvss hcom hresh hreco hi
  rcases exists_confirmSelf (exampleGroup (exampleShare 0 i)) hpvss
    with ⟨confirmed, hconf⟩
  rcases exists_settle_exampleGroup hcom
    (((DkgKeyGroup.confirmSelf_spec hconf).1).trans (receivedSecrets_exampleGroup _))
    with ⟨shared, hshared⟩
  rcases exists_settle_exampleGroup hcom
    (receivedSecrets_exampleGroup (exampleShare 1 i)) with ⟨reshared, hresha⟩
  have hcomm : (aggregateConstants (replicate 4 pvss)).bytes.isEmpty = false := by
    rw [isEmpty_eq_false_iff, ← length_pos_iff, FixedBytes.length_eq]
    decide
  have hself : encoded.isEmpty ≠ true := by
    intro hempty
    rcases bind_ok hpvss with ⟨_, hlen, -⟩
    rw [require_eq_ok, isEmpty_iff.mp hempty] at hlen
    exact absurd hlen (by decide)
  have hrd : exampleStart.round ≠ UInt64.ofNat (2 ^ 64 - 1) := by decide
  have hsett : ({ exampleStart with
      sharing := some (exampleGroup (exampleShare 0 i))
      resharing := some (exampleGroup (exampleShare 1 i)) } :
        DkgKeyStore exampleCommittee).onEpochChange encoded
      (aggregateConstants (replicate 4 pvss)).bytes
      (aggregateConstants (replicate 4 pvss)).bytes true = .ok (.advanced 1, _) :=
    onEpochChange_advanced.mpr ⟨⟨hcomm, hself, hrd, rfl⟩, _, confirmed,
      shared, some reshared, rfl, hconf, hshared, bind_eq_ok.mpr ⟨(),
      require_of _ hcomm, bind_eq_ok.mpr ⟨reshared, hresha, rfl⟩⟩, rfl⟩
  have hsd : ∀ sender ∈ ([1, 2, 3, 4] : List UInt64), sender.toNat - 1 < 4 := by simp
  rw [← hrun] at hsett
  refine ⟨⟨i, exampleStart, true, exampleOperations i encoded encodedReshare, encoded, _, _,
    1, _, hsett⟩, rfl, ⟨?_, rfl⟩, ⟨?_, ?_, rfl⟩⟩
  · intro selfIndex fromIndex msgs bs hmem
    rcases mem_append.mp hmem with hmem | hmem
    · rcases mem_map.mp hmem with ⟨sender, hlisted, heq⟩
      cases heq
      exact ⟨rfl, by rw [getElem?_replicate, if_pos (hsd _ hlisted)]⟩
    · rcases mem_map.mp hmem with ⟨sender, -, heq⟩
      cases heq
  · intro selfIndex fromIndex msgs bs hmem
    rcases mem_append.mp hmem with hmem | hmem
    · rcases mem_map.mp hmem with ⟨sender, -, heq⟩
      cases heq
    · rcases mem_map.mp hmem with ⟨sender, hlisted, heq⟩
      cases heq
      exact ⟨rfl, by rw [getElem?_replicate, if_pos (hsd _ hlisted)]⟩
  · rw [DkgMember.collected]
    rw [hrun]
    rfl

theorem announced_replicate (h : DkgPvss.decodeWithParameters encoded exampleCommittee = .ok pvss) :
    Announced exampleCommittee (List.replicate 4 encoded) (List.replicate 4 pvss) :=
  ⟨rfl, .cons h (.cons h (.cons h (.cons h .nil)))⟩

/-- Three members of the committee of four, with what they receive. -/
theorem exists_exampleMembers :
    ∃ (encoded encodedReshares : List Bytes) (pvsses reshares : List (DkgPvss exampleCommittee))
      (members : List (DkgMember exampleCommittee)),
      Announced exampleCommittee encoded pvsses ∧
      Announced exampleCommittee encodedReshares reshares ∧
      List.Forall₂ (fun reshare pvss => reshare.renovates pvss = true) reshares pvsses ∧
      (∀ member ∈ members, member.Receives encoded pvsses ∧
        member.ReceivesReshares encodedReshares pvsses) ∧
      members.map DkgMember.index = [1, 2, 4] := by
  rcases exists_exampleAnnouncement (by decide : 0 < 2) with ⟨encoded, pvss, hpvss, hcom⟩
  rcases exists_exampleAnnouncement (by decide : 1 < 2)
    with ⟨encodedReshare, reshare, hresh, hreco⟩
  have hreno : reshare.renovates pvss = true := by
    apply decide_eq_true
    rw [hcom, hreco]
    rfl
  have hmem : ∀ i : UInt64,
      1 ≤ i.toNat ∧ i.toNat ≤ exampleCommittee.participants → _ :=
    fun i hi => exists_exampleMember hpvss hcom hresh hreco hi
  rcases hmem 1 (by decide) with ⟨a, h1, hfirs⟩
  rcases hmem 2 (by decide) with ⟨b, h2, hseco⟩
  rcases hmem 4 (by decide) with ⟨fourth, hfourth, hfour⟩
  refine ⟨_, _, _, _, [a, b, fourth], announced_replicate hpvss,
    announced_replicate hresh,
    .cons hreno (.cons hreno (.cons hreno (.cons hreno .nil))), ?_, ?_⟩
  · exact forall_mem_cons.mpr ⟨hfirs, forall_mem_cons.mpr ⟨hseco,
      forall_mem_singleton.mpr hfour⟩⟩
  · rw [map_cons, map_cons, map_cons, h1, h2, hfourth, map_nil]

namespace DkgMember

/-- Three members of a committee of four seal a message. -/
theorem shares_of_one_polynomial_committee :
    ∃ (encoded : List Bytes) (pvsses : List (DkgPvss exampleCommittee))
      (members : List (DkgMember exampleCommittee)),
      Announced exampleCommittee encoded pvsses ∧
      (∀ member ∈ members, member.Receives encoded pvsses) ∧
      members.map DkgMember.index = [1, 2, 4] ∧
      ∃ key signature, (∀ member ∈ members, member.settled.currentGlobalPublicKey = some key) ∧
        thresholdSign exampleCommittee key
          (privateShares DkgKeyStore.currentPrivateShare members) [1] true = .ok signature := by
  rcases exists_exampleMembers with
    ⟨encoded, _, pvsses, _, members, hannounced, -, -, hmembers, hindices⟩
  have hparameters : DkgParameters.new 4 = .ok exampleCommittee := by decide +kernel
  have hreceives : ∀ member ∈ members, member.Receives encoded pvsses :=
    fun member hmember => (hmembers member hmember).1
  have hlength : members.length = 3 := by
    have hmapped := congrArg List.length hindices
    rwa [List.length_map] at hmapped
  rcases shares_of_one_polynomial hparameters hannounced with ⟨p, -, hsettled, hcommittee⟩
  have hthreshold : exampleCommittee.threshold ≤ members.length := hlength ▸ le_refl 3
  have hsigns := (hcommittee members hreceives (by rw [hindices]; decide) hthreshold).2
  exact ⟨encoded, pvsses, members, hannounced, hreceives, hindices, _, _,
    fun member hmember => (hsettled member (hreceives member hmember)).1,
    hsigns [1] true hashToCurve_example⟩

/-- Members with reshares open a ciphertext under the key of the committee before. -/
theorem resharing_keeps_key_committee :
    ∃ members : List (DkgMember exampleCommittee), members.map DkgMember.index = [1, 2, 4] ∧
      ∃ key keys, (∀ member ∈ members, member.settled.previousGlobalPublicKey = some key) ∧
        thresholdDecrypt exampleCommittee key
          (privateShares DkgKeyStore.previousPrivateShare members) exampleCiphertexts
          = .ok keys ∧
        thresholdDecrypt exampleCommittee key
          (privateShares DkgKeyStore.currentPrivateShare members) exampleCiphertexts
          = .ok keys := by
  rcases exists_exampleMembers with
    ⟨encoded, _, pvsses, _, members, hannounced, hreshared, hrenovates, hmembers, hindices⟩
  have hparameters : DkgParameters.new 4 = .ok exampleCommittee := by decide +kernel
  have hnodup : (members.map DkgMember.index).Nodup := by
    rw [hindices]
    decide
  have hlength : members.length = 3 := by
    have hmapped := congrArg List.length hindices
    rwa [List.length_map] at hmapped
  have hthreshold : exampleCommittee.threshold ≤ members.length := hlength ▸ le_refl 3
  rcases (resharing_keeps_key hparameters hannounced hreshared hrenovates).1 members members
    (fun member hmember => (hmembers member hmember).1)
    (fun member hmember => (hmembers member hmember).2) hnodup hnodup hthreshold hthreshold
    with ⟨key, -, hprevious, hopens⟩
  rcases hopens exampleCiphertexts with ⟨hsame, hverified⟩
  rcases hverified verify_exampleCiphertexts with ⟨keys, hkeys⟩
  exact ⟨members, hindices, key, keys, hprevious, hkeys, hsame ▸ hkeys⟩

end DkgMember

end Example

end NeoX
