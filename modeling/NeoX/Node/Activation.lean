import NeoX.Library.Postcondition
import NeoX.Network.Admission
import NeoX.Node.ContractState
import NeoX.Validator.Process

/-!
# Activation of a round

Every canonical block starts a round for the next height: the validators and keys are read from the
state behind the block, the network service admits messages of these validators, and the state of
the round is built over them.

Main result: by `activation_agrees` the service and the round then have the same validators, and
only what is read from the state can keep a round from starting.
-/

namespace NeoX

open List
open Except hiding ok error

/-- What kept a round from starting. The source only logs it. -/
inductive ActivationError where
  | heightOverflow
  | state (message : String)
  | validators (error : DbftStateError)
  | protocol (error : DbftStreamViolation)
  | round (error : DbftStateError)
  | parameters (error : DkgMaterialError)
  | keys (error : KeyManagementError)

/-- The reason is what the state says, or that it cannot be read. -/
def ActivationError.fromState : ActivationError → Bool
  | .protocol _ => false
  | .round _ => false
  | _ => true

/-! ## Sorted validators -/

/-- The one-based positions of distinct validators, in any order, are all indices of the set. -/
theorem insertionSort_positions {original sorted : List Address} (hdistinct : original.Nodup)
    (hperm : sorted.Perm original) (hsmall : original.length ≤ maxValidatorCount) :
    (sorted.map fun validator => UInt32.ofNat (original.idxOf validator + 1)).insertionSort (· ≤ ·)
      = (range' 1 original.length).map UInt32.ofNat := by
  have hpositions : original.map (fun validator => UInt32.ofNat (original.idxOf validator + 1))
      = (range' 1 original.length).map UInt32.ofNat := by
    refine ext_getElem (by simp) fun position _ _ => ?_
    simp only [getElem_map, hdistinct.idxOf_getElem, getElem_range', Nat.one_mul, Nat.add_comm]
  have hsorted : ((range' 1 original.length).map UInt32.ofNat).Pairwise (· ≤ ·) := by
    have hmax : maxValidatorCount = 256 := rfl
    refine pairwise_map.mpr ((pairwise_lt_range' 1).imp_of_mem fun ha hb hlt => ?_)
    rw [mem_range'_1] at ha hb
    rw [UInt32.le_iff_toNat_le, UInt32.toNat_ofNat_of_lt' (by show _ < 2 ^ 32; omega),
      UInt32.toNat_ofNat_of_lt' (by show _ < 2 ^ 32; omega)]
    exact hlt.le
  exact Perm.eq_of_pairwise (fun _ _ _ _ => UInt32.le_antisymm) (pairwise_insertionSort _ _)
    hsorted ((perm_insertionSort _ _).trans (hpositions ▸ hperm.map _))

theorem sortAddresses_of_sorted {accounts : List Address} (h : accounts.Pairwise (· < ·)) :
    sortAddresses accounts = accounts := (h.imp fun hlt => le_of_lt hlt).insertionSort_eq

theorem exists_ofList {accounts : List Address} (hne : accounts ≠ [])
    (hsmall : accounts.length ≤ maxValidatorCount) (h : accounts.Pairwise (· < ·)) :
    ∃ validators, ValidatorSet.ofList accounts = .ok validators ∧
      validators.accounts = accounts := by
  have hsort := sortAddresses_of_sorted h
  unfold ValidatorSet.ofList
  rw [dif_pos ⟨hne, hsmall⟩, dif_pos (hsort.symm ▸ adjacentDuplicate_eq_none h)]
  exact ⟨_, rfl, hsort⟩

theorem activate_of_sorted (dbft : DbftProtocol) (height : UInt64) {accounts : List Address}
    (hne : accounts ≠ []) (h : accounts.Pairwise (· < ·)) :
    ∃ next, dbft.activate height accounts = (.ok (), next) ∧
      next.admission = ⟨height, some accounts⟩ := by
  unfold DbftProtocol.activate
  rw [if_neg hne, sortAddresses_of_sorted h]
  simp [adjacentDuplicate_eq_none h]

section Activation

variable [Crypto]

theorem readGovernance_ordered {storage : ContractStorage DbftStateError}
    {found : GovernanceValidatorSet}
    (h : readGovernanceValidatorSetFromStorage storage = .ok found) :
    found.sorted ≠ [] ∧ found.sorted.length ≤ maxValidatorCount ∧
      found.sorted.Pairwise (· < ·) ∧ found.dkgIndices.length = found.sorted.length ∧
      found.dkgIndices.insertionSort (· ≤ ·) = (range' 1 found.sorted.length).map UInt32.ofNat := by
  obtain ⟨original, horiginal, h⟩ := bind_ok h
  obtain ⟨hne, hsmall, hdistinct⟩ := readGovernanceAddressArray_spec horiginal
  cases h
  have hperm := sortAddresses_perm original
  rw [hperm.length_eq]
  refine ⟨fun hnil => hne (perm_nil.mp (hnil ▸ hperm.symm)), hsmall, sortAddresses_strict hdistinct,
    ?_, insertionSort_positions hdistinct hperm hsmall⟩
  rw [length_map, hperm.length_eq]

/-- A message that the service returns is authentic, up to its payload and its view. -/
theorem authenticate_of_get {dbft : DbftProtocol} {round : DbftRoundState} {hash : B256}
    {message : DbftMessage} (hcache : dbft.CacheAdmitted) (hget : dbft.get hash = some message)
    (hvalidators : dbft.admission.validators = some round.validators.accounts)
    (hheight : round.height.toNat = dbft.admission.height.toNat + 1) :
    ∃ data, message.consensusData = .ok data ∧ round.authenticate message = (do
      let payload ← data.decodedPayload.mapError .payload
      require (round.viewAllowed data = true) (.wrongView round.currentView data.viewNumber)
      .ok (data, payload)) := by
  have hstart : message.validBlockStart ≤ dbft.admission.height := by
    obtain ⟨_, -, hget⟩ := Option.bind_eq_some_iff.mp hget
    obtain ⟨found, -, hget⟩ := Option.bind_eq_some_iff.mp hget
    split at hget
    · cases hget
    · next hchecks =>
        obtain ⟨_, -, hget⟩ := Option.bind_eq_some_iff.mp hget
        obtain ⟨_, -, hget⟩ := Option.bind_eq_some_iff.mp hget
        cases hget
        exact (require_eq_ok.mp (not_not.mp (not_or.mp hchecks).2)).1
  obtain ⟨-, cached, hlookup, rfl⟩ := DbftProtocol.cached_of_get hget
  have hadmitted := hcache hash cached hlookup
  obtain ⟨data, hdata, hsender⟩ := hadmitted.sender _ hvalidators
  refine ⟨data, hdata, ?_⟩
  have hend : cached.message.validBlockEnd = round.height :=
    UInt64.toNat_inj.mp (hadmitted.next.symm.trans hheight.symm)
  have hle : cached.message.validBlockStart ≤ round.height := by
    rw [UInt64.le_iff_toNat_le] at hstart ⊢
    omega
  simp [DbftRoundState.authenticate, hadmitted.witness, hend, hle, hdata, hsender, ofOption]

/-! ## Activation -/

/-- The state behind a canonical block, and the validators of the next height. -/
def readValidators (canonicalHeight : UInt64) (state : Except String StateProvider) :
    Except ActivationError (StateProvider × GovernanceValidatorSet) := do
  require (canonicalHeight.toNat + 1 < 2 ^ 64) .heightOverflow
  let state ← state.mapError .state
  let found ← (readGovernanceValidatorSet state).mapError .validators
  .ok (state, found)

theorem readValidators_ensures (canonicalHeight : UInt64) (state : Except String StateProvider) :
    (readValidators canonicalHeight state).Ensures
      (fun read => canonicalHeight.toNat + 1 < 2 ^ 64 ∧
        readGovernanceValidatorSet read.1 = .ok read.2)
      fun error => error.fromState = true := by
  unfold readValidators require
  split
  · next hheight =>
      rw [ok_bind]
      refine (mapError_ensures fun _ => by rfl).bind fun state _ => ?_
      exact (mapError_ensures fun _ => by rfl).bind fun found hfound => ⟨hheight, hfound⟩
  · exact rfl

variable [Curve]

/-- A round with the keys that it needs. -/
def startRound (state : StateProvider) (found : GovernanceValidatorSet) (height : UInt64)
    (antiMev : Bool) : Except ActivationError DbftRoundState := do
  let round ← (DbftRoundState.new height found.sorted antiMev).mapError .round
  if antiMev then do
    let parameters ← (DkgParameters.new found.sorted.length).mapError .parameters
    let dkgState ← (readDkgStateWithParameters state parameters).mapError .keys
    let (installed, round) := round.installDkgState found.dkgIndices dkgState
    installed.mapError .round
    .ok round
  else .ok round

/-- The round behind a canonical block, and the service. -/
def activateDbftRound (canonicalHeight : UInt64) (state : Except String StateProvider)
    (antiMevAt : UInt64 → Bool) (dbft : DbftProtocol) :
    Except ActivationError DbftRoundState × DbftProtocol :=
  match readValidators canonicalHeight state with
  | .error error => (.error error, dbft.deactivate)
  | .ok (state, found) =>
    let (activated, dbft) := dbft.activate canonicalHeight found.sorted
    let started : Except ActivationError DbftRoundState := do
      activated.mapError .protocol
      startRound state found (canonicalHeight + 1) (antiMevAt (canonicalHeight + 1))
    match started with
    | .error error => (.error error, dbft.deactivate)
    | .ok round => (.ok round, dbft)

theorem startRound_ensures {state : StateProvider} {found : GovernanceValidatorSet}
    (h : readGovernanceValidatorSet state = .ok found) (height : UInt64) (antiMev : Bool) :
    (startRound state found height antiMev).Ensures
      (fun round => round.height = height ∧ round.validators.accounts = found.sorted ∧
        round.dkgState.isSome = antiMev)
      fun error => error.fromState = true := by
  obtain ⟨hne, hsmall, hsorted, hlength, hindices⟩ := readGovernance_ordered h
  obtain ⟨validators, hset, haccounts⟩ := exists_ofList hne hsmall hsorted
  have hnew : DbftRoundState.new height found.sorted antiMev
      = .ok (.start height validators antiMev) := by
    simp [DbftRoundState.new, hset]
  unfold startRound
  rw [hnew, mapError_ok, ok_bind]
  cases antiMev with
  | false => exact ⟨rfl, haccounts, rfl⟩
  | true =>
    rw [if_pos rfl]
    refine (mapError_ensures fun _ => by rfl).bind fun parameters _ => ?_
    refine (mapError_ensures fun _ => by rfl).bind fun dkgState _ => ?_
    simp [DbftRoundState.installDkgState, DbftRoundState.count, DbftRoundState.start, haccounts,
      hlength, hindices]

/-- For every canonical block, state and service: a round that starts is for the next height, has
keys if it needs them, and has the validators that the service admits, so every message that the
service returns is authentic for it up to payload and view. Otherwise the service is inactive, and
the reason is in the state. -/
theorem activation_agrees (canonicalHeight : UInt64) (state : Except String StateProvider)
    (antiMevAt : UInt64 → Bool) (dbft : DbftProtocol) : ∃ result next,
    activateDbftRound canonicalHeight state antiMevAt dbft = (result, next) ∧
    result.Ensures
      (fun round => next.admission = ⟨canonicalHeight, some round.validators.accounts⟩ ∧
        round.height.toNat = canonicalHeight.toNat + 1 ∧
        round.dkgState.isSome = antiMevAt round.height ∧
        (dbft.CacheAdmitted → ∀ hash message, next.get hash = some message →
          ∃ data, message.consensusData = .ok data ∧ round.authenticate message = (do
            let payload ← data.decodedPayload.mapError .payload
            require (round.viewAllowed data = true) (.wrongView round.currentView data.viewNumber)
            .ok (data, payload))))
      fun error => next.admission.validators = none ∧ error.fromState = true := by
  unfold activateDbftRound
  have hread := readValidators_ensures canonicalHeight state
  generalize readValidators canonicalHeight state = read at hread ⊢
  cases read with
  | error error => exact ⟨_, _, rfl, rfl, hread⟩
  | ok read =>
    obtain ⟨hheight, hfound⟩ := hread
    obtain ⟨hne, -, hsorted, -⟩ := readGovernance_ordered hfound
    obtain ⟨next, hactivate, hadmission⟩ := activate_of_sorted dbft canonicalHeight hne hsorted
    have hstarted := startRound_ensures hfound (canonicalHeight + 1)
      (antiMevAt (canonicalHeight + 1))
    simp only [hactivate, mapError_ok, ok_bind]
    generalize startRound read.1 read.2 (canonicalHeight + 1) (antiMevAt (canonicalHeight + 1))
      = started at hstarted ⊢
    cases started with
    | error error => exact ⟨_, _, rfl, rfl, hstarted⟩
    | ok round =>
      obtain ⟨hnext, haccounts, hkeys⟩ := hstarted
      have hrise : round.height.toNat = canonicalHeight.toNat + 1 := by
        rw [hnext, UInt64.toNat_add, UInt64.toNat_one, Nat.mod_eq_of_lt hheight]
      have hsame : next.admission = ⟨canonicalHeight, some round.validators.accounts⟩ :=
        haccounts ▸ hadmission
      refine ⟨_, _, rfl, hsame, hrise, hnext ▸ hkeys, fun hcache hash message hget => ?_⟩
      have hkept := DbftProtocol.admitted_activate hcache canonicalHeight read.2.sorted
      rw [hactivate] at hkept
      exact authenticate_of_get hkept hget (hsame ▸ rfl) (hsame ▸ hrise)

end Activation

end NeoX
