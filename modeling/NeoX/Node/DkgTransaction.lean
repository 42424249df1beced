import NeoX.Library.Machine
import NeoX.Node.DkgExecutor

/-!
# Transactions of key generation tasks

The nonces that are reserved for the tasks of a validator, and the fees of the transactions that
replace one another at a reserved nonce.

Main results:

- `DkgTransactionBuilder.reservations_run`: reserved nonces are distinct and stay with
  their task.
- `DkgTransactionFee.replacement_fees`: a replacement covers the latest fees, and
  raises both caps by an eighth exactly if no rounding stands in the way.
-/

namespace NeoX

open FiniteMap
open Except hiding ok error

/-- The account nonce and the fees that an attempt is priced with. -/
structure DkgTransactionInputs where
  onChainNonce : Nat
  baseFeePerGas : Nat
  minimumPriorityFeePerGas : Nat

inductive DkgTransactionBuildError where
  | emptyChainId
  | emptyGasLimit
  | invalidCalldata (length : Nat)
  | nonceOverflow
  | unknownReservation (id : DkgTaskId)
  | nonceAlreadyMined (reserved onChain : Nat)
  | replacementOverflow
  | feeOverflow

/-! ## Fees -/

/-- The fee caps of a transaction. -/
structure DkgTransactionFee where
  maxFeePerGas : Nat
  maxPriorityFeePerGas : Nat

def checkedFee (value : Nat) : Except DkgTransactionBuildError Nat :=
  if value < 2 ^ 128 then .ok value else .error .feeOverflow

theorem checkedFee_eq_ok {value result : Nat} :
    checkedFee value = .ok result ↔ result = value ∧ value < 2 ^ 128 := by
  unfold checkedFee
  split
  · simp_all [eq_comm]
  · simp_all

/-- A fee raised by an eighth, rounded down, and by one at least. -/
def bumpFee (value : Nat) : Except DkgTransactionBuildError Nat :=
  checkedFee (value + max (value / 8) 1)

namespace DkgTransactionFee

def initial (inputs : DkgTransactionInputs) :
    Except DkgTransactionBuildError DkgTransactionFee := do
  let doubledBase ← checkedFee (inputs.baseFeePerGas * 2)
  let maxFeePerGas ← checkedFee (doubledBase + inputs.minimumPriorityFeePerGas)
  return ⟨maxFeePerGas, inputs.minimumPriorityFeePerGas⟩

/-- The caps of a replacement: both are raised, and cover the fees of the time. -/
def bumped (fee : DkgTransactionFee) (inputs : DkgTransactionInputs) :
    Except DkgTransactionBuildError DkgTransactionFee := do
  let live ← initial inputs
  let bumpedPriorityFee ← bumpFee fee.maxPriorityFeePerGas
  let maxPriorityFeePerGas := max bumpedPriorityFee live.maxPriorityFeePerGas
  let doubledBase ← checkedFee (inputs.baseFeePerGas * 2)
  let liveWithBumpedTip ← checkedFee (doubledBase + maxPriorityFeePerGas)
  let bumpedFee ← bumpFee fee.maxFeePerGas
  return ⟨max (max bumpedFee live.maxFeePerGas) liveWithBumpedTip, maxPriorityFeePerGas⟩

variable {fee : DkgTransactionFee} {inputs : DkgTransactionInputs}

theorem initial_eq_ok (h : initial inputs = .ok fee) :
    fee = ⟨inputs.baseFeePerGas * 2 + inputs.minimumPriorityFeePerGas,
      inputs.minimumPriorityFeePerGas⟩ := by
  rcases bind_ok h with ⟨base, hbase, h⟩
  rcases bind_ok h with ⟨total, htotal, h⟩
  rw [← Except.ok.inj h, (checkedFee_eq_ok.mp htotal).1, (checkedFee_eq_ok.mp hbase).1]

def bumpedTip (fee : DkgTransactionFee) (inputs : DkgTransactionInputs) : Nat :=
  max (fee.maxPriorityFeePerGas + max (fee.maxPriorityFeePerGas / 8) 1)
    inputs.minimumPriorityFeePerGas

variable {next : DkgTransactionFee}

theorem bumped_eq_ok (h : fee.bumped inputs = .ok next) :
    next.maxPriorityFeePerGas = fee.bumpedTip inputs ∧
      next.maxFeePerGas = max (fee.maxFeePerGas + max (fee.maxFeePerGas / 8) 1)
        (inputs.baseFeePerGas * 2 + fee.bumpedTip inputs) := by
  rcases bind_ok h with ⟨live, hlive, h⟩
  rcases bind_ok h with ⟨tip, htip, h⟩
  rcases bind_ok h with ⟨base, hbase, h⟩
  rcases bind_ok h with ⟨total, htotal, h⟩
  rcases bind_ok h with ⟨cap, hcap, h⟩
  rw [← Except.ok.inj h, (checkedFee_eq_ok.mp hcap).1, (checkedFee_eq_ok.mp htotal).1,
    (checkedFee_eq_ok.mp hbase).1, (checkedFee_eq_ok.mp htip).1, initial_eq_ok hlive]
  refine ⟨rfl, ?_⟩
  -- The live tip is below the bumped one, so the live cap is below the one with the bumped tip.
  simp only [bumpedTip]
  omega

/-- The caps cover twice the base fee and the tip. -/
def Covers (fee : DkgTransactionFee) (inputs : DkgTransactionInputs) : Prop :=
  fee.maxPriorityFeePerGas ≤ fee.maxFeePerGas ∧
    2 * inputs.baseFeePerGas + fee.maxPriorityFeePerGas ≤ fee.maxFeePerGas

/-- Both caps grow by an eighth of the old caps at least. -/
def RaisedTo (fee next : DkgTransactionFee) : Prop :=
  9 * fee.maxFeePerGas ≤ 8 * next.maxFeePerGas ∧
    9 * fee.maxPriorityFeePerGas ≤ 8 * next.maxPriorityFeePerGas

/-- Each cap is at most eight or a multiple of eight, or the fees of the time exceed it by an
eighth. -/
def Exact (fee : DkgTransactionFee) (inputs : DkgTransactionInputs) : Prop :=
  (fee.maxFeePerGas ≤ 8 ∨ 8 ∣ fee.maxFeePerGas ∨
    9 * fee.maxFeePerGas ≤ 8 * (inputs.baseFeePerGas * 2 + fee.bumpedTip inputs)) ∧
  (fee.maxPriorityFeePerGas ≤ 8 ∨ 8 ∣ fee.maxPriorityFeePerGas ∨
    9 * fee.maxPriorityFeePerGas ≤ 8 * inputs.minimumPriorityFeePerGas)

theorem raised_iff (value live : Nat) :
    9 * value ≤ 8 * max (value + max (value / 8) 1) live ↔
      value ≤ 8 ∨ 8 ∣ value ∨ 9 * value ≤ 8 * live := by
  omega

theorem covers_initial (h : initial inputs = .ok fee) : fee.Covers inputs := by
  rw [initial_eq_ok h]
  constructor <;> dsimp only <;> omega

theorem covers_bumped (h : fee.bumped inputs = .ok next) : next.Covers inputs := by
  obtain ⟨htip, hcap⟩ := bumped_eq_ok h
  rw [Covers, htip, hcap]
  omega

theorem raisedTo_iff (h : fee.bumped inputs = .ok next) : fee.RaisedTo next ↔ fee.Exact inputs := by
  obtain ⟨htip, hcap⟩ := bumped_eq_ok h
  rw [RaisedTo, htip, hcap, Exact, bumpedTip, raised_iff, raised_iff]

/-- The caps after a first attempt and a sequence of replacements. -/
def replaced (first : DkgTransactionInputs) (bumps : List DkgTransactionInputs) :
    Except DkgTransactionBuildError DkgTransactionFee := do
  let fee ← initial first
  bumps.foldlM bumped fee

theorem covers_replaced {first : DkgTransactionInputs} {bumps : List DkgTransactionInputs}
    (h : replaced first bumps = .ok fee) :
    fee.Covers (bumps.getLast?.getD first) := by
  rcases bind_ok h with ⟨start, hstart, h⟩
  -- Only the last attempt decides: it covers its own inputs whatever the caps were before.
  induction bumps using List.reverseRecOn with
  | nil =>
    cases h
    exact covers_initial hstart
  | append_singleton bumps inputs _ =>
    rw [List.foldlM_append] at h
    rcases bind_ok h with ⟨before, -, h⟩
    rw [List.foldlM_cons] at h
    rcases bind_ok h with ⟨after, hafter, h⟩
    cases h
    simpa using covers_bumped hafter

end DkgTransactionFee

/-! ## Reservations -/

/-- A nonce that is reserved for a task, with the caps of its latest attempt. -/
structure DkgTransactionReservation where
  nonce : Nat
  fee : DkgTransactionFee
  replacements : Nat

/-- The reservations of the tasks of one account. -/
structure DkgTransactionBuilder where
  chainId : UInt64
  gasLimit : UInt64
  reservations : FiniteMap DkgTaskId DkgTransactionReservation

/-- A transaction that is to be signed. -/
structure DkgTransactionRequest where
  chainId : UInt64
  nonce : Nat
  gasLimit : UInt64
  maxFeePerGas : Nat
  maxPriorityFeePerGas : Nat
  calldata : Bytes

/-- Calldata holds a function selector. -/
def validateCalldata (calldata : Bytes) : Except DkgTransactionBuildError Unit :=
  require (4 ≤ calldata.length) (.invalidCalldata calldata.length)

/-- The first nonce that is not taken, among the nonces that are left. -/
def firstFree (taken : Nat → Bool) (nonce : Nat) : Nat → Option Nat
  | 0 => none
  | remaining + 1 => if taken nonce then firstFree taken (nonce + 1) remaining else some nonce

variable {nonce : Nat}

theorem firstFree_eq_some {taken : Nat → Bool} {remaining found : Nat}
    (h : firstFree taken nonce remaining = some found) : nonce ≤ found ∧ taken found = false := by
  induction remaining generalizing nonce with
  | zero => cases h
  | succ remaining ih =>
    rw [firstFree] at h
    split at h
    · have hlater := ih h
      exact ⟨by omega, hlater.2⟩
    · rename_i hfree
      cases h
      exact ⟨le_rfl, by simpa using hfree⟩

namespace DkgTransactionBuilder

/-- A builder for a chain, without reservations. -/
def withGasLimit (chainId gasLimit : UInt64) :
    Except DkgTransactionBuildError DkgTransactionBuilder := do
  require (chainId ≠ 0) .emptyChainId
  require (gasLimit ≠ 0) .emptyGasLimit
  return ⟨chainId, gasLimit, ∅⟩

variable (builder : DkgTransactionBuilder) (id : DkgTaskId) (calldata : Bytes)
  (inputs : DkgTransactionInputs)

def onReservations (change : FiniteMap DkgTaskId DkgTransactionReservation →
    FiniteMap DkgTaskId DkgTransactionReservation) : DkgTransactionBuilder :=
  { builder with reservations := change builder.reservations }

def set (reservation : DkgTransactionReservation) : DkgTransactionBuilder :=
  builder.onReservations (·.insert id reservation)

def request (reservation : DkgTransactionReservation) :
    Except DkgTransactionBuildError DkgTransactionRequest := do
  require (4 ≤ calldata.length) (.invalidCalldata calldata.length)
  return ⟨builder.chainId, reservation.nonce, builder.gasLimit, reservation.fee.maxFeePerGas,
    reservation.fee.maxPriorityFeePerGas, calldata⟩

/-- Drop the reservations below the nonce of the account. -/
def pruneCanonicalNonces (onChainNonce : Nat) : DkgTransactionBuilder :=
  builder.onReservations (·.retain fun _ reservation => onChainNonce ≤ reservation.nonce)

/-- A reservation at the first nonce that is neither reserved nor occupied. -/
def reserve (nonceOccupied : Nat → Bool) :
    Except DkgTransactionBuildError DkgTransactionReservation := do
  let reserved nonce := builder.reservations.toList.any (·.2.nonce = nonce)
  let nonce ← ofOption .nonceOverflow <|
    firstFree (fun nonce => reserved nonce || nonceOccupied nonce) inputs.onChainNonce
      (2 ^ 64 - inputs.onChainNonce)
  let fee ← DkgTransactionFee.initial inputs
  return ⟨nonce, fee, 0⟩

/-- A first attempt, or the attempt that the task has a reservation for. -/
def build (nonceOccupied : Nat → Bool) :
    Except DkgTransactionBuildError DkgTransactionRequest × DkgTransactionBuilder :=
  match validateCalldata calldata with
  | .error reason => (.error reason, builder)
  | .ok () =>
    let pruned := builder.pruneCanonicalNonces inputs.onChainNonce
    match pruned.reservations.lookup id with
    | some reservation => (pruned.request calldata reservation, pruned)
    | none =>
      match pruned.reserve inputs nonceOccupied with
      | .error reason => (.error reason, pruned)
      | .ok reservation => ((pruned.set id reservation).request calldata reservation,
        pruned.set id reservation)

/-- A replacement at the nonce of the task, with raised caps. -/
def bump : Except DkgTransactionBuildError DkgTransactionRequest × DkgTransactionBuilder :=
  match validateCalldata calldata with
  | .error reason => (.error reason, builder)
  | .ok () =>
    match (builder.reservations.lookup id).filter (·.nonce < inputs.onChainNonce) with
    | some reservation => (.error (.nonceAlreadyMined reservation.nonce inputs.onChainNonce),
      builder.onReservations (·.erase id))
    | none =>
      let pruned := builder.pruneCanonicalNonces inputs.onChainNonce
      match pruned.reservations.lookup id with
      | none => (.error (.unknownReservation id), pruned)
      | some reservation =>
        match reservation.fee.bumped inputs with
        | .error reason => (.error reason, pruned)
        | .ok fee =>
          -- The caps are stored before the replacements are counted.
          if reservation.replacements = 2 ^ 32 - 1 then
            (.error .replacementOverflow, pruned.set id { reservation with fee })
          else
            let replacement := ⟨reservation.nonce, fee, reservation.replacements + 1⟩
            ((pruned.set id replacement).request calldata replacement, pruned.set id replacement)

/-- Drop the reservation of a task, and say whether there was one. -/
def release : Bool × DkgTransactionBuilder :=
  (builder.reservations.has id, builder.onReservations (·.erase id))

/-- The calls of a builder. The occupancy test is asked once for each nonce of a search, so its
answers are a function of the nonce. -/
inductive Call where
  | build (id : DkgTaskId) (calldata : Bytes) (inputs : DkgTransactionInputs)
      (nonceOccupied : Nat → Bool)
  | bump (id : DkgTaskId) (calldata : Bytes) (inputs : DkgTransactionInputs)
  | release (id : DkgTaskId)

/-- Whether a call succeeds, and the builder that it leaves. -/
def apply (builder : DkgTransactionBuilder) : Call → Bool × DkgTransactionBuilder
  | .build id calldata inputs nonceOccupied =>
    let outcome := builder.build id calldata inputs nonceOccupied
    (outcome.1.isOk, outcome.2)
  | .bump id calldata inputs =>
    let outcome := builder.bump id calldata inputs
    (outcome.1.isOk, outcome.2)
  | .release id => (true, (builder.release id).2)

/-- The builder after a sequence of calls. -/
def run (builder : DkgTransactionBuilder) (calls : List Call) : DkgTransactionBuilder :=
  Machine.run (fun builder call => (builder.apply call).2) builder calls

/-- The account nonce that a call is given; a release has none. -/
def Call.onChainNonce : Call → Nat
  | .build _ _ inputs _ => inputs.onChainNonce
  | .bump _ _ inputs => inputs.onChainNonce
  | .release _ => 0

/-- The call prunes a reservation of a task and reserves a nonce for the task anew. -/
def Call.Renews (call : Call) (id : DkgTaskId) (nonce : Nat) : Prop :=
  ∃ calldata inputs nonceOccupied, call = .build id calldata inputs nonceOccupied ∧
    nonce < inputs.onChainNonce

/-! ## What a call does -/

/-- The reservation of a task. -/
abbrev reservation? (builder : DkgTransactionBuilder) (id : DkgTaskId) :=
  builder.reservations.lookup id

/-- Every reservation of the later builder was there before. -/
def Drops (builder later : DkgTransactionBuilder) : Prop :=
  ∀ id old, later.reservation? id = some old → builder.reservation? id = some old

/-- No reservation is below a nonce. -/
def AtLeast (builder : DkgTransactionBuilder) (nonce : Nat) : Prop :=
  ∀ id old, builder.reservation? id = some old → nonce ≤ old.nonce

/-- A call drops reservations and then sets one at most, at the nonce that its task has or at a new
one. -/
inductive Changes (builder : DkgTransactionBuilder) (call : Call) : DkgTransactionBuilder → Prop
  | drop {later} (hdrop : builder.Drops later) : Changes builder call later
  | update {kept id old new} (hdrop : builder.Drops kept) (hold : kept.reservation? id = some old)
      (hnonce : new.nonce = old.nonce) : Changes builder call (kept.set id new)
  | reserve {kept id new} (hdrop : builder.Drops kept)
      (hfree : ∀ other old, kept.reservation? other = some old → old.nonce ≠ new.nonce)
      (hrenews : ∀ old, builder.reservation? id = some old → call.Renews id old.nonce) :
      Changes builder call (kept.set id new)

variable {builder id calldata inputs} {later : DkgTransactionBuilder} {call : Call}
  {old new : DkgTransactionReservation} {nonceOccupied : Nat → Bool}

theorem lookup_set {other : DkgTaskId} : (builder.set id new).reservation? other =
    if other = id then some new else builder.reservation? other :=
  lookup_insert_if ..

theorem drops_prune (nonce : Nat) : builder.Drops (builder.pruneCanonicalNonces nonce) :=
  fun _ _ h => ((lookup_retain ..).mp h).1

theorem atLeast_prune (nonce : Nat) : (builder.pruneCanonicalNonces nonce).AtLeast nonce :=
  fun _ _ h => of_decide_eq_true ((lookup_retain ..).mp h).2

theorem drops_erase : builder.Drops (builder.onReservations (·.erase id)) := by
  intro other old h
  simp only [reservation?, onReservations, lookup_erase_if] at h
  split at h
  · cases h
  · exact h

theorem AtLeast.set (h : builder.AtLeast nonce) (hnonce : nonce ≤ new.nonce) :
    (builder.set id new).AtLeast nonce := by
  intro other old hother
  rw [lookup_set] at hother
  split at hother
  · cases hother
    exact hnonce
  · exact h other old hother

theorem reserve_eq_ok (h : builder.reserve inputs nonceOccupied = .ok new) :
    inputs.onChainNonce ≤ new.nonce ∧
      ∀ other old, builder.reservation? other = some old → old.nonce ≠ new.nonce := by
  obtain ⟨nonce, hnonce, h⟩ := ofOption_bind h
  rcases bind_ok h with ⟨fee, -, h⟩
  cases h
  obtain ⟨hle, htaken⟩ := firstFree_eq_some hnonce
  refine ⟨hle, fun other old hother heq => ?_⟩
  simp only [Bool.or_eq_false_iff, List.any_eq_false, decide_eq_true_eq] at htaken
  exact htaken.1 _ (mem_toList.mpr hother) heq

theorem build_spec {outcome} (h : builder.build id calldata inputs nonceOccupied = outcome) :
    builder.Changes (.build id calldata inputs nonceOccupied) outcome.2 ∧
      (outcome.1.isOk = true → outcome.2.AtLeast inputs.onChainNonce) := by
  subst h
  have hdrop := builder.drops_prune inputs.onChainNonce
  have hleast := builder.atLeast_prune inputs.onChainNonce
  unfold build
  cases validateCalldata calldata with
  | error reason => exact ⟨.drop fun _ _ h => h, nofun⟩
  | ok done =>
    simp only
    cases hfound : (builder.pruneCanonicalNonces inputs.onChainNonce).reservations.lookup id with
    | some reservation => exact ⟨.drop hdrop, fun _ => hleast⟩
    | none =>
      cases hnew : (builder.pruneCanonicalNonces inputs.onChainNonce).reserve inputs
          nonceOccupied with
      | error reason => exact ⟨.drop hdrop, nofun⟩
      | ok reservation =>
        obtain ⟨hle, hfree⟩ := reserve_eq_ok hnew
        refine ⟨.reserve hdrop hfree fun old hold => ⟨_, _, _, rfl, ?_⟩, fun _ => hleast.set hle⟩
        -- An old reservation that is not below the nonce of the account would have been kept.
        by_contra hbelow
        have hkept := (lookup_retain builder.reservations
          (fun _ old => inputs.onChainNonce ≤ old.nonce) id old).mpr
          ⟨hold, decide_eq_true (Nat.le_of_not_lt hbelow)⟩
        cases hfound.symm.trans hkept

theorem bump_spec {outcome} (h : builder.bump id calldata inputs = outcome) :
    builder.Changes (.bump id calldata inputs) outcome.2 ∧
      (outcome.1.isOk = true → outcome.2.AtLeast inputs.onChainNonce) ∧
      ∀ request, outcome.1 = .ok request → ∃ old fee, builder.reservation? id = some old ∧
        old.fee.bumped inputs = .ok fee ∧ request.maxFeePerGas = fee.maxFeePerGas ∧
        request.maxPriorityFeePerGas = fee.maxPriorityFeePerGas := by
  subst h
  have hdrop := builder.drops_prune inputs.onChainNonce
  have hleast := builder.atLeast_prune inputs.onChainNonce
  unfold bump
  cases validateCalldata calldata with
  | error reason => exact ⟨.drop fun _ _ h => h, nofun, nofun⟩
  | ok done =>
    simp only
    split
    · exact ⟨.drop drops_erase, nofun, nofun⟩
    · cases hfound : (builder.pruneCanonicalNonces inputs.onChainNonce).reservations.lookup id with
      | none => exact ⟨.drop hdrop, nofun, nofun⟩
      | some old =>
        simp only
        cases hfee : old.fee.bumped inputs with
        | error reason => exact ⟨.drop hdrop, nofun, nofun⟩
        | ok fee =>
          simp only
          split
          · exact ⟨.update hdrop hfound rfl, nofun, nofun⟩
          · refine ⟨.update hdrop hfound rfl, fun _ => hleast.set (hleast id old hfound), ?_⟩
            intro request h
            obtain ⟨_, h⟩ := of_bind h
            cases h
            exact ⟨old, fee, hdrop id old hfound, hfee, rfl, rfl⟩

theorem apply_spec (builder : DkgTransactionBuilder) (call : Call) :
    builder.Changes call (builder.apply call).2 ∧
      ((builder.apply call).1 = true → (builder.apply call).2.AtLeast call.onChainNonce) := by
  cases call with
  | build id calldata inputs nonceOccupied => exact build_spec rfl
  | bump id calldata inputs => exact ⟨(bump_spec rfl).1, (bump_spec rfl).2.1⟩
  | release id => exact ⟨.drop drops_erase, fun _ _ _ _ => Nat.zero_le _⟩

/-! ## Runs -/

/-- No nonce is reserved for two tasks. -/
def Distinct (builder : DkgTransactionBuilder) : Prop :=
  ∀ a b old new, builder.reservation? a = some old → builder.reservation? b = some new →
    old.nonce = new.nonce → a = b

theorem Distinct.drop (h : builder.Distinct) (hdrop : builder.Drops later) : later.Distinct :=
  fun a b old new ha hb => h a b old new (hdrop _ _ ha) (hdrop _ _ hb)

/-- A nonce that no other task has can be set. -/
theorem Distinct.set (h : builder.Distinct)
    (hfree : ∀ other old, builder.reservation? other = some old → other ≠ id →
      old.nonce ≠ new.nonce) : (builder.set id new).Distinct := by
  intro a b first second ha hb heq
  rw [lookup_set] at ha hb
  split at ha <;> split at hb
  · simp_all
  · rename_i hne
    cases ha
    exact absurd heq.symm (hfree b second hb hne)
  · rename_i hne _
    cases hb
    exact absurd heq (hfree a first ha hne)
  · exact h a b first second ha hb heq

theorem Distinct.changes (h : builder.Distinct) (hchan : builder.Changes call later) :
    later.Distinct := by
  cases hchan with
  | drop hdrop => exact h.drop hdrop
  | @update kept id old new hdrop hold hnonce =>
    refine (h.drop hdrop).set fun other found hother hne heq => hne ?_
    exact h.drop hdrop other id found old hother hold (heq.trans hnonce)
  | reserve hdrop hfree _ =>
    exact (h.drop hdrop).set fun other found hother _ => hfree other found hother

/-- A call that does not renew the reservation of a task leaves its nonce or drops it. -/
theorem Changes.nonce_eq (hchan : builder.Changes call later)
    (hold : builder.reservation? id = some old) (hnew : later.reservation? id = some new) :
    new.nonce = old.nonce ∨ call.Renews id old.nonce := by
  have hkeep : ∀ {kept found}, builder.Drops kept → kept.reservation? id = some found →
      found.nonce = old.nonce := by
    intro kept found hdrop hfound
    cases hold.symm.trans (hdrop _ _ hfound)
    rfl
  cases hchan with
  | drop hdrop => exact .inl (hkeep hdrop hnew)
  | update hdrop hfound hnonce =>
    rw [lookup_set] at hnew
    split at hnew
    · rename_i heq
      cases hnew
      exact .inl (hnonce.trans (hkeep hdrop (heq ▸ hfound)))
    · exact .inl (hkeep hdrop hnew)
  | reserve hdrop hfree hrenews =>
    rw [lookup_set] at hnew
    split at hnew
    · rename_i heq
      exact .inr (heq ▸ hrenews old (heq ▸ hold))
    · exact .inl (hkeep hdrop hnew)

/-- The reservation of a task lives through a call: it is neither dropped nor renewed. -/
def LivesThrough (id : DkgTaskId) (builder : DkgTransactionBuilder) (call : Call) : Prop :=
  ((builder.apply call).2.reservation? id).isSome = true ∧
    ∀ old, builder.reservation? id = some old → ¬call.Renews id old.nonce

theorem distinct_run (h : builder.Distinct) (calls : List Call) : (builder.run calls).Distinct :=
  Machine.invariant_run (fun state call hs => hs.changes (state.apply_spec call).1) h calls

theorem nonce_run {calls : List Call} (hold : builder.reservation? id = some old)
    (hlives : Machine.Guarded (fun builder call => (builder.apply call).2) (LivesThrough id) builder
      calls) :
    ∃ new, (builder.run calls).reservation? id = some new ∧ new.nonce = old.nonce := by
  refine @Machine.invariant_of_guarded _ _ _ _
    (fun state => ∃ new, state.reservation? id = some new ∧ new.nonce = old.nonce)
    ?_ _ ⟨old, hold, rfl⟩ _ hlives
  rintro state call ⟨found, hfound, hnonce⟩ ⟨hsome, hrenews⟩
  obtain ⟨new, hnew⟩ := Option.isSome_iff_exists.mp hsome
  refine ⟨new, hnew, ?_⟩
  obtain hsame | hrene := (state.apply_spec call).1.nonce_eq hfound hnew
  · exact hsame.trans hnonce
  · exact absurd hrene (hrenews found hfound)

/-- After every sequence of calls the reserved nonces are distinct, a task keeps its nonce through
every further sequence of calls that its reservation lives through, and a further call that succeeds
leaves no reservation below the account nonce that it is given. -/
theorem reservations_run {chainId gasLimit : UInt64} {start : DkgTransactionBuilder}
    (hstart : withGasLimit chainId gasLimit = .ok start) (calls : List Call) :
    (start.run calls).Distinct ∧
      (∀ id old later, (start.run calls).reservation? id = some old →
        Machine.Guarded (fun builder call => (builder.apply call).2) (LivesThrough id)
          (start.run calls) later →
        ∃ new, ((start.run calls).run later).reservation? id = some new ∧
          new.nonce = old.nonce) ∧
      ∀ call, ((start.run calls).apply call).1 = true →
        ((start.run calls).apply call).2.AtLeast call.onChainNonce := by
  obtain ⟨_, hstart⟩ := of_bind hstart
  obtain ⟨_, hstart⟩ := of_bind hstart
  cases hstart
  refine ⟨distinct_run (fun a _ old _ h => ?_) calls, fun _ _ _ => nonce_run,
    fun call => ((run _ calls).apply_spec call).2⟩
  exact absurd (h.symm.trans (AList.lookup_empty a)) nofun

/-- Two tasks of one account at nonce five. -/
def exampleCalls : List Call :=
  [.build ⟨9, .share, 2⟩ [0, 0, 0, 0] ⟨5, 10, 20⟩ fun _ => false,
    .build ⟨9, .reshare, 2⟩ [0, 0, 0, 0] ⟨5, 10, 20⟩ fun nonce => nonce = 6]

/-- The second task skips the nonce of the first and an occupied one. -/
theorem reservations_run_two : ∃ start, withGasLimit 1 1 = .ok start ∧
    ((start.run exampleCalls).reservation? ⟨9, .reshare, 2⟩).map (·.nonce) = some 7 ∧
    (start.run exampleCalls).Distinct :=
  ⟨_, rfl, by decide, (@reservations_run 1 1 _ rfl exampleCalls).1⟩

end DkgTransactionBuilder

/-! ## Replacement fees -/

namespace DkgTransactionFee

/-- After a first attempt and every sequence of replacements the caps cover the latest inputs. A
further replacement that a builder makes at these caps covers its own inputs, and it raises both
caps by an eighth exactly if they are exact. -/
theorem replacement_fees {first : DkgTransactionInputs} {bumps : List DkgTransactionInputs}
    {fee : DkgTransactionFee} (h : replaced first bumps = .ok fee) :
    fee.Covers (bumps.getLast?.getD first) ∧
      ∀ (builder : DkgTransactionBuilder) id reservation calldata inputs request after,
        builder.reservation? id = some reservation → reservation.fee = fee →
        builder.bump id calldata inputs = (.ok request, after) →
        Covers ⟨request.maxFeePerGas, request.maxPriorityFeePerGas⟩ inputs ∧
          (fee.RaisedTo ⟨request.maxFeePerGas, request.maxPriorityFeePerGas⟩ ↔
            fee.Exact inputs) := by
  refine ⟨covers_replaced h, ?_⟩
  rintro builder id reservation calldata inputs request after hfound rfl hbump
  obtain ⟨old, next, hold, hnext, hcap, htip⟩ :=
    (DkgTransactionBuilder.bump_spec hbump).2.2 request rfl
  cases hfound.symm.trans hold
  rw [hcap, htip]
  exact ⟨covers_bumped hnext, raisedTo_iff hnext⟩

/-- A tip of sixteen is raised by an eighth. -/
theorem replacement_fees_exact : ∃ fee, replaced ⟨0, 0, 16⟩ [] = .ok fee ∧ fee.Covers ⟨0, 0, 16⟩ ∧
    fee.Exact ⟨0, 0, 16⟩ :=
  ⟨⟨16, 16⟩, rfl, (@replacement_fees ⟨0, 0, 16⟩ [] _ rfl).1, by unfold Exact; decide⟩

/-- A tip of nine is raised to ten only. -/
theorem replacement_underpriced : ∃ fee next, replaced ⟨0, 0, 9⟩ [] = .ok fee ∧
    fee.bumped ⟨0, 0, 9⟩ = .ok next ∧ ¬fee.RaisedTo next :=
  ⟨⟨9, 9⟩, ⟨10, 10⟩, rfl, rfl, by unfold RaisedTo; decide⟩

end DkgTransactionFee

end NeoX
