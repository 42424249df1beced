import NeoX.Node.Replacement

/-!
# Policy checks of the transaction pool

The transaction pool, the pool that is rebuilt for reconstruction and the executor check the policy
contract each in its own way.

Main results:

- `PolicyStorage.policy_agreement`: both pools accept the same transactions, and the
  executor accepts them in a block with the base fee of the policy.
-/

namespace NeoX

open Except hiding ok error

open TransactionFormat (ty target input gasLimit maxFeePerGas priorityFeeOrPrice)

section Policy

variable [Crypto] [PoolFormat]

/-! ## The transaction pool -/

/-- Reasons for which the transaction pool refuses a transaction. -/
inductive NeoXPoolPolicyError where
  | provider (error : String)
  | blockedSender (sender : Address)
  | baseFeeOutOfRange (baseFee : U256)
  | envelopeGasAbovePolicy (gasLimit : UInt64) (maximumGas : U256)
  | encryptedGasBelowMinimum (innerGas : UInt32)
  | envelopeGasBelowEncrypted (gasLimit : UInt64) (innerGas : UInt32)
  | feeCapBelowPolicyBaseFee (feeCap : BitVec 128) (baseFee : UInt64)
  | tipBelowPolicy (effectiveTip : Nat) (minimumTip baseFee : U256)

namespace NeoXPool

/-- The value at a key of the policy contract. -/
def readPolicy (state : StateProvider) (key : U256) : Except NeoXPoolPolicyError U256 :=
  ((state.storage policyProxyAddress key).mapError .provider).map (·.getD 0)

def readPolicySlot (state : StateProvider) (slot : Nat) : Except NeoXPoolPolicyError U256 :=
  readPolicy state (policyStorageKey slot)

/-- The tip above a base fee, if the fee cap reaches the base fee. -/
def effectiveTipPerGas (transaction : Transaction) (baseFee : UInt64) : Option Nat :=
  let feeCap := (maxFeePerGas transaction).toNat
  if feeCap < baseFee.toNat then none
  else some (min (feeCap - baseFee.toNat) (priorityFeeOrPrice transaction).toNat)

/-- The policy for Envelopes, and the tip that a transaction has to pay. -/
def minimumTip (state : StateProvider) (transaction : Transaction) :
    Except NeoXPoolPolicyError U256 := do
  let minGasTipCap ← readPolicySlot state policyMinGasTipCapSlot
  if isEnvelope (ty transaction) (target transaction) (input transaction) then
    let maximumGas ← readPolicySlot state policyMaxEnvelopeGasLimitSlot
    let innerGas := encryptedGas (input transaction)
    require ((gasLimit transaction).toNat ≤ maximumGas.toNat)
      (.envelopeGasAbovePolicy (gasLimit transaction) maximumGas)
    require (minEncryptedGasLimit ≤ innerGas) (.encryptedGasBelowMinimum innerGas)
    require (innerGas.toUInt64 ≤ gasLimit transaction)
      (.envelopeGasBelowEncrypted (gasLimit transaction) innerGas)
    let envelopeFee ← readPolicySlot state policyEnvelopeFeeSlot
    .ok (saturatingAddWord minGasTipCap envelopeFee)
  else
    .ok minGasTipCap

def validatePolicy (state : StateProvider) (transaction : Transaction) (sender : Address) :
    Except NeoXPoolPolicyError Unit := do
  let blocked ← readPolicy state (policyBlacklistStorageKey sender)
  require (blocked = 0) (.blockedSender sender)
  let baseFee ← readPolicySlot state policyBaseFeeSlot
  require (baseFee.toNat < 2 ^ 64) (.baseFeeOutOfRange baseFee)
  let baseFee64 := UInt64.ofNat baseFee.toNat
  let minimumTip ← minimumTip state transaction
  -- A fee cap below the base fee is refused even if no tip is required.
  let effectiveTip ← ofOption
    (.feeCapBelowPolicyBaseFee (maxFeePerGas transaction) baseFee64)
    (effectiveTipPerGas transaction baseFee64)
  require (minimumTip.toNat ≤ effectiveTip) (.tipBelowPolicy effectiveTip minimumTip baseFee)

end NeoXPool

/-! ## Agreement -/

/-- The values of the policy contract. -/
abbrev PolicyStorage := U256 → U256

namespace PolicyStorage

variable (policy : PolicyStorage)

def slot (slot : Nat) : U256 := policy (policyStorageKey slot)

/-- The state answers reads of the policy contract; a missing value is zero. -/
def ServedBy (state : StateProvider) : Prop :=
  ∀ key, ∃ value, state.storage policyProxyAddress key = .ok value ∧ value.getD 0 = policy key

variable (transaction : Transaction) (sender : Address)

/-- The conditions for an Envelope. -/
def AcceptsEnvelope : Prop :=
  (gasLimit transaction).toNat ≤ (policy.slot policyMaxEnvelopeGasLimitSlot).toNat ∧
    minEncryptedGasLimit ≤ encryptedGas (input transaction) ∧
    (encryptedGas (input transaction)).toUInt64 ≤ gasLimit transaction

def tip (envelope : Bool) : U256 :=
  if envelope then saturatingAddWord (policy.slot policyMinGasTipCapSlot)
    (policy.slot policyEnvelopeFeeSlot)
  else policy.slot policyMinGasTipCapSlot

/-- The fee cap reaches the base fee, and leaves the tip. -/
def AcceptsFee (envelope : Bool) : Prop :=
  (policy.slot policyBaseFeeSlot).toNat ≤ (maxFeePerGas transaction).toNat ∧
    (policy.tip envelope).toNat ≤ min ((maxFeePerGas transaction).toNat
      - (policy.slot policyBaseFeeSlot).toNat) (priorityFeeOrPrice transaction).toNat

/-- What a transaction has to satisfy. -/
structure Accepts (envelope : Bool) : Prop where
  unblocked : policy (policyBlacklistStorageKey sender) = 0
  gas : envelope = true → policy.AcceptsEnvelope transaction
  fee : policy.AcceptsFee transaction envelope

variable {policy transaction sender} {state : StateProvider}

omit [Crypto] [PoolFormat] in
theorem readPolicy_eq (hstate : policy.ServedBy state) (key : U256) :
    NeoXPool.readPolicy state key = .ok (policy key) := by
  obtain ⟨value, hread, hvalue⟩ := hstate key
  rw [NeoXPool.readPolicy, hread, ← hvalue]
  rfl

omit [Crypto] [PoolFormat] in
theorem readPolicySlot_eq (hstate : policy.ServedBy state) (slot : Nat) :
    NeoXPool.readPolicySlot state slot = .ok (policy.slot slot) :=
  readPolicy_eq hstate _

omit [Crypto] in
theorem minimumTip_iff (hstate : policy.ServedBy state) {envelope : Bool} {minimum : U256}
    (h : isEnvelope (ty transaction) (target transaction) (input transaction) = envelope) :
    NeoXPool.minimumTip state transaction = .ok minimum ↔
      (envelope = true → policy.AcceptsEnvelope transaction) ∧ minimum = policy.tip envelope := by
  unfold NeoXPool.minimumTip
  simp only [readPolicySlot_eq hstate, ok_bind, h]
  cases envelope with
  | false => simp [tip, eq_comm]
  | true => simp [bind_eq_ok, tip, AcceptsEnvelope, and_assoc, @eq_comm _ minimum]

/-- The pool accepts what satisfies the policy, if the base fee is a machine word. -/
theorem validatePolicy_iff (hstate : policy.ServedBy state) {envelope : Bool}
    (h : isEnvelope (ty transaction) (target transaction) (input transaction) = envelope)
    (hfee : (policy.slot policyBaseFeeSlot).toNat < 2 ^ 64) :
    NeoXPool.validatePolicy state transaction sender = .ok () ↔
      policy.Accepts transaction sender envelope := by
  have hbase : (UInt64.ofNat (policy.slot policyBaseFeeSlot).toNat).toNat
      = (policy.slot policyBaseFeeSlot).toNat := by
    rw [UInt64.toNat_ofNat', Nat.mod_eq_of_lt hfee]
  unfold NeoXPool.validatePolicy
  simp only [readPolicy_eq hstate, readPolicySlot_eq hstate, ok_bind, bind_eq_ok, require_eq_ok,
    ofOption_eq_ok, minimumTip_iff hstate h, exists_const, NeoXPool.effectiveTipPerGas, hbase, hfee,
    true_and]
  constructor
  · rintro ⟨hsender, minimum, ⟨henve, rfl⟩, effective, heffe, htip⟩
    split at heffe
    · cases heffe
    · rename_i hcap
      cases heffe
      exact ⟨hsender, henve, not_lt.mp hcap, htip⟩
  · rintro ⟨hsender, henve, hcap, htip⟩
    exact ⟨hsender, _, ⟨henve, rfl⟩, _, if_neg (not_lt.mpr hcap), htip⟩

/-- So does the pool that is rebuilt for reconstruction. -/
theorem checkPolicy_iff {envelope : Bool} {account : ParentAccount}
    (h : isEnvelope (ty transaction) (target transaction) (input transaction) = envelope)
    (hacco : account.blacklisted = decide (policy (policyBlacklistStorageKey sender) ≠ 0)) :
    StaticPoolAdmission.checkPolicy ⟨policy.slot policyMinGasTipCapSlot,
        policy.slot policyBaseFeeSlot, policy.slot policyEnvelopeFeeSlot,
        policy.slot policyMaxEnvelopeGasLimitSlot⟩ transaction account = .ok () ↔
      policy.Accepts transaction sender envelope := by
  unfold StaticPoolAdmission.checkPolicy
  simp only [bind_eq_ok, require_eq_ok, exists_const, h, hacco, decide_eq_false_iff_not,
    not_not, ne_eq]
  constructor
  · rintro ⟨hgas, hinner, hlimit, htip, hsender⟩
    exact ⟨hsender, fun he => ⟨hgas he, hinner he, hlimit he⟩, htip⟩
  · rintro ⟨hsender, henve, htip⟩
    exact ⟨fun he => (henve he).1, fun he => (henve he).2.1, fun he => (henve he).2.2,
      htip, hsender⟩

omit [PoolFormat] in
/-- The accounts of the rebuilt pool are read from the state. -/
theorem preloadAccounts_read {senders : List Address}
    {accounts loaded : FiniteMap Address ParentAccount} {account : ParentAccount}
    (h : StaticPoolAdmission.preloadAccounts state accounts senders = .ok loaded)
    (hloaded : loaded.lookup sender = some account) :
    accounts.lookup sender = some account ∨
      StaticPoolAdmission.readParentAccount state sender = .ok account := by
  induction senders generalizing accounts with
  | nil =>
    cases h
    exact .inl hloaded
  | cons first senders ih =>
    unfold StaticPoolAdmission.preloadAccounts at h
    split at h
    · exact ih h
    · rcases bind_ok h with ⟨found, hfound, h⟩
      obtain hknown | hread := ih h
      · rw [FiniteMap.lookup_insert_if] at hknown
        split at hknown
        · rename_i heq
          cases hknown
          exact .inr (heq ▸ hfound)
        · exact .inl hknown
      · exact .inr hread

omit [PoolFormat] in
/-- The rebuilt pool keeps the policy and the blacklist of the state. -/
theorem new_eq_ok {head : StaticPoolHead} {senders : List Address} {admission : StaticPoolAdmission}
    (hstate : policy.ServedBy state)
    (h : StaticPoolAdmission.new state head senders = .ok admission) :
    admission.policy = ⟨policy.slot policyMinGasTipCapSlot, policy.slot policyBaseFeeSlot,
        policy.slot policyEnvelopeFeeSlot, policy.slot policyMaxEnvelopeGasLimitSlot⟩ ∧
      ∀ sender account, admission.accounts.lookup sender = some account →
        account.blacklisted = decide (policy (policyBlacklistStorageKey sender) ≠ 0) := by
  have hread : ∀ {key value}, state.storage policyProxyAddress key = .ok value →
      value.getD 0 = policy key := by
    intro key value hvalue
    obtain ⟨found, hfound, heq⟩ := hstate key
    cases hvalue.symm.trans hfound
    exact heq
  rcases bind_ok h with ⟨tip, htip, h⟩
  rcases bind_ok h with ⟨fee, hfee, h⟩
  rcases bind_ok h with ⟨envelope, henve, h⟩
  rcases bind_ok h with ⟨limit, hlimit, h⟩
  rcases bind_ok h with ⟨accounts, haccou, h⟩
  cases h
  constructor
  · rw [hread htip, hread hfee, hread henve, hread hlimit]
    rfl
  · intro sender account hacco
    obtain hempty | hacco := preloadAccounts_read haccou hacco
    · cases hempty.symm.trans (AList.lookup_empty sender)
    · rcases bind_ok hacco with ⟨basic, -, hacco⟩
      rcases bind_ok hacco with ⟨blocked, hbloc, hacco⟩
      cases hacco
      simp only [hread hbloc]

variable [BlockEvm]

/-- Executors that serve the policy contract, also after they did. -/
def Serves (policy : PolicyStorage) (executors : BlockEvm.Executor → Prop) : Prop :=
  ∀ key, Attempt.Returns executors (BlockEvm.storage policyProxyAddress key) (policy key)

/-- The executor accepts what satisfies the policy at its base fee. -/
theorem returns_validatePolicy [TipPrices] {executors : BlockEvm.Executor → Prop}
    (hserves : policy.Serves executors) {env : EvmEnv}
    (henv : env.baseFee.toNat = (policy.slot policyBaseFeeSlot).toNat)
    (h : policy.Accepts transaction sender
      (isEnvelopePolicy (target transaction) (input transaction))) :
    Attempt.Returns executors (validatePolicy env transaction sender) () := by
  have hread : ∀ key, Attempt.Returns executors (readPolicyStorage key) (policy key) := by
    intro key executor hexecutor
    obtain ⟨hresult, hafter⟩ := hserves key executor hexecutor
    refine ⟨?_, hafter⟩
    change ((BlockEvm.storage policyProxyAddress key).result executor).mapError _ = _
    rw [hresult]
    rfl
  have htip : Attempt.Returns executors
      (requiredTip transaction (policy.slot policyMinGasTipCapSlot))
      (policy.tip (isEnvelopePolicy (target transaction) (input transaction))) := by
    unfold requiredTip tip
    cases he : isEnvelopePolicy (target transaction) (input transaction) with
    | false => exact Attempt.returns_pure _
    | true =>
      obtain ⟨hgas, hinner, hlimit⟩ := h.gas he
      exact (hread _).bind ((Attempt.returns_require hgas _).bind
        ((Attempt.returns_require hinner _).bind ((Attempt.returns_require hlimit _).bind
          ((hread _).bind (Attempt.returns_pure _)))))
  refine (hread _).bind ((Attempt.returns_require h.unblocked _).bind ((hread _).bind
    (htip.bind (Attempt.returns_require ?_ _))))
  rw [henv, ← TipPrices.price_eq]
  exact h.fee.2

/-- For a policy whose base fee is a machine word and a transaction that is neither a blob nor a
set-code transaction, the transaction pool and the pool that is rebuilt from the same state accept
the transaction alike. If they do, so does the executor, in a block whose base fee is the one of the
policy. -/
theorem policy_agreement [TipPrices] {head : StaticPoolHead} {senders : List Address}
    {admission : StaticPoolAdmission} {account : ParentAccount} (hstate : policy.ServedBy state)
    (hfee : (policy.slot policyBaseFeeSlot).toNat < 2 ^ 64) (hblob : ty transaction ≠ eip4844Type)
    (hcode : ty transaction ≠ eip7702Type)
    (hpool : StaticPoolAdmission.new state head senders = .ok admission)
    (haccount : admission.accounts.lookup sender = some account) :
    (NeoXPool.validatePolicy state transaction sender = .ok () ↔
      StaticPoolAdmission.checkPolicy admission.policy transaction account = .ok ()) ∧
    (NeoXPool.validatePolicy state transaction sender = .ok () →
      ∀ (env : EvmEnv) (executors : BlockEvm.Executor → Prop),
        env.baseFee.toNat = (policy.slot policyBaseFeeSlot).toNat → policy.Serves executors →
        ∀ executor, executors executor →
          (validatePolicy env transaction sender).result executor = .ok ()) := by
  have henvelope : isEnvelope (ty transaction) (target transaction) (input transaction)
      = isEnvelopePolicy (target transaction) (input transaction) := by
    simp [isEnvelope, isEnvelopePolicy, hblob, hcode]
  have hiff := @validatePolicy_iff _ _ policy transaction sender state hstate _ henvelope hfee
  obtain ⟨hpolicy, hblacklist⟩ := new_eq_ok hstate hpool
  refine ⟨?_, fun haccepted env executors henv hserves executor hexecutor =>
    (returns_validatePolicy hserves henv (hiff.mp haccepted) executor hexecutor).1⟩
  rw [hiff, hpolicy, checkPolicy_iff henvelope (hblacklist sender account haccount)]

end PolicyStorage

end Policy

open PlainChain in
/-- Both pools take a transfer under a policy without fees, or none does. -/
theorem policy_agreement_transfer : ∃ admission account,
    StaticPoolAdmission.new PricedTransfers.richState ⟨30000000, .prague⟩ [PricedTransfers.sender]
      = .ok admission ∧
    admission.accounts.lookup PricedTransfers.sender = some account ∧
    (NeoXPool.validatePolicy PricedTransfers.richState (PricedTransfers.transfer 100)
        PricedTransfers.sender = .ok () ↔
      StaticPoolAdmission.checkPolicy admission.policy (PricedTransfers.transfer 100) account
        = .ok ()) := by
  have hprices : TipPrices := ⟨fun _ => rfl⟩
  exact ⟨_, _, rfl, rfl, (@PolicyStorage.policy_agreement _ _ (fun _ => 0) _ _ _ _ hprices
    ⟨30000000, .prague⟩ [PricedTransfers.sender] _ _
    (fun _ => ⟨none, rfl, rfl⟩) (by decide) (by decide) (by decide) rfl rfl).1⟩

end NeoX
