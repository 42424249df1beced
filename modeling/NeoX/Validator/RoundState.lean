import NeoX.AntiMev.Threshold
import NeoX.Network.Recovery

/-!
# The dBFT round state machine

The watch-only state of one block height: proposals, preparations, pre-commits
and commits of every view, the change-view tally, and the authenticated messages
kept for recovery. A failed operation of the program may leave changes behind, so
operations here return their result together with the state they leave.

Main result: by `primary_rotates` the validators take turns as the primary.
-/

namespace NeoX

/-! ## Data -/

def maxValidatorCount : Nat := 256

/-- Slot of a message: its view, its kind and the index of its sender. -/
structure MessageKey where
  view : UInt8
  kind : DbftMessageType
  index : UInt8
  deriving DecidableEq

/-- The slot named by inner message data. -/
def DbftConsensusData.key (data : DbftConsensusData) : MessageKey :=
  ⟨data.viewNumber, data.messageType, data.validatorIndex⟩

/-- Observable progress of one message. -/
inductive DbftRoundProgress where
  | duplicate
  | accepted
  | prepared (view : UInt8) (proposalHash : B256) (votes : Nat)
  | preCommitted (view : UInt8) (votes : Nat)
  | committed (view : UInt8) (votes : Nat)
  | viewChanged (view : UInt8) (votes : Nat)
  deriving DecidableEq

/-- A commit quorum verified against the final header. -/
inductive DbftVerifiedCommitSeal where
  | ecdsa (signatures : List (FixedBytes 65))
  | threshold (signature : G2Bytes)
  deriving DecidableEq

/-- Errors of state discovery and of message transitions. -/
inductive DbftStateError where
  | provider
  | invalidValidatorCount (count : Nat)
  | missingValidator (index : Nat)
  | duplicateValidator
  | protocol (violation : DbftProtocolViolation)
  | invalidPayload (error : Rlp.Error)
  | payload (error : DbftPayloadError)
  | wrongHeight (expected start last : UInt64)
  | validatorIndexOutOfBounds (index : UInt8) (validatorCount : Nat)
  | unauthorizedValidator (index : UInt8) (expected actual : Address)
  | wrongView (expected actual : UInt8)
  | equivocation (key : MessageKey) (first second : B256)
  | viewOverflow
  | wrongPrimary (expected actual : UInt8)
  | primarySentPrepareResponse (index : UInt8)
  | proposalHeight (expected actual : UInt64)
  | missingProposal (view : UInt8)
  | finalHeaderMismatch (view : UInt8)
  | invalidFinalExtra (error : DbftExtraError)
  | invalidFinalSeal (error : DbftValidationError)
  | missingFinalHeader (view : UInt8)
  | missingVerifiedCommitSeal (view : UInt8)
  | commitSealSchemeMismatch
  | missingDkgState
  | tpke (error : TpkeError)
  | preCommitBeforeAntiMev
  | preBlockBeforeAntiMev
  | envelopeCountChanged (view : UInt8) (previous actual : Nat)
  | tooManyPreCommitShares (index : UInt8) (shares envelopes : Nat)
  | invalidDkgIndexMap (indices : List UInt32)
  deriving DecidableEq

/-- What a round holds about one view. -/
structure ViewState where
  proposal : Option DbftMessage := none
  responses : FiniteMap UInt8 B256 := ∅
  preCommits : FiniteMap UInt8 DbftPreCommit := ∅
  preBlockEnvelopeCount : Option Nat := none
  commits : FiniteMap UInt8 DbftCommit := ∅
  finalHeader : Option Header := none
  verifiedSeal : Option DbftVerifiedCommitSeal := none

/-- Byte-sorted distinct validator accounts of one height. -/
structure ValidatorSet where
  accounts : List Address
  sorted : accounts.Pairwise (· < ·)
  nonempty : accounts ≠ []
  size_le : accounts.length ≤ maxValidatorCount

/-- Sort a validator list and refuse duplicates. -/
def ValidatorSet.ofList (validators : List Address) : Except DbftStateError ValidatorSet :=
  if hcount : validators ≠ [] ∧ validators.length ≤ maxValidatorCount then
    if hdistinct : adjacentDuplicate (sortAddresses validators) = none then
      .ok {
        accounts := sortAddresses validators
        sorted := nodup_of_adjacentDuplicate (sortAddresses_sorted validators) hdistinct
        nonempty := fun hnil => hcount.1
          (List.perm_nil.mp (hnil ▸ (sortAddresses_perm validators).symm))
        size_le := (sortAddresses_perm validators).length_eq ▸ hcount.2 }
    else
      .error .duplicateValidator
  else
    .error (.invalidValidatorCount validators.length)

/-- State of one block height. -/
structure DbftRoundState where
  height : UInt64
  validators : ValidatorSet
  antiMev : Bool
  currentView : UInt8
  views : FiniteMap UInt8 ViewState
  changeViews : FiniteMap UInt8 (UInt8 × DbftMessage)
  seen : FiniteMap MessageKey B256
  messages : FiniteMap MessageKey DbftMessage
  dkgIndices : Option (List UInt32)
  dkgState : Option DkgState

namespace DbftRoundState

/-- The result of an operation and the state it leaves. -/
abbrev Transition (α : Type) := Except DbftStateError α × DbftRoundState

/-! ## Construction and inspection -/

/-- A round in which nothing has happened. -/
def start (height : UInt64) (validators : ValidatorSet) (antiMev : Bool) : DbftRoundState where
  height := height
  validators := validators
  antiMev := antiMev
  currentView := 0
  views := AList.singleton 0 {}
  changeViews := ∅
  seen := ∅
  messages := ∅
  dkgIndices := none
  dkgState := none

/-- Start a round over the sorted validator set. -/
def new (height : UInt64) (validators : List Address) (antiMev : Bool) :
    Except DbftStateError DbftRoundState := do
  let validators ← ValidatorSet.ofList validators
  .ok (start height validators antiMev)

def count (round : DbftRoundState) : Nat :=
  round.validators.accounts.length

/-- Number of validator messages needed for a decision. -/
def quorum (round : DbftRoundState) : Nat :=
  bftHonestNodeCount round.count

/-- Install the DKG index map and keys of the committee. -/
def installDkgState (round : DbftRoundState) (indices : List UInt32) (state : DkgState) :
    Transition Unit :=
  if indices.length = round.count ∧
      indices.insertionSort (· ≤ ·) = (List.range' 1 round.count).map UInt32.ofNat then
    (.ok (), { round with dkgIndices := some indices, dkgState := some state })
  else
    (.error (.invalidDkgIndexMap indices), round)

def primaryIndex (round : DbftRoundState) (view : UInt8) : UInt8 :=
  primaryIndexOf round.height view round.count

def proposal (round : DbftRoundState) (view : UInt8) : Option DbftMessage := do
  let state ← round.views.lookup view
  state.proposal

/-- Whether a validator contributed shares in a view. -/
def hasPreCommit (round : DbftRoundState) (view index : UInt8) : Bool :=
  match round.views.lookup view with
  | none => false
  | some state => state.preCommits.has index

/-- Whether a validator contributed a commit in a view. -/
def hasCommit (round : DbftRoundState) (view index : UInt8) : Bool :=
  match round.views.lookup view with
  | none => false
  | some state => state.commits.has index

def message (round : DbftRoundState) (view : UInt8) (kind : DbftMessageType) (index : UInt8) :
    Option DbftMessage :=
  round.messages.lookup ⟨view, kind, index⟩

/-- Whether a validator pre-committed in any retained view. -/
def hasAnyPreCommit (round : DbftRoundState) (index : UInt8) : Bool :=
  round.views.toList.any fun entry => entry.2.preCommits.has index

/-- Whether a validator committed in any retained view. -/
def hasAnyCommit (round : DbftRoundState) (index : UInt8) : Bool :=
  round.views.toList.any fun entry => entry.2.commits.has index

/-- Whether a message of a validator at this view or beyond is retained. -/
def seenInView (round : DbftRoundState) (view localIndex index : UInt8) : Bool :=
  index = localIndex ||
    round.messages.toList.any fun entry => entry.1.index = index && view ≤ entry.1.view

/-- Whether more than the tolerated number of validators committed or failed. -/
def moreThanFCommittedOrFailed (round : DbftRoundState) (view localIndex : UInt8) : Bool :=
  let maximumFaulty := (round.count - 1) / 3
  let committedOrFailed := (List.range round.count).filter fun index =>
    let index := UInt8.ofNat index
    (round.hasAnyPreCommit index || round.hasAnyCommit index) ||
      !round.seenInView view localIndex index
  committedOrFailed.length > maximumFaulty

/-- The entry of a view after an update, created when it is missing. -/
def updateView (round : DbftRoundState) (view : UInt8) (update : ViewState → ViewState) :
    DbftRoundState :=
  { round with
    views := round.views.insert view (update ((round.views.lookup view).getD {})) }

/-- Primaries of different views of one rotation differ. -/
theorem offset_eq_of_primary_eq {count height first a b : Nat} (ha : a < count) (hb : b < count)
    (h : height + count - (first + a) % count ≡ height + count - (first + b) % count
      [MOD count]) : a = b := by
  have hlta := Nat.mod_lt (first + a) (Nat.zero_lt_of_lt ha)
  have hltb := Nat.mod_lt (first + b) (Nat.zero_lt_of_lt ha)
  have hadd := h.add_right ((first + a) % count + (first + b) % count)
  have hswap : (first + b) % count ≡ (first + a) % count [MOD count] := by
    refine Nat.ModEq.add_left_cancel' (height + count) ?_
    convert hadd using 1 <;> omega
  have hviews := ((Nat.mod_modEq _ _).symm.trans hswap).trans (Nat.mod_modEq _ _)
  exact ((Nat.ModEq.add_left_cancel' first hviews).eq_of_lt_of_lt hb ha).symm

/-- Among as many consecutive views as there are validators, every validator is the primary of
exactly one. -/
theorem primary_rotates (round : DbftRoundState) (first : Fin (257 - round.count))
    (index : Fin round.count) : ∃! offset : Fin round.count,
    (round.primaryIndex (.ofNat (first + offset))).toNat = index := by
  have hcount : round.count ≤ 256 := round.validators.size_le
  let primary (offset : Fin round.count) : Fin round.count :=
    ⟨(round.height.toNat % 2 ^ 32 + round.count - (first + offset) % round.count) % round.count,
      Nat.mod_lt _ index.pos⟩
  have hprimary (offset : Fin round.count) :
      (round.primaryIndex (.ofNat (first + offset))).toNat = primary offset := by
    have hview : (UInt8.ofNat (first + offset)).toNat = first + offset :=
      UInt8.toNat_ofNat_of_lt' (by show _ < 256; omega)
    rw [primaryIndex, primaryIndexOf, hview, UInt8.toNat_ofNat_of_lt']
    exact (primary offset).isLt.trans_le hcount
  have hinjective : primary.Injective := fun a b hsame =>
    Fin.ext (offset_eq_of_primary_eq a.isLt b.isLt (congrArg Fin.val hsame))
  obtain ⟨offset, hoffset, hunique⟩ :=
    (Finite.injective_iff_bijective.mp hinjective).existsUnique index
  exact ⟨offset, (hprimary offset).trans (congrArg Fin.val hoffset), fun other hother =>
    hunique other (Fin.ext ((hprimary other).symm.trans hother))⟩

end DbftRoundState

end NeoX
