import NeoX.Node.StaticPool

/-!
# The sequence of a reconstructed block

The outer transactions of a pre-block are replayed in their order. An Envelope that was resolved is
replaced by its inner transaction; when that one is refused or fails, the Envelope itself is tried.
After a transaction of a sender was dropped, all later ones of that sender are dropped.

Main results:

- `replayTransaction_spec`: what one transaction does to the sequence.
- `replayFrom_spec`: what a list of transactions does to it.
- `executeSequence_sequenced`: decisions, included transactions and senders of a whole
  pre-block.
-/

namespace NeoX

open List
open Except hiding ok error

section Sequence

variable [PoolFormat]

/-! ## Decisions -/

/-- Why an Envelope stays in the place of its inner transaction. -/
inductive AntiMevReplacementFallback where
  | static (reason : AntiMevFallbackReason)
  | poolRejection (rejection : StaticPoolRejection)
  | execution (error : String)
  deriving DecidableEq

/-- Why a transaction is dropped. -/
inductive AntiMevDropReason where
  | priorSenderFailure
  | outerExecution (error : String)
  | fallbackExecution (replacement : AntiMevReplacementFallback) (outerError : String)
  | poolRejection (rejection : StaticPoolRejection)
  deriving DecidableEq

/-- What becomes of a transaction of the pre-block. -/
inductive AntiMevTransactionDecision where
  | includedOriginal (transactionIndex : Nat)
  | includedDecrypted (transactionIndex : Nat)
  | includedFallback (transactionIndex : Nat) (reason : AntiMevReplacementFallback)
  | dropped (transactionIndex : Nat) (reason : AntiMevDropReason)
  deriving DecidableEq

namespace AntiMevTransactionDecision

def transactionIndex : AntiMevTransactionDecision → Nat
  | includedOriginal index => index
  | includedDecrypted index => index
  | includedFallback index _ => index
  | dropped index _ => index

/-- Whether the transaction is in the block. -/
def isIncluded : AntiMevTransactionDecision → Bool
  | dropped _ _ => false
  | _ => true

/-- What is in the block, from the outer transaction at the position and the resolution for the
position. -/
def selected (outer : Option Transaction) (resolution : Option AntiMevEnvelopeResolution) :
    AntiMevTransactionDecision → Option Transaction
  | includedOriginal _ => outer
  | includedFallback _ _ => outer
  | includedDecrypted _ =>
    match resolution with
    | some (.decrypted _ transaction) => some transaction
    | _ => none
  | dropped _ _ => none

end AntiMevTransactionDecision

/-- The final sequence. -/
structure ReconstructedSequence where
  transactions : List Transaction
  senders : List Address
  decisions : List AntiMevTransactionDecision
  failedSenders : Finset Address

def ReconstructedSequence.empty : ReconstructedSequence := ⟨[], [], [], ∅⟩

def ReconstructedSequence.include (sequence : ReconstructedSequence) (transaction : Transaction)
    (sender : Address) (decision : AntiMevTransactionDecision) : ReconstructedSequence :=
  { sequence with
    transactions := sequence.transactions ++ [transaction]
    senders := sequence.senders ++ [sender]
    decisions := sequence.decisions ++ [decision] }

/-- The sequence without a transaction whose sender has failed now. -/
def ReconstructedSequence.drop (sequence : ReconstructedSequence) (sender : Address)
    (transactionIndex : Nat) (reason : AntiMevDropReason) : ReconstructedSequence :=
  { sequence with
    failedSenders := insert sender sequence.failedSenders
    decisions := sequence.decisions ++ [.dropped transactionIndex reason] }

/-- The sequence without a transaction whose sender has failed before. -/
def ReconstructedSequence.skip (sequence : ReconstructedSequence) (transactionIndex : Nat) :
    ReconstructedSequence :=
  { sequence with
    decisions := sequence.decisions ++ [.dropped transactionIndex .priorSenderFailure] }

/-! ## The loop -/

/-- Execution of one transaction, which is committed when it succeeds. -/
abbrev Execute (σ : Type) := σ → Transaction → Address → Except String Unit × σ

/-- What the loop keeps from one transaction to the next. -/
structure Replay (σ : Type) where
  sequence : ReconstructedSequence
  envelopeCursor : Nat
  admission : StaticPoolAdmission
  resolutions : FiniteMap Nat AntiMevEnvelopeResolution
  execution : σ

variable {σ : Type}

/-- The resolution of the Envelope under the cursor. The cursor only moves when the loop reaches
that Envelope. -/
def Replay.takeResolution (replay : Replay σ) (envelopeIndices : List Nat)
    (transactionIndex : Nat) : Option AntiMevEnvelopeResolution × Replay σ :=
  if envelopeIndices[replay.envelopeCursor]? = some transactionIndex then
    (replay.resolutions.lookup transactionIndex,
      { replay with
        envelopeCursor := replay.envelopeCursor + 1
        resolutions := replay.resolutions.erase transactionIndex })
  else
    (none, replay)

variable [GasRules]

/-- Try the outer transaction: admit it, then execute it. -/
def Replay.includeOuter (execute : Execute σ) (replay : Replay σ) (transactionIndex : Nat)
    (outer : Transaction) (sender : Address) (included : AntiMevTransactionDecision)
    (failure : String → AntiMevDropReason) : Except String (Replay σ) := do
  match ← replay.admission.add sender outer with
  | .error rejection =>
    .ok { replay with
      sequence := replay.sequence.drop sender transactionIndex (.poolRejection rejection) }
  | .ok admission =>
    match execute replay.execution outer sender with
    | (.ok (), execution) =>
      .ok { replay with
        admission := admission
        execution := execution
        sequence := replay.sequence.include outer sender included }
    | (.error error, execution) =>
      .ok { replay with
        admission := admission
        execution := execution
        sequence := replay.sequence.drop sender transactionIndex (failure error) }

/-- Keep an Envelope whose inner transaction is not used. -/
def Replay.includeFallback (execute : Execute σ) (replay : Replay σ) (transactionIndex : Nat)
    (outer : Transaction) (sender : Address) (replacement : AntiMevReplacementFallback) :
    Except String (Replay σ) :=
  replay.includeOuter execute transactionIndex outer sender
    (.includedFallback transactionIndex replacement) (.fallbackExecution replacement)

/-- Keep a transaction that is no Envelope to the loop. -/
def Replay.includeOriginal (execute : Execute σ) (replay : Replay σ) (transactionIndex : Nat)
    (outer : Transaction) (sender : Address) : Except String (Replay σ) :=
  replay.includeOuter execute transactionIndex outer sender (.includedOriginal transactionIndex)
    .outerExecution

/-- Replace an Envelope by its inner transaction, or keep it. -/
def Replay.includeDecrypted (execute : Execute σ) (replay : Replay σ) (transactionIndex : Nat)
    (outer transaction : Transaction) (sender : Address) : Except String (Replay σ) := do
  match ← replay.admission.add sender transaction with
  | .error rejection =>
    replay.includeFallback execute transactionIndex outer sender (.poolRejection rejection)
  | .ok admission =>
    match execute replay.execution transaction sender with
    | (.ok (), execution) =>
      .ok { replay with
        admission := admission
        execution := execution
        sequence := replay.sequence.include transaction sender
          (.includedDecrypted transactionIndex) }
    | (.error error, execution) =>
      let failed := { replay with admission := admission, execution := execution }
      failed.includeFallback execute transactionIndex outer sender (.execution error)

def replayTransaction (execute : Execute σ) (envelopeIndices : List Nat) (replay : Replay σ)
    (transactionIndex : Nat) (outer : Transaction) (sender : Address) :
    Except String (Replay σ) :=
  if sender ∈ replay.sequence.failedSenders then
    .ok { replay with sequence := replay.sequence.skip transactionIndex }
  else
    match replay.takeResolution envelopeIndices transactionIndex with
    | (some (.decrypted _ transaction), replay) =>
      replay.includeDecrypted execute transactionIndex outer transaction sender
    | (some (.fallback _ reason), replay) =>
      replay.includeFallback execute transactionIndex outer sender (.static reason)
    | (none, replay) => replay.includeOriginal execute transactionIndex outer sender

def replayFrom (execute : Execute σ) (envelopeIndices : List Nat) :
    Nat → List (Transaction × Address) → Replay σ → Except String (Replay σ)
  | _, [], replay => .ok replay
  | transactionIndex, (outer, sender) :: outers, replay => do
      let replay ← replayTransaction execute envelopeIndices replay transactionIndex outer sender
      replayFrom execute envelopeIndices (transactionIndex + 1) outers replay

def executeSequence (outerTransactions : List Transaction) (outerSenders : List Address)
    (envelopeIndices : List Nat) (admission : StaticPoolAdmission)
    (resolutions : FiniteMap Nat AntiMevEnvelopeResolution) (execute : Execute σ) (start : σ) :
    Except String (Replay σ) :=
  replayFrom execute envelopeIndices 0 (outerTransactions.zip outerSenders)
    ⟨.empty, 0, admission, resolutions, start⟩

/-! ## One transaction -/

/-- An execution that failed. -/
def FailedAttempt (execute : Execute σ) (before after : σ) : Prop :=
  ∃ transaction sender error, execute before transaction sender = (.error error, after)

/-- What one transaction does: it is included after failed attempts, or it is dropped and its sender
has failed. -/
inductive Disposed (execute : Execute σ) (outer : Transaction)
    (resolution : Option AntiMevEnvelopeResolution) (transactionIndex : Nat) (sender : Address)
    (before after : Replay σ) : AntiMevTransactionDecision → Prop where
  | included {decision : AntiMevTransactionDecision} {transaction : Transaction} {attempted : σ}
      (hfresh : sender ∉ before.sequence.failedSenders)
      (hindex : decision.transactionIndex = transactionIndex)
      (hincluded : decision.isIncluded = true)
      (hselected : decision.selected (some outer) resolution = some transaction)
      (hattempts : Relation.ReflTransGen (FailedAttempt execute) before.execution attempted)
      (hexecuted : execute attempted transaction sender = (.ok (), after.execution))
      (hsequence : after.sequence = before.sequence.include transaction sender decision) :
      Disposed execute outer resolution transactionIndex sender before after decision
  | dropped {reason : AntiMevDropReason}
      (hattempts : Relation.ReflTransGen (FailedAttempt execute) before.execution after.execution)
      (hsequence : after.sequence = before.sequence.drop sender transactionIndex reason) :
      Disposed execute outer resolution transactionIndex sender before after
        (.dropped transactionIndex reason)

variable {execute : Execute σ} {envelopeIndices : List Nat} {transactionIndex : Nat}
  {outer : Transaction} {sender : Address}
  {replay next : Replay σ} {resolution : Option AntiMevEnvelopeResolution}

/-- The outer transaction is included, or it is dropped. -/
theorem includeOuter_spec {included : AntiMevTransactionDecision}
    {failure : String → AntiMevDropReason}
    (h : replay.includeOuter execute transactionIndex outer sender included failure = .ok next)
    (hfresh : sender ∉ replay.sequence.failedSenders)
    (hindex : included.transactionIndex = transactionIndex) (hincluded : included.isIncluded = true)
    (hselected : included.selected (some outer) resolution = some outer) :
    next.resolutions = replay.resolutions ∧
      ∃ decision, Disposed execute outer resolution transactionIndex sender replay next
        decision := by
  rcases bind_ok h with ⟨answer, hanswer, h⟩
  cases answer with
  | error rejection =>
    cases h
    exact ⟨rfl, _, .dropped .refl rfl⟩
  | ok admission =>
    dsimp only at h
    split at h
    · next execution hexecuted =>
        cases h
        exact ⟨rfl, _, .included hfresh hindex hincluded hselected .refl hexecuted rfl⟩
    · next error execution hexecuted =>
        cases h
        exact ⟨rfl, _, .dropped (.single ⟨outer, sender, error, hexecuted⟩) rfl⟩

theorem includeFallback_spec {replacement : AntiMevReplacementFallback}
    (resolution : Option AntiMevEnvelopeResolution)
    (h : replay.includeFallback execute transactionIndex outer sender replacement = .ok next)
    (hfresh : sender ∉ replay.sequence.failedSenders) :
    next.resolutions = replay.resolutions ∧
      ∃ decision, Disposed execute outer resolution transactionIndex sender replay next decision :=
  includeOuter_spec h hfresh rfl rfl rfl

omit [GasRules] in
theorem Disposed.of_failed {failed : Replay σ} {decision : AntiMevTransactionDecision}
    (h : Disposed execute outer resolution transactionIndex sender failed next decision)
    (hatte : FailedAttempt execute replay.execution failed.execution)
    (hsequence : failed.sequence = replay.sequence) :
    Disposed execute outer resolution transactionIndex sender replay next decision := by
  cases h with
  | included hfresh hindex hincluded hselected hattempts hexecuted hn =>
    rw [hsequence] at hfresh hn
    exact .included hfresh hindex hincluded hselected (.head hatte hattempts) hexecuted hn
  | dropped hattempts hn =>
    rw [hsequence] at hn
    exact .dropped (.head hatte hattempts) hn

/-- The inner transaction is included, or the fallback is used. -/
theorem includeDecrypted_spec {tx : Transaction} {resolution : AntiMevEnvelopeResolution}
    {pos : Nat} (hreso : resolution = .decrypted pos tx)
    (hfresh : sender ∉ replay.sequence.failedSenders)
    (h : replay.includeDecrypted execute transactionIndex outer tx sender = .ok next) :
    next.resolutions = replay.resolutions ∧ ∃ decision,
      Disposed execute outer (some resolution) transactionIndex sender replay next decision := by
  rcases bind_ok h with ⟨answer, hanswer, h⟩
  cases answer with
  | error rejection => exact includeFallback_spec _ h hfresh
  | ok admission =>
    dsimp only at h
    split at h
    · next execution hexecuted =>
        cases h
        subst hreso
        exact ⟨rfl, .includedDecrypted transactionIndex,
          .included hfresh rfl rfl rfl .refl hexecuted rfl⟩
    · next error execution hexecuted =>
        rcases includeFallback_spec (some resolution) h hfresh with ⟨hn, decision, hdisp⟩
        exact ⟨hn, decision,
          hdisp.of_failed ⟨tx, sender, error, hexecuted⟩ rfl⟩

omit [GasRules] in
theorem takeResolution_spec {found : Option AntiMevEnvelopeResolution}
    (h : replay.takeResolution envelopeIndices transactionIndex = (found, next)) :
    next.sequence = replay.sequence ∧ next.execution = replay.execution ∧
      next.admission = replay.admission ∧
      (∀ resolution, found = some resolution →
        replay.resolutions.lookup transactionIndex = some resolution) ∧
      ∀ i resolution, next.resolutions.lookup i = some resolution →
        replay.resolutions.lookup i = some resolution := by
  unfold Replay.takeResolution at h
  split at h
  · cases h
    refine ⟨rfl, rfl, rfl, fun _ hf => hf, fun i resolution hget => ?_⟩
    by_cases heq : i = transactionIndex
    · subst heq
      rw [AList.lookup_erase] at hget
      cases hget
    · rwa [AList.lookup_erase_ne heq] at hget
  · cases h
    exact ⟨rfl, rfl, rfl, (fun _ hf => nomatch hf), fun _ _ hget => hget⟩

/-- What one transaction of the pre-block does. -/
theorem replayTransaction_spec
    (h : replayTransaction execute envelopeIndices replay transactionIndex outer sender
      = .ok next) :
    (∀ i resolution, next.resolutions.lookup i = some resolution →
      replay.resolutions.lookup i = some resolution) ∧
    ∃ decision, Disposed execute outer (replay.resolutions.lookup transactionIndex)
      transactionIndex sender replay next decision := by
  unfold replayTransaction at h
  split at h
  · next hfailed =>
      cases h
      refine ⟨fun _ _ hget => hget, .dropped transactionIndex .priorSenderFailure,
        .dropped .refl ?_⟩
      rw [ReconstructedSequence.drop, Finset.insert_eq_of_mem hfailed]
      rfl
  · next hfresh =>
      generalize htaken : replay.takeResolution envelopeIndices transactionIndex = taken at h
      rcases taken with ⟨found, mid⟩
      rcases takeResolution_spec htaken with ⟨hsequence, hexecution, -, hf, hkeeps⟩
      have hmid : sender ∉ mid.sequence.failedSenders := hsequence ▸ hfresh
      -- Each branch works on the replay after the cursor has moved.
      have hspec : next.resolutions = mid.resolutions ∧ ∃ decision, Disposed execute outer
          (replay.resolutions.lookup transactionIndex) transactionIndex sender mid next
          decision := by
        cases found with
        | none => exact includeOuter_spec h hmid rfl rfl rfl
        | some resolution =>
          rw [hf resolution rfl]
          cases resolution with
          | decrypted position tx => exact includeDecrypted_spec rfl hmid h
          | fallback position reason => exact includeFallback_spec _ h hmid
      rcases hspec with ⟨hn, decision, hdisp⟩
      refine ⟨fun i resolution hget => hkeeps i resolution (hn ▸ hget), decision,
        ?_⟩
      cases hdisp with
      | included hfresh hindex hincluded hselected hattempts hexecuted hincl =>
        exact .included (hsequence ▸ hfresh) hindex hincluded hselected (hexecution ▸ hattempts)
          hexecuted (hsequence ▸ hincl)
      | dropped hattempts hdrop =>
        exact .dropped (hexecution ▸ hattempts) (hsequence ▸ hdrop)

/-! ## All transactions -/

/-- Transactions that were replayed one after the other, from a position on. -/
inductive Replayed (execute : Execute σ) (resolutions : FiniteMap Nat AntiMevEnvelopeResolution) :
    Nat → List (Transaction × Address) → List AntiMevTransactionDecision → Replay σ → Replay σ →
      Prop where
  | nil {start : Nat} {replay : Replay σ} : Replayed execute resolutions start [] [] replay replay
  | cons {start : Nat} {outer : Transaction} {sender : Address}
      {outers : List (Transaction × Address)} {decision : AntiMevTransactionDecision}
      {decisions : List AntiMevTransactionDecision} {before mid after : Replay σ}
      (hfirst : Disposed execute outer (resolutions.lookup start) start sender before mid decision)
      (hrest : Replayed execute resolutions (start + 1) outers decisions mid after) :
      Replayed execute resolutions start ((outer, sender) :: outers) (decision :: decisions)
        before after

omit [GasRules] in
/-- A selection from a part of the resolutions is a selection from all of them. -/
theorem Disposed.of_lookup {before after : Replay σ} {decision : AntiMevTransactionDecision}
    {part whole : Option AntiMevEnvelopeResolution}
    (hpart : ∀ resolution, part = some resolution → whole = some resolution)
    (h : Disposed execute outer part transactionIndex sender before after decision) :
    Disposed execute outer whole transactionIndex sender before after decision := by
  cases h with
  | included hfresh hindex hincluded hselected hattempts hexecuted hsequence =>
    refine .included hfresh hindex hincluded ?_ hattempts hexecuted hsequence
    cases decision with
    | includedDecrypted i =>
      cases part with
      | none => cases hselected
      | some resolution => rwa [hpart resolution rfl]
    | includedOriginal i => exact hselected
    | includedFallback i reason => exact hselected
    | dropped i reason => cases hselected
  | dropped hattempts hsequence => exact .dropped hattempts hsequence

/-- The loop replays every transaction. -/
theorem replayFrom_spec {resolutions : FiniteMap Nat AntiMevEnvelopeResolution}
    {outers : List (Transaction × Address)} {start : Nat}
    (hreso : ∀ i resolution, replay.resolutions.lookup i = some resolution →
      resolutions.lookup i = some resolution)
    (h : replayFrom execute envelopeIndices start outers replay = .ok next) :
    ∃ decisions, Replayed execute resolutions start outers decisions replay next := by
  induction outers generalizing start replay with
  | nil =>
    cases h
    exact ⟨[], .nil⟩
  | cons first outers ih =>
    rcases bind_ok h with ⟨mid, hmid, hn⟩
    rcases replayTransaction_spec hmid with ⟨hkeeps, decision, hdeci⟩
    rcases ih (fun i resolution hget =>
      hreso i resolution (hkeeps i resolution hget)) hn with
      ⟨decisions, hdecis⟩
    exact ⟨decision :: decisions,
      .cons (hdeci.of_lookup (hreso start)) hdecis⟩

section Replayed

omit [GasRules]

variable {resolutions : FiniteMap Nat AntiMevEnvelopeResolution} {start : Nat}
  {outers : List (Transaction × Address)} {decisions : List AntiMevTransactionDecision}
  {before after : Replay σ} {resolution : Option AntiMevEnvelopeResolution}

theorem Disposed.decisions_eq {decision : AntiMevTransactionDecision}
    (h : Disposed execute outer resolution transactionIndex sender before after decision) :
    after.sequence.decisions = before.sequence.decisions ++ [decision] ∧
      decision.transactionIndex = transactionIndex := by
  cases h with
  | included _ hindex _ _ _ _ hsequence => exact ⟨by rw [hsequence]; rfl, hindex⟩
  | dropped _ hsequence => exact ⟨by rw [hsequence]; rfl, rfl⟩

/-- Every transaction gets one decision, in the order of the positions. -/
theorem Replayed.decisions_eq
    (h : Replayed execute resolutions start outers decisions before after) :
    after.sequence.decisions = before.sequence.decisions ++ decisions ∧
      decisions.map AntiMevTransactionDecision.transactionIndex
        = List.range' start outers.length := by
  induction h with
  | nil => exact ⟨(append_nil _).symm, rfl⟩
  | cons hfirst _ ih =>
    rcases hfirst.decisions_eq with ⟨hdeci, hindex⟩
    rcases ih with ⟨hafter, hidx⟩
    constructor
    · rw [hafter, hdeci, append_assoc]
      rfl
    · rw [map_cons, hindex, hidx, length_cons, range'_succ]

/-- What is included is the outer transaction of the position or what was resolved for it, with the
sender of the position. -/
theorem Replayed.included_eq {outerTransactions : List Transaction} {outerSenders : List Address}
    (hdrop : (outerTransactions.zip outerSenders).drop start = outers)
    (h : Replayed execute resolutions start outers decisions before after) :
    after.sequence.transactions.map some = before.sequence.transactions.map some ++
        (decisions.filter AntiMevTransactionDecision.isIncluded).map (fun decision =>
          decision.selected outerTransactions[decision.transactionIndex]?
            (resolutions.lookup decision.transactionIndex)) ∧
      after.sequence.senders.map some = before.sequence.senders.map some ++
        (decisions.filter AntiMevTransactionDecision.isIncluded).map (fun decision =>
          outerSenders[decision.transactionIndex]?) := by
  induction h with
  | nil => simp
  | @cons start outer sender outers decision decisions before mid after hfirst _ ih =>
    have hat : (outerTransactions.zip outerSenders)[start]? = some (outer, sender) := by
      rw [← head?_drop, hdrop]
      rfl
    rcases getElem?_zip_eq_some.mp hat with ⟨houter, hsd⟩
    have hrest : (outerTransactions.zip outerSenders).drop (start + 1) = outers := by
      rw [← tail_drop, hdrop]
      rfl
    rcases ih hrest with ⟨htxs, hsend⟩
    rw [htxs, hsend]
    cases hfirst with
    | included hfresh hindex hincluded hselected hattempts hexecuted hsequence =>
      rw [filter_cons_of_pos hincluded, hsequence]
      rw [map_cons, map_cons, hindex, houter, hsd, hselected]
      simp [ReconstructedSequence.include]
    | dropped hattempts hsequence =>
      rw [hsequence]
      exact ⟨rfl, rfl⟩

theorem Disposed.failedSenders_subset {decision : AntiMevTransactionDecision}
    (h : Disposed execute outer resolution transactionIndex sender before after decision) :
    before.sequence.failedSenders ⊆ after.sequence.failedSenders := by
  cases h with
  | included _ _ _ _ _ _ hsequence => exact subset_of_eq (by rw [hsequence]; rfl)
  | dropped _ hsequence =>
    rw [hsequence]
    exact Finset.subset_insert _ _

/-- Transactions of a sender that has failed are dropped. -/
theorem Replayed.dropped_of_failed
    (h : Replayed execute resolutions start outers decisions before after)
    (hfailed : sender ∈ before.sequence.failedSenders) :
    ∀ (pos : Nat) (decision : AntiMevTransactionDecision),
      decisions[pos]? = some decision →
      (outers[pos]?).map Prod.snd = some sender → decision.isIncluded = false := by
  induction h with
  | nil => exact fun pos decision hdeci => nomatch hdeci
  | @cons start outer first outers decision decisions before mid after hfirst _ ih =>
    intro pos found hf hsd
    cases pos with
    | zero =>
      cases hf
      cases hsd
      cases hfirst with
      | included hfresh => exact absurd hfailed hfresh
      | dropped => rfl
    | succ pos =>
      exact ih (hfirst.failedSenders_subset hfailed) pos found hf hsd

/-- After a transaction of a sender was dropped, none of that sender is included. -/
theorem Replayed.dropped_after
    (h : Replayed execute resolutions start outers decisions before after) :
    ∀ (earlier later : Nat) (a b : AntiMevTransactionDecision), earlier < later →
      decisions[earlier]? = some a → decisions[later]? = some b →
      (outers[earlier]?).map Prod.snd = (outers[later]?).map Prod.snd →
      a.isIncluded = false → b.isIncluded = false := by
  induction h with
  | nil => exact fun earlier later a b _ hearl => nomatch hearl
  | @cons start outer sender outers decision decisions before mid after hfirst hrest ih =>
    intro earlier later a b hlt hearl hlater hsd hdrop
    cases later with
    | zero => exact absurd hlt (Nat.not_lt_zero _)
    | succ later =>
      cases earlier with
      | zero =>
        cases hearl
        have hmid : sender ∈ mid.sequence.failedSenders := by
          cases hfirst with
          | included _ _ hincluded => rw [hincluded] at hdrop; cases hdrop
          | dropped _ hsequence => rw [hsequence]; exact Finset.mem_insert_self _ _
        exact hrest.dropped_of_failed hmid later b hlater hsd.symm
      | succ earlier =>
        exact ih earlier later a b (Nat.lt_of_succ_lt_succ hlt) hearl hlater
          hsd hdrop

end Replayed

/-! ## Every pre-block is replayed -/

variable {senders : List Address}

theorem exists_includeOuter (hmem : sender ∈ senders) (replay : Replay σ)
    (hcovers : replay.admission.Covers senders) (included : AntiMevTransactionDecision)
    (failure : String → AntiMevDropReason) :
    ∃ next, replay.includeOuter execute transactionIndex outer sender included failure = .ok next ∧
      next.admission.Covers senders := by
  rcases hcovers.exists_add hmem outer with ⟨answer, hanswer⟩
  rw [Replay.includeOuter, hanswer, ok_bind]
  cases answer with
  | error rejection => exact ⟨_, rfl, hcovers⟩
  | ok admission =>
    dsimp only
    split
    · exact ⟨_, rfl, hcovers.add hanswer⟩
    · exact ⟨_, rfl, hcovers.add hanswer⟩

theorem exists_includeDecrypted (hmem : sender ∈ senders) (replay : Replay σ)
    (hcovers : replay.admission.Covers senders) (tx : Transaction) :
    ∃ next, replay.includeDecrypted execute transactionIndex outer tx sender = .ok next ∧
      next.admission.Covers senders := by
  rcases hcovers.exists_add hmem tx with ⟨answer, hanswer⟩
  rw [Replay.includeDecrypted, hanswer, ok_bind]
  cases answer with
  | error rejection => exact exists_includeOuter hmem replay hcovers _ _
  | ok admission =>
    dsimp only
    split
    · exact ⟨_, rfl, hcovers.add hanswer⟩
    · exact exists_includeOuter hmem _ (hcovers.add hanswer) _ _

theorem exists_replayTransaction (hmem : sender ∈ senders) (replay : Replay σ)
    (hcovers : replay.admission.Covers senders) :
    ∃ next, replayTransaction execute envelopeIndices replay transactionIndex outer sender
      = .ok next ∧ next.admission.Covers senders := by
  unfold replayTransaction
  split
  · exact ⟨_, rfl, hcovers⟩
  · generalize htaken : replay.takeResolution envelopeIndices transactionIndex = taken
    rcases taken with ⟨found, mid⟩
    have hmid : mid.admission.Covers senders := by
      rw [(takeResolution_spec htaken).2.2.1]
      exact hcovers
    cases found with
    | none => exact exists_includeOuter hmem mid hmid _ _
    | some resolution =>
      cases resolution with
      | decrypted position tx => exact exists_includeDecrypted hmem mid hmid tx
      | fallback position reason => exact exists_includeOuter hmem mid hmid _ _

theorem exists_replayFrom {outers : List (Transaction × Address)}
    (hmem : ∀ e ∈ outers, e.2 ∈ senders) (start : Nat) (replay : Replay σ)
    (hcovers : replay.admission.Covers senders) :
    ∃ next, replayFrom execute envelopeIndices start outers replay = .ok next := by
  induction outers generalizing start replay with
  | nil => exact ⟨_, rfl⟩
  | cons first outers ih =>
    rw [forall_mem_cons] at hmem
    rcases exists_replayTransaction hmem.1 replay hcovers with ⟨mid, hmid, hcovers⟩
    rcases ih hmem.2 (start + 1) mid hcovers with ⟨next, hn⟩
    exact ⟨next, bind_eq_ok.mpr ⟨mid, hmid, hn⟩⟩

/-! ## Pre-blocks that pass as they are -/

/-- The pool admits the transactions one after another, and each of them can be executed. -/
inductive Passes (execute : Execute σ) :
    StaticPoolAdmission → σ → List (Transaction × Address) → σ → Prop where
  | nil {admission : StaticPoolAdmission} {state : σ} : Passes execute admission state [] state
  | cons {admission next : StaticPoolAdmission} {state mid final : σ} {outer : Transaction}
      {sender : Address} {outers : List (Transaction × Address)}
      (hadd : admission.add sender outer = .ok (.ok next))
      (hexecuted : execute state outer sender = (.ok (), mid))
      (hrest : Passes execute next mid outers final) :
      Passes execute admission state ((outer, sender) :: outers) final

variable {admission : StaticPoolAdmission} {execution : σ}

theorem includeOuter_of_passes {included : AntiMevTransactionDecision}
    {failure : String → AntiMevDropReason}
    (hadd : replay.admission.add sender outer = .ok (.ok admission))
    (hexecuted : execute replay.execution outer sender = (.ok (), execution)) :
    replay.includeOuter execute transactionIndex outer sender included failure
      = .ok { replay with
          admission := admission
          execution := execution
          sequence := replay.sequence.include outer sender included } := by
  rw [Replay.includeOuter, hadd, ok_bind]
  dsimp only
  rw [hexecuted]

/-- No Envelope resolves to an inner transaction. -/
def Replay.NoneDecrypted (replay : Replay σ) : Prop :=
  ∀ position index transaction,
    replay.resolutions.lookup position ≠ some (.decrypted index transaction)

/-- Without inner transactions, what passes as it is stays as it is. -/
theorem replayTransaction_of_passes (hfresh : replay.sequence.failedSenders = ∅)
    (hkept : replay.NoneDecrypted) (hadd : replay.admission.add sender outer = .ok (.ok admission))
    (hexecuted : execute replay.execution outer sender = (.ok (), execution)) :
    ∃ next decision,
      replayTransaction execute envelopeIndices replay transactionIndex outer sender = .ok next ∧
      next.admission = admission ∧ next.execution = execution ∧ next.NoneDecrypted ∧
      next.sequence = replay.sequence.include outer sender decision := by
  have hnotF : sender ∉ replay.sequence.failedSenders := by
    rw [hfresh]
    exact Finset.notMem_empty sender
  rcases htake : replay.takeResolution envelopeIndices transactionIndex with ⟨resolution, taken⟩
  rcases takeResolution_spec htake with ⟨hsequence, hexecution, hadmi, hf, hget⟩
  have htaken : taken.NoneDecrypted := fun pos i tx hsome =>
    hkept pos i tx (hget pos _ hsome)
  rw [← hadmi] at hadd
  rw [← hexecution] at hexecuted
  rw [replayTransaction, if_neg hnotF, htake]
  cases resolution with
  | none =>
    refine ⟨_, .includedOriginal transactionIndex, includeOuter_of_passes hadd hexecuted, rfl, rfl,
      htaken, ?_⟩
    exact congrArg (ReconstructedSequence.include · outer sender _) hsequence
  | some resolution =>
    cases resolution with
    | decrypted i tx => exact absurd (hf _ rfl) (hkept _ i tx)
    | fallback i reason =>
      refine ⟨_, .includedFallback transactionIndex (.static reason),
        includeOuter_of_passes hadd hexecuted, rfl, rfl, htaken, ?_⟩
      exact congrArg (ReconstructedSequence.include · outer sender _) hsequence

/-- A pre-block that passes as it is and whose Envelopes all fall back is replayed to itself. -/
theorem replayFrom_of_passes (envelopeIndices : List Nat) (outers : List (Transaction × Address))
    (start : Nat) (replay : Replay σ) {final : σ} (hfresh : replay.sequence.failedSenders = ∅)
    (hkept : replay.NoneDecrypted)
    (h : Passes execute replay.admission replay.execution outers final) :
    ∃ r, replayFrom execute envelopeIndices start outers replay = .ok r ∧
      r.execution = final ∧
      r.sequence.transactions = replay.sequence.transactions ++ outers.map Prod.fst ∧
      r.sequence.senders = replay.sequence.senders ++ outers.map Prod.snd := by
  induction outers generalizing replay start with
  | nil =>
    cases h
    exact ⟨replay, rfl, rfl, (append_nil _).symm, (append_nil _).symm⟩
  | cons entry outers ih =>
    cases h with
    | cons hadd hexecuted hrest =>
      rcases replayTransaction_of_passes hfresh hkept hadd hexecuted with
        ⟨next, decision, hn, rfl, rfl, hno, hsequence⟩
      have hstill : next.sequence.failedSenders = ∅ := by
        rw [hsequence]
        exact hfresh
      rcases ih (start + 1) next hstill hno hrest with
        ⟨r, hres, hfinal, htxs, hsend⟩
      refine ⟨r, ?_, hfinal, ?_, ?_⟩
      · rw [replayFrom, hn, ok_bind, hres]
      · rw [htxs, hsequence]
        simp [ReconstructedSequence.include]
      · rw [hsend, hsequence]
        simp [ReconstructedSequence.include]

/-- The sequence of a pre-block: one decision for each position in order, the included transactions
and their senders by position, and none of a sender after one that was dropped. -/
structure Sequenced (outerTransactions : List Transaction) (outerSenders : List Address)
    (resolutions : FiniteMap Nat AntiMevEnvelopeResolution) (sequence : ReconstructedSequence) :
    Prop where
  positions : sequence.decisions.map AntiMevTransactionDecision.transactionIndex
    = List.range (min outerTransactions.length outerSenders.length)
  transactions : sequence.transactions.map some
    = (sequence.decisions.filter AntiMevTransactionDecision.isIncluded).map fun decision =>
      decision.selected outerTransactions[decision.transactionIndex]?
        (resolutions.lookup decision.transactionIndex)
  senders : sequence.senders.map some
    = (sequence.decisions.filter AntiMevTransactionDecision.isIncluded).map fun decision =>
      outerSenders[decision.transactionIndex]?
  dropped : ∀ (earlier later : Nat) (first second : AntiMevTransactionDecision), earlier < later →
    sequence.decisions[earlier]? = some first → sequence.decisions[later]? = some second →
    outerSenders[earlier]? = outerSenders[later]? →
    first.isIncluded = false → second.isIncluded = false

/-- For every pre-block, Envelope index list, resolutions, pool and execution: the replay returns
when the pool has the accounts of the senders, and every sequence that it returns has one decision
for each outer transaction in index order, includes the outer or the resolved transaction of the
same index with its sender, and includes none of a sender after one that was dropped. -/
theorem executeSequence_sequenced (outerTransactions : List Transaction)
    (outerSenders : List Address) (envelopeIndices : List Nat) (admission : StaticPoolAdmission)
    (resolutions : FiniteMap Nat AntiMevEnvelopeResolution) (execute : Execute σ) (start : σ) :
    (admission.Covers outerSenders → ∃ result, executeSequence outerTransactions outerSenders
      envelopeIndices admission resolutions execute start = .ok result) ∧
    ∀ result, executeSequence outerTransactions outerSenders envelopeIndices admission resolutions
        execute start = .ok result →
      Sequenced outerTransactions outerSenders resolutions result.sequence := by
  constructor
  · intro hcovers
    apply exists_replayFrom _ 0 _ hcovers
    intro entry hmem
    exact (List.of_mem_zip hmem).2
  · intro result h
    rcases replayFrom_spec (fun _ _ hlookup => hlookup) h with ⟨decisions, hreplayed⟩
    rcases hreplayed.decisions_eq with ⟨hdecisions, hindices⟩
    rcases hreplayed.included_eq List.drop_zero with ⟨htransactions, hsenders⟩
    have hall : result.sequence.decisions = decisions := hdecisions
    rw [List.length_zip, ← List.range_eq_range'] at hindices
    constructor
    · rw [hall, hindices]
    · rw [hall]
      exact htransactions
    · rw [hall]
      exact hsenders
    · intro earlier later first second hlt hearlier hlater hsender hdropped
      rw [hall] at hearlier hlater
      have hsnd : ∀ (position : Nat) (decision : AntiMevTransactionDecision),
          decisions[position]? = some decision →
          ((outerTransactions.zip outerSenders)[position]?).map Prod.snd
            = outerSenders[position]? := by
        intro position decision hdecision
        have hlength := congrArg List.length hindices
        have hlt := (List.getElem?_eq_some_iff.mp hdecision).1
        rw [List.length_map, List.length_range] at hlength
        have hzip : position < (outerTransactions.zip outerSenders).length := by
          rw [List.length_zip]
          omega
        have hsenders : position < outerSenders.length := by omega
        rw [List.getElem?_eq_getElem hzip, List.getElem?_eq_getElem hsenders, List.getElem_zip,
          Option.map_some]
      exact hreplayed.dropped_after earlier later first second hlt hearlier hlater
        ((hsnd earlier first hearlier).trans (hsender.trans (hsnd later second hlater).symm))
        hdropped

end Sequence

end NeoX
