import Mathlib.Data.Set.List
import NeoX.Library.Correlation
import NeoX.Library.Postcondition
import NeoX.Library.Traversal
import NeoX.Network.Admission
import NeoX.Node.Resolution
import NeoX.Node.Symbolic

/-!
# Recovering the transactions of a proposal

A proposal lists the hashes of its transactions. Those that the pool does not have are requested
from one peer at a time, and every answer fills some of the missing positions until the proposal is
complete. Answers are matched to proposals by request identifiers, which are kept twice: in a table
from identifiers to proposals, and in the entry of the proposal that waits for the answer.

Main results:

- `ProposalTransactionSync.nextAction_ensures`: what happens to a proposal that waits
  for no answer.
- `ProposalTransactionSync.run_correlated`: over every sequence of calls, what is
  returned is right, and the two places agree as long as no proposal is begun again while it waits
  for an answer.
-/

namespace NeoX

open List FiniteMap
open Except hiding ok error

/-- Functions of the transaction package for transactions of the pool, which carry their blobs. -/
class PooledFormat extends TransactionFormat where
  Pooled : Type
  Sidecar : Type
  pooledHash : Pooled → B256
  /-- The sidecar of a blob transaction. -/
  sidecar : Pooled → Option Sidecar
  /-- The transaction without its sidecar. -/
  signed : Pooled → Transaction
  txHash_signed : ∀ pooled, txHash (signed pooled) = pooledHash pooled

export PooledFormat (Pooled)

def maxProposalTransactions : Nat := 100000

/-- Milliseconds until a request is given up. -/
def proposalTransactionRequestTimeout : Nat := 5000

/-- Why a proposal or an answer is refused. -/
inductive TransactionSyncError where
  | tooManyTransactions (count : Nat)
  | duplicateTransaction (hash : B256)
  | unknownTransactionResponse (requestId : UInt64)
  | emptyTransactionResponse (requestId : UInt64)
  | wrongTransactionPeer (requestId : UInt64) (expected actual : PeerId)
  | unexpectedTransaction (hash : B256)
  deriving DecidableEq

/-- Why a call does not return: an expectation of the code fails, or the search for a free
identifier does not end. -/
inductive SyncAbort where
  | panicked (message : String)
  | endless
  deriving DecidableEq

/-- A proposal of a view. -/
structure ProposalKey where
  view : UInt8
  proposalHash : B256
  deriving DecidableEq

/-- A request that waits for its answer. -/
structure ActiveTransactionRequest where
  requestId : UInt64
  peerId : PeerId
  requestedAt : Nat
  deriving DecidableEq

/-- A request for transactions. -/
structure GetTransactions where
  requestId : UInt64
  hashes : List B256
  deriving DecidableEq

section Sync

variable [PooledFormat]

/-- An answer with transactions. -/
structure TransactionsPacket where
  requestId : UInt64
  message : List Pooled

/-- What is to be done for a proposal. -/
inductive ProposalTransactionAction where
  | request (peerId : PeerId) (request : GetTransactions)
  | ready (view : UInt8) (proposalHash : B256) (request : DbftPrepareRequest)
      (transactions : List Transaction) (sidecars : List PooledFormat.Sidecar)
  | waiting (view : UInt8) (proposalHash : B256)

/-- A proposal with missing transactions: one position for each hash. -/
structure PendingProposalTransactions where
  view : UInt8
  proposalHash : B256
  request : DbftPrepareRequest
  transactions : List (Option Pooled)
  candidates : List PeerId
  attempted : Finset PeerId
  active : Option ActiveTransactionRequest
  length_eq : transactions.length = request.transactionHashes.length

/-- The proposals that are recovered, and the proposals of the requests. -/
structure ProposalTransactionSync where
  nextRequestId : UInt64 := 0
  pending : FiniteMap ProposalKey PendingProposalTransactions := ∅
  requests : FiniteMap UInt64 ProposalKey := ∅

/-! ## One proposal -/

namespace PendingProposalTransactions

def missing (pending : PendingProposalTransactions) : List B256 :=
  (pending.request.transactionHashes.zip pending.transactions).filterMap fun position =>
    if position.2.isNone then some position.1 else none

/-- The positions without a transaction, by their hashes. -/
def missingIndices (pending : PendingProposalTransactions) : FiniteMap B256 Nat :=
  (pending.request.transactionHashes.zip pending.transactions).zipIdx.foldl
    (fun missing position =>
      if position.1.2.isNone then missing.insert position.1.1 position.2 else missing) ∅

def complete (pending : PendingProposalTransactions) : Bool :=
  pending.transactions.all Option.isSome

/-- Hand the transactions and the sidecars over, in the order of the positions. -/
def ready (pending : PendingProposalTransactions) : Except SyncAbort ProposalTransactionAction := do
  let pooled ← pending.transactions.mapM
    (ofOption (.panicked "missing transactions checked above"))
  .ok (.ready pending.view pending.proposalHash pending.request (pooled.map PooledFormat.signed)
    (pooled.filterMap PooledFormat.sidecar))

/-- The first peer that was not asked yet. -/
def untried (pending : PendingProposalTransactions) : Option PeerId :=
  pending.candidates.find? fun candidate => candidate ∉ pending.attempted

def addCandidate (pending : PendingProposalTransactions) (peerId : PeerId) :
    PendingProposalTransactions :=
  { pending with
    candidates :=
      if peerId ∈ pending.candidates then pending.candidates else pending.candidates ++ [peerId] }

def removeCandidate (pending : PendingProposalTransactions) (peerId : PeerId) :
    PendingProposalTransactions :=
  { pending with
    candidates := pending.candidates.filter fun candidate => candidate ≠ peerId
    attempted := pending.attempted.erase peerId }

def release (pending : PendingProposalTransactions) : PendingProposalTransactions :=
  { pending with active := none }

def fill (pending : PendingProposalTransactions) :
    List (Nat × Pooled) → PendingProposalTransactions
  | [] => pending
  | (index, transaction) :: updates =>
    fill
      { pending with
        transactions := pending.transactions.set index (some transaction)
        length_eq := by rw [List.length_set, pending.length_eq] }
      updates

end PendingProposalTransactions

/-- The positions that an answer fills. -/
def collectUpdates (missing : FiniteMap B256 Nat) :
    Finset B256 → List Pooled → Except TransactionSyncError (List (Nat × Pooled))
  | _, [] => .ok []
  | supplied, transaction :: transactions =>
    let hash := PooledFormat.pooledHash transaction
    match missing.lookup hash with
    | none => .error (.unexpectedTransaction hash)
    | some index =>
      if hash ∈ supplied then
        .error (.duplicateTransaction hash)
      else do
        let updates ← collectUpdates missing (insert hash supplied) transactions
        .ok ((index, transaction) :: updates)

def checkDistinct : Finset B256 → List B256 → Except TransactionSyncError Unit
  | _, [] => .ok ()
  | unique, hash :: hashes =>
    if hash ∈ unique then .error (.duplicateTransaction hash)
    else checkDistinct (insert hash unique) hashes

/-- The hashes of a proposal are not too many and all different. -/
def validateProposalHashSet (hashes : List B256) : Except TransactionSyncError Unit :=
  if hashes.length > maxProposalTransactions then .error (.tooManyTransactions hashes.length)
  else checkDistinct ∅ hashes

def distinctPeers (peers : List PeerId) : List PeerId :=
  peers.foldl
    (fun candidates candidate =>
      if candidate ∈ candidates then candidates else candidates ++ [candidate]) []

def preferPeer (peerId : PeerId) (candidates : List PeerId) : List PeerId :=
  match candidates, candidates.idxOf? peerId with
  | first :: _, some index => (candidates.set index first).set 0 peerId
  | _, _ => candidates

namespace ProposalTransactionSync

/-! ## Requests -/

/-- The identifier after another one. Zero is left out. -/
def succId (requestId : UInt64) : UInt64 := max (requestId + 1) 1

/-- Look for an identifier without an entry. -/
def searchId (requests : FiniteMap UInt64 ProposalKey) : Nat → UInt64 → Option UInt64
  | 0, _ => none
  | tries + 1, requestId =>
    if requests.has (succId requestId) then searchId requests tries (succId requestId)
    else some (succId requestId)

/-- The next free identifier. When there is one, it is found within one try more than there are
entries, and otherwise the search never ends. -/
def allocateRequestId (sync : ProposalTransactionSync) : Except SyncAbort UInt64 :=
  ofOption .endless
    (searchId sync.requests (sync.requests.size + 1) sync.nextRequestId)

/-- The peer to ask next. When all were asked and a new cycle may start, it is the first one. -/
def chooseCandidate (sync : ProposalTransactionSync) (key : ProposalKey) (retryCycle : Bool) :
    Except SyncAbort (Option PeerId × ProposalTransactionSync) :=
  match (sync.pending.lookup key).bind PendingProposalTransactions.untried, retryCycle with
  | none, true => do
      let pending ← ofOption (.panicked "pending proposal exists") (sync.pending.lookup key)
      .ok (pending.candidates.head?,
        { sync with pending := sync.pending.insert key { pending with attempted := ∅ } })
  | candidate, _ => .ok (candidate, sync)

/-- Ask a peer for what is missing. -/
def issue (clock : ProposalKey → Nat) (sync : ProposalTransactionSync) (key : ProposalKey)
    (peerId : PeerId) : Except SyncAbort (ProposalTransactionAction × ProposalTransactionSync) := do
  let requestId ← sync.allocateRequestId
  let pending ← ofOption (.panicked "pending proposal exists") (sync.pending.lookup key)
  .ok (.request peerId ⟨requestId, pending.missing⟩,
    { nextRequestId := requestId
      pending := sync.pending.insert key
        { pending with
          attempted := insert peerId pending.attempted
          active := some ⟨requestId, peerId, clock key⟩ }
      requests := sync.requests.insert requestId key })

/-- Hand a complete proposal over, or ask the next peer. The clock says when the request of a
proposal is made. -/
def nextAction (clock : ProposalKey → Nat) (sync : ProposalTransactionSync) (key : ProposalKey)
    (retryCycle : Bool) :
    Except SyncAbort (ProposalTransactionAction × ProposalTransactionSync) :=
  if (sync.pending.lookup key).any PendingProposalTransactions.complete then do
    let pending ← ofOption (.panicked "complete proposal remains pending")
      (sync.pending.lookup key)
    let action ← pending.ready
    .ok (action, { sync with pending := sync.pending.erase key })
  else do
    let (candidate, sync) ← sync.chooseCandidate key retryCycle
    match candidate with
    | none => .ok (.waiting key.view key.proposalHash, sync)
    | some peerId => sync.issue clock key peerId

/-! ## Calls -/

/-- Hand a new proposal over, or keep it and ask for what is missing. -/
def finishOrRequest (clock : ProposalKey → Nat) (sync : ProposalTransactionSync)
    (pending : PendingProposalTransactions) :
    Except SyncAbort (ProposalTransactionAction × ProposalTransactionSync) :=
  if pending.missing = [] then do
    let action ← pending.ready
    .ok (action, sync)
  else
    let key : ProposalKey := ⟨pending.view, pending.proposalHash⟩
    nextAction clock { sync with pending := sync.pending.insert key pending } key false

/-- A new proposal with the transactions of the pool. -/
def opened (peerId : PeerId) (view : UInt8) (proposalHash : B256) (request : DbftPrepareRequest)
    (peers : List PeerId) (pool : B256 → Option Pooled) : PendingProposalTransactions where
  view := view
  proposalHash := proposalHash
  request := request
  transactions := request.transactionHashes.map fun hash =>
    (pool hash).filter fun transaction => PooledFormat.pooledHash transaction = hash
  candidates := preferPeer peerId (distinctPeers peers)
  attempted := ∅
  active := none
  length_eq := List.length_map _

/-- Start to recover a proposal, with all peers that may be asked. To begin with one peer is to
begin with that peer alone. -/
def beginWithPeers (clock : ProposalKey → Nat) (sync : ProposalTransactionSync) (peerId : PeerId)
    (view : UInt8) (proposalHash : B256) (request : DbftPrepareRequest) (peers : List PeerId)
    (pool : B256 → Option Pooled) :
    Except SyncAbort
      (Except TransactionSyncError ProposalTransactionAction × ProposalTransactionSync) :=
  match validateProposalHashSet request.transactionHashes with
  | .error reason => .ok (.error reason, sync)
  | .ok () => do
      let (action, sync) ←
        finishOrRequest clock sync (opened peerId view proposalHash request peers pool)
      .ok (.ok action, sync)

def supply (clock : ProposalKey → Nat) (sync : ProposalTransactionSync) (peerId : PeerId)
    (response : TransactionsPacket) :
    Except SyncAbort
      (Except TransactionSyncError ProposalTransactionAction × ProposalTransactionSync) :=
  match sync.requests.lookup response.requestId with
  | none => .ok (.error (.unknownTransactionResponse response.requestId), sync)
  | some key => do
      let pending ← ofOption (.panicked "correlated proposal must remain pending")
        (sync.pending.lookup key)
      let active ← ofOption (.panicked "correlated request must be active") pending.active
      if active.peerId ≠ peerId then
        .ok (.error (.wrongTransactionPeer response.requestId active.peerId peerId), sync)
      else
        match collectUpdates pending.missingIndices ∅ response.message with
        | .error reason => .ok (.error reason, sync)
        | .ok [] => .ok (.error (.emptyTransactionResponse response.requestId), sync)
        | .ok (update :: updates) => do
            let (action, sync) ← nextAction clock
              { sync with
                requests := sync.requests.erase response.requestId
                pending := sync.pending.insert key (pending.release.fill (update :: updates)) }
              key false
            .ok (.ok action, sync)

/-- A further peer has the transactions of a proposal. -/
def addSource (clock : ProposalKey → Nat) (sync : ProposalTransactionSync) (peerId : PeerId)
    (view : UInt8) (proposalHash : B256) :
    Except SyncAbort (List ProposalTransactionAction × ProposalTransactionSync) :=
  let key : ProposalKey := ⟨view, proposalHash⟩
  match sync.pending.lookup key with
  | none => .ok ([], sync)
  | some pending => do
      let sync := { sync with pending := sync.pending.insert key (pending.addCandidate peerId) }
      if pending.active.isNone then
        let (action, sync) ← nextAction clock sync key false
        .ok ([action], sync)
      else
        .ok ([], sync)

/-- Ask again for a proposal, after its request was given up if it has one. -/
def renew (clock : ProposalKey → Nat) (retryCycle : Bool) (sync : ProposalTransactionSync)
    (item : ProposalKey × Option UInt64) :
    Except SyncAbort (List ProposalTransactionAction × ProposalTransactionSync) := do
  let sync ←
    match item.2 with
    | none => .ok sync
    | some requestId => do
        let pending ← ofOption (.panicked "pending proposal exists")
          (sync.pending.lookup item.1)
        .ok { sync with
          requests := sync.requests.erase requestId
          pending := sync.pending.insert item.1 pending.release }
  let (action, sync) ← nextAction clock sync item.1 retryCycle
  .ok ([action], sync)

/-- A further peer may be asked for every proposal. -/
def addPeer (order : FiniteMap.Traversal ProposalKey PendingProposalTransactions)
    (clock : ProposalKey → Nat) (sync : ProposalTransactionSync) (peerId : PeerId) :
    Except SyncAbort (List ProposalTransactionAction × ProposalTransactionSync) :=
  let idle := (order.visit sync.pending).filterMap fun entry =>
    if entry.2.active.isNone then some (entry.1, none) else none
  Except.collect (renew clock false) idle
    { sync with pending := sync.pending.mapValues fun _ pending => pending.addCandidate peerId }

/-- A request has failed: ask the next peer. -/
def retryRequest (clock : ProposalKey → Nat) (sync : ProposalTransactionSync) (requestId : UInt64)
    (retryCycle : Bool) :
    Except SyncAbort (List ProposalTransactionAction × ProposalTransactionSync) :=
  match sync.requests.lookup requestId with
  | none => .ok ([], sync)
  | some key => do
      let sync := { sync with requests := sync.requests.erase requestId }
      match sync.pending.lookup key with
      | none => .ok ([], sync)
      | some pending =>
        let pending :=
          if pending.active.any fun active => active.requestId = requestId then pending.release
          else pending
        let (action, sync) ← nextAction clock
          { sync with pending := sync.pending.insert key pending } key retryCycle
        .ok ([action], sync)

/-- A peer has gone: the requests that it was to answer have failed. -/
def removePeer (order : FiniteMap.Traversal ProposalKey PendingProposalTransactions)
    (clock : ProposalKey → Nat) (sync : ProposalTransactionSync) (peerId : PeerId) :
    Except SyncAbort (List ProposalTransactionAction × ProposalTransactionSync) :=
  let failed := (order.visit sync.pending).filterMap fun entry =>
    (entry.2.active.filter fun active => active.peerId = peerId).map
      ActiveTransactionRequest.requestId
  Except.collect (fun sync requestId => retryRequest clock sync requestId false) failed
    { sync with pending := sync.pending.mapValues fun _ pending => pending.removeCandidate peerId }

/-- Whether a proposal is to be asked for again: nothing is waited for, or for too long. -/
def expired (now : Nat) (entry : ProposalKey × PendingProposalTransactions) :
    Option (ProposalKey × Option UInt64) :=
  match entry.2.active with
  | none => some (entry.1, none)
  | some active =>
    if now - active.requestedAt ≥ proposalTransactionRequestTimeout then
      some (entry.1, some active.requestId)
    else
      none

def expireRequestsAt (order : FiniteMap.Traversal ProposalKey PendingProposalTransactions)
    (clock : ProposalKey → Nat) (sync : ProposalTransactionSync) (now : Nat) :
    Except SyncAbort (List ProposalTransactionAction × ProposalTransactionSync) :=
  Except.collect (renew clock true) ((order.visit sync.pending).filterMap (expired now)) sync

def clear (sync : ProposalTransactionSync) : ProposalTransactionSync :=
  { sync with pending := ∅, requests := ∅ }

end ProposalTransactionSync

/-- What is handed over is a proposal that was begun, with its transactions in the order of the
hashes and the sidecars of its blob transactions. -/
def ProposalTransactionAction.Exact (begun : List (ProposalKey × DbftPrepareRequest)) :
    ProposalTransactionAction → Prop
  | .ready view proposalHash proposal transactions sidecars =>
    (⟨view, proposalHash⟩, proposal) ∈ begun ∧
    transactions.map TransactionFormat.txHash = proposal.transactionHashes ∧
    ∃ pooled : List Pooled, transactions = pooled.map PooledFormat.signed ∧
      sidecars = pooled.filterMap PooledFormat.sidecar
  | _ => True

/-! ## Positions -/

variable {updates : List (Nat × Pooled)} {txs : List Pooled}

namespace PendingProposalTransactions

variable {pending : PendingProposalTransactions}

/-- Every transaction stands at the position of its hash. -/
def Matches (pending : PendingProposalTransactions) : Prop :=
  ∀ (index : Nat) transaction, pending.transactions[index]? = some (some transaction) →
    pending.request.transactionHashes[index]? = some (PooledFormat.pooledHash transaction)

theorem missing_eq_nil : pending.missing = [] ↔ pending.complete = true := by
  have hposi : pending.transactions =
      (pending.request.transactionHashes.zip pending.transactions).map Prod.snd :=
    (map_snd_zip pending.length_eq.le).symm
  unfold missing complete
  rw [hposi, all_map, filterMap_eq_nil_iff, all_eq_true, ← hposi]
  simp [Option.isNone_iff_eq_none, Option.isSome_iff_ne_none]

/-- A complete proposal is handed over, with every transaction at the position of its hash. -/
theorem ready_of_complete (hmatc : pending.Matches) (hcomplete : pending.complete = true) :
    ∃ pooled : List Pooled,
      pooled.map PooledFormat.pooledHash = pending.request.transactionHashes ∧
      pending.ready = .ok (.ready pending.view pending.proposalHash pending.request
        (pooled.map PooledFormat.signed) (pooled.filterMap PooledFormat.sidecar)) := by
  have hr : pending.transactions ∈ Set.range (map some) := by
    rw [Set.range_list_map]
    intro slot hsl
    obtain ⟨transaction, htx⟩ :=
      Option.isSome_iff_exists.mp (all_eq_true.mp hcomplete slot hsl)
    exact ⟨transaction, htx.symm⟩
  obtain ⟨pooled, hpooled⟩ := hr
  refine ⟨pooled, ?_, ?_⟩
  · have hlen := pending.length_eq
    rw [← hpooled, length_map] at hlen
    apply ext_getElem?
    intro i
    rw [getElem?_map]
    cases hf : pooled[i]? with
    | none => simpa [hlen] using hf
    | some transaction =>
      rw [Option.map_some, hmatc i transaction]
      rw [← hpooled, getElem?_map, hf, Option.map_some]
  · have hmap : (pooled.map some).mapM
        (ofOption (SyncAbort.panicked "missing transactions checked above")) =
          .ok pooled := by
      rw [mapM_eq_ok, forall₂_map_left_iff, forall₂_same]
      intro transaction _
      rfl
    rw [ready, ← hpooled, hmap, ok_bind]

section Fill

theorem getElem?_of_missingIndices {hash : B256} {i : Nat}
    (h : pending.missingIndices.lookup hash = some i) :
    pending.request.transactionHashes[i]? = some hash := by
  have hfold (positions : List ((B256 × Option Pooled) × Nat)) (found : FiniteMap B256 Nat)
      (hposi : ∀ pos ∈ positions,
        pending.request.transactionHashes[pos.2]? = some pos.1.1)
      (hf : ∀ hash (i : Nat), found.lookup hash = some i →
        pending.request.transactionHashes[i]? = some hash) :
      ∀ hash (i : Nat), (positions.foldl (fun missing pos =>
          if pos.1.2.isNone then missing.insert pos.1.1 pos.2 else missing)
          found).lookup hash = some i →
        pending.request.transactionHashes[i]? = some hash := by
    induction positions generalizing found with
    | nil => exact hf
    | cons pos positions ih =>
      refine ih _ (fun o ho => hposi o (mem_cons_of_mem _ ho)) ?_
      intro hash i hlookup
      dsimp only at hlookup
      split at hlookup
      · rw [lookup_insert_if] at hlookup
        split at hlookup
        · next heq =>
            cases hlookup
            rw [heq]
            exact hposi pos mem_cons_self
        · exact hf hash i hlookup
      · exact hf hash i hlookup
  refine hfold _ _ ?_ ?_ hash i h
  · rintro ⟨⟨found, slot⟩, pos⟩ hpos
    have hget := mem_zipIdx_iff_getElem?.mp hpos
    exact (getElem?_zip_eq_some.mp hget).1
  · intro hash i hempty
    cases hempty

theorem lookup_of_collectUpdates {missing : FiniteMap B256 Nat} {supplied : Finset B256}
    (h : collectUpdates missing supplied txs = .ok updates) :
    ∀ update ∈ updates, missing.lookup (PooledFormat.pooledHash update.2) = some update.1 := by
  induction txs generalizing supplied updates with
  | nil =>
    cases h
    simp
  | cons transaction txs ih =>
    unfold collectUpdates at h
    dsimp only at h
    split at h
    · cases h
    · next index hi =>
        split at h
        · cases h
        · obtain ⟨rest, hr, h⟩ := bind_ok h
          cases h
          intro update hupdate
          rcases mem_cons.mp hupdate with rfl | hupdate
          · exact hi
          · exact ih hr update hupdate

theorem fill_eq (pending : PendingProposalTransactions) (updates : List (Nat × Pooled)) :
    ∃ transactions hlen, pending.fill updates =
      { pending with transactions := transactions, length_eq := hlen } := by
  induction updates generalizing pending with
  | nil => exact ⟨_, _, rfl⟩
  | cons update updates ih =>
    obtain ⟨transactions, hlen, hfill⟩ := ih
      { pending with
        transactions := pending.transactions.set update.1 (some update.2)
        length_eq := by rw [length_set, pending.length_eq] }
    exact ⟨transactions, hlen, hfill⟩

theorem active_fill (pending : PendingProposalTransactions) (updates : List (Nat × Pooled)) :
    (pending.fill updates).active = pending.active := by
  obtain ⟨txs, hlen, hfill⟩ := pending.fill_eq updates
  rw [hfill]

/-- Transactions are filled in at the positions of their hashes. -/
theorem Matches.fill (h : pending.Matches)
    (hupda : ∀ update ∈ updates, pending.request.transactionHashes[update.1]? =
      some (PooledFormat.pooledHash update.2)) :
    (pending.fill updates).Matches := by
  induction updates generalizing pending with
  | nil => exact h
  | cons update updates ih =>
    refine ih ?_ (fun o ho => hupda o (mem_cons_of_mem _ ho))
    intro i transaction hf
    rw [getElem?_set] at hf
    split at hf
    · next heq =>
        subst heq
        split at hf
        · cases hf
          exact hupda update mem_cons_self
        · cases hf
    · exact h i transaction hf

end Fill

theorem matches_opened (peerId : PeerId) (view : UInt8) (proposalHash : B256)
    (req : DbftPrepareRequest) (peers : List PeerId) (pool : B256 → Option Pooled) :
    (ProposalTransactionSync.opened peerId view proposalHash req peers pool).Matches := by
  intro i transaction hf
  obtain ⟨hash, hhash, hsl⟩ := Option.map_eq_some_iff.mp (getElem?_map.symm.trans hf)
  have hfilter := (Option.filter_eq_some_iff.mp hsl).2
  exact hhash.trans (congrArg some (of_decide_eq_true hfilter).symm)

end PendingProposalTransactions

namespace ProposalTransactionSync

/-! ## Identifiers -/

variable {id : UInt64}

section Identifiers

variable {requests : FiniteMap UInt64 ProposalKey}

omit [PooledFormat] in
theorem toNat_succId (id : UInt64) :
    (succId id).toNat = id.toNat % (2 ^ 64 - 1) + 1 := by
  have hlt := id.toNat_lt
  have hadd : (id + 1).toNat = (id.toNat + 1) % 2 ^ 64 := UInt64.toNat_add _ _
  unfold succId
  rw [UInt64.max_def]
  split
  · next hle =>
      rw [UInt64.le_iff_toNat_le, hadd, UInt64.toNat_one] at hle
      rw [UInt64.toNat_one]
      omega
  · next hlt =>
      rw [UInt64.le_iff_toNat_le, hadd, UInt64.toNat_one] at hlt
      rw [hadd]
      omega

omit [PooledFormat] in
theorem toNat_succId_iterate (id : UInt64) (count : Nat) :
    (succId^[count + 1] id).toNat = (id.toNat + count) % (2 ^ 64 - 1) + 1 := by
  induction count with
  | zero => exact toNat_succId id
  | succ count ih =>
    rw [Function.iterate_succ_apply', toNat_succId, ih, Nat.mod_add_mod, Nat.add_assoc]

variable {tries : Nat}

omit [PooledFormat] in
theorem lookup_of_searchId {found : UInt64}
    (h : searchId requests tries id = some found) : requests.lookup found = none := by
  induction tries generalizing id with
  | zero => cases h
  | succ tries ih =>
    unfold searchId at h
    split at h
    · exact ih h
    · next hfree =>
        cases h
        simpa [has] using hfree

omit [PooledFormat] in
theorem has_of_searchId (h : searchId requests tries id = none) :
    ∀ count < tries, requests.has (succId^[count + 1] id) = true := by
  induction tries generalizing id with
  | zero => simp
  | succ tries ih =>
    unfold searchId at h
    split at h
    · next hused =>
        intro count hc
        cases count with
        | zero => exact hused
        | succ count =>
          rw [Function.iterate_succ_apply]
          exact ih h count (by omega)
    · cases h

omit [PooledFormat] in
theorem size_of_searchId (h : searchId requests (requests.size + 1) id = none) :
    2 ^ 64 - 1 ≤ requests.size := by
  by_contra hsize
  have hnd : ((range (requests.size + 1)).map fun count =>
      succId^[count + 1] id).Nodup := by
    refine List.Nodup.map_on ?_ nodup_range
    intro a h1 b h2 heq
    have hmod := congrArg UInt64.toNat heq
    rw [toNat_succId_iterate, toNat_succId_iterate] at hmod
    have hcancel := Nat.ModEq.add_left_cancel' _ (Nat.succ.inj hmod)
    rw [mem_range] at h1 h2
    exact hcancel.eq_of_lt_of_lt (by omega) (by omega)
  have hsub : ((range (requests.size + 1)).map fun count =>
      succId^[count + 1] id) ⊆ requests.toList.map Prod.fst := by
    intro found hf
    obtain ⟨count, hc, rfl⟩ := mem_map.mp hf
    obtain ⟨key, hkey⟩ := has_iff.mp (has_of_searchId h count (mem_range.mp hc))
    exact mem_map.mpr ⟨_, mem_toList.mpr hkey, rfl⟩
  have hlen := (subperm_of_subset hnd hsub).length_le
  simp [toList, size] at hlen

theorem allocateRequestId_ensures (sync : ProposalTransactionSync) :
    sync.allocateRequestId.Ensures (fun id => sync.requests.lookup id = none)
      (fun abort => abort = .endless ∧ 2 ^ 64 - 1 ≤ sync.requests.size) := by
  unfold allocateRequestId
  cases hf : searchId sync.requests (sync.requests.size + 1) sync.nextRequestId with
  | none => exact ⟨rfl, size_of_searchId hf⟩
  | some id => exact lookup_of_searchId hf

end Identifiers

/-! ## The next action -/

variable {action : ProposalTransactionAction}

section NextAction

variable {clock : ProposalKey → Nat} {sync next : ProposalTransactionSync} {key : ProposalKey}
  {pending : PendingProposalTransactions}

/-- What can happen to a proposal: it is handed over, it waits for a peer, or a peer is asked. -/
inductive Next (clock : ProposalKey → Nat) (sync : ProposalTransactionSync) (key : ProposalKey)
    (pending : PendingProposalTransactions) :
    ProposalTransactionAction → ProposalTransactionSync → Prop where
  | ready {action : ProposalTransactionAction} (hcomplete : pending.complete = true)
      (hready : pending.ready = .ok action) :
      Next clock sync key pending action { sync with pending := sync.pending.erase key }
  | waiting {next : ProposalTransactionSync} (attempted : Finset PeerId)
      (hcomplete : pending.complete = false) (hrequests : next.requests = sync.requests)
      (hpending : ∀ other, next.pending.lookup other =
        if other = key then some { pending with attempted := attempted }
        else sync.pending.lookup other) :
      Next clock sync key pending (.waiting key.view key.proposalHash) next
  | request {next : ProposalTransactionSync} (attempted : Finset PeerId)
      (active : ActiveTransactionRequest) (hcomplete : pending.complete = false)
      (hfree : sync.requests.lookup active.requestId = none)
      (hrequests : next.requests = sync.requests.insert active.requestId key)
      (hpending : ∀ other, next.pending.lookup other =
        if other = key then some { pending with attempted := attempted, active := some active }
        else sync.pending.lookup other) :
      Next clock sync key pending (.request active.peerId ⟨active.requestId, pending.missing⟩) next

/-- Choosing a peer changes at most which peers were asked. -/
theorem chooseCandidate_eq (hpending : sync.pending.lookup key = some pending) (retryCycle : Bool) :
    ∃ cand attempted, ∃ next : ProposalTransactionSync,
      sync.chooseCandidate key retryCycle = .ok (cand, next) ∧
      next.requests = sync.requests ∧
      ∀ other, next.pending.lookup other =
        if other = key then some { pending with attempted := attempted }
        else sync.pending.lookup other := by
  have hsame (other : ProposalKey) : sync.pending.lookup other =
      if other = key then some pending else sync.pending.lookup other := by
    split
    · next heq => rw [heq, hpending]
    · rfl
  unfold chooseCandidate
  split
  · rw [hpending]
    exact ⟨_, ∅, _, rfl, rfl, fun other => lookup_insert_if _ _ _ _⟩
  · exact ⟨_, pending.attempted, sync, rfl, rfl, hsame⟩

/-- A proposal that is not complete stays, and is asked for when there is a peer. -/
theorem issue_ensures {base : ProposalTransactionSync} {attempted : Finset PeerId}
    (hcomplete : pending.complete = false) (hrequests : sync.requests = base.requests)
    (hpending : ∀ o, sync.pending.lookup o =
      if o = key then some { pending with attempted := attempted }
      else base.pending.lookup o) (peerId : PeerId) :
    (sync.issue clock key peerId).Ensures
      (fun r => Next clock base key pending r.1 r.2)
      (fun abort => abort = .endless ∧ 2 ^ 64 - 1 ≤ base.requests.size) := by
  have hallo := sync.allocateRequestId_ensures
  rw [hrequests] at hallo
  refine hallo.bind fun id hfree => ?_
  have hf : sync.pending.lookup key = some { pending with attempted := attempted } := by
    rw [hpending, if_pos rfl]
  rw [hf]
  refine Next.request (insert peerId attempted) ⟨id, peerId, clock key⟩ hcomplete hfree ?_ ?_
  · rw [hrequests]
  · intro o
    rw [lookup_insert_if, hpending]
    split <;> rfl

/-- A proposal is handed over when it is complete. Otherwise it stays, and the next peer is asked if
there is one. -/
theorem nextAction_ensures (clock : ProposalKey → Nat)
    (hpending : sync.pending.lookup key = some pending) (hmatc : pending.Matches)
    (retryCycle : Bool) :
    (sync.nextAction clock key retryCycle).Ensures
      (fun r => Next clock sync key pending r.1 r.2)
      (fun abort => abort = .endless ∧ 2 ^ 64 - 1 ≤ sync.requests.size) := by
  unfold nextAction
  rw [hpending, Option.any_some]
  split
  · next hcomplete =>
      obtain ⟨pooled, -, hready⟩ := PendingProposalTransactions.ready_of_complete hmatc hcomplete
      rw [ofOption_some, ok_bind, hready]
      exact Next.ready hcomplete hready
  · next hcomplete =>
      obtain ⟨cand, attempted, base, hchoose, hrequests, hget⟩ :=
        chooseCandidate_eq hpending retryCycle
      rw [Bool.not_eq_true] at hcomplete
      rw [hchoose, ok_bind]
      cases cand with
      | none => exact Next.waiting attempted hcomplete hrequests hget
      | some peerId => exact issue_ensures hcomplete hrequests hget peerId

theorem Next.lookup_ne (h : Next clock sync key pending action next) {other : ProposalKey}
    (ho : other ≠ key) :
    next.pending.lookup other = sync.pending.lookup other := by
  cases h with
  | ready => rw [lookup_erase_if, if_neg ho]
  | waiting _ _ _ hpending => rw [hpending, if_neg ho]
  | request _ _ _ _ _ hpending => rw [hpending, if_neg ho]

end NextAction

/-! ## The invariant -/

/-- The identifier that a proposal waits for. -/
def activeId (sync : ProposalTransactionSync) (key : ProposalKey) : Option UInt64 :=
  (sync.pending.lookup key).bind fun pending =>
    pending.active.map ActiveTransactionRequest.requestId

/-- The table of the requests and the requests in the entries agree. -/
def Synced (sync : ProposalTransactionSync) : Prop :=
  Correlated (fun requestId => sync.requests.lookup requestId) sync.activeId

variable {req : DbftPrepareRequest} {proposalHash : B256} {view : UInt8}

section Invariant

variable {begun : List (ProposalKey × DbftPrepareRequest)} {calm : Prop}
  {clock : ProposalKey → Nat} {sync next : ProposalTransactionSync} {key : ProposalKey}
  {pending : PendingProposalTransactions}

theorem activeId_update {found : Option PendingProposalTransactions}
    (h : ∀ other, next.pending.lookup other =
      if other = key then found else sync.pending.lookup other) (other : ProposalKey) :
    next.activeId other = if other = key then
      found.bind fun pending => pending.active.map ActiveTransactionRequest.requestId
    else sync.activeId other := by
  unfold activeId
  rw [h]
  split <;> rfl

/-- What is known of an entry: it was begun, and its transactions stand at their positions. -/
structure Entry (begun : List (ProposalKey × DbftPrepareRequest)) (key : ProposalKey)
    (pending : PendingProposalTransactions) : Prop where
  view_eq : pending.view = key.view
  hash_eq : pending.proposalHash = key.proposalHash
  mem_begun : (key, pending.request) ∈ begun
  matched : pending.Matches

theorem Entry.change (h : Entry begun key pending) (candidates : List PeerId)
    (attempted : Finset PeerId) (active : Option ActiveTransactionRequest) :
    Entry begun key
      { pending with candidates := candidates, attempted := attempted, active := active } :=
  ⟨h.view_eq, h.hash_eq, h.mem_begun, h.matched⟩

theorem Entry.fill (h : Entry begun key pending)
    (hupda : collectUpdates pending.missingIndices ∅ txs = .ok updates) :
    Entry begun key (pending.fill updates) := by
  have hmatc := h.matched.fill fun update hupdate =>
    PendingProposalTransactions.getElem?_of_missingIndices
      (PendingProposalTransactions.lookup_of_collectUpdates hupda update hupdate)
  obtain ⟨slots, hlen, hfill⟩ := pending.fill_eq updates
  rw [hfill] at hmatc ⊢
  exact ⟨h.view_eq, h.hash_eq, h.mem_begun, hmatc⟩

/-- What holds between calls. The table and the entries agree while the run is calm. -/
structure Tracked (begun : List (ProposalKey × DbftPrepareRequest)) (calm : Prop)
    (sync : ProposalTransactionSync) : Prop where
  entries : ∀ key pending, sync.pending.lookup key = some pending → Entry begun key pending
  synced : calm → sync.Synced

/-- In a calm run a call returns, unless all identifiers are in use. -/
def Excused (begun : List (ProposalKey × DbftPrepareRequest)) (calm : Prop) (abort : SyncAbort) :
    Prop :=
  calm → abort = .endless ∧ 2 ^ 64 - 1 ≤ begun.length

theorem Tracked.size_le (h : Tracked begun calm sync) (hcalm : calm) :
    sync.requests.size ≤ begun.length := by
  rw [← length_map Prod.fst]
  refine size_le_of_correlated (h.synced hcalm) (begun.map Prod.fst) ?_
  intro id key hreq
  obtain ⟨pending, hpending, -⟩ :=
    Option.bind_eq_some_iff.mp ((h.synced hcalm id key).mp hreq)
  exact mem_map_of_mem (h.entries key pending hpending).mem_begun

variable {action : ProposalTransactionAction}

theorem Entry.exact_ready (h : Entry begun key pending) (hcomplete : pending.complete = true)
    (hready : pending.ready = .ok action) : action.Exact begun := by
  obtain ⟨pooled, hhashes, heq⟩ :=
    PendingProposalTransactions.ready_of_complete h.matched hcomplete
  cases hready.symm.trans heq
  refine ⟨?_, ?_, pooled, rfl, rfl⟩
  · rw [h.view_eq, h.hash_eq]
    exact h.mem_begun
  · rw [map_map, ← hhashes]
    exact map_congr_left fun transaction _ => PooledFormat.txHash_signed transaction

/-- Entries after one of them changed. -/
theorem entries_update (h : ∀ key pending, sync.pending.lookup key = some pending →
    Entry begun key pending) (he : Entry begun key pending)
    (hpending : ∀ o, next.pending.lookup o =
      if o = key then some pending else sync.pending.lookup o) :
    ∀ key pending, next.pending.lookup key = some pending → Entry begun key pending := by
  intro o found hf
  rw [hpending] at hf
  split at hf
  · next heq =>
      cases hf
      rw [heq]
      exact he
  · exact h o found hf

/-- An entry is put in that waits for the same answer as before. -/
theorem Tracked.update (h : Tracked begun calm sync) (he : Entry begun key pending)
    (hrequests : next.requests = sync.requests) (hpending : ∀ o, next.pending.lookup o =
      if o = key then some pending else sync.pending.lookup o)
    (hact : calm →
      pending.active.map ActiveTransactionRequest.requestId = sync.activeId key) :
    Tracked begun calm next where
  entries := entries_update h.entries he hpending
  synced hcalm := by
    have hsame : next.activeId = sync.activeId := by
      funext o
      rw [activeId_update hpending]
      split
      · next heq =>
          rw [heq, ← hact hcalm]
          rfl
      · rfl
    unfold Synced
    rw [hrequests, hsame]
    exact h.synced hcalm

theorem Tracked.insert (h : Tracked begun calm sync) (he : Entry begun key pending) (hact : calm →
      pending.active.map ActiveTransactionRequest.requestId = sync.activeId key) :
    Tracked begun calm { sync with pending := sync.pending.insert key pending } :=
  h.update he rfl (fun o => lookup_insert_if sync.pending key o pending)
    hact

/-- An entry is written that waits for no answer, and its request is forgotten. -/
theorem Tracked.release (h : Tracked begun calm sync) (he : Entry begun key pending) (id : UInt64)
    (hreq : calm → sync.requests.lookup id = some key) (hact : calm → pending.active = none) :
    Tracked begun calm
      { sync with
        requests := sync.requests.erase id
        pending := sync.pending.insert key pending } where
  entries := entries_update h.entries he fun o =>
    lookup_insert_if sync.pending key o pending
  synced hcalm := by
    refine (h.synced hcalm).remove (hreq hcalm)
      (fun o => lookup_erase_if sync.requests id o) ?_
    intro o
    rw [activeId, lookup_insert_if]
    split
    · rw [Option.bind_some, hact hcalm]
      rfl
    · rfl

/-- What the next action of a proposal without a request does to the invariant. -/
theorem Tracked.of_next (h : Tracked begun calm sync)
    (hpending : sync.pending.lookup key = some pending) (hidle : calm → pending.active = none)
    (hn : Next clock sync key pending action next) :
    Tracked begun calm next ∧ action.Exact begun := by
  have he := h.entries key pending hpending
  have hidle' (hcalm : calm) : sync.activeId key = none := by
    rw [activeId, hpending, Option.bind_some, hidle hcalm]
    rfl
  cases hn with
  | ready hcomplete hready =>
    refine ⟨⟨?_, ?_⟩, he.exact_ready hcomplete hready⟩
    · intro other found hf
      rw [lookup_erase_if] at hf
      split at hf
      · cases hf
      · exact h.entries other found hf
    · intro hcalm id other
      have hact : activeId { sync with pending := sync.pending.erase key } other =
          if other = key then none else sync.activeId other := by
        rw [activeId, lookup_erase_if]
        split <;> rfl
      rw [hact, h.synced hcalm id other]
      split
      · next heq => rw [heq, hidle' hcalm]
      · rfl
  | waiting attempted hcomplete hrequests hget =>
    refine ⟨h.update (he.change _ _ _) hrequests hget ?_, trivial⟩
    intro hcalm
    rw [hidle' hcalm, hidle hcalm]
    rfl
  | request attempted active hcomplete hfree hrequests hget =>
    refine ⟨⟨entries_update h.entries (he.change _ _ _) hget, ?_⟩, trivial⟩
    intro hcalm
    refine (h.synced hcalm).add hfree (hidle' hcalm) ?_ (activeId_update hget)
    intro other
    rw [hrequests, lookup_insert_if]

/-- The next action of a proposal without a request keeps the invariant and leaves other proposals
alone. -/
theorem Tracked.nextAction (h : Tracked begun calm sync)
    (hpending : sync.pending.lookup key = some pending) (hidle : calm → pending.active = none)
    (clock : ProposalKey → Nat) (retryCycle : Bool) :
    (sync.nextAction clock key retryCycle).Ensures
      (fun r => (Tracked begun calm r.2 ∧ r.1.Exact begun) ∧
        ∀ o ≠ key, r.2.pending.lookup o = sync.pending.lookup o)
      (Excused begun calm) := by
  refine (nextAction_ensures clock hpending (h.entries key pending hpending).matched
    retryCycle).mono ?_ ?_
  · intro r hn
    exact ⟨h.of_next hpending hidle hn, fun o ho => hn.lookup_ne ho⟩
  · intro abort habort hcalm
    exact ⟨habort.1, habort.2.trans (h.size_le hcalm)⟩

/-! ### Calls -/

/-- What a call that returns leaves behind. -/
def Kept (begun : List (ProposalKey × DbftPrepareRequest)) (calm : Prop)
    (result : List ProposalTransactionAction × ProposalTransactionSync) : Prop :=
  Tracked begun calm result.2 ∧ ∀ action ∈ result.1, action.Exact begun

theorem kept_singleton (h : Tracked begun calm next ∧ action.Exact begun) :
    Kept begun calm ([action], next) :=
  ⟨h.1, by simpa using h.2⟩

theorem Tracked.finishOrRequest (h : Tracked begun calm sync)
    (he : Entry begun ⟨pending.view, pending.proposalHash⟩ pending) (hact : pending.active = none)
    (hfresh : calm → pending.missing ≠ [] →
      sync.activeId ⟨pending.view, pending.proposalHash⟩ = none) :
    (sync.finishOrRequest clock pending).Ensures
      (fun r => Tracked begun calm r.2 ∧ r.1.Exact begun) (Excused begun calm) := by
  unfold ProposalTransactionSync.finishOrRequest
  split
  · next hmiss =>
      have hcomplete := PendingProposalTransactions.missing_eq_nil.mp hmiss
      obtain ⟨pooled, -, hready⟩ :=
        PendingProposalTransactions.ready_of_complete he.matched hcomplete
      rw [hready]
      exact ⟨h, he.exact_ready hcomplete hready⟩
  · next hmiss =>
      refine ((h.insert he ?_).nextAction (AList.lookup_insert _) (fun _ => hact) clock
        false).mono (fun r hres => hres.1) (fun abort habort => habort)
      intro hcalm
      rw [hact, hfresh hcalm hmiss]
      rfl

theorem Tracked.beginWithPeers (h : Tracked begun calm sync) (peerId : PeerId) (peers : List PeerId)
    (pool : B256 → Option Pooled) (hbegun : (⟨view, proposalHash⟩, req) ∈ begun)
    (hfresh : calm → validateProposalHashSet req.transactionHashes = .ok () →
      (opened peerId view proposalHash req peers pool).missing ≠ [] →
      sync.activeId ⟨view, proposalHash⟩ = none) :
    (sync.beginWithPeers clock peerId view proposalHash req peers pool).Ensures
      (fun r => Tracked begun calm r.2 ∧
        ∀ action, r.1 = .ok action → action.Exact begun) (Excused begun calm) := by
  unfold ProposalTransactionSync.beginWithPeers
  split
  · exact ⟨h, by simp⟩
  · next hval =>
      have he : Entry begun ⟨view, proposalHash⟩
          (opened peerId view proposalHash req peers pool) :=
        ⟨rfl, rfl, hbegun, PendingProposalTransactions.matches_opened _ _ _ _ _ _⟩
      refine (h.finishOrRequest he rfl fun hcalm => hfresh hcalm hval).bind ?_
      intro r hres
      refine ⟨hres.1, fun action haction => ?_⟩
      rw [← Except.ok.inj haction]
      exact hres.2

theorem Tracked.addSource (h : Tracked begun calm sync) (peerId : PeerId) (view : UInt8)
    (proposalHash : B256) :
    (sync.addSource clock peerId view proposalHash).Ensures (Kept begun calm)
      (Excused begun calm) := by
  unfold ProposalTransactionSync.addSource
  dsimp only
  split
  · exact ⟨h, by simp⟩
  · next pending hpending =>
      have hinsert : Tracked begun calm { sync with
          pending := sync.pending.insert ⟨view, proposalHash⟩ (pending.addCandidate peerId) } := by
        refine h.insert ((h.entries _ _ hpending).change _ _ _) fun _ => ?_
        rw [activeId, hpending]
        rfl
      split
      · next hidle =>
          refine (hinsert.nextAction (AList.lookup_insert _) ?_ clock false).bind ?_
          · intro _
            exact Option.isNone_iff_eq_none.mp hidle
          · intro r hres
            exact kept_singleton hres.1
      · exact ⟨hinsert, by simp⟩

theorem Tracked.retryRequest (h : Tracked begun calm sync) (clock : ProposalKey → Nat) (id : UInt64)
    (retryCycle : Bool) :
    (sync.retryRequest clock id retryCycle).Ensures (Kept begun calm)
      (Excused begun calm) := by
  unfold ProposalTransactionSync.retryRequest
  split
  · exact ⟨h, by simp⟩
  · next key hreq =>
      -- in a calm run the entry of the proposal waits for this request
      have hact (hcalm : calm) := (h.synced hcalm id key).mp hreq
      unfold activeId at hact
      dsimp only
      split
      · next hpending =>
          refine ⟨⟨h.entries, fun hcalm => ?_⟩, by simp⟩
          have hno := hact hcalm
          rw [hpending] at hno
          cases hno
      · next pending hpending =>
          have he := h.entries key pending hpending
          generalize hkept : (if pending.active.any fun active => active.requestId = id then
            pending.release else pending) = kept
          have hkeptE : Entry begun key kept := by
            rw [← hkept]
            split
            · exact he.change _ _ _
            · exact he
          have hidle (hcalm : calm) : kept.active = none := by
            have hsome := hact hcalm
            rw [hpending, Option.bind_some] at hsome
            obtain ⟨active, hact, hid⟩ := Option.map_eq_some_iff.mp hsome
            rw [← hkept, if_pos (by simp [hact, hid])]
            rfl
          refine ((h.release hkeptE id (fun _ => hreq) hidle).nextAction
            (AList.lookup_insert _) hidle clock retryCycle).bind ?_
          intro r hres
          exact kept_singleton hres.1

theorem Tracked.supply (h : Tracked begun calm sync) (peerId : PeerId) (resp : TransactionsPacket) :
    (sync.supply clock peerId resp).Ensures
      (fun r => Tracked begun calm r.2 ∧
        ∀ action, r.1 = .ok action → action.Exact begun) (Excused begun calm) := by
  unfold ProposalTransactionSync.supply
  split
  · exact ⟨h, by simp⟩
  · next key hreq =>
      have hact (hcalm : calm) := (h.synced hcalm resp.requestId key).mp hreq
      unfold activeId at hact
      cases hpending : sync.pending.lookup key with
      | none =>
        intro hcalm
        have hsome := hact hcalm
        rw [hpending] at hsome
        cases hsome
      | some pending =>
        rw [ofOption_some, ok_bind]
        cases hf : pending.active with
        | none =>
          intro hcalm
          have hsome := hact hcalm
          rw [hpending, Option.bind_some, hf] at hsome
          cases hsome
        | some active =>
          rw [ofOption_some, ok_bind]
          split
          · exact ⟨h, by simp⟩
          · split
            · exact ⟨h, by simp⟩
            · exact ⟨h, by simp⟩
            · next update updates hupdates =>
                have he : Entry begun key (pending.release.fill (update :: updates)) :=
                  ((h.entries key pending hpending).change _ _ none).fill hupdates
                have hidle := pending.release.active_fill (update :: updates)
                refine ((h.release he resp.requestId (fun _ => hreq)
                  (fun _ => hidle)).nextAction (AList.lookup_insert _) (fun _ => hidle) clock
                  false).bind ?_
                intro r hres
                refine ⟨hres.1.1, fun action haction => ?_⟩
                rw [← Except.ok.inj haction]
                exact hres.1.2

/-- The proposals of a list are all different and as the list has them. -/
def Renewable (items : List (ProposalKey × Option UInt64)) (sync : ProposalTransactionSync) :
    Prop :=
  items.Pairwise (fun first second => first.1 ≠ second.1) ∧
    ∀ item ∈ items, ∃ pending, sync.pending.lookup item.1 = some pending ∧
      pending.active.map ActiveTransactionRequest.requestId = item.2

variable {items : List (ProposalKey × Option UInt64)}

theorem Tracked.renew (h : Tracked begun calm sync) {item : ProposalKey × Option UInt64}
    (hitems : Renewable (item :: items) sync) (clock : ProposalKey → Nat) (retryCycle : Bool) :
    (sync.renew clock retryCycle item).Ensures
      (fun r => (Tracked begun calm r.2 ∧ Renewable items r.2) ∧
        ∀ action ∈ r.1, action.Exact begun)
      (Excused begun calm) := by
  obtain ⟨hpair, hf⟩ := hitems
  obtain ⟨hne, hpair⟩ := pairwise_cons.mp hpair
  obtain ⟨pending, hpending, hact⟩ := hf item mem_cons_self
  -- the entries of the o proposals are as they were
  have hr {base next : ProposalTransactionSync}
      (hbase : ∀ o ≠ item.1, base.pending.lookup o = sync.pending.lookup o)
      (hn : ∀ o ≠ item.1, next.pending.lookup o = base.pending.lookup o) :
      Renewable items next := by
    refine ⟨hpair, fun o ho => ?_⟩
    have hother' : o.1 ≠ item.1 := (hne o ho).symm
    rw [hn o.1 hother', hbase o.1 hother']
    exact hf o (mem_cons_of_mem _ ho)
  unfold ProposalTransactionSync.renew
  cases hitem : item.2 with
  | none =>
    rw [hitem, Option.map_eq_none_iff] at hact
    refine (h.nextAction hpending (fun _ => hact) clock retryCycle).bind ?_
    intro r hres
    exact ⟨⟨hres.1.1, hr (fun _ _ => rfl) hres.2⟩, by simpa using hres.1.2⟩
  | some id =>
    have hreq (hcalm : calm) : sync.requests.lookup id = some item.1 := by
      rw [h.synced hcalm id item.1, activeId, hpending, Option.bind_some, hact, hitem]
    have hrele := h.release ((h.entries _ _ hpending).change pending.candidates
      pending.attempted none) id hreq (fun _ => rfl)
    rw [hpending]
    refine (hrele.nextAction (AList.lookup_insert _) (fun _ => rfl) clock retryCycle).bind ?_
    intro r hres
    refine ⟨⟨hres.1.1, hr ?_ hres.2⟩, by simpa using hres.1.2⟩
    intro o ho
    exact AList.lookup_insert_ne ho

theorem Tracked.renewAll (h : Tracked begun calm sync) (hitems : Renewable items sync)
    (clock : ProposalKey → Nat) (retryCycle : Bool) :
    (Except.collect (ProposalTransactionSync.renew clock retryCycle) items sync).Ensures
      (Kept begun calm) (Excused begun calm) := by
  refine (collect_ensures
    (fun items sync => Tracked begun calm sync ∧ Renewable items sync)
    (fun item items sync hinv => hinv.1.renew hinv.2 clock retryCycle) items sync
    ⟨h, hitems⟩).mono ?_ ?_
  · intro r hres
    exact ⟨hres.1.1, hres.2⟩
  · exact fun abort habort => habort

/-- Entries that are chosen in a traversal. -/
theorem renewable_visit (order : FiniteMap.Traversal ProposalKey PendingProposalTransactions)
    {choose : ProposalKey × PendingProposalTransactions → Option (ProposalKey × Option UInt64)}
    (hchoose : ∀ e item, choose e = some item →
      item = (e.1, e.2.active.map ActiveTransactionRequest.requestId)) :
    Renewable ((order.visit sync.pending).filterMap choose) sync := by
  constructor
  · have hkeys := pairwise_map.mp (order.keys_visit_nodup sync.pending)
    refine pairwise_filterMap.mpr (hkeys.imp ?_)
    intro a b hne item hitem o ho
    rw [hchoose a item hitem, hchoose b o ho]
    exact hne
  · intro item hitem
    obtain ⟨⟨key, pending⟩, he, hitem⟩ := mem_filterMap.mp hitem
    rw [hchoose _ item hitem]
    exact ⟨pending, order.mem_visit.mp he, rfl⟩

theorem Tracked.expireRequestsAt (h : Tracked begun calm sync)
    (order : FiniteMap.Traversal ProposalKey PendingProposalTransactions) (now : Nat) :
    (sync.expireRequestsAt order clock now).Ensures (Kept begun calm) (Excused begun calm) := by
  refine h.renewAll (renewable_visit order ?_) clock true
  intro e item hitem
  unfold expired at hitem
  split at hitem
  · next hact =>
      cases hitem
      rw [hact]
      rfl
  · next active hact =>
      split at hitem
      · cases hitem
        rw [hact]
        rfl
      · cases hitem

/-- All entries change, but not what they wait for. -/
theorem Tracked.mapValues (h : Tracked begun calm sync)
    (change : PendingProposalTransactions → PendingProposalTransactions)
    (he : ∀ key pending, Entry begun key pending → Entry begun key (change pending))
    (hact : ∀ pending, (change pending).active = pending.active) :
    Tracked begun calm
      { sync with pending := sync.pending.mapValues fun _ pending => change pending } where
  entries key pending hpending := by
    rw [lookup_mapValues] at hpending
    obtain ⟨old, hold, rfl⟩ := Option.map_eq_some_iff.mp hpending
    exact he key old (h.entries key old hold)
  synced hcalm := by
    intro id key
    rw [h.synced hcalm id key, activeId, activeId, lookup_mapValues, Option.bind_map]
    simp only [Function.comp_def, hact]

theorem Tracked.removePeer (h : Tracked begun calm sync)
    (order : FiniteMap.Traversal ProposalKey PendingProposalTransactions) (peerId : PeerId) :
    (sync.removePeer order clock peerId).Ensures (Kept begun calm) (Excused begun calm) := by
  refine collect_ensures (fun _ sync => Tracked begun calm sync)
    (fun id _ sync hsync => hsync.retryRequest clock id false) _ _ ?_
  exact h.mapValues _ (fun key pending he => he.change _ _ _) (fun pending => rfl)

theorem Tracked.addPeer (h : Tracked begun calm sync)
    (order : FiniteMap.Traversal ProposalKey PendingProposalTransactions) (peerId : PeerId) :
    (sync.addPeer order clock peerId).Ensures (Kept begun calm) (Excused begun calm) := by
  have hadded := h.mapValues (fun pending => pending.addCandidate peerId)
    (fun key pending he => he.change _ _ _) (fun pending => rfl)
  refine hadded.renewAll ?_ clock false
  have hidle : Renewable ((order.visit sync.pending).filterMap fun e =>
      if e.2.active.isNone then some (e.1, none) else none) sync := by
    refine renewable_visit order fun e item hitem => ?_
    split at hitem
    · next hno =>
        cases hitem
        rw [Option.isNone_iff_eq_none.mp hno]
        rfl
    · cases hitem
  refine ⟨hidle.1, fun item hitem => ?_⟩
  obtain ⟨pending, hpending, hact⟩ := hidle.2 item hitem
  refine ⟨pending.addCandidate peerId, ?_, hact⟩
  rw [lookup_mapValues, hpending]
  rfl

end Invariant

/-! ## Runs -/

/-- What a call returns. -/
abbrev Outcome := Except TransactionSyncError (List ProposalTransactionAction)

/-- A call, with the clock and the order in which it visits the proposals. -/
inductive Call where
  | begin (clock : ProposalKey → Nat) (peerId : PeerId) (view : UInt8) (proposalHash : B256)
      (request : DbftPrepareRequest) (peers : List PeerId) (pool : B256 → Option Pooled)
  | supply (clock : ProposalKey → Nat) (peerId : PeerId) (response : TransactionsPacket)
  | addSource (clock : ProposalKey → Nat) (peerId : PeerId) (view : UInt8) (proposalHash : B256)
  | addPeer (order : FiniteMap.Traversal ProposalKey PendingProposalTransactions)
      (clock : ProposalKey → Nat) (peerId : PeerId)
  | removePeer (order : FiniteMap.Traversal ProposalKey PendingProposalTransactions)
      (clock : ProposalKey → Nat) (peerId : PeerId)
  | retryRequest (clock : ProposalKey → Nat) (requestId : UInt64) (retryCycle : Bool)
  | expireRequestsAt (order : FiniteMap.Traversal ProposalKey PendingProposalTransactions)
      (clock : ProposalKey → Nat) (now : Nat)
  | clear

namespace Call

def apply (sync : ProposalTransactionSync) :
    Call → Except SyncAbort (Outcome × ProposalTransactionSync)
  | .begin clock peerId view proposalHash request peers pool =>
    (sync.beginWithPeers clock peerId view proposalHash request peers pool).map fun result =>
      (result.1.map ([·]), result.2)
  | .supply clock peerId response =>
    (sync.supply clock peerId response).map fun result => (result.1.map ([·]), result.2)
  | .addSource clock peerId view proposalHash =>
    (sync.addSource clock peerId view proposalHash).map fun result => (.ok result.1, result.2)
  | .addPeer order clock peerId =>
    (sync.addPeer order clock peerId).map fun result => (.ok result.1, result.2)
  | .removePeer order clock peerId =>
    (sync.removePeer order clock peerId).map fun result => (.ok result.1, result.2)
  | .retryRequest clock requestId retryCycle =>
    (sync.retryRequest clock requestId retryCycle).map fun result => (.ok result.1, result.2)
  | .expireRequestsAt order clock now =>
    (sync.expireRequestsAt order clock now).map fun result => (.ok result.1, result.2)
  | .clear => .ok (.ok [], sync.clear)

def begun : Call → List (ProposalKey × DbftPrepareRequest)
  | .begin _ _ view proposalHash request _ _ => [(⟨view, proposalHash⟩, request)]
  | _ => []

/-- A proposal that misses transactions is not begun again while it waits for an answer. -/
def Fresh (sync : ProposalTransactionSync) : Call → Prop
  | .begin _ peerId view proposalHash request peers pool =>
    validateProposalHashSet request.transactionHashes = .ok () →
    (opened peerId view proposalHash request peers pool).missing ≠ [] →
    sync.activeId ⟨view, proposalHash⟩ = none
  | _ => True

end Call

/-- Make calls one after another. -/
def run (calls : List Call) (sync : ProposalTransactionSync) :
    Except SyncAbort (List Outcome × ProposalTransactionSync) :=
  Except.collect
    (fun sync (call : Call) => (call.apply sync).map fun result => ([result.1], result.2)) calls
    sync

/-- No proposal of a run is begun again while it waits for an answer. -/
def Undisturbed : List Call → ProposalTransactionSync → Prop
  | [], _ => True
  | call :: calls, sync =>
    call.Fresh sync ∧
      ∀ outcome next, call.apply sync = .ok (outcome, next) → Undisturbed calls next

/-- All actions that a call returns are exact. -/
def ExactOutcome (begun : List (ProposalKey × DbftPrepareRequest)) (outcome : Outcome) : Prop :=
  ∀ actions, outcome = .ok actions → ∀ action ∈ actions, action.Exact begun

section Runs

variable {begun : List (ProposalKey × DbftPrepareRequest)} {calm : Prop}
  {sync next : ProposalTransactionSync}

theorem tracked_of_empty (hpending : sync.pending = ∅) (hrequests : sync.requests = ∅) :
    Tracked begun calm sync where
  entries key pending hf := by
    rw [hpending] at hf
    cases hf
  synced _ requestId key := by
    rw [activeId, hpending, hrequests]
    simp

variable {outcome : Except TransactionSyncError ProposalTransactionAction}

theorem exactOutcome_map (h : ∀ action, outcome = .ok action → action.Exact begun) :
    ExactOutcome begun (outcome.map ([·])) := by
  intro actions hacti
  obtain ⟨action, haction, rfl⟩ := map_eq_ok.mp hacti
  simpa using h action haction

/-- A call keeps the invariant. -/
theorem Tracked.apply (h : Tracked begun calm sync) (call : Call) (hbegun : call.begun ⊆ begun)
    (hfresh : calm → call.Fresh sync) :
    (call.apply sync).Ensures
      (fun r => Tracked begun calm r.2 ∧ ExactOutcome begun r.1)
      (Excused begun calm) := by
  have hlist {r : List ProposalTransactionAction × ProposalTransactionSync}
      (hkept : Kept begun calm r) :
      Tracked begun calm r.2 ∧ ExactOutcome begun (.ok r.1) := by
    refine ⟨hkept.1, fun actions hacti => ?_⟩
    rw [← Except.ok.inj hacti]
    exact hkept.2
  cases call with
  | begin clock peerId view proposalHash request peers pool =>
    exact ((h.beginWithPeers peerId peers pool (hbegun mem_cons_self) hfresh).mono
      (fun _ hres => ⟨hres.1, exactOutcome_map hres.2⟩) fun _ => id).map
  | supply clock peerId resp =>
    exact ((h.supply peerId resp).mono
      (fun _ hres => ⟨hres.1, exactOutcome_map hres.2⟩) fun _ => id).map
  | addSource clock peerId view proposalHash =>
    exact ((h.addSource peerId view proposalHash).mono (fun _ => hlist) fun _ => id).map
  | addPeer order clock peerId =>
    exact ((h.addPeer order peerId).mono (fun _ => hlist) fun _ => id).map
  | removePeer order clock peerId =>
    exact ((h.removePeer order peerId).mono (fun _ => hlist) fun _ => id).map
  | retryRequest clock requestId retryCycle =>
    exact ((h.retryRequest clock requestId retryCycle).mono (fun _ => hlist) fun _ => id).map
  | expireRequestsAt order clock now =>
    exact ((h.expireRequestsAt order now).mono (fun _ => hlist) fun _ => id).map
  | clear =>
    have hkept : Kept begun calm ([], sync.clear) := ⟨tracked_of_empty rfl rfl, by simp⟩
    exact hlist hkept

/-- Over a run, the table and the entries agree as long as nothing is begun twice. -/
theorem Tracked.run (h : Tracked begun calm sync) {calls : List Call}
    (hbegun : ∀ call ∈ calls, call.begun ⊆ begun) (hcalm : calm → Undisturbed calls sync) :
    (run calls sync).Ensures
      (fun r => Tracked begun calm r.2 ∧
        ∀ outcome ∈ r.1, ExactOutcome begun outcome)
      (Excused begun calm) := by
  refine (collect_ensures
    (fun calls sync => Tracked begun calm sync ∧ (∀ call ∈ calls, call.begun ⊆ begun) ∧
      (calm → Undisturbed calls sync)) ?_ calls sync ⟨h, hbegun, hcalm⟩).mono
    (fun r hres => ⟨hres.1.1, hres.2⟩) (fun _ => id)
  intro call calls sync ⟨hsync, hbegun, hundi⟩
  have happly := hsync.apply call (hbegun call mem_cons_self)
    fun hcalm => (hundi hcalm).1
  refine (happly.with_eq.mono ?_ fun _ => id).map
  rintro ⟨outcome, next⟩ ⟨⟨hn, hexact⟩, hres⟩
  refine ⟨⟨hn, fun call hcall => hbegun call (mem_cons_of_mem _ hcall),
    fun hcalm => (hundi hcalm).2 outcome next hres⟩, by simpa using hexact⟩

variable {clock : ProposalKey → Nat} {reason : TransactionSyncError} {peerId : PeerId}
  {pool : B256 → Option Pooled} {peers : List PeerId}

theorem beginWithPeers_refused
    (h : sync.beginWithPeers clock peerId view proposalHash req peers pool =
      .ok (.error reason, next)) : next = sync := by
  unfold beginWithPeers at h
  split at h
  · cases h
    rfl
  · obtain ⟨r, -, h⟩ := bind_ok h
    cases h

theorem supply_refused {resp : TransactionsPacket}
    (h : sync.supply clock peerId resp = .ok (.error reason, next)) : next = sync := by
  unfold supply at h
  split at h
  · cases h
    rfl
  · obtain ⟨pending, -, h⟩ := bind_ok h
    obtain ⟨active, -, h⟩ := bind_ok h
    split at h
    · cases h
      rfl
    · split at h
      · cases h
        rfl
      · cases h
        rfl
      · obtain ⟨r, -, h⟩ := bind_ok h
        cases h

theorem apply_refused {call : Call} (h : call.apply sync = .ok (.error reason, next)) :
    next = sync := by
  cases call with
  | begin =>
    obtain ⟨⟨outcome, next⟩, hres, heq⟩ := map_eq_ok.mp h
    cases outcome with
    | error => cases heq; exact beginWithPeers_refused hres
    | ok => cases heq
  | supply =>
    obtain ⟨⟨outcome, next⟩, hres, heq⟩ := map_eq_ok.mp h
    cases outcome with
    | error => cases heq; exact supply_refused hres
    | ok => cases heq
  | clear => cases h
  | _ =>
    obtain ⟨r, -, heq⟩ := map_eq_ok.mp h
    cases heq

/-- A proposal that is begun while a request for it stands in the table is out of step. -/
theorem Next.not_synced {key : ProposalKey} {pending : PendingProposalTransactions}
    (hn : Next clock sync key pending action next) (hreq : sync.requests.lookup id = some key)
    (hact : pending.active = none) (hcomplete : pending.complete = false) : ¬next.Synced := by
  intro hsynced
  cases hn with
  | ready hready =>
    rw [hready] at hcomplete
    cases hcomplete
  | waiting attempted _ hrequests hpending =>
    rw [← hrequests] at hreq
    have hid := (hsynced id key).mp hreq
    rw [activeId, hpending, if_pos rfl, Option.bind_some, hact] at hid
    cases hid
  | request attempted active _ hfree hrequests hpending =>
    have hne : id ≠ active.requestId := by
      rintro rfl
      rw [hreq] at hfree
      cases hfree
    have hstale : next.requests.lookup id = some key := by
      rw [hrequests, lookup_insert_if, if_neg hne, hreq]
    have hid := (hsynced id key).mp hstale
    rw [activeId, hpending, if_pos rfl, Option.bind_some, Option.map_some] at hid
    exact hne (Option.some.inj hid).symm

/-- A proposal that is begun again while it waits for an answer leaves its old request behind. -/
theorem not_synced_of_begin (hsynced : sync.Synced)


    (hval : validateProposalHashSet req.transactionHashes = .ok ())
    (hmiss : (opened peerId view proposalHash req peers pool).missing ≠ [])
    (hact : sync.activeId ⟨view, proposalHash⟩ ≠ none)
    (h : sync.beginWithPeers clock peerId view proposalHash req peers pool =
      .ok (outcome, next)) : ¬next.Synced := by
  obtain ⟨id, hrequ⟩ := Option.ne_none_iff_exists'.mp hact
  have hreq := (hsynced id ⟨view, proposalHash⟩).mpr hrequ
  have hcomplete : (opened peerId view proposalHash req peers pool).complete = false := by
    rw [← Bool.not_eq_true]
    exact fun hcomplete => hmiss (PendingProposalTransactions.missing_eq_nil.mpr hcomplete)
  unfold beginWithPeers at h
  rw [hval] at h
  obtain ⟨r, hres, h⟩ := bind_ok h
  cases h
  unfold finishOrRequest at hres
  rw [if_neg hmiss] at hres
  have hn := (nextAction_ensures clock (AList.lookup_insert _)
    (PendingProposalTransactions.matches_opened _ _ _ _ _ _) false).of_ok hres
  exact hn.not_synced hreq rfl hcomplete

/-- A call keeps the table and the entries in step exactly when it begins no proposal again that
waits for an answer. -/
theorem synced_iff_fresh (hentr : ∀ key pending, sync.pending.lookup key = some pending →
    Entry begun key pending) (hsynced : sync.Synced) {call : Call} (hbegun : call.begun ⊆ begun)
    {outcome : Outcome} (h : call.apply sync = .ok (outcome, next)) :
    next.Synced ↔ call.Fresh sync := by
  have hsync : Tracked begun True sync := ⟨hentr, fun _ => hsynced⟩
  constructor
  · intro hn
    cases call with
    | begin clock peerId view proposalHash request peers pool =>
      intro hval hmiss
      by_contra hact
      obtain ⟨r, hres, heq⟩ := map_eq_ok.mp h
      cases heq
      exact not_synced_of_begin hsynced hval hmiss hact hres hn
    | _ => trivial
  · intro hfresh
    exact ((hsync.apply call hbegun fun _ => hfresh).of_ok h).1.synced trivial

def begunBy (calls : List Call) : List (ProposalKey × DbftPrepareRequest) :=
  calls.flatMap Call.begun

/-- Every run hands proposals over exactly, and a refused call changes nothing. While no proposal is
begun again that waits for an answer, no expectation fails, calls return as long as not all
identifiers are in use, and the table of the requests and the entries agree. A call after which they
agree no more is a proposal that is begun again. -/
theorem run_correlated (calls : List Call) :
    (run calls {}).Ensures
      (fun result =>
        (Undisturbed calls {} → result.2.Synced) ∧
        (∀ outcome ∈ result.1, ExactOutcome (begunBy calls) outcome) ∧
        ∀ (call : Call) outcome next, call.apply result.2 = .ok (outcome, next) →
          (∀ reason, outcome = .error reason → next = result.2) ∧
          (result.2.Synced → (next.Synced ↔ call.Fresh result.2)))
      (fun abort => Undisturbed calls {} →
        abort = .endless ∧ 2 ^ 64 - 1 ≤ (begunBy calls).length) := by
  have hempty {begun : List (ProposalKey × DbftPrepareRequest)} :
      Tracked begun (Undisturbed calls {}) {} := tracked_of_empty rfl rfl
  have hrun {begun : List (ProposalKey × DbftPrepareRequest)} (hbegun : begunBy calls ⊆ begun) :=
    hempty.run
      (fun call hcall entry hentry => hbegun (List.mem_flatMap.mpr ⟨call, hcall, hentry⟩)) id
  refine (hrun (List.Subset.refl _)).with_eq.mono ?_ fun _ => id
  rintro ⟨outcomes, sync⟩ ⟨⟨hsync, hexact⟩, hresult⟩
  refine ⟨hsync.synced, hexact, fun call outcome next happly => ⟨?_, fun hsynced => ?_⟩⟩
  · rintro reason rfl
    exact apply_refused happly
  · have hentries := ((hrun (List.subset_append_left _ call.begun)).of_ok hresult).1.entries
    exact synced_iff_fresh hentries hsynced (List.subset_append_right _ _) happly

end Runs

end ProposalTransactionSync

end Sync

/-! ### A proposal with one transaction -/

namespace RawTransactions

open ProposalTransactionSync

/-- Transactions without blobs. -/
scoped instance pooledFormat : PooledFormat where
  toTransactionFormat := transactionFormat
  Pooled := Bytes
  Sidecar := Unit
  pooledHash transaction := FixedBytes.first 32 transaction
  sidecar _ := none
  signed transaction := transaction
  txHash_signed _ := rfl

def peer : PeerId := .ofNat 64 1

def transaction : Bytes := [1]

def oneTransaction : DbftPrepareRequest :=
  ⟨Symbolic.header 1 [0] 2, [FixedBytes.first 32 transaction], none, none⟩

/-- Begin the proposal, without a pool. -/
def beginOne : Call :=
  .begin (fun _ => 0) peer 0 (.zero 32) oneTransaction [peer] fun _ => none

/-- Answer a request with the transaction. -/
def supplyOne (requestId : UInt64) : Call := .supply (fun _ => 0) peer ⟨requestId, [transaction]⟩

end RawTransactions

open RawTransactions ProposalTransactionSync in
/-- The proposal is begun and the answer comes. -/
theorem ProposalTransactionSync.run_correlated_one :
    Undisturbed [beginOne, supplyOne 1] {} ∧
      (run [beginOne, supplyOne 1] {}).Ensures (fun result => result.2.Synced)
        (fun _ => False) := by
  have hcalm : Undisturbed [beginOne, supplyOne 1] {} :=
    ⟨fun _ _ => rfl, fun _ _ _ => ⟨trivial, fun _ _ _ => trivial⟩⟩
  refine ⟨hcalm, (run_correlated [beginOne, supplyOne 1]).mono
    (fun _ hresult => hresult.1 hcalm) ?_⟩
  intro abort habort
  exact absurd (habort hcalm).2 (by decide)

open RawTransactions ProposalTransactionSync in
/-- A proposal is begun twice. The answer to the first request hands it over, and the answer to the
second request then finds no proposal. -/
theorem ProposalTransactionSync.begun_twice_panics :
    run [beginOne, beginOne, supplyOne 1, supplyOne 2] {} =
      .error (.panicked "correlated proposal must remain pending") := by
  rfl

end NeoX
