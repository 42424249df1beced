import NeoX.Library.Traversal
import NeoX.Network.Admission

/-!
# Requests for descendant targets

Peers announce heads above the local one. Each head that some peer claims is a target of the
backfill, and the targets are requested one after another, under a budget that only a change of the
local head renews.

Main results:

- `DescendantSyncTargets.request_spec`: which target is requested.
- `DescendantSyncTargets.run_tracked`: what holds of the schedule and of the requests
  since the local head changed last, over every sequence of calls.
-/

namespace NeoX

open List

/-- Requests before the local head changes. -/
def descendantSyncTargetMaxRequests : Nat := 120

/-- Milliseconds between two requests. -/
def descendantSyncTargetRetryInterval : Nat := 5000

/-- An announced head. -/
structure DescendantSyncTarget where
  hash : B256
  number : UInt64
  deriving DecidableEq

/-- The local head, as it stands in the local status. -/
structure DescendantSyncAnchor where
  hash : B256
  number : UInt64
  deriving DecidableEq

/-- A request for a target under a local head. -/
structure DescendantSyncRequest where
  requestId : UInt64
  anchor : DescendantSyncAnchor
  target : DescendantSyncTarget
  deriving DecidableEq

/-- How the engine answered. -/
inductive DescendantSyncTargetSubmission where
  | pending
  | valid
  | invalid
  deriving DecidableEq

/-- A target with the peers that claim it. -/
structure PendingDescendantSyncTarget where
  target : DescendantSyncTarget
  sources : Finset PeerId
  requested : Bool

/-- The schedule of targets. -/
structure DescendantSyncTargets where
  anchor : Option DescendantSyncAnchor := none
  claims : FiniteMap PeerId DescendantSyncTarget := ∅
  pending : List PendingDescendantSyncTarget := []
  requestedSources : Finset PeerId := ∅
  terminalHashes : Finset B256 := ∅
  requests : Nat := 0
  retryAt : Option Nat := none
  nextRequestId : UInt64 := 0
  inFlight : Option DescendantSyncRequest := none

namespace DescendantSyncTargets

/-! ## Operations -/

/-- Add a source to the target with its hash, or a target. -/
def joinPending (source : PeerId) (target : DescendantSyncTarget) :
    List PendingDescendantSyncTarget → List PendingDescendantSyncTarget
  | [] => [⟨target, {source}, false⟩]
  | pending :: rest =>
    if pending.target.hash = target.hash then
      { pending with sources := insert source pending.sources } :: rest
    else
      pending :: joinPending source target rest

/-- Change the sources of all targets, and remove the targets without sources. -/
def restrictSources (sources : PendingDescendantSyncTarget → Finset PeerId)
    (pending : List PendingDescendantSyncTarget) : List PendingDescendantSyncTarget :=
  (pending.map fun entry => { entry with sources := sources entry }).filter fun entry =>
    entry.sources.Nonempty

def removeSourceFromPending (targets : DescendantSyncTargets) (source : PeerId) :
    DescendantSyncTargets :=
  { targets with
    pending := restrictSources (fun entry => entry.sources.erase source) targets.pending }

def removeSourceClaim (targets : DescendantSyncTargets) (source : PeerId) :
    DescendantSyncTargets :=
  removeSourceFromPending { targets with claims := targets.claims.erase source } source

/-- Record the claim of a source, and schedule its target while the budget lasts. -/
def updateSourceClaim (targets : DescendantSyncTargets) (source : PeerId)
    (target : DescendantSyncTarget) : DescendantSyncTargets :=
  if targets.claims.lookup source = some target then
    targets
  else
    let targets := targets.removeSourceFromPending source
    let targets := { targets with claims := targets.claims.insert source target }
    if targets.requests ≥ descendantSyncTargetMaxRequests then
      targets
    else
      { targets with
        pending := joinPending source target targets.pending
        requestedSources :=
          match targets.pending.find? fun pending => pending.target.hash = target.hash with
          | some pending =>
            if pending.requested then insert source targets.requestedSources
            else targets.requestedSources
          | none => targets.requestedSources }

/-- Schedule the targets of all claims, visited in some order. -/
def rebuildPending (order : FiniteMap.Traversal PeerId DescendantSyncTarget)
    (targets : DescendantSyncTargets) : DescendantSyncTargets :=
  { targets with
    pending := (order.visit targets.claims).foldl
      (fun pending claim => joinPending claim.1 claim.2 pending) [] }

def claimingSources (claims : FiniteMap PeerId DescendantSyncTarget)
    (entry : PendingDescendantSyncTarget) : Finset PeerId :=
  entry.sources.filter fun source =>
    (claims.lookup source).map DescendantSyncTarget.hash = some entry.target.hash

/-- Follow the local head. A new one renews the budget and forgets what is finished. -/
def reconcile (order : FiniteMap.Traversal PeerId DescendantSyncTarget)
    (targets : DescendantSyncTargets) (canonical : DescendantSyncAnchor) : DescendantSyncTargets :=
  let claims := targets.claims.retain fun _ target => target.number > canonical.number
  if targets.anchor ≠ some canonical then
    rebuildPending order
      { targets with
        anchor := some canonical
        claims := claims
        requests := 0
        retryAt := none
        requestedSources := ∅
        terminalHashes := ∅ }
  else
    { targets with
      claims := claims
      pending := restrictSources (claimingSources claims) targets.pending }

/-- A target is finished: it is not scheduled again. -/
def invalidate (targets : DescendantSyncTargets) (hash : B256) : DescendantSyncTargets :=
  { targets with
    terminalHashes := insert hash targets.terminalHashes
    claims := targets.claims.retain fun _ claimed => claimed.hash ≠ hash
    pending := targets.pending.filter fun pending => pending.target.hash ≠ hash }

def disconnect (targets : DescendantSyncTargets) (source : PeerId) : DescendantSyncTargets :=
  let targets := targets.removeSourceClaim source
  { targets with requestedSources := targets.requestedSources.erase source }

/-- The next target: the first with a source that had no request yet, or the first one. -/
def nextIndex (targets : DescendantSyncTargets) : Nat :=
  (targets.pending.findIdx? fun pending =>
    ¬pending.sources ⊆ targets.requestedSources).getD 0

/-- Issue a request for a target of the schedule, which goes to its end. -/
def issue (targets : DescendantSyncTargets) (canonical : DescendantSyncAnchor) (now : Nat)
    (chosen : PendingDescendantSyncTarget) (rest : List PendingDescendantSyncTarget) :
    Option DescendantSyncRequest × DescendantSyncTargets :=
  let requestId := max (targets.nextRequestId + 1) 1
  let request : DescendantSyncRequest := ⟨requestId, canonical, chosen.target⟩
  (some request,
    { targets with
      requestedSources := targets.requestedSources ∪ chosen.sources
      pending :=
        if targets.requests + 1 ≥ descendantSyncTargetMaxRequests then []
        else rest ++ [{ chosen with requested := true }]
      requests := targets.requests + 1
      retryAt := some (now + descendantSyncTargetRetryInterval)
      nextRequestId := requestId
      inFlight := some request })

/-- Request a target if none is in flight, the budget lasts and the time has come. -/
def requestIfDue (targets : DescendantSyncTargets) (canonical : DescendantSyncAnchor) (now : Nat) :
    Option DescendantSyncRequest × DescendantSyncTargets :=
  if targets.inFlight.isSome then
    (none, targets)
  else if targets.requests ≥ descendantSyncTargetMaxRequests then
    (none, { targets with pending := [] })
  else if targets.retryAt.any fun retryAt => now < retryAt then
    (none, targets)
  else
    match targets.pending[targets.nextIndex]? with
    | none => (none, targets)
    | some chosen => targets.issue canonical now chosen (targets.pending.eraseIdx targets.nextIndex)

def observe (order : FiniteMap.Traversal PeerId DescendantSyncTarget)
    (targets : DescendantSyncTargets) (source : PeerId) (target : DescendantSyncTarget)
    (canonical : DescendantSyncAnchor) (now : Nat) :
    Option DescendantSyncRequest × DescendantSyncTargets :=
  let targets := targets.reconcile order canonical
  if target.number ≤ canonical.number ∨ target.hash ∈ targets.terminalHashes then
    (none, targets.removeSourceClaim source)
  else
    (targets.updateSourceClaim source target).requestIfDue canonical now

def retry (order : FiniteMap.Traversal PeerId DescendantSyncTarget)
    (targets : DescendantSyncTargets) (canonical : DescendantSyncAnchor) (now : Nat) :
    Option DescendantSyncRequest × DescendantSyncTargets :=
  (targets.reconcile order canonical).requestIfDue canonical now

def idle (targets : DescendantSyncTargets) : DescendantSyncTargets :=
  { targets with inFlight := none }

/-- The engine answered the request in flight. -/
def complete (order : FiniteMap.Traversal PeerId DescendantSyncTarget)
    (targets : DescendantSyncTargets) (request : DescendantSyncRequest)
    (submission : DescendantSyncTargetSubmission) (canonical : DescendantSyncAnchor) (now : Nat) :
    Option DescendantSyncRequest × DescendantSyncTargets :=
  if targets.inFlight ≠ some request then
    (none, targets)
  else
    let targets := targets.idle.reconcile order canonical
    if targets.anchor ≠ some request.anchor then
      targets.requestIfDue canonical now
    else if submission = .valid ∨ submission = .invalid then
      (targets.invalidate request.target.hash).requestIfDue canonical now
    else
      targets.requestIfDue canonical now

/-- The request in flight could not be sent. -/
def cancelSubmission (targets : DescendantSyncTargets) (request : DescendantSyncRequest) :
    DescendantSyncTargets :=
  if targets.inFlight = some request then targets.idle else targets

/-! ## The schedule -/

def hashes (pending : List PendingDescendantSyncTarget) : List B256 :=
  pending.map fun entry => entry.target.hash

/-- Every target has sources, and all of them claim its hash. -/
def Claimed (claims : FiniteMap PeerId DescendantSyncTarget)
    (pending : List PendingDescendantSyncTarget) : Prop :=
  ∀ entry ∈ pending, entry.sources.Nonempty ∧ ∀ source ∈ entry.sources,
    (claims.lookup source).map DescendantSyncTarget.hash = some entry.target.hash

variable {sources : PendingDescendantSyncTarget → Finset PeerId}
  {pending : List PendingDescendantSyncTarget} {entry : PendingDescendantSyncTarget}

theorem mem_restrictSources :
    entry ∈ restrictSources sources pending ↔
      ∃ old ∈ pending, (sources old).Nonempty ∧ entry = { old with sources := sources old } := by
  unfold restrictSources
  simp only [mem_filter, mem_map, decide_eq_true_eq]
  constructor
  · rintro ⟨⟨old, hold, rfl⟩, hnone⟩
    exact ⟨old, hold, hnone, rfl⟩
  · rintro ⟨old, hold, hnone, rfl⟩
    exact ⟨⟨old, hold, rfl⟩, hnone⟩

theorem hashes_restrictSources (sources : PendingDescendantSyncTarget → Finset PeerId)
    (pending : List PendingDescendantSyncTarget) :
    (hashes (restrictSources sources pending)).Sublist (hashes pending) := by
  have hsub := (filter_sublist (l := pending.map fun entry =>
    { entry with sources := sources entry }) (p := fun entry => entry.sources.Nonempty)).map
    fun entry => entry.target.hash
  rwa [map_map] at hsub

theorem hash_mem_of_restrictSources (h : entry ∈ restrictSources sources pending) :
    ∃ old ∈ pending, old.target = entry.target := by
  obtain ⟨old, hold, -, rfl⟩ := mem_restrictSources.mp h
  exact ⟨old, hold, rfl⟩

variable {claims : FiniteMap PeerId DescendantSyncTarget} {source : PeerId}

theorem claimed_erase {changed : FiniteMap PeerId DescendantSyncTarget} (h : Claimed claims pending)
    (hchan : ∀ o, o ≠ source → changed.lookup o = claims.lookup o) :
    Claimed changed (restrictSources (fun entry => entry.sources.erase source) pending) := by
  intro entry he
  obtain ⟨old, hold, hnone, rfl⟩ := mem_restrictSources.mp he
  refine ⟨hnone, ?_⟩
  intro o ho
  obtain ⟨hne, hmem⟩ := Finset.mem_erase.mp ho
  rw [hchan o hne]
  exact (h old hold).2 o hmem

theorem claimed_claimingSources (claims : FiniteMap PeerId DescendantSyncTarget)
    (pending : List PendingDescendantSyncTarget) :
    Claimed claims (restrictSources (claimingSources claims) pending) := by
  intro entry he
  obtain ⟨old, hold, hnone, rfl⟩ := mem_restrictSources.mp he
  exact ⟨hnone, fun source hsource => (Finset.mem_filter.mp hsource).2⟩

theorem hashes_joinPending (source : PeerId) (target : DescendantSyncTarget)
    (pending : List PendingDescendantSyncTarget) :
    hashes (joinPending source target pending) =
      if target.hash ∈ hashes pending then hashes pending else hashes pending ++ [target.hash] := by
  induction pending with
  | nil => rfl
  | cons entry rest ih =>
    unfold joinPending
    by_cases heq : entry.target.hash = target.hash
    · simp [hashes, heq]
    · unfold hashes at ih ⊢
      rw [if_neg heq, map_cons, ih]
      by_cases hmem : target.hash ∈ rest.map fun entry => entry.target.hash
      · simp [hmem]
      · simp [hmem, Ne.symm heq]

variable {target : DescendantSyncTarget}

theorem nodup_joinPending (h : (hashes pending).Nodup) :
    (hashes (joinPending source target pending)).Nodup := by
  rw [hashes_joinPending]
  split
  · exact h
  · next hfresh => exact nodup_append_comm.mp (nodup_cons.mpr ⟨hfresh, h⟩)

/-- A target after a join is an old one with perhaps another source, or the new one. -/
theorem mem_joinPending (h : entry ∈ joinPending source target pending) :
    entry ∈ pending ∨
      (entry.target.hash = target.hash ∧
        (entry.sources = {source} ∨
          ∃ old ∈ pending, old.target = entry.target ∧
            entry.sources = insert source old.sources)) := by
  induction pending with
  | nil =>
    obtain rfl := mem_singleton.mp h
    exact .inr ⟨rfl, .inl rfl⟩
  | cons first rest ih =>
    unfold joinPending at h
    split at h
    · next heq =>
        rcases mem_cons.mp h with rfl | hr
        · exact .inr ⟨heq, .inr ⟨first, mem_cons_self, rfl, rfl⟩⟩
        · exact .inl (mem_cons_of_mem _ hr)
    · rcases mem_cons.mp h with rfl | hr
      · exact .inl mem_cons_self
      · rcases ih hr with hold | ⟨hhash, hsour⟩
        · exact .inl (mem_cons_of_mem _ hold)
        · refine .inr ⟨hhash, hsour.imp_right ?_⟩
          rintro ⟨old, hold, hsame⟩
          exact ⟨old, mem_cons_of_mem _ hold, hsame⟩

theorem claimed_joinPending (h : Claimed claims pending)
    (hclaim : claims.lookup source = some target) :
    Claimed claims (joinPending source target pending) := by
  intro entry he
  rcases mem_joinPending he with hold | ⟨hhash, hsour⟩
  · exact h entry hold
  · have hself : (claims.lookup source).map DescendantSyncTarget.hash
        = some entry.target.hash := by
      rw [hclaim, hhash]
      rfl
    rcases hsour with hsingle | ⟨old, hold, htarget, hinsert⟩
    · rw [hsingle]
      refine ⟨Finset.singleton_nonempty source, ?_⟩
      intro o ho
      rw [Finset.mem_singleton.mp ho]
      exact hself
    · rw [hinsert]
      refine ⟨Finset.insert_nonempty _ _, ?_⟩
      intro o ho
      rcases Finset.mem_insert.mp ho with rfl | hmem
      · exact hself
      · rw [← htarget]
        exact (h old hold).2 o hmem

/-- The targets of claims that are visited in some order. -/
theorem rebuilt {visited : List (PeerId × DescendantSyncTarget)}
    (hvisi : ∀ claim ∈ visited, claims.lookup claim.1 = some claim.2)
    (pending : List PendingDescendantSyncTarget) (hnd : (hashes pending).Nodup)
    (h : Claimed claims pending) :
    (hashes (visited.foldl (fun pending claim => joinPending claim.1 claim.2 pending)
        pending)).Nodup ∧
      Claimed claims
        (visited.foldl (fun pending claim => joinPending claim.1 claim.2 pending) pending) := by
  induction visited generalizing pending with
  | nil => exact ⟨hnd, h⟩
  | cons claim visited ih =>
    exact ih (fun claim hclaim => hvisi claim (mem_cons_of_mem _ hclaim)) _
      (nodup_joinPending hnd)
      (claimed_joinPending h (hvisi claim mem_cons_self))

/-- The schedule: its hashes are distinct and none of them is finished, its sources claim them, and
the budget is kept. -/
structure Scheduled (targets : DescendantSyncTargets) : Prop where
  hashes_nodup : (hashes targets.pending).Nodup
  claimed : Claimed targets.claims targets.pending
  fresh : ∀ entry ∈ targets.pending, entry.target.hash ∉ targets.terminalHashes
  requests_le : targets.requests ≤ descendantSyncTargetMaxRequests

theorem scheduled_empty : Scheduled {} :=
  ⟨nodup_nil, by simp [Claimed], by simp, Nat.zero_le _⟩

/-- The parts of a state that claims do not touch. -/
structure Keeps (before after : DescendantSyncTargets) : Prop where
  anchor : after.anchor = before.anchor
  terminalHashes : after.terminalHashes = before.terminalHashes
  requests : after.requests = before.requests
  inFlight : after.inFlight = before.inFlight

variable {targets : DescendantSyncTargets}

theorem Scheduled.removeSourceClaim (h : targets.Scheduled) (source : PeerId) :
    (targets.removeSourceClaim source).Scheduled where
  hashes_nodup := h.hashes_nodup.sublist (hashes_restrictSources _ _)
  claimed := claimed_erase h.claimed fun _ hne => AList.lookup_erase_ne hne
  fresh entry he := by
    obtain ⟨old, hold, htarget⟩ := hash_mem_of_restrictSources he
    exact htarget ▸ h.fresh old hold
  requests_le := h.requests_le

theorem keeps_removeSourceClaim (targets : DescendantSyncTargets) (source : PeerId) :
    Keeps targets (targets.removeSourceClaim source) := ⟨rfl, rfl, rfl, rfl⟩

theorem keeps_updateSourceClaim (targets : DescendantSyncTargets) (source : PeerId)
    (target : DescendantSyncTarget) : Keeps targets (targets.updateSourceClaim source target) := by
  unfold updateSourceClaim
  split
  · exact ⟨rfl, rfl, rfl, rfl⟩
  · dsimp only
    split <;> exact ⟨rfl, rfl, rfl, rfl⟩

theorem Scheduled.updateSourceClaim (h : targets.Scheduled) (source : PeerId)
    (hfresh : target.hash ∉ targets.terminalHashes) :
    (targets.updateSourceClaim source target).Scheduled := by
  have hclai : Claimed (targets.claims.insert source target)
      (restrictSources (fun entry => entry.sources.erase source) targets.pending) :=
    claimed_erase h.claimed fun _ hne => AList.lookup_insert_ne hne
  have hnd := h.hashes_nodup.sublist
    (hashes_restrictSources (fun entry => entry.sources.erase source) targets.pending)
  have hold : ∀ entry ∈ restrictSources (fun entry => entry.sources.erase source) targets.pending,
      entry.target.hash ∉ targets.terminalHashes := by
    intro entry he
    obtain ⟨old, hold, htarget⟩ := hash_mem_of_restrictSources he
    exact htarget ▸ h.fresh old hold
  unfold DescendantSyncTargets.updateSourceClaim
  split
  · exact h
  · dsimp only
    split
    · exact ⟨hnd, hclai, hold, h.requests_le⟩
    · refine ⟨nodup_joinPending hnd,
        claimed_joinPending hclai (AList.lookup_insert targets.claims), ?_, h.requests_le⟩
      intro entry he
      rcases mem_joinPending he with hmem | ⟨hhash, -⟩
      · exact hold entry hmem
      · rw [hhash]
        exact hfresh

theorem Scheduled.invalidate (h : targets.Scheduled) (hash : B256) :
    (targets.invalidate hash).Scheduled where
  hashes_nodup := h.hashes_nodup.sublist (filter_sublist.map _)
  claimed entry he := by
    obtain ⟨hmem, hne⟩ := mem_filter.mp he
    refine ⟨(h.claimed entry hmem).1, ?_⟩
    intro source hsource
    obtain ⟨claimed, hget, hclai⟩ :=
      Option.map_eq_some_iff.mp ((h.claimed entry hmem).2 source hsource)
    refine Option.map_eq_some_iff.mpr ⟨claimed, ?_, hclai⟩
    exact (FiniteMap.lookup_retain _ _ _ _).mpr ⟨hget, by rw [hclai]; exact hne⟩
  fresh entry he := by
    obtain ⟨hmem, hne⟩ := mem_filter.mp he
    rw [DescendantSyncTargets.invalidate, Finset.mem_insert, not_or]
    exact ⟨of_decide_eq_true hne, h.fresh entry hmem⟩
  requests_le := h.requests_le

theorem Scheduled.reconcile (h : targets.Scheduled)
    (order : FiniteMap.Traversal PeerId DescendantSyncTarget) (canonical : DescendantSyncAnchor) :
    (targets.reconcile order canonical).Scheduled := by
  unfold DescendantSyncTargets.reconcile
  dsimp only
  split
  · obtain ⟨hnd, hclai⟩ := rebuilt (fun claim hclaim => order.mem_visit.mp hclaim) []
      nodup_nil (fun _ he => absurd he not_mem_nil)
    exact ⟨hnd, hclai, fun _ _ => Finset.notMem_empty _, Nat.zero_le _⟩
  · refine ⟨h.hashes_nodup.sublist (hashes_restrictSources _ _), claimed_claimingSources _ _, ?_,
      h.requests_le⟩
    intro entry he
    obtain ⟨old, hold, htarget⟩ := hash_mem_of_restrictSources he
    exact htarget ▸ h.fresh old hold

/-- What following the local head does to the budget: a new head renews it and forgets the finished
targets. -/
theorem reconcile_spec (order : FiniteMap.Traversal PeerId DescendantSyncTarget)
    (targets : DescendantSyncTargets) (canonical : DescendantSyncAnchor) :
    (targets.reconcile order canonical).anchor = some canonical ∧
      (targets.reconcile order canonical).inFlight = targets.inFlight ∧
      (targets.reconcile order canonical).requests
        = (if some canonical = targets.anchor then targets.requests else 0) ∧
      (targets.reconcile order canonical).terminalHashes
        = if some canonical = targets.anchor then targets.terminalHashes else ∅ := by
  unfold DescendantSyncTargets.reconcile rebuildPending
  dsimp only
  by_cases hsame : targets.anchor = some canonical
  · rw [if_neg (not_not.mpr hsame), if_pos hsame.symm, if_pos hsame.symm]
    exact ⟨hsame, rfl, rfl, rfl⟩
  · rw [if_pos hsame, if_neg (Ne.symm hsame), if_neg (Ne.symm hsame)]
    exact ⟨rfl, rfl, rfl, rfl⟩

/-! ## Requests -/

/-- A request is issued for a scheduled target when none is in flight and the budget lasts. Without
a request only the schedule may change, to an empty one. -/
theorem request_spec (targets : DescendantSyncTargets) (canonical : DescendantSyncAnchor)
    (now : Nat) :
    ((targets.requestIfDue canonical now).1 = none ∧
      ((targets.requestIfDue canonical now).2 = targets ∨
        (targets.requestIfDue canonical now).2 = { targets with pending := [] })) ∨
    ∃ chosen rest, (chosen :: rest).Perm targets.pending ∧ targets.inFlight = none ∧
      targets.requests < descendantSyncTargetMaxRequests ∧
      targets.requestIfDue canonical now = targets.issue canonical now chosen rest := by
  unfold requestIfDue
  split
  · exact .inl ⟨rfl, .inl rfl⟩
  · next hidle =>
      split
      · exact .inl ⟨rfl, .inr rfl⟩
      · next hbudget =>
          split
          · exact .inl ⟨rfl, .inl rfl⟩
          · cases hchosen : targets.pending[targets.nextIndex]? with
            | none => exact .inl ⟨rfl, .inl rfl⟩
            | some chosen =>
              obtain ⟨hlt, rfl⟩ := List.getElem?_eq_some_iff.mp hchosen
              exact .inr ⟨_, _, List.getElem_cons_eraseIdx_perm hlt,
                Option.not_isSome_iff_eq_none.mp hidle, not_le.mp hbudget, rfl⟩

theorem Scheduled.clear (h : targets.Scheduled) : Scheduled { targets with pending := [] } :=
  ⟨nodup_nil, fun _ he => absurd he not_mem_nil,
    fun _ he => absurd he not_mem_nil, h.requests_le⟩

theorem Scheduled.issue (h : targets.Scheduled) {chosen : PendingDescendantSyncTarget}
    {rest : List PendingDescendantSyncTarget} (hperm : (chosen :: rest).Perm targets.pending)
    (hbudget : targets.requests < descendantSyncTargetMaxRequests)
    (canonical : DescendantSyncAnchor) (now : Nat) :
    (targets.issue canonical now chosen rest).2.Scheduled := by
  have hmoved : ∀ entry ∈ rest ++ [{ chosen with requested := true }],
      ∃ old ∈ targets.pending, old.target = entry.target ∧ old.sources = entry.sources := by
    intro entry he
    rcases mem_append.mp he with hr | hl
    · exact ⟨entry, hperm.subset (mem_cons_of_mem _ hr), rfl, rfl⟩
    · obtain rfl := mem_singleton.mp hl
      exact ⟨chosen, hperm.subset mem_cons_self, rfl, rfl⟩
  unfold DescendantSyncTargets.issue
  dsimp only
  split
  · exact ⟨nodup_nil, fun _ he => absurd he not_mem_nil,
      fun _ he => absurd he not_mem_nil, hbudget⟩
  · refine ⟨?_, ?_, ?_, hbudget⟩
    · have hhashes : (hashes (rest ++ [{ chosen with requested := true }])).Perm
          (hashes targets.pending) := by
        refine List.Perm.trans ?_ (hperm.map _)
        unfold hashes
        rw [map_append, map_cons]
        exact perm_append_singleton _ _
      exact hhashes.nodup_iff.mpr h.hashes_nodup
    · intro entry he
      obtain ⟨old, hold, htarget, hsour⟩ := hmoved entry he
      rw [← htarget, ← hsour]
      exact h.claimed old hold
    · intro entry he
      obtain ⟨old, hold, htarget, -⟩ := hmoved entry he
      exact htarget ▸ h.fresh old hold

theorem request_anchor (targets : DescendantSyncTargets) (canonical : DescendantSyncAnchor)
    (now : Nat) : (targets.requestIfDue canonical now).2.anchor = targets.anchor := by
  rcases request_spec targets canonical now with
    ⟨-, hsame | hclear⟩ | ⟨chosen, rest, -, -, -, hissue⟩
  · rw [hsame]
  · rw [hclear]
  · rw [hissue]
    rfl

/-! ## History -/

/-- What happened to the requests: those without an answer, and since the local head changed last,
the number of requests and the finished targets. -/
structure RequestHistory where
  outstanding : List DescendantSyncRequest := []
  issued : Nat := 0
  finished : Finset B256 := ∅

namespace RequestHistory

def answer (history : RequestHistory) (request : DescendantSyncRequest) : RequestHistory :=
  { history with outstanding := history.outstanding.erase request }

/-- Start over unless the local head is the same. -/
def renew (history : RequestHistory) (same : Prop) [Decidable same] : RequestHistory :=
  if same then history else { history with issued := 0, finished := ∅ }

def finish (history : RequestHistory) (hashes : Finset B256) : RequestHistory :=
  { history with finished := history.finished ∪ hashes }

def issue (history : RequestHistory) (request : Option DescendantSyncRequest) : RequestHistory :=
  { history with
    outstanding := history.outstanding ++ request.toList
    issued := history.issued + request.toList.length }

end RequestHistory

/-- The history of a state: a request without an answer is the one in flight, the counter of the
state counts the requests, and the finished targets are terminal. -/
structure Tracked (targets : DescendantSyncTargets) (history : RequestHistory) : Prop where
  scheduled : targets.Scheduled
  outstanding_eq : history.outstanding = targets.inFlight.toList
  issued_eq : history.issued = targets.requests
  finished_subset : history.finished ⊆ targets.terminalHashes

theorem tracked_empty : Tracked {} {} := ⟨scheduled_empty, rfl, rfl, Finset.Subset.refl _⟩

section Tracked

variable {targets : DescendantSyncTargets} {history : RequestHistory}

theorem Tracked.keeps (h : Tracked targets history) {next : DescendantSyncTargets}
    (hkeeps : Keeps targets next) (hsche : next.Scheduled) : Tracked next history where
  scheduled := hsche
  outstanding_eq := by rw [h.outstanding_eq, hkeeps.inFlight]
  issued_eq := by rw [h.issued_eq, hkeeps.requests]
  finished_subset := by rw [hkeeps.terminalHashes]; exact h.finished_subset

theorem Tracked.reconcile (h : Tracked targets history)
    (order : FiniteMap.Traversal PeerId DescendantSyncTarget) (canonical : DescendantSyncAnchor) :
    Tracked (targets.reconcile order canonical)
      (history.renew (some canonical = targets.anchor)) := by
  obtain ⟨-, hinFl, hreqs, hterm⟩ := reconcile_spec order targets canonical
  unfold RequestHistory.renew
  split
  · next hsame =>
      rw [if_pos hsame] at hreqs hterm
      exact ⟨h.scheduled.reconcile order canonical, by rw [hinFl, h.outstanding_eq],
        by rw [hreqs, h.issued_eq], by rw [hterm]; exact h.finished_subset⟩
  · next hchanged =>
      rw [if_neg hchanged] at hreqs
      exact ⟨h.scheduled.reconcile order canonical, by rw [hinFl, ← h.outstanding_eq],
        hreqs.symm, Finset.empty_subset _⟩

theorem Tracked.invalidate (h : Tracked targets history) (hash : B256) :
    Tracked (targets.invalidate hash) (history.finish {hash}) where
  scheduled := h.scheduled.invalidate hash
  outstanding_eq := h.outstanding_eq
  issued_eq := h.issued_eq
  finished_subset := by
    rw [RequestHistory.finish, DescendantSyncTargets.invalidate, Finset.insert_eq,
      Finset.union_comm]
    exact Finset.union_subset_union_right h.finished_subset

/-- A request keeps the history, and its target is not finished. -/
theorem Tracked.request (h : Tracked targets history) (canonical : DescendantSyncAnchor)
    (now : Nat) :
    Tracked (targets.requestIfDue canonical now).2
        (history.issue (targets.requestIfDue canonical now).1) ∧
      ∀ request, (targets.requestIfDue canonical now).1 = some request →
        request.target.hash ∉ history.finished := by
  rcases request_spec targets canonical now with
    ⟨hno, hsame⟩ | ⟨chosen, rest, hperm, hidle, hbudget, hissue⟩
  · have hhist : history.issue none = history := by simp [RequestHistory.issue]
    rw [hno, hhist]
    refine ⟨?_, nofun⟩
    rcases hsame with hsame | hclear
    · rw [hsame]
      exact h
    · rw [hclear]
      exact h.keeps ⟨rfl, rfl, rfl, rfl⟩ h.scheduled.clear
  · rw [hissue]
    refine ⟨⟨h.scheduled.issue hperm hbudget canonical now, ?_, ?_, h.finished_subset⟩, ?_⟩
    · rw [RequestHistory.issue, h.outstanding_eq, hidle]
      rfl
    · rw [RequestHistory.issue, h.issued_eq]
      rfl
    · intro request hreq
      cases hreq
      intro hfini
      exact h.scheduled.fresh chosen (hperm.subset mem_cons_self)
        (h.finished_subset hfini)

end Tracked

/-! ## Runs -/

inductive Call where
  | observe (source : PeerId) (target : DescendantSyncTarget) (canonical : DescendantSyncAnchor)
      (now : Nat)
  | retry (canonical : DescendantSyncAnchor) (now : Nat)
  | reconcile (canonical : DescendantSyncAnchor)
  | invalidate (hash : B256)
  | disconnect (source : PeerId)
  | complete (request : DescendantSyncRequest) (submission : DescendantSyncTargetSubmission)
      (canonical : DescendantSyncAnchor) (now : Nat)
  | cancelSubmission (request : DescendantSyncRequest)
  | requestIfDue (canonical : DescendantSyncAnchor) (now : Nat)
  | updateSourceClaim (source : PeerId) (target : DescendantSyncTarget)

/-- The request that a call issues, and the schedule after it. -/
def apply (order : FiniteMap.Traversal PeerId DescendantSyncTarget)
    (targets : DescendantSyncTargets) : Call → Option DescendantSyncRequest × DescendantSyncTargets
  | .observe source target canonical now => targets.observe order source target canonical now
  | .retry canonical now => targets.retry order canonical now
  | .reconcile canonical => (none, targets.reconcile order canonical)
  | .invalidate hash => (none, targets.invalidate hash)
  | .disconnect source => (none, targets.disconnect source)
  | .complete request submission canonical now =>
    targets.complete order request submission canonical now
  | .cancelSubmission request => (none, targets.cancelSubmission request)
  | .requestIfDue canonical now => targets.requestIfDue canonical now
  | .updateSourceClaim source target => (none, targets.updateSourceClaim source target)

/-- The targets that a call finishes: one that is invalidated, or that of the request in flight when
the engine answered that it is valid or not under the local head of the request. -/
def finishes (before after : DescendantSyncTargets) : Call → Finset B256
  | .invalidate hash => {hash}
  | .complete request submission _ _ =>
    if before.inFlight = some request ∧ after.anchor = some request.anchor ∧
        submission ≠ .pending then
      {request.target.hash}
    else
      ∅
  | _ => ∅

/-- The history after a call. Following the local head comes first, and a request last. -/
def advance (history : RequestHistory) (before after : DescendantSyncTargets) (call : Call)
    (issued : Option DescendantSyncRequest) : RequestHistory :=
  let answered := match call with
    | .complete request _ _ _ | .cancelSubmission request => history.answer request
    | _ => history
  ((answered.renew (after.anchor = before.anchor)).finish (finishes before after call)).issue issued

/-- A claim is only recorded for a target that is not finished, as an announcement does. -/
def Permitted (targets : DescendantSyncTargets) : Call → Prop
  | .updateSourceClaim _ target => target.hash ∉ targets.terminalHashes
  | _ => True

variable {history : RequestHistory}

theorem Tracked.answer (h : Tracked targets history) {request : DescendantSyncRequest}
    (hinFl : targets.inFlight = some request) :
    Tracked targets.idle (history.answer request) where
  scheduled := ⟨h.scheduled.hashes_nodup, h.scheduled.claimed, h.scheduled.fresh,
    h.scheduled.requests_le⟩
  outstanding_eq := by
    rw [RequestHistory.answer, h.outstanding_eq, hinFl]
    simp [idle]
  issued_eq := h.issued_eq
  finished_subset := h.finished_subset

theorem Tracked.answer_other (h : Tracked targets history) {request : DescendantSyncRequest}
    (hinFl : targets.inFlight ≠ some request) : history.answer request = history := by
  have hmem : request ∉ history.outstanding := by
    rw [h.outstanding_eq, Option.mem_toList]
    exact hinFl
  rw [RequestHistory.answer, erase_of_not_mem hmem]

@[simp] theorem finish_empty (history : RequestHistory) : history.finish ∅ = history := by
  simp [RequestHistory.finish]

@[simp] theorem issue_none (history : RequestHistory) : history.issue none = history := by
  simp [RequestHistory.issue]

@[simp] theorem renew_same (history : RequestHistory) {same : Prop} [Decidable same] (h : same) :
    history.renew same = history := if_pos h

theorem Tracked.then_request {mid next : DescendantSyncTargets} {settled : RequestHistory}
    (h : Tracked mid settled) {canonical : DescendantSyncAnchor} {now : Nat}
    {issued : Option DescendantSyncRequest} (hn : mid.requestIfDue canonical now = (issued, next)) :
    (Tracked next (settled.issue issued) ∧ ∀ request, issued = some request →
      request.target.hash ∉ (settled.issue issued).finished) ∧ next.anchor = mid.anchor := by
  have hreq := h.request canonical now
  have hanchor := request_anchor mid canonical now
  rw [hn] at hreq hanchor
  exact ⟨hreq, hanchor⟩

section Step

variable {targets next : DescendantSyncTargets} {history : RequestHistory}
  (order : FiniteMap.Traversal PeerId DescendantSyncTarget)
  {issued : Option DescendantSyncRequest}

/-- What one call keeps: the history stays that of the state, and a request that the call issues is
for a target that is not finished. -/
def StepKept (targets : DescendantSyncTargets) (history : RequestHistory) (call : Call)
    (issued : Option DescendantSyncRequest) (next : DescendantSyncTargets) : Prop :=
  Tracked next (advance history targets next call issued) ∧
    ∀ request, issued = some request →
      request.target.hash ∉ (advance history targets next call issued).finished

theorem Tracked.observe (h : Tracked targets history) (source : PeerId)
    (target : DescendantSyncTarget) (canonical : DescendantSyncAnchor) (now : Nat)
    (hn : targets.observe order source target canonical now = (issued, next)) :
    StepKept targets history (.observe source target canonical now) issued next := by
  have hmid := h.reconcile order canonical
  obtain ⟨hanchor, -⟩ := reconcile_spec order targets canonical
  unfold DescendantSyncTargets.observe at hn
  dsimp only at hn
  split at hn
  · cases hn
    have hkeeps := keeps_removeSourceClaim (targets.reconcile order canonical) source
    refine ⟨?_, nofun⟩
    simp only [advance, finishes, hkeeps.anchor, hanchor, finish_empty, issue_none]
    exact hmid.keeps hkeeps (hmid.scheduled.removeSourceClaim source)
  · next hopen =>
      have hkeeps := keeps_updateSourceClaim (targets.reconcile order canonical) source target
      have hupda := hmid.keeps hkeeps
        (hmid.scheduled.updateSourceClaim source (not_or.mp hopen).2)
      obtain ⟨hkept, hl⟩ := hupda.then_request hn
      unfold StepKept
      simp only [advance, finishes, hl, hkeeps.anchor, hanchor, finish_empty]
      exact hkept

theorem Tracked.retry (h : Tracked targets history) (canonical : DescendantSyncAnchor) (now : Nat)
    (hn : targets.retry order canonical now = (issued, next)) :
    StepKept targets history (.retry canonical now) issued next := by
  obtain ⟨hkept, hl⟩ := (h.reconcile order canonical).then_request hn
  obtain ⟨hanchor, -⟩ := reconcile_spec order targets canonical
  unfold StepKept
  simp only [advance, finishes, hl, hanchor, finish_empty]
  exact hkept

theorem Tracked.complete (h : Tracked targets history) (request : DescendantSyncRequest)
    (submission : DescendantSyncTargetSubmission) (canonical : DescendantSyncAnchor) (now : Nat)
    (hn : targets.complete order request submission canonical now = (issued, next)) :
    StepKept targets history (.complete request submission canonical now) issued next := by
  unfold DescendantSyncTargets.complete at hn
  by_cases hinFl : targets.inFlight = some request
  · have hmid := (h.answer hinFl).reconcile order canonical
    obtain ⟨hanchor, -⟩ := reconcile_spec order targets.idle canonical
    rw [if_neg (not_not.mpr hinFl)] at hn
    dsimp only at hn
    rw [hanchor] at hn
    unfold StepKept
    split at hn
    · next hchan =>
        obtain ⟨hkept, hl⟩ := hmid.then_request hn
        simp only [advance, finishes, hl, hanchor, hchan, false_and, and_false, if_false,
          finish_empty]
        exact hkept
    · next hsame =>
        split at hn
        · next hterm =>
            have hfinal : submission ≠ .pending := by
              rintro rfl
              simp at hterm
            obtain ⟨hkept, hl⟩ := (hmid.invalidate request.target.hash).then_request hn
            have hunder : next.anchor = some canonical := hl.trans hanchor
            simp only [advance, finishes, hunder, hinFl, not_not.mp hsame, hfinal, true_and,
              ne_eq, not_false_eq_true, if_true]
            rw [← not_not.mp hsame]
            exact hkept
        · next hterm =>
            have hfinal : submission = .pending := by
              cases submission <;> simp at hterm ⊢
            obtain ⟨hkept, hl⟩ := hmid.then_request hn
            simp only [advance, finishes, hl, hanchor, hfinal, ne_eq, not_true_eq_false,
              and_false, if_false, finish_empty]
            exact hkept
  · rw [if_pos hinFl] at hn
    cases hn
    refine ⟨?_, nofun⟩
    simp only [advance, finishes, hinFl, false_and, if_false, h.answer_other hinFl,
      renew_same, finish_empty, issue_none]
    exact h

theorem Tracked.cancelSubmission (h : Tracked targets history) (request : DescendantSyncRequest) :
    StepKept targets history (.cancelSubmission request) none
      (targets.cancelSubmission request) := by
  refine ⟨?_, nofun⟩
  unfold DescendantSyncTargets.cancelSubmission
  split
  · next hinFl =>
      have hanchor : targets.idle.anchor = targets.anchor := rfl
      simp only [advance, finishes, hanchor, renew_same, finish_empty, issue_none]
      exact h.answer hinFl
  · next hinFl =>
      simp only [advance, finishes, h.answer_other hinFl, renew_same, finish_empty, issue_none]
      exact h

/-- What every call keeps. -/
theorem Tracked.apply (h : Tracked targets history) {call : Call} (hperm : targets.Permitted call)
    (hn : targets.apply order call = (issued, next)) :
    StepKept targets history call issued next := by
  cases call with
  | observe source target canonical now => exact h.observe order source target canonical now hn
  | retry canonical now => exact h.retry order canonical now hn
  | complete request submission canonical now =>
    exact h.complete order request submission canonical now hn
  | cancelSubmission request =>
    cases hn
    exact h.cancelSubmission request
  | reconcile canonical =>
    cases hn
    obtain ⟨hanchor, -⟩ := reconcile_spec order targets canonical
    refine ⟨?_, nofun⟩
    simp only [advance, finishes, hanchor, finish_empty, issue_none]
    exact h.reconcile order canonical
  | invalidate hash =>
    cases hn
    have hanchor : (targets.invalidate hash).anchor = targets.anchor := rfl
    refine ⟨?_, nofun⟩
    simp only [advance, finishes, hanchor, renew_same, issue_none]
    exact h.invalidate hash
  | disconnect source =>
    cases hn
    have hkeeps := keeps_removeSourceClaim targets source
    have hsche := h.scheduled.removeSourceClaim source
    have hanchor : (targets.disconnect source).anchor = targets.anchor := rfl
    refine ⟨?_, nofun⟩
    simp only [advance, finishes, hanchor, renew_same, finish_empty, issue_none]
    exact h.keeps ⟨rfl, rfl, rfl, rfl⟩ ⟨hsche.hashes_nodup, hsche.claimed,
      hsche.fresh, hsche.requests_le⟩
  | requestIfDue canonical now =>
    obtain ⟨hkept, hl⟩ := h.then_request hn
    unfold StepKept
    simp only [advance, finishes, hl, renew_same, finish_empty]
    exact hkept
  | updateSourceClaim source target =>
    cases hn
    have hkeeps := keeps_updateSourceClaim targets source target
    refine ⟨?_, nofun⟩
    simp only [advance, finishes, hkeeps.anchor, renew_same, finish_empty, issue_none]
    exact h.keeps hkeeps (h.scheduled.updateSourceClaim source hperm)

end Step

/-- Make calls one after another. -/
def run (order : FiniteMap.Traversal PeerId DescendantSyncTarget) :
    List Call → DescendantSyncTargets × RequestHistory → DescendantSyncTargets × RequestHistory
  | [], state => state
  | call :: calls, (targets, history) =>
    let (issued, next) := targets.apply order call
    run order calls (next, advance history targets next call issued)

/-- All calls of a run are permitted. -/
def PermittedRun (order : FiniteMap.Traversal PeerId DescendantSyncTarget) :
    List Call → DescendantSyncTargets → Prop
  | [], _ => True
  | call :: calls, targets =>
    targets.Permitted call ∧ PermittedRun order calls (targets.apply order call).2

theorem Tracked.run {order : FiniteMap.Traversal PeerId DescendantSyncTarget} {calls : List Call}
    (h : Tracked targets history) (hperm : PermittedRun order calls targets) :
    Tracked (run order calls (targets, history)).1 (run order calls (targets, history)).2 := by
  induction calls generalizing targets history with
  | nil => exact h
  | cons call calls ih => exact ih (h.apply order hperm.1 rfl).1 hperm.2

/-- After every permitted run, whatever the order in which claims are visited: at most one request
has no answer, at most 120 were issued since the local head changed last, the scheduled hashes are
distinct, and their sources claim them. A request that is issued next is for a target that was not
finished since then. -/
theorem run_tracked (order : FiniteMap.Traversal PeerId DescendantSyncTarget) (calls : List Call)
    (hpermitted : PermittedRun order calls {}) :
    (run order calls ({}, {})).2.outstanding.length ≤ 1 ∧
    (run order calls ({}, {})).2.issued ≤ descendantSyncTargetMaxRequests ∧
    (hashes (run order calls ({}, {})).1.pending).Nodup ∧
    (∀ entry ∈ (run order calls ({}, {})).1.pending, ∀ source ∈ entry.sources,
      ((run order calls ({}, {})).1.claims.lookup source).map DescendantSyncTarget.hash
        = some entry.target.hash) ∧
    ∀ call, (run order calls ({}, {})).1.Permitted call → ∀ request,
      ((run order calls ({}, {})).1.apply order call).1 = some request →
        request.target.hash ∉ (run order [call] (run order calls ({}, {}))).2.finished := by
  have h := tracked_empty.run hpermitted
  refine ⟨?_, ?_, h.scheduled.hashes_nodup,
    fun entry hentry => (h.scheduled.claimed entry hentry).2,
    ?_⟩
  · rw [h.outstanding_eq]
    cases (DescendantSyncTargets.run order calls ({}, {})).1.inFlight <;> simp
  · rw [h.issued_eq]
    exact h.scheduled.requests_le
  · intro call hcall request hrequest
    exact (h.apply order hcall rfl).2 request hrequest

/-- A peer, a target and two local heads. -/
def exampleSource : PeerId := .zero 64
def exampleTarget : DescendantSyncTarget := ⟨.ofNat 32 9, 9⟩
def exampleHome : DescendantSyncAnchor := ⟨.ofNat 32 1, 1⟩
def exampleAway : DescendantSyncAnchor := ⟨.ofNat 32 2, 1⟩

/-- An announcement leads to one request. -/
theorem run_tracked_observe :
    (run .entries [.observe exampleSource exampleTarget exampleHome 0] ({}, {})).2.outstanding
        = [⟨1, exampleHome, exampleTarget⟩] ∧
      (run .entries [.observe exampleSource exampleTarget exampleHome 0] ({}, {})).2.issued
        ≤ descendantSyncTargetMaxRequests :=
  ⟨by decide +kernel, (run_tracked .entries
    [.observe exampleSource exampleTarget exampleHome 0] ⟨trivial, trivial⟩).2.1⟩

/-- A finished target is requested again under the same local head after another head in between,
and when its claim is recorded without an announcement. -/
theorem finished_requested_again :
    (apply .entries {} (.observe exampleSource exampleTarget exampleHome 0)).1
        = some ⟨1, exampleHome, exampleTarget⟩ ∧
      (apply .entries (run .entries
          [.observe exampleSource exampleTarget exampleHome 0,
            .complete ⟨1, exampleHome, exampleTarget⟩ .valid exampleHome 1,
            .reconcile exampleAway] ({}, {})).1
          (.observe exampleSource exampleTarget exampleHome 2)).1
        = some ⟨2, exampleHome, exampleTarget⟩ ∧
      (apply .entries (run .entries
          [.reconcile exampleHome, .invalidate exampleTarget.hash,
            .updateSourceClaim exampleSource exampleTarget] ({}, {})).1
          (.requestIfDue exampleHome 0)).1
        = some ⟨1, exampleHome, exampleTarget⟩ := by
  decide +kernel

end DescendantSyncTargets

end NeoX
