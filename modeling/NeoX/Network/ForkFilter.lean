import Mathlib.Data.List.Destutter
import NeoX.Primitives

/-!
# The fork filter of beacon peers

A peer announces the checksum of the forks that it has passed and the next fork that it knows. The
filter compares them with the local schedule: the forks at block numbers, then those at times.

Main results:

- `BeaconForkFilter.validate_exact`: every two heads of a schedule are compatible, and
  a peer with other forks is refused.
-/

namespace NeoX

open List

/-- Fork identifiers above this value are times. -/
def gethForkTimestampThreshold : Nat := 1438269973

/-- When a fork activates. -/
inductive ForkCondition where
  | block (number : Nat)
  | ttd (forkBlock : Option Nat)
  | timestamp (timestamp : Nat)
  | never

/-- A fork that splits the schedule. -/
inductive ForkPoint where
  | block (number : Nat)
  | time (timestamp : Nat)
  deriving DecidableEq

/-- The number and the time of the latest block. -/
structure Head where
  number : Nat
  timestamp : Nat

/-- What a peer announces: the checksum of the passed forks, and the next fork or zero. -/
structure ForkId where
  hash : FixedBytes 4
  next : Nat
  deriving DecidableEq

namespace ForkPoint

def value : ForkPoint → Nat
  | block number => number
  | time timestamp => timestamp

/-- Whether a head has reached the fork. -/
def passed (head : Head) : ForkPoint → Bool
  | block number => number ≤ head.number
  | time timestamp => timestamp ≤ head.timestamp

end ForkPoint

/-- The schedule of forks with the checksum before each of them and after the last. -/
structure BeaconForkFilter where
  points : List ForkPoint
  sums : List (FixedBytes 4)
  blockForks : Nat
  hasTimeForks : Bool

namespace BeaconForkFilter

/-- Sort, and keep one of equal neighbours. -/
def sortDedup (forks : List Nat) : List Nat :=
  (forks.mergeSort (· ≤ ·)).destutter (· ≠ ·)

/-- The forks at block numbers after the genesis block. -/
def blockFork : ForkCondition → Option Nat
  | .block number => if 0 < number then some number else none
  | .ttd forkBlock => forkBlock.filter (0 < ·)
  | _ => none

/-- The forks at times after the genesis block. -/
def timeFork (genesisTimestamp : Nat) : ForkCondition → Option Nat
  | .timestamp timestamp => if genesisTimestamp < timestamp then some timestamp else none
  | _ => none

/-- The filter of a chain, for a checksum that takes in one fork after another. -/
def new (add : FixedBytes 4 → Nat → FixedBytes 4) (genesisHash : FixedBytes 4)
    (genesisTimestamp : Nat) (conditions : List ForkCondition) : BeaconForkFilter :=
  let blockForks := sortDedup (conditions.filterMap blockFork)
  let timeForks := sortDedup (conditions.filterMap (timeFork genesisTimestamp))
  let points := blockForks.map .block ++ timeForks.map .time
  ⟨points, points.scanl (fun sum point => add sum point.value) genesisHash, blockForks.length,
    !timeForks.isEmpty⟩

variable (filter : BeaconForkFilter) (head : Head)

/-- The position of the first fork that is not passed. -/
def currentIndex : Nat :=
  filter.points.findIdx fun point => !point.passed head

def forkId : ForkId :=
  ⟨filter.sums.getD (filter.currentIndex head) (.zero 4),
    (filter.points[filter.currentIndex head]?).elim 0 ForkPoint.value⟩

/-- The number or the time of a head, as the next fork is at a block or a time. -/
def dimensionHead : Nat :=
  if filter.currentIndex head < filter.blockForks || !filter.hasTimeForks then head.number
  else head.timestamp

def validate (remote : ForkId) : Bool :=
  let index := filter.currentIndex head
  if (filter.forkId head).hash = remote.hash then
    -- The same checksum: a fork that only the peer knows must not have passed.
    remote.next = 0 || (filter.dimensionHead head < remote.next &&
      (remote.next ≤ gethForkTimestampThreshold || head.timestamp < remote.next))
  else
    match (filter.sums.take index).findIdx? (· = remote.hash) with
    -- A peer that is behind announces the local fork that follows.
    | some previous => (filter.points[previous]?).elim 0 ForkPoint.value = remote.next
    | none => (filter.sums.drop (index + 1)).contains remote.hash

/-- What every filter of a chain satisfies. -/
structure Built (filter : BeaconForkFilter) : Prop where
  length_sums : filter.sums.length = filter.points.length + 1
  block_iff : ∀ index point, filter.points[index]? = some point →
    ((index < filter.blockForks ∨ filter.hasTimeForks = false) ↔ ∃ number, point = .block number)

variable {filter head}

theorem built_new (add : FixedBytes 4 → Nat → FixedBytes 4) (genesisHash : FixedBytes 4)
    (genesisTimestamp : Nat) (conditions : List ForkCondition) :
    (new add genesisHash genesisTimestamp conditions).Built := by
  refine ⟨length_scanl .., ?_⟩
  intro index point hpoint
  simp only [new, getElem?_append, length_map, getElem?_map] at hpoint ⊢
  split at hpoint
  · rename_i hlt
    obtain ⟨fork, -, rfl⟩ := Option.map_eq_some_iff.mp hpoint
    exact ⟨fun _ => ⟨fork, rfl⟩, fun _ => .inl hlt⟩
  · rename_i hge
    obtain ⟨fork, hfork, rfl⟩ := Option.map_eq_some_iff.mp hpoint
    have hsome := ne_nil_of_mem (mem_of_getElem? hfork)
    simp [hge, hsome]

namespace Built

variable {remote : ForkId} {index : Nat}

theorem currentIndex_le (filter : BeaconForkFilter) (head : Head) :
    filter.currentIndex head ≤ filter.points.length :=
  findIdx_le_length

theorem sums_inj {sum : FixedBytes 4} {other : Nat} (hnodup : filter.sums.Nodup)
    (hindex : filter.sums[index]? = some sum) (hother : filter.sums[other]? = some sum) :
    index = other :=
  (List.getElem?_inj (List.getElem?_eq_some_iff.mp hindex).1 hnodup).mp (hindex.trans hother.symm)

theorem sums_currentIndex (h : filter.Built) (head : Head) :
    filter.sums[filter.currentIndex head]? = some (filter.forkId head).hash := by
  have hle := currentIndex_le filter head
  have hlt : filter.currentIndex head < filter.sums.length := by rw [h.length_sums]; omega
  simp [forkId, getElem?_eq_getElem hlt]

theorem not_passed {point : ForkPoint} (h : filter.points[filter.currentIndex head]? = some point) :
    point.passed head = false := by
  obtain ⟨hlt, rfl⟩ := List.getElem?_eq_some_iff.mp h
  exact (Bool.not_eq_true' _).mp
    (@List.findIdx_getElem _ (fun point : ForkPoint => !point.passed head) _ hlt)

/-- A peer at an earlier checksum has to announce the fork that follows it. -/
theorem validate_behind (h : filter.Built) (hnodup : filter.sums.Nodup)
    (hindex : index < filter.currentIndex head)
    (hsum : filter.sums[index]? = some remote.hash) : filter.validate head remote =
      decide ((filter.points[index]?).elim 0 ForkPoint.value = remote.next) := by
  have hcurr := h.sums_currentIndex head
  have hne : (filter.forkId head).hash ≠ remote.hash := by
    intro heq
    have := sums_inj hnodup hsum (heq ▸ hcurr)
    omega
  have hfind : (filter.sums.take (filter.currentIndex head)).findIdx? (· = remote.hash)
      = some index := by
    rw [List.findIdx?_eq_some_iff_getElem]
    obtain ⟨hlt, heq⟩ := List.getElem?_eq_some_iff.mp hsum
    refine ⟨by rw [List.length_take]; omega, by simpa using heq, fun other hother hsame => ?_⟩
    have hfirst : filter.sums[other]? = some remote.hash :=
      List.getElem?_eq_some_iff.mpr ⟨by omega, by simpa using hsame⟩
    have := sums_inj hnodup hfirst hsum
    omega
  rw [validate, if_neg hne, hfind]

/-- A checksum that is neither the current one nor an earlier one has to be a later one. -/
theorem validate_ahead (hcurr : (filter.forkId head).hash ≠ remote.hash)
    (hsum : ∀ index < filter.currentIndex head, filter.sums[index]? ≠ some remote.hash) :
    filter.validate head remote =
      (filter.sums.drop (filter.currentIndex head + 1)).contains remote.hash := by
  have hfind : (filter.sums.take (filter.currentIndex head)).findIdx? (· = remote.hash) = none := by
    rw [findIdx?_eq_none_iff]
    intro sum hmem
    obtain ⟨index, hindex, heq⟩ := mem_take_iff_getElem.mp hmem
    have := hsum index (by omega)
    rw [getElem?_eq_getElem (by omega), heq] at this
    simpa using this
  rw [validate, if_neg hcurr, hfind]

/-- Heads at one checksum are compatible. -/
theorem validate_same (h : filter.Built)
    (hblocks : ∀ number, ForkPoint.block number ∈ filter.points →
      number ≤ gethForkTimestampThreshold) {other : Head}
    (hindex : filter.currentIndex other = filter.currentIndex head) :
    filter.validate head (filter.forkId other) = true := by
  have hid : filter.forkId other = filter.forkId head := by rw [forkId, forkId, hindex]
  rw [hid, validate, if_pos rfl]
  cases hpoint : filter.points[filter.currentIndex head]? with
  | none => simp [forkId, hpoint]
  | some point =>
    have hpassed := not_passed hpoint
    have hiff := h.block_iff _ _ hpoint
    have hnext : (filter.forkId head).next = point.value := by simp [forkId, hpoint]
    cases point with
    | block number =>
      have hbound := hblocks number (mem_of_getElem? hpoint)
      have hdime : filter.dimensionHead head = head.number :=
        if_pos (by simpa using hiff.mpr ⟨number, rfl⟩)
      simp_all [ForkPoint.passed, ForkPoint.value]
    | time timestamp =>
      have hdime : filter.dimensionHead head = head.timestamp :=
        if_neg (by simpa using mt hiff.mp (by simp))
      simp_all [ForkPoint.passed, ForkPoint.value]

end Built

/-- A head has reached a fork that a peer announces. -/
def Reached (head : Head) (next : Nat) : Prop :=
  if next ≤ gethForkTimestampThreshold then next ≤ head.number else next ≤ head.timestamp

/-- For every schedule with distinct checksums whose block forks are not above the threshold, and
heads at later times, the announcement of one head is valid at another. A checksum that is not of
the schedule, an earlier checksum without the fork that follows it, and the current checksum with a
fork that the head has reached are refused. -/
theorem validate_exact (add : FixedBytes 4 → Nat → FixedBytes 4) (genesisHash : FixedBytes 4)
    (genesisTimestamp : Nat) (conditions : List ForkCondition) {filter : BeaconForkFilter}
    (hfilter : new add genesisHash genesisTimestamp conditions = filter)
    (hnodup : filter.sums.Nodup) (hblocks : ∀ number, ForkPoint.block number ∈ filter.points →
      number ≤ gethForkTimestampThreshold) {head : Head}
    (hhead : gethForkTimestampThreshold < head.timestamp) :
    (∀ other : Head, gethForkTimestampThreshold < other.timestamp →
      filter.validate head (filter.forkId other) = true) ∧
    ∀ remote : ForkId,
      remote.hash ∉ filter.sums ∨
      (∃ index < filter.currentIndex head, filter.sums[index]? = some remote.hash ∧
        ∃ point, filter.points[index]? = some point ∧ point.value ≠ remote.next) ∨
      (remote.hash = (filter.forkId head).hash ∧ remote.next ≠ 0 ∧ Reached head remote.next) →
      filter.validate head remote = false := by
  have h : filter.Built := hfilter ▸ built_new add genesisHash genesisTimestamp conditions
  have hcurr := h.sums_currentIndex head
  constructor
  · intro other _
    have hother := h.sums_currentIndex other
    obtain hlt | heq | hgt := lt_trichotomy (filter.currentIndex other) (filter.currentIndex head)
    · rw [h.validate_behind hnodup hlt hother]
      exact decide_eq_true rfl
    · exact h.validate_same hblocks heq
    · have hne : ∀ index ≤ filter.currentIndex head,
          filter.sums[index]? ≠ some (filter.forkId other).hash := by
        intro index hle hsum
        have := Built.sums_inj hnodup hsum hother
        omega
      rw [Built.validate_ahead (fun heq => hne _ le_rfl (heq ▸ hcurr))
        (fun index hlt => hne index hlt.le), List.contains_iff_mem]
      have hdrop : (filter.sums.drop (filter.currentIndex head + 1))[filter.currentIndex other
          - (filter.currentIndex head + 1)]? = some (filter.forkId other).hash := by
        rw [List.getElem?_drop, Nat.add_sub_cancel' hgt, hother]
      exact List.mem_of_getElem? hdrop
  · rintro remote (hmem | ⟨index, hindex, hsum, point, hpoint, hnext⟩ | ⟨hhash, hnext, hreac⟩)
    · rw [Built.validate_ahead (fun heq => hmem (heq ▸ List.mem_of_getElem? hcurr))
        (fun index _ hsum => hmem (List.mem_of_getElem? hsum))]
      simpa using fun hdrop => hmem (List.mem_of_mem_drop hdrop)
    · rw [h.validate_behind hnodup hindex hsum, hpoint]
      exact decide_eq_false hnext
    · rw [validate, if_pos hhash.symm]
      unfold Reached at hreac
      split at hreac
      · have hdime : remote.next ≤ filter.dimensionHead head := by
          unfold dimensionHead
          split <;> omega
        simp [hnext, hdime]
      · simp_all

/-- A schedule with a fork at a block and one at a time, whose checksum is a sum. -/
def exampleFilter : BeaconForkFilter :=
  ⟨[.block 5, .time 2000000000],
    [.ofNat 4 0, .ofNat 4 5, .ofNat 4 2000000005], 1, true⟩

/-- A peer before the first fork is compatible with a head after the last one. -/
theorem validate_exact_behind :
    exampleFilter.validate ⟨9, 2000000001⟩ (exampleFilter.forkId ⟨1, 1500000000⟩) = true := by
  have hfilter : new (fun sum fork => .ofNat 4 (sum.toNat + fork)) (.ofNat 4 0) 0
      [.block 5, .timestamp 2000000000] = exampleFilter := by
    have hsort : ∀ fork, sortDedup [fork] = [fork] := by simp [sortDedup]
    unfold new
    rw [show [ForkCondition.block 5, .timestamp 2000000000].filterMap blockFork = [5] from rfl,
      show [ForkCondition.block 5,
      .timestamp 2000000000].filterMap (timeFork 0) = [2000000000] from rfl, hsort, hsort]
    rfl
  refine (validate_exact _ _ _ _ hfilter (by decide) ?_ (by decide)).1 _ (by decide)
  intro number hmem
  have hnumber : number = 5 := by simpa [exampleFilter] using hmem
  rw [hnumber]
  decide

end BeaconForkFilter

end NeoX
