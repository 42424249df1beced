import NeoX.Library.SortedMap
import NeoX.Network.Admission
import NeoX.Validator.RoundState

/-!
# Messages for future heights

Messages that the active round can not accept yet are cached by height, kind and validator until
their height is replayed. The cache is bounded in heights and in bytes, and pressure evicts from
the highest height down.

Main results:

- `FutureDbftMessages.makeRoom_spec`: what is evicted for a message, and when the
  message is refused.
- `FutureDbftMessages.run_bounded`: after every sequence of calls the counter is the
  sum of the sizes and the bounds hold, no lower height is evicted, and a refused message leaves
  the cache unchanged exactly if the heights up to its own leave room or no height is as high.
-/

namespace NeoX

open List

def maxCachedHeights : Nat := 8

def maxCachedBytes : Nat := 16 * 1024 * 1024

/-- The kinds of cached messages, in the order of their replay. -/
inductive CachedMessageKind where
  | preparation
  | changeView
  | preCommit
  | commit
  deriving DecidableEq

namespace CachedMessageKind

/-- The kind of a message type; the messages of the recovery are not cached. -/
def fromMessageType : DbftMessageType → Option CachedMessageKind
  | .prepareRequest | .prepareResponse => some .preparation
  | .changeView => some .changeView
  | .preCommit => some .preCommit
  | .commit => some .commit
  | .recoveryRequest | .recoveryMessage => none

/-- All kinds in the order of their replay. -/
def all : List CachedMessageKind := [preparation, changeView, preCommit, commit]

instance : Fintype CachedMessageKind where
  elems := ⟨all, by decide⟩
  complete kind := by cases kind <;> decide

end CachedMessageKind

/-- A cached message with the peer that sent it. -/
abbrev FutureDbftMessage := PeerId × DbftMessage

def cachedSize (message : DbftMessage) : Nat :=
  message.data.length + message.witness.length

/-- The slot of a message, if its inner data names a validator. -/
def cachedValidatorIndex (message : DbftMessage) : Option (Fin maxValidatorCount) :=
  match message.consensusData with
  | .error _ => none
  | .ok data =>
    if h : data.validatorIndex.toNat < maxValidatorCount then
      some ⟨data.validatorIndex.toNat, h⟩
    else
      none

/-- The messages of a height, with one slot for each kind and validator. -/
structure HeightBucket where
  slots : CachedMessageKind → Fin maxValidatorCount → Option FutureDbftMessage

namespace HeightBucket

def empty : HeightBucket := ⟨fun _ _ => none⟩

def messages (bucket : HeightBucket) : List FutureDbftMessage :=
  CachedMessageKind.all.flatMap fun kind =>
    (List.finRange maxValidatorCount).filterMap (bucket.slots kind)

def len (bucket : HeightBucket) : Nat := bucket.messages.length

def set (bucket : HeightBucket) (kind : CachedMessageKind) (index : Fin maxValidatorCount)
    (message : FutureDbftMessage) : HeightBucket where
  slots other validator :=
    if other = kind ∧ validator = index then some message else bucket.slots other validator

def bytes (bucket : HeightBucket) : Nat :=
  (bucket.messages.map fun message => cachedSize message.2).sum

def slotSize (slot : Option FutureDbftMessage) : Nat :=
  slot.elim 0 fun message => cachedSize message.2

theorem sum_filterMap {α β : Type} (slot : α → Option β) (size : β → Nat) (places : List α) :
    ((places.filterMap slot).map size).sum
      = (places.map fun place => (slot place).elim 0 size).sum := by
  induction places with
  | nil => rfl
  | cons place places ih => cases hsl : slot place <;> simp [hsl, ih]

theorem bytes_eq_sum (bucket : HeightBucket) :
    bucket.bytes = ∑ place : CachedMessageKind × Fin maxValidatorCount,
      slotSize (bucket.slots place.1 place.2) := by
  have hkinds (size : CachedMessageKind → Nat) :
      ∑ kind, size kind = (CachedMessageKind.all.map size).sum := rfl
  rw [Fintype.sum_prod_type, hkinds]
  unfold bytes messages
  simp only [CachedMessageKind.all, flatMap_cons, flatMap_nil, map_append,
    sum_append, sum_filterMap, Fin.sum_univ_def, map_cons, sum_cons, map_nil]
  rfl

/-- Filling a slot replaces its size. -/
theorem bytes_set (bucket : HeightBucket) (kind : CachedMessageKind) (i : Fin maxValidatorCount)
    (msg : FutureDbftMessage) :
    (bucket.set kind i msg).bytes + slotSize (bucket.slots kind i)
      = bucket.bytes + cachedSize msg.2 := by
  rw [bytes_eq_sum, bytes_eq_sum,
    ← Finset.add_sum_erase _ _ (Finset.mem_univ ((kind, i) : CachedMessageKind × _)),
    ← Finset.add_sum_erase _ (fun place => slotSize (bucket.slots place.1 place.2))
      (Finset.mem_univ ((kind, i) : CachedMessageKind × _))]
  have hr : ∀ place ∈ Finset.univ.erase (kind, i),
      slotSize ((bucket.set kind i msg).slots place.1 place.2)
        = slotSize (bucket.slots place.1 place.2) := by
    intro place hplace
    have hne : ¬(place.1 = kind ∧ place.2 = i) :=
      fun h => Finset.ne_of_mem_erase hplace (Prod.ext h.1 h.2)
    simp [set, hne]
  rw [Finset.sum_congr rfl hr]
  simp [set, slotSize]
  omega

@[simp] theorem bytes_empty : empty.bytes = 0 := by
  rw [bytes_eq_sum]
  exact Finset.sum_eq_zero fun _ _ => rfl

end HeightBucket

/-- The cached messages, and the counter of their sizes. -/
@[ext]
structure FutureDbftMessages where
  heights : SortedMap Nat HeightBucket := .empty
  bytes : Nat := 0

namespace FutureDbftMessages

/-! ## Operations

A counter that falls below zero stops the program, so that every operation has no result then. -/

/-- Take the sizes of messages from the counter. -/
def subtractSizes : Nat → List FutureDbftMessage → Option Nat
  | bytes, [] => some bytes
  | bytes, message :: messages =>
    if cachedSize message.2 ≤ bytes then
      subtractSizes (bytes - cachedSize message.2) messages
    else
      none

/-- Evict the highest heights while there is no room for another one. -/
def freeHeights (height : Nat) : (entries : List (Nat × HeightBucket)) →
    entries.Pairwise (fun first second => second.1 < first.1) → Nat →
    Option (Bool × FutureDbftMessages)
  | [], sorted, bytes => some (true, ⟨⟨[], sorted⟩, bytes⟩)
  | (highest, bucket) :: rest, sorted, bytes =>
    if rest.length + 1 ≥ maxCachedHeights ∧
        ∀ entry ∈ (highest, bucket) :: rest, entry.1 ≠ height then
      if highest < height then
        some (false, ⟨⟨(highest, bucket) :: rest, sorted⟩, bytes⟩)
      else do
        let bytes ← subtractSizes bytes bucket.messages
        freeHeights height rest sorted.of_cons bytes
    else
      some (true, ⟨⟨(highest, bucket) :: rest, sorted⟩, bytes⟩)

/-- Evict the highest heights while there is no room for a size. The bucket of the message's own
height is evicted too, and then the message is refused. -/
def freeBytes (height size : Nat) : (entries : List (Nat × HeightBucket)) →
    entries.Pairwise (fun first second => second.1 < first.1) → Nat →
    Option (Bool × FutureDbftMessages)
  | [], sorted, bytes => some (true, ⟨⟨[], sorted⟩, bytes⟩)
  | (highest, bucket) :: rest, sorted, bytes =>
    if bytes + size > maxCachedBytes then
      if highest < height then
        some (false, ⟨⟨(highest, bucket) :: rest, sorted⟩, bytes⟩)
      else do
        let bytes ← subtractSizes bytes bucket.messages
        if highest = height then some (false, ⟨⟨rest, sorted.of_cons⟩, bytes⟩)
        else freeBytes height size rest sorted.of_cons bytes
    else
      some (true, ⟨⟨(highest, bucket) :: rest, sorted⟩, bytes⟩)

/-- Free space for a size at a height; the result tells whether it fits. -/
def makeRoom (cache : FutureDbftMessages) (height size : Nat) :
    Option (Bool × FutureDbftMessages) := do
  match ← freeHeights height cache.heights.entries cache.heights.sorted cache.bytes with
  | (false, cache) => some (false, cache)
  | (true, cache) => freeBytes height size cache.heights.entries cache.heights.sorted cache.bytes

/-- Fill the slot of a message for which there is room. -/
def place (cache : FutureDbftMessages) (peerId : PeerId) (message : DbftMessage)
    (kind : CachedMessageKind) (index : Fin maxValidatorCount) : Option FutureDbftMessages := do
  let height := message.validBlockEnd.toNat
  let bucket := (cache.heights.lookup height).getD .empty
  let bytes ← subtractSizes cache.bytes (bucket.slots kind index).toList
  some ⟨cache.heights.insert height (bucket.set kind index (peerId, message)),
    bytes + cachedSize message⟩

/-- Cache a message; the result tells whether it is retained. -/
def insert (cache : FutureDbftMessages) (peerId : PeerId) (message : DbftMessage)
    (kind : CachedMessageKind) : Option (Bool × FutureDbftMessages) :=
  match cachedValidatorIndex message with
  | none => some (false, cache)
  | some index =>
    if cachedSize message > maxCachedBytes then
      some (false, cache)
    else do
      match ← cache.makeRoom message.validBlockEnd.toNat (cachedSize message) with
      | (false, cache) => some (false, cache)
      | (true, cache) => (cache.place peerId message kind index).map fun cache => (true, cache)

/-- Remove the messages of a height, in the order of their replay. -/
def takeHeight (cache : FutureDbftMessages) (height : Nat) :
    Option (List FutureDbftMessage × FutureDbftMessages) :=
  match cache.heights.lookup height with
  | none => some ([], cache)
  | some bucket => do
      let bytes ← subtractSizes cache.bytes bucket.messages
      some (bucket.messages, ⟨cache.heights.erase height, bytes⟩)

/-- Drop the heights up to one, from the lowest on. -/
def pruneThrough (cache : FutureDbftMessages) (height : Nat) : Option FutureDbftMessages := do
  let stale := cache.heights.entries.reverse.takeWhile fun entry => entry.1 ≤ height
  let bytes ← subtractSizes cache.bytes (stale.flatMap fun entry => entry.2.messages)
  some ⟨cache.heights.above height, bytes⟩

def len (cache : FutureDbftMessages) : Nat :=
  (cache.heights.entries.map fun entry => entry.2.len).sum

/-! ## The counter -/

/-- The size of the messages of a list of heights. -/
def sizeOf (entries : List (Nat × HeightBucket)) : Nat :=
  SortedMap.weightOf (fun _ bucket => bucket.bytes) entries

/-- The counter is the sum of the sizes. -/
def Counted (cache : FutureDbftMessages) : Prop :=
  cache.bytes = sizeOf cache.heights.entries

/-- The size of the messages up to a height. -/
def bytesThrough (cache : FutureDbftMessages) (height : Nat) : Nat :=
  sizeOf (cache.heights.entries.filter fun entry => entry.1 ≤ height)

theorem subtractSizes_eq {bytes : Nat} {messages : List FutureDbftMessage}
    (h : (messages.map fun msg => cachedSize msg.2).sum ≤ bytes) :
    subtractSizes bytes messages
      = some (bytes - (messages.map fun msg => cachedSize msg.2).sum) := by
  induction messages generalizing bytes with
  | nil => rfl
  | cons msg messages ih =>
    rw [map_cons, sum_cons] at h ⊢
    rw [subtractSizes, if_pos (by omega), ih (by omega), Nat.sub_sub]

theorem subtractSizes_bucket (bucket : HeightBucket) (rest : Nat) :
    subtractSizes (bucket.bytes + rest) bucket.messages = some rest := by
  unfold HeightBucket.bytes
  rw [subtractSizes_eq (Nat.le_add_right _ _), Nat.add_sub_cancel_left]

/-! ## Making room -/

theorem sizeOf_filter_le (test : Nat × HeightBucket → Bool) (entries : List (Nat × HeightBucket)) :
    sizeOf (entries.filter test) ≤ sizeOf entries := by
  induction entries with
  | nil => exact le_rfl
  | cons entry entries ih =>
    unfold sizeOf at ih ⊢
    cases htest : test entry <;> simp [htest] <;> omega

variable {height : Nat} {rest : List (Nat × HeightBucket)}

theorem forall_lt_of_head {highest : Nat} {bucket : HeightBucket}
    (sorted : ((highest, bucket) :: rest).Pairwise fun a b => b.1 < a.1)
    (h : highest < height) : ∀ e ∈ (highest, bucket) :: rest, e.1 < height := by
  intro e he
  rcases mem_cons.mp he with rfl | hr
  · exact h
  · exact (rel_of_pairwise_cons sorted hr).trans h

/-- What the two loops leave: the highest heights are dropped, none of them below the height, and
the counter stays exact. -/
structure Freed (height : Nat) (entries : List (Nat × HeightBucket))
    (dropped : List (Nat × HeightBucket)) (next : FutureDbftMessages) : Prop where
  entries_eq : entries = dropped ++ next.heights.entries
  counted : next.Counted
  dropped_ge : ∀ entry ∈ dropped, height ≤ entry.1

variable {dropped : List (Nat × HeightBucket)} {next : FutureDbftMessages}

theorem Freed.cons {highest : Nat} {bucket : HeightBucket} (h : Freed height rest dropped next)
    (hge : height ≤ highest) :
    Freed height ((highest, bucket) :: rest) ((highest, bucket) :: dropped) next where
  entries_eq := by rw [h.entries_eq, cons_append]
  counted := h.counted
  dropped_ge entry he := by
    rcases mem_cons.mp he with rfl | hdrop
    · exact hge
    · exact h.dropped_ge entry hdrop

variable {entries : List (Nat × HeightBucket)}

theorem Freed.append {a b : List (Nat × HeightBucket)} {mid : FutureDbftMessages}
    (h1 : Freed height entries a mid) (h2 : Freed height mid.heights.entries b next) :
    Freed height entries (a ++ b) next where
  entries_eq := by rw [h1.entries_eq, h2.entries_eq, append_assoc]
  counted := h2.counted
  dropped_ge entry he := by
    rcases mem_append.mp he with hdrop | hdrop
    · exact h1.dropped_ge entry hdrop
    · exact h2.dropped_ge entry hdrop

variable {cache : FutureDbftMessages}

theorem Freed.lookup_eq {other : Nat} (h : Freed height cache.heights.entries dropped next)
    (ho : ∀ e ∈ dropped, other < e.1) :
    next.heights.lookup other = cache.heights.lookup other := by
  apply SortedMap.lookup_congr
  intro bucket
  rw [h.entries_eq, mem_append]
  constructor
  · exact .inr
  · rintro (hdrop | hkept)
    · exact absurd (ho _ hdrop) (lt_irrefl _)
    · exact hkept

theorem freed_nil (entries : List (Nat × HeightBucket))
    (sorted : entries.Pairwise fun a b => b.1 < a.1) :
    Freed height entries [] ⟨⟨entries, sorted⟩, sizeOf entries⟩ :=
  ⟨rfl, rfl, by simp⟩

/-- The first loop drops at most one height, as there are never more than the bound. A message that
is refused here is above all heights. -/
theorem freeHeights_spec (height : Nat) (entries : List (Nat × HeightBucket))
    (sorted : entries.Pairwise fun a b => b.1 < a.1) (hc : entries.length ≤ maxCachedHeights) :
    ∃ fits dropped next, freeHeights height entries sorted (sizeOf entries) = some (fits, next) ∧
      Freed height entries dropped next ∧ (∀ e ∈ dropped, height < e.1) ∧
      (fits = true → next.heights.size < maxCachedHeights ∨
        (next.heights.lookup height).isSome = true) ∧
      (fits = false → dropped = [] ∧ ∀ e ∈ entries, e.1 < height) := by
  cases entries with
  | nil =>
    exact ⟨true, [], _, rfl, freed_nil [] sorted, by simp,
      fun _ => .inl (by decide : 0 < maxCachedHeights), nofun⟩
  | cons e rest =>
    obtain ⟨highest, bucket⟩ := e
    unfold freeHeights
    by_cases hfull : rest.length + 1 ≥ maxCachedHeights ∧
        ∀ e ∈ (highest, bucket) :: rest, e.1 ≠ height
    · rw [if_pos hfull]
      by_cases hlt : highest < height
      · rw [if_pos hlt]
        exact ⟨false, [], _, rfl, freed_nil _ sorted, by simp, nofun,
          fun _ => ⟨rfl, forall_lt_of_head sorted hlt⟩⟩
      · have hne : highest ≠ height := hfull.2 _ mem_cons_self
        have hgt : height < highest := by omega
        have hroom : rest.length < maxCachedHeights := hc
        have hstop : freeHeights height rest sorted.of_cons (sizeOf rest)
            = some (true, ⟨⟨rest, sorted.of_cons⟩, sizeOf rest⟩) := by
          cases rest with
          | nil => rfl
          | cons b others =>
            unfold freeHeights
            rw [if_neg fun h => absurd hroom (not_lt.mpr h.1)]
        have hsum : sizeOf ((highest, bucket) :: rest) = bucket.bytes + sizeOf rest := rfl
        rw [if_neg hlt, hsum, subtractSizes_bucket, Option.bind_eq_bind, Option.bind_some, hstop]
        exact ⟨true, [(highest, bucket)], _, rfl,
          (freed_nil rest sorted.of_cons).cons hgt.le, by simpa using hgt, fun _ => .inl hroom,
          nofun⟩
    · rw [if_neg hfull]
      refine ⟨true, [], _, rfl, freed_nil _ sorted, by simp, ?_, nofun⟩
      intro _
      by_contra hcontra
      rw [not_or, Option.not_isSome_iff_eq_none, SortedMap.lookup_eq_none] at hcontra
      exact hfull ⟨not_lt.mp hcontra.1, hcontra.2⟩

/-- The second loop: the message fits exactly if the heights up to its own leave room, and a message
that does not fit leaves the cache as it was exactly if all heights are lower. -/
structure BytesFreed (height size : Nat) (entries : List (Nat × HeightBucket)) (fits : Bool)
    (dropped : List (Nat × HeightBucket)) (next : FutureDbftMessages) : Prop where
  freed : Freed height entries dropped next
  fits_iff : fits = true ↔
    sizeOf (entries.filter fun entry => entry.1 ≤ height) + size ≤ maxCachedBytes
  room : fits = true → next.bytes + size ≤ maxCachedBytes ∧ ∀ entry ∈ dropped, height < entry.1
  kept : fits = false → (dropped = [] ↔ ∀ entry ∈ entries, entry.1 < height)

/-- Dropping a higher height first. -/
theorem BytesFreed.cons {size highest : Nat} {bucket : HeightBucket} {fits : Bool}
    (h : BytesFreed height size rest fits dropped next) (hgt : height < highest) :
    BytesFreed height size ((highest, bucket) :: rest) fits
      ((highest, bucket) :: dropped) next where
  freed := h.freed.cons hgt.le
  fits_iff := by
    rw [filter_cons_of_neg (by simpa using hgt)]
    exact h.fits_iff
  room htrue := by
    refine ⟨(h.room htrue).1, ?_⟩
    intro e he
    rcases mem_cons.mp he with rfl | hdrop
    · exact hgt
    · exact (h.room htrue).2 e hdrop
  kept _ := by simp [hgt.le]

theorem bytesFreed_refused {size : Nat} (hfreed : Freed height entries dropped next)
    (hfull : maxCachedBytes < sizeOf entries + size) (hle : ∀ e ∈ entries, e.1 ≤ height)
    (hkept : dropped = [] ↔ ∀ e ∈ entries, e.1 < height) :
    BytesFreed height size entries false dropped next where
  freed := hfreed
  fits_iff := by
    rw [filter_eq_self.mpr fun e he => decide_eq_true (hle e he)]
    simpa using hfull
  room := nofun
  kept _ := hkept

theorem freeBytes_spec (height : Nat) {size : Nat} (hsize : size ≤ maxCachedBytes)
    (entries : List (Nat × HeightBucket)) (sorted : entries.Pairwise fun a b => b.1 < a.1) :
    ∃ fits dropped next, freeBytes height size entries sorted (sizeOf entries) = some (fits, next) ∧
      BytesFreed height size entries fits dropped next := by
  induction entries with
  | nil =>
    refine ⟨true, [], _, rfl, freed_nil [] sorted, ?_, ?_, nofun⟩
    · simpa [sizeOf] using hsize
    · simpa [sizeOf] using hsize
  | cons e rest ih =>
    obtain ⟨highest, bucket⟩ := e
    have hsum : sizeOf ((highest, bucket) :: rest) = bucket.bytes + sizeOf rest := rfl
    unfold freeBytes
    by_cases hfull : sizeOf ((highest, bucket) :: rest) + size > maxCachedBytes
    · rw [if_pos hfull]
      rcases lt_trichotomy highest height with hlt | heq | hgt
      · have hall := forall_lt_of_head sorted hlt
        rw [if_pos hlt]
        exact ⟨false, [], _, rfl, bytesFreed_refused (freed_nil _ sorted) hfull
          (fun e he => (hall e he).le) (iff_of_true rfl hall)⟩
      · subst heq
        rw [if_neg (lt_irrefl _), hsum, subtractSizes_bucket, Option.bind_eq_bind,
          Option.bind_some, if_pos rfl]
        refine ⟨false, [(highest, bucket)], _, rfl, bytesFreed_refused
          ((freed_nil rest sorted.of_cons).cons le_rfl) hfull ?_ (by simp)⟩
        intro e he
        rcases mem_cons.mp he with rfl | hr
        · exact le_rfl
        · exact (rel_of_pairwise_cons sorted hr).le
      · obtain ⟨fits, dropped, next, hn, hfreed⟩ := ih sorted.of_cons
        rw [if_neg hgt.not_gt, hsum, subtractSizes_bucket, Option.bind_eq_bind,
          Option.bind_some, if_neg hgt.ne']
        exact ⟨fits, (highest, bucket) :: dropped, next, hn, hfreed.cons hgt⟩
    · rw [if_neg hfull]
      have hle := sizeOf_filter_le (fun e => e.1 ≤ height) ((highest, bucket) :: rest)
      refine ⟨true, [], _, rfl, freed_nil _ sorted, ?_, ?_, nofun⟩
      · simp only [true_iff]
        omega
      · intro _
        exact ⟨not_lt.mp hfull, by simp⟩

theorem Freed.eq_iff (h : Freed height cache.heights.entries dropped next)
    (hcnt : cache.Counted) : next = cache ↔ dropped = [] := by
  have hentr := h.entries_eq
  constructor
  · rintro rfl
    simpa using hentr
  · rintro rfl
    rw [nil_append] at hentr
    ext1
    · ext1
      exact hentr.symm
    · rw [hcnt, h.counted, hentr]

/-- What making room does: heights above the message's own are dropped while there are too many
heights or bytes. It refuses the message without a change, or it fits, unless the heights up to its
own leave no room while a height as high is cached. -/
theorem makeRoom_spec (hcnt : cache.Counted) (hc : cache.heights.size ≤ maxCachedHeights)
    (height : Nat) {size : Nat} (hsize : size ≤ maxCachedBytes) :
    ∃ fits dropped next, cache.makeRoom height size = some (fits, next) ∧
      Freed height cache.heights.entries dropped next ∧
      (fits = true → next.bytes + size ≤ maxCachedBytes ∧
        (next.heights.size < maxCachedHeights ∨ (next.heights.lookup height).isSome = true)) ∧
      ((fits = false → next = cache) ↔ (maxCachedBytes < cache.bytesThrough height + size →
        ∀ e ∈ cache.heights.entries, e.1 < height)) := by
  obtain ⟨fits, a, mid, hmid, h1, habove, hsl, hrefu⟩ :=
    freeHeights_spec height cache.heights.entries cache.heights.sorted hc
  rw [← hcnt] at hmid
  unfold makeRoom
  rw [hmid, Option.bind_eq_bind, Option.bind_some]
  cases fits with
  | false =>
    obtain ⟨rfl, hall⟩ := hrefu rfl
    exact ⟨false, [], mid, rfl, h1, nofun,
      iff_of_true (fun _ => (h1.eq_iff hcnt).mpr rfl) fun _ => hall⟩
  | true =>
    obtain ⟨fits, b, next, hn, h2⟩ :=
      freeBytes_spec height hsize mid.heights.entries mid.heights.sorted
    rw [← h1.counted] at hn
    have hfreed := h1.append h2.freed
    refine ⟨fits, a ++ b, next, hn, hfreed, ?_, ?_⟩
    · intro hfits
      refine ⟨(h2.room hfits).1, ?_⟩
      rcases hsl rfl with hlt | hsome
      · have hlen := congrArg length h2.freed.entries_eq
        rw [length_append] at hlen
        unfold SortedMap.size at hlt ⊢
        exact .inl (by omega)
      · rw [h2.freed.lookup_eq (h2.room hfits).2]
        exact .inr hsome
    · have hthro : cache.bytesThrough height
          = sizeOf (mid.heights.entries.filter fun e => e.1 ≤ height) := by
        rw [bytesThrough, h1.entries_eq, filter_append, filter_eq_nil_iff.mpr
          fun e he => by simpa using habove e he, nil_append]
      have hall : (∀ e ∈ cache.heights.entries, e.1 < height) ↔
          a = [] ∧ ∀ e ∈ mid.heights.entries, e.1 < height := by
        rw [h1.entries_eq]
        constructor
        · intro hlt
          refine ⟨eq_nil_iff_forall_not_mem.mpr ?_, ?_⟩
          · intro e he
            exact absurd (hlt e (mem_append_left _ he))
              (habove e he).not_gt
          · exact fun e he => hlt e (mem_append_right _ he)
        · rintro ⟨rfl, hlt⟩
          exact hlt
      rw [hfreed.eq_iff hcnt, append_eq_nil_iff, hthro, hall]
      have hiff := h2.fits_iff
      cases fits with
      | true => simpa using fun hfull => absurd (hiff.mp rfl) (not_le.mpr hfull)
      | false =>
        have hfull : maxCachedBytes
            < sizeOf (mid.heights.entries.filter fun e => e.1 ≤ height) + size := by
          simpa using hiff
        simp [hfull, h2.kept rfl]

/-! ## Insertion -/

theorem slotSize_le (bucket : HeightBucket) (kind : CachedMessageKind) (i : Fin maxValidatorCount) :
    HeightBucket.slotSize (bucket.slots kind i) ≤ bucket.bytes := by
  rw [HeightBucket.bytes_eq_sum]
  exact Finset.single_le_sum
    (f := fun place : CachedMessageKind × _ => HeightBucket.slotSize (bucket.slots place.1 place.2))
    (fun _ _ => Nat.zero_le _) (Finset.mem_univ (kind, i))

/-- Filling a slot keeps the counter exact. -/
theorem place_spec (hcnt : cache.Counted) (peerId : PeerId) (msg : DbftMessage)
    (kind : CachedMessageKind) (i : Fin maxValidatorCount) :
    ∃ next bucket, cache.place peerId msg kind i = some next ∧ next.Counted ∧
      next.bytes ≤ cache.bytes + cachedSize msg ∧
      next.heights = cache.heights.insert msg.validBlockEnd.toNat bucket := by
  have hbucket : (cache.heights.lookup msg.validBlockEnd.toNat).elim 0 HeightBucket.bytes
      = ((cache.heights.lookup msg.validBlockEnd.toNat).getD .empty).bytes := by
    cases cache.heights.lookup msg.validBlockEnd.toNat with
    | none => exact HeightBucket.bytes_empty.symm
    | some bucket => rfl
  have herase := cache.heights.weight_erase (fun _ bucket => bucket.bytes)
    msg.validBlockEnd.toNat
  have hinsert := fun bucket => cache.heights.weight_insert (fun _ bucket => bucket.bytes)
    msg.validBlockEnd.toNat bucket
  rw [hbucket] at herase
  simp only [hbucket] at hinsert
  unfold place
  dsimp only
  generalize (cache.heights.lookup msg.validBlockEnd.toNat).getD .empty = bucket
    at herase hinsert ⊢
  have hsl := slotSize_le bucket kind i
  have hset := bucket.bytes_set kind i (peerId, msg)
  have htot : cache.bytes = cache.heights.weight fun _ bucket => bucket.bytes := hcnt
  have hsum : ((bucket.slots kind i).toList.map fun msg => cachedSize msg.2).sum
      = HeightBucket.slotSize (bucket.slots kind i) := by
    cases bucket.slots kind i <;> simp [HeightBucket.slotSize]
  rw [subtractSizes_eq (by rw [hsum]; omega), hsum, Option.bind_eq_bind, Option.bind_some]
  refine ⟨_, bucket.set kind i (peerId, msg), rfl, ?_, ?_, rfl⟩
  · have hnew := hinsert (bucket.set kind i (peerId, msg))
    change _ = SortedMap.weight _ _
    dsimp only at hnew hset ⊢
    omega
  · dsimp only
    omega

/-- What holds of a cache after every call: the counter is exact, and the bounds hold. -/
structure Bounded (cache : FutureDbftMessages) : Prop where
  counted : cache.Counted
  heights_le : cache.heights.size ≤ maxCachedHeights
  bytes_le : cache.bytes ≤ maxCachedBytes

theorem bounded_empty : Bounded {} := ⟨rfl, Nat.zero_le _, Nat.zero_le _⟩

theorem Freed.bounded (h : Freed height cache.heights.entries dropped next)
    (hcache : cache.Bounded) :
    next.Bounded := by
  have hsize : sizeOf cache.heights.entries = sizeOf dropped + sizeOf next.heights.entries := by
    rw [h.entries_eq]
    exact SortedMap.weightOf_append _ _
  have hlen := congrArg length h.entries_eq
  rw [length_append] at hlen
  refine ⟨h.counted, ?_, ?_⟩
  · exact le_trans (by unfold SortedMap.size; omega) hcache.heights_le
  · rw [h.counted]
    exact le_trans (by rw [hcache.counted]; omega) hcache.bytes_le

/-- A message that has no slot, that is too large, for which the heights up to its own leave room,
or that is above all heights. -/
def RefusesCleanly (cache : FutureDbftMessages) (message : DbftMessage) : Prop :=
  cachedValidatorIndex message = none ∨ maxCachedBytes < cachedSize message ∨
    cache.bytesThrough message.validBlockEnd.toNat + cachedSize message ≤ maxCachedBytes ∨
    ∀ entry ∈ cache.heights.entries, entry.1 < message.validBlockEnd.toNat

/-- An insertion keeps the bounds and the lower heights. -/
theorem insert_spec (h : cache.Bounded) (peerId : PeerId) (message : DbftMessage)
    (kind : CachedMessageKind) :
    ∃ retained next, cache.insert peerId message kind = some (retained, next) ∧ next.Bounded ∧
      (∀ height < message.validBlockEnd.toNat,
        next.heights.lookup height = cache.heights.lookup height) ∧
      ((retained = false → next = cache) ↔ cache.RefusesCleanly message) := by
  unfold insert
  cases hi : cachedValidatorIndex message with
  | none => exact ⟨false, cache, rfl, h, fun _ _ => rfl, iff_of_true (fun _ => rfl) (.inl hi)⟩
  | some i =>
    by_cases hlarge : cachedSize message > maxCachedBytes
    · dsimp only
      rw [if_pos hlarge]
      exact ⟨false, cache, rfl, h, fun _ _ => rfl,
        iff_of_true (fun _ => rfl) (.inr (.inl hlarge))⟩
    · obtain ⟨fits, dropped, next, hn, hfreed, hroom, hclean⟩ := makeRoom_spec h.counted
        h.heights_le message.validBlockEnd.toNat (not_lt.mp hlarge)
      have hlower (height : Nat) (hlt : height < message.validBlockEnd.toNat) :
          next.heights.lookup height = cache.heights.lookup height :=
        hfreed.lookup_eq fun e he => hlt.trans_le (hfreed.dropped_ge e he)
      have hiff : (fits = false → next = cache) ↔ cache.RefusesCleanly message := by
        rw [hclean]
        unfold RefusesCleanly
        rw [hi, ← not_le, ← or_iff_not_imp_left (a := _ ≤ maxCachedBytes)]
        simp [not_lt.mp hlarge]
      dsimp only
      rw [if_neg hlarge, hn, Option.bind_eq_bind, Option.bind_some]
      cases fits with
      | false => exact ⟨false, next, rfl, hfreed.bounded h, hlower, hiff⟩
      | true =>
        obtain ⟨placed, bucket, hplaced, hcnt, hbs, hheig⟩ :=
          place_spec hfreed.counted peerId message kind i
        obtain ⟨hfits, hsl⟩ := hroom rfl
        refine ⟨true, placed, congrArg (Option.map fun cache => (true, cache)) hplaced,
          ⟨hcnt, ?_, ?_⟩, ?_, ?_⟩
        · have hkept := (hfreed.bounded h).heights_le
          rw [hheig, SortedMap.size_insert]
          rcases hsl with hlt | hsome
          · split <;> omega
          · rw [if_pos hsome]
            exact hkept
        · omega
        · intro height hlt
          rw [hheig, SortedMap.lookup_insert, if_neg hlt.ne, hlower height hlt]
        · exact iff_of_true nofun (hiff.mp nofun)

/-! ## Removal -/

theorem takeHeight_spec (h : cache.Bounded) (height : Nat) :
    ∃ messages next, cache.takeHeight height = some (messages, next) ∧ next.Bounded := by
  unfold takeHeight
  cases hget : cache.heights.lookup height with
  | none => exact ⟨[], cache, rfl, h⟩
  | some bucket =>
    have herase := cache.heights.weight_erase (fun _ bucket => bucket.bytes) height
    rw [hget, Option.elim_some, Nat.add_comm] at herase
    have hcnt : cache.bytes = cache.heights.weight fun _ bucket => bucket.bytes := h.counted
    have hbs := h.bytes_le
    dsimp only at herase ⊢
    rw [hcnt, ← herase, subtractSizes_bucket, Option.bind_eq_bind, Option.bind_some]
    refine ⟨bucket.messages, _, rfl, rfl, ?_, ?_⟩
    · exact (length_filter_le _ _).trans h.heights_le
    · dsimp only
      omega

theorem takeWhile_eq_filter (sorted : entries.Pairwise fun a b => a.1 < b.1) :
    (entries.takeWhile fun e => e.1 ≤ height)
      = entries.filter fun e => e.1 ≤ height := by
  induction entries with
  | nil => rfl
  | cons e entries ih =>
    by_cases hle : e.1 ≤ height
    · simp [hle, ih sorted.of_cons]
    · have hnil : (entries.filter fun e => e.1 ≤ height) = [] := by
        rw [filter_eq_nil_iff]
        intro o ho
        have hlt := rel_of_pairwise_cons sorted ho
        simp only [decide_eq_true_eq]
        omega
      simp [hle, hnil]

theorem sum_flatMap_messages (entries : List (Nat × HeightBucket)) :
    ((entries.flatMap fun e => e.2.messages).map fun msg =>
      cachedSize msg.2).sum = sizeOf entries := by
  induction entries with
  | nil => rfl
  | cons e entries ih =>
    rw [flatMap_cons, map_append, sum_append, ih]
    rfl

theorem pruneThrough_spec (h : cache.Bounded) (height : Nat) :
    ∃ next, cache.pruneThrough height = some next ∧ next.Bounded := by
  have hsplit := SortedMap.weightOf_filter_add (fun _ bucket => HeightBucket.bytes bucket)
    (fun e => e.1 ≤ height) cache.heights.entries
  have hstale : ((((cache.heights.entries.reverse.takeWhile fun e =>
      e.1 ≤ height).flatMap fun e => e.2.messages).map fun msg =>
        cachedSize msg.2).sum)
      = sizeOf (cache.heights.entries.filter fun e => e.1 ≤ height) := by
    rw [takeWhile_eq_filter (pairwise_reverse.mpr cache.heights.sorted), sum_flatMap_messages,
      filter_reverse]
    exact (reverse_perm _).map _ |>.sum_eq
  have hcnt : cache.bytes = sizeOf cache.heights.entries := h.counted
  have hbs := h.bytes_le
  unfold sizeOf at hstale hcnt
  unfold pruneThrough
  dsimp only
  rw [subtractSizes_eq (by rw [hstale]; omega), hstale, Option.bind_eq_bind, Option.bind_some]
  refine ⟨_, rfl, ?_, ?_, ?_⟩
  · change _ - _ = sizeOf (cache.heights.entries.filter fun e => height < e.1)
    simp only [not_le] at hsplit
    unfold sizeOf
    omega
  · exact (length_filter_le _ _).trans h.heights_le
  · dsimp only
    omega

/-! ## Runs -/

inductive Call where
  | insert (peerId : PeerId) (message : DbftMessage) (kind : CachedMessageKind)
  | takeHeight (height : Nat)
  | pruneThrough (height : Nat)

def apply (cache : FutureDbftMessages) : Call → Option FutureDbftMessages
  | .insert peerId message kind => (cache.insert peerId message kind).map Prod.snd
  | .takeHeight height => (cache.takeHeight height).map Prod.snd
  | .pruneThrough height => cache.pruneThrough height

theorem apply_bounded (h : cache.Bounded) (call : Call) :
    ∃ next, cache.apply call = some next ∧ next.Bounded := by
  cases call with
  | insert peerId msg kind =>
    obtain ⟨retained, next, hn, hboun, -⟩ := insert_spec h peerId msg kind
    exact ⟨next, by rw [apply, hn]; rfl, hboun⟩
  | takeHeight height =>
    obtain ⟨messages, next, hn, hboun⟩ := takeHeight_spec h height
    exact ⟨next, by rw [apply, hn]; rfl, hboun⟩
  | pruneThrough height => exact pruneThrough_spec h height

theorem foldlM_apply_bounded (h : cache.Bounded) (calls : List Call) :
    ∃ next, calls.foldlM apply cache = some next ∧ next.Bounded := by
  induction calls generalizing cache with
  | nil => exact ⟨cache, rfl, h⟩
  | cons call calls ih =>
    obtain ⟨next, hn, hboun⟩ := apply_bounded h call
    rw [foldlM_cons, hn]
    exact ih hboun

/-- After every sequence of calls, without an underflow, the counter is the sum of the sizes of the
cached messages and the bounds hold. Another message evicts no lower height, and if it is refused,
the cache is unchanged exactly under the condition. -/
theorem run_bounded (calls : List Call) :
    ∃ cache, calls.foldlM apply {} = some cache ∧
      cache.bytes = ((cache.heights.entries.flatMap fun entry => entry.2.messages).map
        fun message => cachedSize message.2).sum ∧
      cache.heights.size ≤ maxCachedHeights ∧ cache.bytes ≤ maxCachedBytes ∧
      ∀ peerId message kind,
        ∃ retained next, cache.insert peerId message kind = some (retained, next) ∧
          (∀ height < message.validBlockEnd.toNat,
            next.heights.lookup height = cache.heights.lookup height) ∧
          ((retained = false → next = cache) ↔ cache.RefusesCleanly message) := by
  obtain ⟨cache, hrun, hbounded⟩ := foldlM_apply_bounded bounded_empty calls
  refine ⟨cache, hrun, ?_, hbounded.heights_le, hbounded.bytes_le, ?_⟩
  · rw [sum_flatMap_messages]
    exact hbounded.counted
  · intro peerId message kind
    obtain ⟨retained, next, hnext, -, hlower, hclean⟩ := insert_spec hbounded peerId message kind
    exact ⟨retained, next, hnext, hlower, hclean⟩

/-- A commit of a validator for the fifth height, with nine megabytes. -/
def heavyCommit (validatorIndex : UInt8) : DbftMessage where
  validBlockStart := 0
  validBlockEnd := 5
  sender := .zero 20
  data := DbftConsensusData.codec.encode ⟨.commit, 5, validatorIndex, 0, [0x80]⟩
  witness := List.replicate (9 * 1024 * 1024) 0

def firstIndex : Fin maxValidatorCount := ⟨0, by decide⟩

def heavyCache : FutureDbftMessages where
  heights := SortedMap.empty.insert 5
    (HeightBucket.empty.set .commit firstIndex (.zero 64, heavyCommit 0))
  bytes := cachedSize (heavyCommit 0)

theorem cachedSize_heavyCommit {validatorIndex : UInt8}
    (h : (heavyCommit validatorIndex).data.length = 6) :
    cachedSize (heavyCommit validatorIndex) = 6 + 9 * 1024 * 1024 := by
  unfold cachedSize
  rw [h, heavyCommit, length_replicate]

theorem apply_heavyCommit :
    [Call.insert (.zero 64) (heavyCommit 0) .commit].foldlM apply {}
      = some heavyCache := by
  have hi : cachedValidatorIndex (heavyCommit 0) = some firstIndex := by decide +kernel
  have hsize : ¬cachedSize (heavyCommit 0) > maxCachedBytes := by
    rw [cachedSize_heavyCommit (by decide +kernel)]
    decide
  have hinsert : insert {} (.zero 64) (heavyCommit 0) .commit
      = some (true, heavyCache) := by
    unfold insert
    rw [hi]
    dsimp only
    rw [if_neg hsize]
    have hroom : makeRoom {} (heavyCommit 0).validBlockEnd.toNat (cachedSize (heavyCommit 0))
        = some (true, {}) := rfl
    have hplace : place {} (.zero 64) (heavyCommit 0) .commit firstIndex
        = some heavyCache := by
      have hsl : subtractSizes 0 (((SortedMap.empty.lookup (heavyCommit 0).validBlockEnd.toNat).getD
          HeightBucket.empty).slots .commit firstIndex).toList = some 0 := rfl
      unfold place heavyCache
      dsimp only
      rw [hsl, Option.bind_eq_bind, Option.bind_some, Nat.zero_add]
      rfl
    rw [hroom]
    exact congrArg (Option.map fun cache => (true, cache)) hplace
  simp [apply, hinsert]

/-- A second commit for the same height does not fit. It is refused, and the first one is lost. -/
theorem refused_heavyCommit :
    [Call.insert (.zero 64) (heavyCommit 0) .commit].foldlM apply {} = some heavyCache ∧
      ∃ next, heavyCache.insert (.zero 64) (heavyCommit 1) .commit = some (false, next) ∧
        next ≠ heavyCache := by
  refine ⟨apply_heavyCommit, ?_⟩
  obtain ⟨cache, hrun, hbounded⟩ := foldlM_apply_bounded bounded_empty
    [Call.insert (.zero 64) (heavyCommit 0) .commit]
  obtain rfl := Option.some.inj (apply_heavyCommit.symm.trans hrun)
  obtain ⟨retained, next, hnext, -, -, hclean⟩ :=
    insert_spec hbounded (.zero 64) (heavyCommit 1) .commit
  have hfull : maxCachedBytes < heavyCache.bytesThrough 5 + cachedSize (heavyCommit 1) := by
    have hbytes : heavyCache.bytesThrough 5 = cachedSize (heavyCommit 0) := by
      rw [bytesThrough, List.filter_eq_self.mpr]
      · exact hbounded.counted.symm
      · rintro ⟨height, bucket⟩ hentry
        rcases SortedMap.mem_insert.mp hentry with ⟨rfl, -⟩ | ⟨-, hnone⟩
        · rfl
        · exact absurd hnone List.not_mem_nil
    rw [hbytes, cachedSize_heavyCommit (by decide +kernel),
      cachedSize_heavyCommit (by decide +kernel)]
    decide
  have hrefuses : ¬heavyCache.RefusesCleanly (heavyCommit 1) := by
    rintro (hnone | hlarge | hroom | hlower)
    · exact absurd hnone (by decide +kernel)
    · rw [cachedSize_heavyCommit (by decide +kernel)] at hlarge
      exact absurd hlarge (by decide)
    · have hheight : (heavyCommit 1).validBlockEnd.toNat = 5 := rfl
      rw [hheight] at hroom
      exact absurd hfull (not_lt.mpr hroom)
    · exact lt_irrefl 5 (hlower (5, _) (SortedMap.mem_insert.mpr (.inl ⟨rfl, rfl⟩)))
  rw [← hclean, Classical.not_imp] at hrefuses
  exact ⟨next, hrefuses.1 ▸ hnext, hrefuses.2⟩

end FutureDbftMessages

end NeoX
