import NeoX.Network.Message

/-!
# The cache of verified messages

Messages by hash, with their insertion order, the hashes of every sender and the bytes they take.
An insertion evicts the oldest message of a sender with too many, and then the oldest
messages until the new one fits.

Main results:

- `DbftMessageCache.lookup_insert`: an insertion adds at most its own message.
- `DbftMessageCache.lookup_retain`: what is retained passes the test.
- `DbftMessageCache.evictFront_eq`: the loop of an insertion ends.
- `DbftMessageCache.applyAll_consistent`: after every sequence of calls, the indexes
  list the same hashes, the counter is the sum of the sizes, and the caps hold.
- `DbftMessageCache.evictFront_oldest`: the eviction loop ends, and removes the oldest.
-/

namespace NeoX

open List FiniteMap

def dbftMessageCacheCapacity : Nat := 256

/-- Largest number of bytes of all cached messages. -/
def dbftMessageCacheByteCapacity : Nat := 64 * 1024 * 1024

/-- Largest number of cached messages of one sender. -/
def dbftSenderCacheCapacity : Nat := 20

/-- Addition of sizes that stops at the largest one. -/
def saturatingAdd (first second : Nat) : Nat :=
  min (first + second) (2 ^ 64 - 1)

def DbftMessage.length (message : DbftMessage) : Nat :=
  (DbftMessage.codec.encode message).length

/-- A message with its size. -/
structure CachedDbftMessage where
  message : DbftMessage
  encodedSize : Nat

/-- How a message was cached. -/
inductive CacheMessageOutcome where
  | inserted
  | duplicate
  | outsideActiveRound (current : UInt64)
  deriving DecidableEq

/-- Cached messages in insertion order. -/
structure DbftMessageCache where
  messages : FiniteMap B256 CachedDbftMessage := ∅
  senders : FiniteMap Address (List B256) := ∅
  order : List B256 := []
  retainedBytes : Nat := 0

namespace DbftMessageCache

/-! ## Operations -/

def clear (_ : DbftMessageCache) : DbftMessageCache := {}

def get (cache : DbftMessageCache) (hash : B256) : Option DbftMessage :=
  (cache.messages.lookup hash).map CachedDbftMessage.message

def contains (cache : DbftMessageCache) (hash : B256) : Bool :=
  cache.messages.has hash

/-- The queue of a sender without a hash; an empty queue is dropped. -/
def removeSender (senders : FiniteMap Address (List B256)) (sender : Address) (hash : B256) :
    FiniteMap Address (List B256) :=
  match senders.lookup sender with
  | none => senders
  | some hashes =>
    let hashes := hashes.filter fun candidate => candidate ≠ hash
    if hashes = [] then senders.erase sender else senders.insert sender hashes

/-- Remove a message; its caller has no use for what was removed. -/
def remove (cache : DbftMessageCache) (hash : B256) : DbftMessageCache :=
  match cache.messages.lookup hash with
  | none => cache
  | some cached =>
    { messages := cache.messages.erase hash
      senders := removeSender cache.senders cached.message.sender hash
      order := cache.order.erase hash
      retainedBytes := cache.retainedBytes - cached.encodedSize }

/-- Keep the messages that pass a test. -/
def retain (cache : DbftMessageCache) (keep : DbftMessage → Bool) : DbftMessageCache :=
  let stale := (cache.messages.toList.filter fun entry => ¬ keep entry.2.message).map Prod.fst
  stale.foldl remove cache

/-- Remove messages from the front of the order until another one fits. The order of a cache
lists every hash once, so that the front after a removal is the next hash of the order. -/
def evict (encodedSize : Nat) : List B256 → DbftMessageCache → DbftMessageCache
  | [], cache => cache
  | evicted :: order, cache =>
    if cache.messages.size ≥ dbftMessageCacheCapacity ∨
        saturatingAdd cache.retainedBytes encodedSize > dbftMessageCacheByteCapacity then
      evict encodedSize order (cache.remove evicted)
    else
      cache

/-- The eviction loop as it stands: it reads the front of the order again in every round, and a
front that is not cached would keep it from ending. The number of rounds is bounded here. -/
def evictFront (encodedSize : Nat) : Nat → DbftMessageCache → Option DbftMessageCache
  | 0, _ => none
  | rounds + 1, cache =>
    if cache.messages.size ≥ dbftMessageCacheCapacity ∨
        saturatingAdd cache.retainedBytes encodedSize > dbftMessageCacheByteCapacity then
      match cache.order with
      | [] => some cache
      | evicted :: _ => evictFront encodedSize rounds (cache.remove evicted)
    else
      some cache

/-- Remove the oldest message of a sender that has too many. -/
def evictSender (cache : DbftMessageCache) (sender : Address) : DbftMessageCache :=
  match cache.senders.lookup sender with
  | none | some [] => cache
  | some (oldest :: hashes) =>
    if hashes.length + 1 ≥ dbftSenderCacheCapacity then cache.remove oldest else cache

/-- Add a message behind the others. -/
def push (cache : DbftMessageCache) (hash : B256) (message : DbftMessage) (encodedSize : Nat) :
    DbftMessageCache :=
  { messages := cache.messages.insert hash ⟨message, encodedSize⟩
    senders := cache.senders.insert message.sender
      ((cache.senders.lookup message.sender).getD [] ++ [hash])
    order := cache.order ++ [hash]
    retainedBytes := saturatingAdd cache.retainedBytes encodedSize }

/-- Cache a message; a message that can never fit is refused with its size. -/
def insert (cache : DbftMessageCache) (hash : B256) (message : DbftMessage) :
    Except Nat CacheMessageOutcome × DbftMessageCache :=
  if cache.contains hash then
    (.ok .duplicate, cache)
  else if message.length > dbftMessageCacheByteCapacity then
    (.error message.length, cache)
  else
    let cache := cache.evictSender message.sender
    let cache := evict message.length cache.order cache
    (.ok .inserted, cache.push hash message message.length)

/-! ## What the operations keep -/

/-- What is cached in one cache is cached in another. -/
def Within (cache other : DbftMessageCache) : Prop :=
  ∀ hash cached, cache.messages.lookup hash = some cached →
    other.messages.lookup hash = some cached

theorem Within.refl (cache : DbftMessageCache) : Within cache cache :=
  fun _ _ h => h

theorem Within.trans {a b third : DbftMessageCache} (h : Within a b)
    (h' : Within b third) : Within a third :=
  fun hash cached hget => h' hash cached (h hash cached hget)

variable {cache : DbftMessageCache} {hash : B256} {cached : CachedDbftMessage}

theorem lookup_remove {o : B256} :
    (cache.remove hash).messages.lookup o = some cached ↔
      o ≠ hash ∧ cache.messages.lookup o = some cached := by
  unfold remove
  cases hf : cache.messages.lookup hash with
  | none =>
    refine ⟨fun h => ⟨?_, h⟩, fun h => h.2⟩
    rintro rfl
    rw [hf] at h
    cases h
  | some found =>
    by_cases hsame : o = hash
    · subst hsame
      simp
    · simp [hsame, AList.lookup_erase_ne hsame]

theorem within_remove (cache : DbftMessageCache) (hash : B256) : Within (cache.remove hash) cache :=
  fun _ _ h => (lookup_remove.mp h).2

theorem within_evict (encodedSize : Nat) (order : List B256) (cache : DbftMessageCache) :
    Within (evict encodedSize order cache) cache := by
  induction order generalizing cache with
  | nil => exact Within.refl cache
  | cons evicted order ih =>
    unfold evict
    split
    · exact (ih _).trans (within_remove cache evicted)
    · exact Within.refl cache

theorem within_evictSender (cache : DbftMessageCache) (sender : Address) :
    Within (cache.evictSender sender) cache := by
  unfold evictSender
  split
  · exact Within.refl cache
  · exact Within.refl cache
  · split
    · exact within_remove cache _
    · exact Within.refl cache

/-- An insertion adds at most its own message. -/
theorem lookup_insert {o : B256} {message : DbftMessage}
    (h : (cache.insert hash message).2.messages.lookup o = some cached) :
    cache.messages.lookup o = some cached ∨ o = hash ∧ cached.message = message := by
  unfold insert at h
  split at h
  · exact Or.inl h
  · split at h
    · exact Or.inl h
    · dsimp only [push] at h
      rw [lookup_insert_if] at h
      split at h
      · rename_i hsame
        cases h
        exact Or.inr ⟨hsame, rfl⟩
      · exact Or.inl (within_evictSender _ _ _ _ (within_evict _ _ _ _ _ h))

theorem lookup_foldl_remove {hashes : List B256}
    (h : (hashes.foldl remove cache).messages.lookup hash = some cached) :
    hash ∉ hashes ∧ cache.messages.lookup hash = some cached := by
  induction hashes generalizing cache with
  | nil => exact ⟨not_mem_nil, h⟩
  | cons first hashes ih =>
    rcases ih h with ⟨hr, hget⟩
    rcases lookup_remove.mp hget with ⟨hne, hf⟩
    exact ⟨not_mem_cons_of_ne_of_not_mem hne hr, hf⟩

theorem lookup_retain {keep : DbftMessage → Bool}
    (h : (cache.retain keep).messages.lookup hash = some cached) :
    cache.messages.lookup hash = some cached ∧ keep cached.message = true := by
  rcases lookup_foldl_remove h with ⟨hfresh, hget⟩
  refine ⟨hget, ?_⟩
  by_contra hstale
  refine hfresh (mem_map.mpr ⟨(hash, cached), ?_, rfl⟩)
  exact mem_filter.mpr ⟨mem_toList.mpr hget, decide_eq_true hstale⟩

/-! ## Indexes -/

/-- The hashes of a sender in their order. -/
def queue (cache : DbftMessageCache) (sender : Address) : List B256 :=
  (cache.senders.lookup sender).getD []

/-- The map, the order and the queues list the same hashes once, and the counter is the sum of the
message sizes. -/
structure Indexed (cache : DbftMessageCache) : Prop where
  order_nodup : cache.order.Nodup
  mem_order : ∀ hash, hash ∈ cache.order ↔ ∃ cached, cache.messages.lookup hash = some cached
  queue_nodup : ∀ sender, (cache.queue sender).Nodup
  mem_queue : ∀ sender hash, hash ∈ cache.queue sender ↔
    ∃ cached, cache.messages.lookup hash = some cached ∧ cached.message.sender = sender
  queue_ne_nil : ∀ sender, cache.senders.lookup sender ≠ some []
  size_eq : ∀ hash cached, cache.messages.lookup hash = some cached →
    cached.encodedSize = cached.message.length
  bytes_eq : cache.retainedBytes
    = cache.messages.weight fun _ cached => cached.message.length

/-- The caps on the number of messages, their bytes and the messages of one sender. -/
structure WithinCaps (cache : DbftMessageCache) : Prop where
  count_le : cache.messages.size ≤ dbftMessageCacheCapacity
  bytes_le : cache.retainedBytes ≤ dbftMessageCacheByteCapacity
  sender_le : ∀ sender, (cache.queue sender).length ≤ dbftSenderCacheCapacity

theorem indexed_empty : Indexed {} where
  order_nodup := nodup_nil
  mem_order hash := by simp
  queue_nodup sender := by simp [queue]
  mem_queue sender hash := by simp [queue]
  queue_ne_nil sender := by simp
  size_eq hash cached h := by simp at h
  bytes_eq := rfl

theorem withinCaps_empty : WithinCaps {} where
  count_le := Nat.zero_le _
  bytes_le := Nat.zero_le _
  sender_le _ := Nat.zero_le _

theorem lookup_removeSender (senders : FiniteMap Address (List B256)) (owner sender : Address)
    (hash : B256) :
    (removeSender senders owner hash).lookup sender =
      if sender = owner then
        match ((senders.lookup owner).getD []).filter fun cand => cand ≠ hash with
        | [] => none
        | a :: rest => some (a :: rest)
      else senders.lookup sender := by
  unfold removeSender
  cases howner : senders.lookup owner with
  | none =>
    by_cases heq : sender = owner
    · subst heq
      simp [howner]
    · simp [heq]
  | some hashes =>
    dsimp only [Option.getD_some]
    cases hfilter : hashes.filter fun cand => cand ≠ hash with
    | nil => rw [if_pos rfl, lookup_erase_if]
    | cons a rest =>
      rw [if_neg (cons_ne_nil a rest), lookup_insert_if]

theorem order_remove (h : cache.Indexed) (hash : B256) :
    (cache.remove hash).order = cache.order.erase hash := by
  unfold remove
  cases hf : cache.messages.lookup hash with
  | some cached => rfl
  | none =>
    refine (erase_of_not_mem ?_).symm
    rw [h.mem_order, hf]
    simp

theorem queue_remove (h : cache.Indexed) (hash : B256) (sender : Address) :
    (cache.remove hash).queue sender
      = (cache.queue sender).filter fun cand => cand ≠ hash := by
  have ho (hne : ∀ cached, cache.messages.lookup hash = some cached →
      cached.message.sender ≠ sender) :
      (cache.queue sender).filter (fun cand => cand ≠ hash) = cache.queue sender := by
    rw [filter_eq_self]
    intro cand hmem
    obtain ⟨cached, hcached, hsd⟩ := (h.mem_queue sender cand).mp hmem
    refine decide_eq_true ?_
    intro heq
    exact hne cached (heq ▸ hcached) hsd
  unfold remove
  cases hf : cache.messages.lookup hash with
  | none => exact (ho fun cached hcached => nomatch hf.symm.trans hcached).symm
  | some found =>
    by_cases heq : sender = found.message.sender
    · unfold queue
      dsimp only
      rw [lookup_removeSender, if_pos heq, ← heq]
      cases ((cache.senders.lookup sender).getD []).filter fun cand => cand ≠ hash <;>
        rfl
    · rw [ho fun cached hcached => by
        rw [hf, Option.some.injEq] at hcached
        exact hcached ▸ Ne.symm heq]
      unfold queue
      dsimp only
      rw [lookup_removeSender, if_neg heq]

theorem Indexed.remove (h : cache.Indexed) (hash : B256) :
    (cache.remove hash).Indexed where
  order_nodup := by
    rw [order_remove h]
    exact h.order_nodup.erase hash
  mem_order other := by
    rw [order_remove h, h.order_nodup.mem_erase_iff, h.mem_order]
    simp only [lookup_remove, exists_and_left]
  queue_nodup sender := by
    rw [queue_remove h]
    exact (h.queue_nodup sender).filter _
  mem_queue sender other := by
    rw [queue_remove h, mem_filter, h.mem_queue]
    simp only [lookup_remove, decide_eq_true_eq]
    constructor
    · rintro ⟨⟨cached, hcached, hsd⟩, hne⟩
      exact ⟨cached, ⟨hne, hcached⟩, hsd⟩
    · rintro ⟨cached, ⟨hne, hcached⟩, hsd⟩
      exact ⟨⟨cached, hcached, hsd⟩, hne⟩
  queue_ne_nil sender := by
    unfold DbftMessageCache.remove
    cases hf : cache.messages.lookup hash with
    | none => exact h.queue_ne_nil sender
    | some found =>
      dsimp only
      rw [lookup_removeSender]
      split
      · split <;> simp
      · exact h.queue_ne_nil sender
  size_eq other cached hcached := h.size_eq other cached (lookup_remove.mp hcached).2
  bytes_eq := by
    unfold DbftMessageCache.remove
    cases hf : cache.messages.lookup hash with
    | none => exact h.bytes_eq
    | some found =>
      have hweight :=
        weight_erase (fun _ cached => cached.message.length) hf
      dsimp only at hweight ⊢
      rw [h.size_eq hash found hf, h.bytes_eq]
      omega

theorem WithinCaps.remove (hinde : cache.Indexed) (h : cache.WithinCaps) (hash : B256) :
    (cache.remove hash).WithinCaps where
  count_le := (size_le_of_lookup (within_remove cache hash)).trans h.count_le
  bytes_le := by
    refine le_trans ?_ h.bytes_le
    unfold DbftMessageCache.remove
    split
    · exact le_rfl
    · exact Nat.sub_le _ _
  sender_le sender := by
    rw [queue_remove hinde]
    exact (length_filter_le _ _).trans (h.sender_le sender)

/-- What holds of a cache after every call. -/
structure Consistent (cache : DbftMessageCache) : Prop where
  indexed : cache.Indexed
  caps : cache.WithinCaps

theorem consistent_empty : Consistent {} := ⟨indexed_empty, withinCaps_empty⟩

theorem Consistent.remove (h : cache.Consistent) (hash : B256) : (cache.remove hash).Consistent :=
  ⟨h.indexed.remove hash, h.caps.remove h.indexed hash⟩

theorem Consistent.retain (h : cache.Consistent) (keep : DbftMessage → Bool) :
    (cache.retain keep).Consistent := by
  unfold DbftMessageCache.retain
  generalize (cache.messages.toList.filter fun e => ¬ keep e.2.message).map Prod.fst
    = stale
  induction stale generalizing cache with
  | nil => exact h
  | cons hash stale ih => exact ih (h.remove hash)

/-! ## Insertion -/

theorem Indexed.of_order_nil (h : cache.Indexed) (horder : cache.order = []) :
    cache.messages.size = 0 ∧ cache.retainedBytes = 0 := by
  have hno (hash : B256) : cache.messages.lookup hash = none := by
    rw [Option.eq_none_iff_forall_ne_some]
    intro cached hcached
    have hmem := (h.mem_order hash).mpr ⟨cached, hcached⟩
    rw [horder] at hmem
    exact not_mem_nil hmem
  rw [h.bytes_eq, size_eq_weight]
  exact ⟨weight_eq_zero hno, weight_eq_zero hno⟩

theorem saturatingAdd_gt_iff {a b : Nat} :
    saturatingAdd a b > dbftMessageCacheByteCapacity ↔
      a + b > dbftMessageCacheByteCapacity := by
  unfold saturatingAdd dbftMessageCacheByteCapacity
  omega

theorem saturatingAdd_eq {a b : Nat} (h : a + b ≤ dbftMessageCacheByteCapacity) :
    saturatingAdd a b = a + b := by
  unfold saturatingAdd
  unfold dbftMessageCacheByteCapacity at h
  omega

theorem order_remove_front (h : cache.Indexed) {evicted : B256} {order : List B256}
    (horder : cache.order = evicted :: order) : (cache.remove evicted).order = order := by
  rw [order_remove h, horder, erase_cons_head]

/-- After the eviction another message fits, and no queue got longer. -/
theorem evict_spec {encodedSize : Nat} (hsize : encodedSize ≤ dbftMessageCacheByteCapacity)
    {order : List B256} (h : cache.Consistent) (horder : cache.order = order) :
    (evict encodedSize order cache).Consistent ∧
      (evict encodedSize order cache).messages.size < dbftMessageCacheCapacity ∧
      (evict encodedSize order cache).retainedBytes + encodedSize
        ≤ dbftMessageCacheByteCapacity ∧
      ∀ sender, ((evict encodedSize order cache).queue sender).length
        ≤ (cache.queue sender).length := by
  induction order generalizing cache with
  | nil =>
    obtain ⟨hc, hbs⟩ := h.indexed.of_order_nil horder
    refine ⟨h, ?_, ?_, fun sender => le_rfl⟩
    · rw [evict, hc]
      decide
    · rw [evict, hbs]
      omega
  | cons evicted order ih =>
    unfold evict
    split
    · obtain ⟨hn, hc, hbs, hqueues⟩ := ih (h.remove evicted)
        (order_remove_front h.indexed horder)
      refine ⟨hn, hc, hbs, ?_⟩
      intro sender
      refine (hqueues sender).trans ?_
      rw [queue_remove h.indexed]
      exact length_filter_le _ _
    · rename_i hfits
      rw [saturatingAdd_gt_iff] at hfits
      exact ⟨h, by omega, by omega, fun sender => le_rfl⟩

/-- The loop ends after at most one round for each message, with the same result. -/
theorem evictFront_eq {encodedSize rounds : Nat} (h : cache.Consistent)
    (hrounds : cache.order.length < rounds) :
    evictFront encodedSize rounds cache = some (evict encodedSize cache.order cache) := by
  generalize horder : cache.order = order at hrounds ⊢
  induction order generalizing cache rounds with
  | nil =>
    obtain ⟨rounds, rfl⟩ : ∃ fewer, rounds = fewer + 1 := ⟨rounds - 1, by omega⟩
    unfold evictFront evict
    rw [horder]
    split <;> rfl
  | cons evicted order ih =>
    obtain ⟨rounds, rfl⟩ : ∃ fewer, rounds = fewer + 1 := ⟨rounds - 1, by omega⟩
    unfold evictFront evict
    rw [horder]
    split
    · exact ih (h.remove evicted) (order_remove_front h.indexed horder)
        (Nat.lt_of_succ_lt_succ hrounds)
    · rfl

/-- After the eviction for a sender, its queue has room. -/
theorem evictSender_spec (h : cache.Consistent) (sender : Address) :
    (cache.evictSender sender).Consistent ∧
      ((cache.evictSender sender).queue sender).length < dbftSenderCacheCapacity := by
  unfold evictSender
  cases hqueue : cache.senders.lookup sender with
  | none => exact ⟨h, by simp [queue, hqueue, dbftSenderCacheCapacity]⟩
  | some hashes =>
    cases hashes with
    | nil => exact absurd hqueue (h.indexed.queue_ne_nil sender)
    | cons oldest hashes =>
      have hlist : cache.queue sender = oldest :: hashes := by rw [queue, hqueue]; rfl
      have hle := h.caps.sender_le sender
      rw [hlist, length_cons] at hle
      dsimp only
      split
      · refine ⟨h.remove oldest, ?_⟩
        rw [queue_remove h.indexed, hlist, filter_cons_of_neg (by simp)]
        exact lt_of_le_of_lt (length_filter_le _ _) (by omega)
      · refine ⟨h, ?_⟩
        rw [hlist, length_cons]
        omega

theorem queue_push (cache : DbftMessageCache) (hash : B256) (msg : DbftMessage) (encodedSize : Nat)
    (sender : Address) :
    (cache.push hash msg encodedSize).queue sender
      = if sender = msg.sender then cache.queue sender ++ [hash] else cache.queue sender := by
  unfold queue push
  dsimp only
  rw [lookup_insert_if]
  split
  · next heq => rw [heq]; rfl
  · rfl

/-- A new message that fits is added to every index. -/
theorem Indexed.push (h : cache.Indexed) (hfresh : cache.messages.lookup hash = none)
    {msg : DbftMessage} (hfits : cache.retainedBytes + msg.length ≤ dbftMessageCacheByteCapacity) :
    (cache.push hash msg msg.length).Indexed := by
  have hget (other : B256) :
      (cache.push hash msg msg.length).messages.lookup other
        = if other = hash then some ⟨msg, msg.length⟩ else cache.messages.lookup other :=
    lookup_insert_if _ _ _ _
  have hout : hash ∉ cache.order := by simp [h.mem_order, hfresh]
  have hqueue (sender : Address) : hash ∉ cache.queue sender := by simp [h.mem_queue, hfresh]
  refine ⟨?_, ?_, ?_, ?_, ?_, ?_, ?_⟩
  · exact nodup_append.mpr ⟨h.order_nodup, nodup_singleton hash, by
      intro a h1 b h2 heq
      rw [mem_singleton.mp h2] at heq
      exact hout (heq ▸ h1)⟩
  · intro other
    rw [hget]
    change other ∈ cache.order ++ [hash] ↔ _
    rw [mem_append, mem_singleton, h.mem_order]
    by_cases heq : other = hash <;> simp [heq]
  · intro sender
    rw [queue_push]
    split
    · exact nodup_append.mpr ⟨h.queue_nodup sender, nodup_singleton hash, by
        intro a h1 b h2 heq
        rw [mem_singleton.mp h2] at heq
        exact hqueue sender (heq ▸ h1)⟩
    · exact h.queue_nodup sender
  · intro sender other
    rw [queue_push, hget]
    by_cases hsd : sender = msg.sender <;> by_cases heq : other = hash
    · simp [hsd, heq]
    · simp [hsd, heq, h.mem_queue]
    · simp [hsd, heq, hqueue sender, Ne.symm hsd]
    · simp [hsd, heq, h.mem_queue]
  · intro sender
    unfold DbftMessageCache.push
    dsimp only
    rw [lookup_insert_if]
    split
    · simp
    · exact h.queue_ne_nil sender
  · intro other cached hcached
    rw [hget] at hcached
    split at hcached
    · rw [← Option.some.inj hcached]
    · exact h.size_eq other cached hcached
  · change saturatingAdd cache.retainedBytes msg.length
      = weight _ (cache.messages.insert hash ⟨msg, msg.length⟩)
    rw [weight_insert, weight_erase_of_none hfresh, ← h.bytes_eq]
    exact saturatingAdd_eq hfits

theorem lookup_of_within {o : DbftMessageCache} (h : Within cache o)
    (hno : o.messages.lookup hash = none) : cache.messages.lookup hash = none := by
  rw [Option.eq_none_iff_forall_ne_some]
  intro cached hcached
  exact nomatch hno.symm.trans (h hash cached hcached)

theorem Consistent.insert (h : cache.Consistent) (hash : B256) (msg : DbftMessage) :
    (cache.insert hash msg).2.Consistent := by
  unfold DbftMessageCache.insert
  split
  · exact h
  · next hcont =>
      split
      · exact h
      · next hsize =>
          obtain ⟨h1, hroom⟩ := evictSender_spec h msg.sender
          obtain ⟨h2, hc, hbs, hqueues⟩ := evict_spec (not_lt.mp hsize) h1 rfl
          have hfresh : cache.messages.lookup hash = none := by
            simpa [contains, has] using hcont
          have hno := lookup_of_within
            ((within_evict msg.length (cache.evictSender msg.sender).order _).trans
              (within_evictSender cache msg.sender)) hfresh
          refine ⟨h2.indexed.push hno hbs, ?_, ?_, ?_⟩
          · exact (size_insert_of_none hno _).trans_le hc
          · exact (saturatingAdd_eq hbs).trans_le hbs
          · intro sender
            rw [queue_push]
            split
            · next heq =>
                rw [length_append, length_singleton, heq]
                exact lt_of_le_of_lt (hqueues msg.sender) hroom
            · exact h2.caps.sender_le sender

/-! ## Runs -/

inductive Call where
  | insert (hash : B256) (message : DbftMessage)
  | remove (hash : B256)
  | retain (keep : DbftMessage → Bool)
  | clear

def apply (cache : DbftMessageCache) : Call → DbftMessageCache
  | .insert hash message => (cache.insert hash message).2
  | .remove hash => cache.remove hash
  | .retain keep => cache.retain keep
  | .clear => cache.clear

theorem Consistent.apply (h : cache.Consistent) (call : Call) : (cache.apply call).Consistent := by
  cases call with
  | insert hash msg => exact h.insert hash msg
  | remove hash => exact h.remove hash
  | retain keep => exact h.retain keep
  | clear => exact consistent_empty

theorem Consistent.foldl_apply (h : cache.Consistent) (calls : List Call) :
    (calls.foldl DbftMessageCache.apply cache).Consistent := by
  induction calls generalizing cache with
  | nil => exact h
  | cons call calls ih => exact ih (h.apply call)

/-- After every sequence of calls, the map, the order and the queues list the same hashes once, the
counter is the sum of the sizes and the caps hold, and a message that is inserted next is cached
under its hash. -/
theorem applyAll_consistent (calls : List Call) :
    (calls.foldl apply {}).Consistent ∧
      ∀ hash message, ((calls.foldl apply {}).insert hash message).1 = .ok .inserted →
        ((calls.foldl apply {}).insert hash message).2.get hash = some message := by
  refine ⟨consistent_empty.foldl_apply calls, ?_⟩
  intro hash message hinserted
  unfold insert at hinserted ⊢
  split
  · next hcontains =>
      rw [if_pos hcontains] at hinserted
      cases hinserted
  · next hcontains =>
      rw [if_neg hcontains] at hinserted
      split
      · next hsize =>
          rw [if_pos hsize] at hinserted
          cases hinserted
      · simp [get, push]

/-- A message is cached after other calls. -/
theorem applyAll_consistent_message :
    (([Call.insert (.zero 32) ⟨0, 1, .zero 20, [], []⟩,
        Call.remove (.zero 32)].foldl apply {}).insert (.ofNat 32 1)
        ⟨0, 1, .zero 20, [1], []⟩).2.get (.ofNat 32 1)
      = some ⟨0, 1, .zero 20, [1], []⟩ :=
  (applyAll_consistent _).2 _ _ (by decide)

theorem order_evict_suffix {encodedSize : Nat} {order : List B256} (h : cache.Indexed)
    (horder : cache.order = order) : (evict encodedSize order cache).order <:+ order := by
  induction order generalizing cache with
  | nil => simp [evict, horder]
  | cons evicted order ih =>
    unfold evict
    split
    · exact (ih (h.remove evicted) (order_remove_front h horder)).trans (suffix_cons _ _)
    · exact horder ▸ suffix_refl _

/-- After every sequence of calls, the eviction loop of an insertion ends. It removes the oldest
messages, and makes room for a message that fits at all. -/
theorem evictFront_oldest (calls : List Call) (encodedSize : Nat) : ∃ cache next,
    calls.foldl apply {} = cache ∧
    evictFront encodedSize (cache.order.length + 1) cache = some next ∧
    next.order <:+ cache.order ∧
    (encodedSize ≤ dbftMessageCacheByteCapacity →
      next.messages.size < dbftMessageCacheCapacity ∧
      next.retainedBytes + encodedSize ≤ dbftMessageCacheByteCapacity) := by
  have h := consistent_empty.foldl_apply calls
  refine ⟨_, _, rfl, evictFront_eq h (Nat.lt_succ_self _), order_evict_suffix h.indexed rfl, ?_⟩
  intro hsize
  obtain ⟨-, hcount, hbytes, -⟩ := evict_spec hsize h rfl
  exact ⟨hcount, hbytes⟩

end DbftMessageCache
end NeoX
