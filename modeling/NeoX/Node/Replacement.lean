import NeoX.Node.Reconstruction

/-!
# Replacement in the static pool

The pool queues one transaction for each sender and nonce. A transaction replaces a queued one only
with higher fees, which an Envelope never has after its inner transaction was queued.

Main results:

- `StaticPoolAdmission.addEach_represents`: over every sequence of calls, the known
  hashes are those of the queued transactions, a refused call has no effect, and a replacement has
  fees that are higher by a tenth.
- `failed_decryption_drops_sender`: an Envelope whose inner transaction was admitted
  and has failed is dropped, with all later transactions of its sender.
-/

namespace NeoX

open List FiniteMap TransactionFormat
open Except hiding ok error

variable {senders : List Address}

namespace StaticPoolAdmission

section Pool

variable [PoolFormat]

/-! ## What is queued -/

def queuedTransaction (transaction : Transaction) : QueuedTransaction where
  hash := txHash transaction
  maxFeePerGas := maxFeePerGas transaction
  maxPriorityFeePerGas := tipOrFee transaction
  authorities := setCodeAuthorities transaction

/-- The entry of a sender and a nonce. -/
def queuedAt (admission : StaticPoolAdmission) (sender : Address) (nonce : UInt64) :
    Option QueuedTransaction :=
  ((admission.queued.lookup sender).getD ∅).lookup nonce

/-- All entries with their sender and nonce. -/
def entries (admission : StaticPoolAdmission) : List ((Address × UInt64) × QueuedTransaction) :=
  admission.queued.toList.flatMap fun queue =>
    queue.2.toList.map fun entry => ((queue.1, entry.1), entry.2)

variable {admission : StaticPoolAdmission} {sender : Address}
variable {nonce : UInt64}

omit [PoolFormat] in
theorem mem_entries {queued : QueuedTransaction} :
    ((sender, nonce), queued) ∈ admission.entries ↔
      admission.queuedAt sender nonce = some queued := by
  unfold entries queuedAt
  rw [mem_flatMap]
  constructor
  · rintro ⟨⟨owner, queue⟩, hqueue, he⟩
    rw [mem_toList] at hqueue
    obtain ⟨⟨key, v⟩, hv, heq⟩ := mem_map.mp he
    simp only [Prod.mk.injEq] at heq
    obtain ⟨⟨rfl, rfl⟩, rfl⟩ := heq
    rw [mem_toList] at hv
    simp [hqueue, hv]
  · intro h
    cases hqueue : admission.queued.lookup sender with
    | none => simp [hqueue] at h
    | some queue =>
      rw [hqueue, Option.getD_some] at h
      exact ⟨(sender, queue), mem_toList.mpr hqueue,
        mem_map.mpr ⟨(nonce, queued), mem_toList.mpr h, rfl⟩⟩

omit [PoolFormat] in
theorem entries_nodup (admission : StaticPoolAdmission) :
    (admission.entries.map Prod.fst).Nodup := by
  have hsend := admission.queued.keys_toList_nodup
  unfold entries
  rw [map_flatMap, nodup_flatMap]
  constructor
  · intro queue _
    have hnonces := queue.2.keys_toList_nodup
    rw [map_map]
    have hpairs : (fun e : UInt64 × QueuedTransaction => (queue.1, e.1))
        = (fun nonce => (queue.1, nonce)) ∘ Prod.fst := rfl
    change (queue.2.toList.map fun e => (queue.1, e.1)).Nodup
    rw [hpairs, ← map_map]
    exact hnonces.map fun a b heq => (Prod.mk.inj heq).2
  · rw [nodup_map_iff_inj_on (hsend.of_map _)] at hsend
    refine (admission.queued.keys_toList_nodup.of_map _).pairwise_of_forall_ne ?_
    intro a h1 b h2 hne pos hpos ho
    simp only [mem_map] at hpos ho
    obtain ⟨_, ⟨_, -, rfl⟩, rfl⟩ := hpos
    obtain ⟨_, ⟨_, -, rfl⟩, heq⟩ := ho
    exact hne (hsend a h1 b h2 (Prod.mk.inj heq).1.symm)

omit [PoolFormat] in
theorem queuedAt_enqueue (admission : StaticPoolAdmission) (sender o : Address)
    (nonce position : UInt64) (queued : QueuedTransaction) :
    (admission.enqueue sender nonce queued).queuedAt o position
      = if o = sender ∧ position = nonce then some queued
        else admission.queuedAt o position := by
  unfold enqueue queuedAt
  simp only [lookup_insert_if]
  by_cases hsd : o = sender
  · subst hsd
    simp only [if_pos, Option.getD_some, true_and, lookup_insert_if]
  · simp [hsd]

omit [PoolFormat] in
/-- A hash is known after an entry was queued if it is that of the entry, or if it was known and is
not that of the entry that was replaced. -/
theorem mem_known_enqueue {queued : QueuedTransaction} {hash : B256} :
    hash ∈ (admission.enqueue sender nonce queued).known ↔
      hash = queued.hash ∨ hash ∈ admission.known ∧
        ∀ old, admission.queuedAt sender nonce = some old → hash ≠ old.hash := by
  unfold enqueue queuedAt
  cases hold : ((admission.queued.lookup sender).getD ∅).lookup nonce with
  | none => simp [hold]
  | some old =>
    simp only [hold, Finset.mem_insert, Finset.mem_erase, Option.some.injEq, forall_eq']
    exact or_congr_right and_comm

/-! ## What a call does -/

variable {next : StaticPoolAdmission} {transaction : Transaction}

/-- A transaction that is admitted has higher fees than the one that it replaces, and it is
queued. -/
theorem addFrom_spec {acct : ParentAccount}
    (h : admission.addFrom acct sender transaction = .ok next) :
    (∀ old, admission.queuedAt sender (TransactionFormat.nonce transaction) = some old →
      outbids old (maxFeePerGas transaction) (tipOrFee transaction) = true) ∧
    next = admission.enqueue sender (TransactionFormat.nonce transaction)
      (queuedTransaction transaction) := by
  iterate 4 obtain ⟨_, h⟩ := of_bind h
  unfold queuedAt
  split at h
  · cases h
  · split at h
    · next old hold =>
        obtain ⟨hbid, h⟩ := require_bind h
        cases h
        refine ⟨?_, rfl⟩
        intro o ho
        rw [hold, Option.some.injEq] at ho
        exact ho ▸ hbid
    · next hno =>
        cases h
        refine ⟨?_, rfl⟩
        intro o ho
        rw [hno] at ho
        cases ho

variable [GasRules]

/-- A transaction that is admitted was not known, has higher fees than the one that it replaces, and
is queued. -/
theorem add_spec (h : admission.add sender transaction = .ok (.ok next)) :
    txHash transaction ∉ admission.known ∧
    (∀ old, admission.queuedAt sender (TransactionFormat.nonce transaction) = some old →
      outbids old (maxFeePerGas transaction) (tipOrFee transaction) = true) ∧
    next = admission.enqueue sender (TransactionFormat.nonce transaction)
      (queuedTransaction transaction) := by
  unfold add at h
  split at h
  · cases h
  · split at h
    · cases h
    · next hknown =>
        obtain ⟨acct, -, h⟩ := bind_ok h
        exact ⟨hknown, addFrom_spec (Except.ok.inj h)⟩

theorem covers_of_add (h : admission.add sender transaction = .ok (.ok next)) :
    next.Covers [sender] := by
  have haccou := add_accounts h
  intro o ho
  rw [mem_singleton] at ho
  subst ho
  rw [haccou]
  unfold add at h
  split at h
  · cases h
  · split at h
    · cases h
    · obtain ⟨acct, hacco, -⟩ := ofOption_bind h
      simp [hacco]

/-! ## Calls on a pool in place -/

/-- The pool with a queue for a sender, which may be empty. -/
def openQueue (admission : StaticPoolAdmission) (sender : Address) : StaticPoolAdmission :=
  if admission.queued.has sender then admission
  else { admission with queued := admission.queued.insert sender ∅ }

/-- The checks of a call that come before the queue of the sender is opened. -/
def checkSender (admission : StaticPoolAdmission) (account : ParentAccount) (sender : Address)
    (transaction : Transaction) : Except StaticPoolRejection Unit := do
  let nonce := TransactionFormat.nonce transaction
  let cost := staticPoolMaxCost transaction
  require (account.nonce ≤ nonce) (.nonceTooLow nonce account.nonce)
  checkPolicy admission.policy transaction account
  require (cost ≤ account.balance) (.insufficientFunds cost account.balance)
  require ((account.hasCode || admission.hasQueuedAuthorization sender) →
    nonce = account.nonce) (.delegatedNonceGap nonce account.nonce)
  match (setCodeAuthorities transaction).find? admission.reserved with
  | some authority => .error (.authorityReserved authority)
  | none => .ok ()

/-- The end of a call: the queue of the sender is opened before the fees are compared. -/
def replaceOrQueue (admission : StaticPoolAdmission) (sender : Address)
    (transaction : Transaction) : Except StaticPoolRejection Unit × StaticPoolAdmission :=
  let nonce := TransactionFormat.nonce transaction
  let opened := admission.openQueue sender
  match opened.queuedAt sender nonce with
  | some old =>
    if outbids old (maxFeePerGas transaction) (tipOrFee transaction) then
      (.ok (), opened.enqueue sender nonce (queuedTransaction transaction))
    else
      (.error (.replaceUnderpriced nonce), opened)
  | none => (.ok (), opened.enqueue sender nonce (queuedTransaction transaction))

/-- A call together with the pool that it leaves behind, also when it refuses. -/
def addInPlace (admission : StaticPoolAdmission) (sender : Address) (transaction : Transaction) :
    Except String (Except StaticPoolRejection Unit × StaticPoolAdmission) :=
  match staticPoolAdmission transaction sender admission.head with
  | .error rejection => .ok (.error rejection, admission)
  | .ok () =>
    if txHash transaction ∈ admission.known then
      .ok (.error .alreadyKnown, admission)
    else do
      let account ← ofOption "admission preload covers the block's senders"
        (admission.accounts.lookup sender)
      match admission.checkSender account sender transaction with
      | .error rejection => .ok (.error rejection, admission)
      | .ok () => .ok (admission.replaceOrQueue sender transaction)

omit [PoolFormat] [GasRules] in
theorem queuedAt_openQueue (admission : StaticPoolAdmission) (sender o : Address)
    (nonce : UInt64) : (admission.openQueue sender).queuedAt o nonce
      = admission.queuedAt o nonce := by
  unfold openQueue
  split
  · rfl
  · next hno =>
      unfold queuedAt
      rw [lookup_insert_if]
      split
      · next heq =>
          subst heq
          have hget : admission.queued.lookup o = none := by
            simpa [has] using hno
          simp [hget]
      · rfl

omit [PoolFormat] [GasRules] in
theorem openQueue_of_queuedAt {old : QueuedTransaction}
    (h : admission.queuedAt sender nonce = some old) : admission.openQueue sender = admission := by
  have hhas : admission.queued.has sender = true := by
    unfold queuedAt at h
    cases hqueue : admission.queued.lookup sender with
    | none => simp [hqueue] at h
    | some queue => simp [has, hqueue]
  simp [openQueue, hhas]

omit [PoolFormat] [GasRules] in
theorem enqueue_openQueue (admission : StaticPoolAdmission) (sender : Address) (nonce : UInt64)
    (queued : QueuedTransaction) :
    (admission.openQueue sender).enqueue sender nonce queued
      = admission.enqueue sender nonce queued := by
  unfold openQueue
  split
  · rfl
  · next hno =>
      have hget : admission.queued.lookup sender = none := by
        simpa [has] using hno
      simp [enqueue, hget, AList.insert_insert]

omit [GasRules] in
/-- A call makes the checks of the sender and compares the fees. -/
theorem addFrom_eq (admission : StaticPoolAdmission) (acct : ParentAccount) (sender : Address)
    (transaction : Transaction) :
    admission.addFrom acct sender transaction
      = (admission.checkSender acct sender transaction >>= fun _ =>
          match admission.queuedAt sender (TransactionFormat.nonce transaction) with
          | some old => do
              require (outbids old (maxFeePerGas transaction)
                (tipOrFee transaction)) (.replaceUnderpriced (TransactionFormat.nonce transaction))
              .ok (admission.enqueue sender (TransactionFormat.nonce transaction)
                (queuedTransaction transaction))
          | none => .ok (admission.enqueue sender (TransactionFormat.nonce transaction)
              (queuedTransaction transaction))) := by
  unfold addFrom checkSender queuedAt
  simp only [bind_assoc]
  refine bind_congr fun _ => bind_congr fun _ => bind_congr fun _ => bind_congr fun _ => ?_
  cases (setCodeAuthorities transaction).find? admission.reserved with
  | some authority => rfl
  | none => rfl

omit [GasRules] in
/-- The comparison of fees in place. -/
theorem replaceOrQueue_eq (admission : StaticPoolAdmission) (sender : Address)
    (transaction : Transaction) :
    admission.replaceOrQueue sender transaction
      = match admission.queuedAt sender (TransactionFormat.nonce transaction) with
        | some old =>
          if outbids old (maxFeePerGas transaction) (tipOrFee transaction) then
            (.ok (), admission.enqueue sender (TransactionFormat.nonce transaction)
              (queuedTransaction transaction))
          else
            (.error (.replaceUnderpriced (TransactionFormat.nonce transaction)), admission)
        | none => (.ok (), admission.enqueue sender (TransactionFormat.nonce transaction)
            (queuedTransaction transaction)) := by
  unfold replaceOrQueue
  simp only [queuedAt_openQueue, enqueue_openQueue]
  cases hold : admission.queuedAt sender (TransactionFormat.nonce transaction) with
  | none => rfl
  | some old => simp only [openQueue_of_queuedAt hold]

/-- A call in place returns what the call returns, with the same pool when it refuses. -/
theorem addInPlace_eq (admission : StaticPoolAdmission) (sender : Address)
    (transaction : Transaction) :
    admission.addInPlace sender transaction
      = (admission.add sender transaction).map fun answer =>
          match answer with
          | .ok next => (.ok (), next)
          | .error rejection => (.error rejection, admission) := by
  unfold addInPlace add
  cases staticPoolAdmission transaction sender admission.head with
  | error rejection => rfl
  | ok _ =>
    dsimp only
    split
    · rfl
    · cases admission.accounts.lookup sender with
      | none => rfl
      | some acct =>
        simp only [Except.ofOption, ok_bind, addFrom_eq, replaceOrQueue_eq]
        cases admission.checkSender acct sender transaction with
        | error rejection => rfl
        | ok _ =>
          simp only [ok_bind]
          split
          · next old _ =>
              by_cases hbid : outbids old (maxFeePerGas transaction)
                (tipOrFee transaction) = true
              · simp [hbid, Except.require, Except.map]
              · simp [hbid, Except.require, Except.map]
          · rfl

/-- The calls of a run, one after the other, with their outcomes. -/
def addEach (admission : StaticPoolAdmission) :
    List (Address × Transaction) →
      Except String (List (Except StaticPoolRejection Unit) × StaticPoolAdmission)
  | [] => .ok ([], admission)
  | (sender, transaction) :: calls => do
      let (outcome, next) ← admission.addInPlace sender transaction
      let (outcomes, last) ← next.addEach calls
      .ok (outcome :: outcomes, last)

/-- A call in place leaves the pool as it is, or it queues its transaction. -/
theorem addInPlace_cases {out : Except StaticPoolRejection Unit}
    (h : admission.addInPlace sender transaction = .ok (out, next)) :
    (∃ rejection, out = .error rejection ∧ next = admission) ∨
      (out = .ok () ∧ admission.add sender transaction = .ok (.ok next)) := by
  rw [addInPlace_eq] at h
  obtain ⟨answer, hanswer, heq⟩ := map_eq_ok.mp h
  cases answer with
  | error rejection =>
    cases heq
    exact .inl ⟨rejection, rfl, rfl⟩
  | ok found =>
    cases heq
    exact .inr ⟨rfl, hanswer⟩

/-! ## Sequences of calls -/

/-- The pool after some calls: the known hashes are those of the entries, no two entries have the
same hash, and every entry is a transaction of its sender with its nonce. -/
structure Represents (calls : List (Address × Transaction)) (admission : StaticPoolAdmission) :
    Prop where
  known_eq : admission.known = (admission.entries.map fun entry => entry.2.hash).toFinset
  hash_nodup : ∀ first ∈ admission.entries, ∀ second ∈ admission.entries,
    first.2.hash = second.2.hash → first = second
  one_each : (admission.entries.map Prod.fst).Nodup
  added : ∀ sender nonce queued, ((sender, nonce), queued) ∈ admission.entries →
    ∃ transaction, (sender, transaction) ∈ calls ∧
      TransactionFormat.nonce transaction = nonce ∧ queued = queuedTransaction transaction

variable {calls : List (Address × Transaction)}

omit [GasRules] in
theorem Represents.mem_known (h : Represents calls admission) {hash : B256} :
    hash ∈ admission.known ↔ ∃ sender nonce queued,
      admission.queuedAt sender nonce = some queued ∧ queued.hash = hash := by
  rw [h.known_eq, mem_toFinset, mem_map]
  constructor
  · rintro ⟨⟨⟨sender, nonce⟩, queued⟩, he, rfl⟩
    exact ⟨sender, nonce, queued, mem_entries.mp he, rfl⟩
  · rintro ⟨sender, nonce, queued, hqueued, rfl⟩
    exact ⟨((sender, nonce), queued), mem_entries.mpr hqueued, rfl⟩

omit [GasRules] in
/-- Queueing a transaction whose hash is not known keeps the representation. -/
theorem Represents.enqueue (h : Represents calls admission)
    (hfresh : txHash transaction ∉ admission.known) :
    Represents (calls ++ [(sender, transaction)]) (admission.enqueue sender
      (TransactionFormat.nonce transaction) (queuedTransaction transaction)) := by
  have ho : ∀ o pos queued, admission.queuedAt o pos = some queued →
      queued.hash ≠ txHash transaction := by
    intro o pos queued hqueued heq
    exact hfresh (heq ▸ h.mem_known.mpr ⟨o, pos, queued, hqueued, rfl⟩)
  have hunique : ∀ a b : (Address × UInt64) × QueuedTransaction,
      admission.queuedAt a.1.1 a.1.2 = some a.2 →
      admission.queuedAt b.1.1 b.1.2 = some b.2 →
      a.2.hash = b.2.hash → a = b := by
    intro a b h1 h2 heq
    exact h.hash_nodup a (mem_entries.mpr h1) b (mem_entries.mpr h2) heq
  -- An e of the new pool is the new one, or an old one at another pos.
  have hcases : ∀ e : (Address × UInt64) × QueuedTransaction,
      e ∈ (admission.enqueue sender (TransactionFormat.nonce transaction)
        (queuedTransaction transaction)).entries ↔
      e = ((sender, TransactionFormat.nonce transaction), queuedTransaction transaction) ∨
        e.1 ≠ (sender, TransactionFormat.nonce transaction) ∧
          admission.queuedAt e.1.1 e.1.2 = some e.2 := by
    rintro ⟨⟨owner, pos⟩, queued⟩
    rw [mem_entries, queuedAt_enqueue]
    by_cases hsame : owner = sender ∧ pos = TransactionFormat.nonce transaction
    · simp [hsame, eq_comm]
    · simp [hsame]
  constructor
  · ext hash
    rw [mem_known_enqueue, mem_toFinset, mem_map]
    constructor
    · rintro (rfl | ⟨hknown, hkept⟩)
      · exact ⟨_, (hcases _).mpr (.inl rfl), rfl⟩
      · obtain ⟨owner, pos, queued, hqueued, rfl⟩ := h.mem_known.mp hknown
        refine ⟨((owner, pos), queued), (hcases _).mpr (.inr ⟨?_, hqueued⟩), rfl⟩
        intro heq
        simp only [Prod.mk.injEq] at heq
        rw [heq.1, heq.2] at hqueued
        exact hkept queued hqueued rfl
    · rintro ⟨e, he, rfl⟩
      rcases (hcases e).mp he with rfl | ⟨hne, hqueued⟩
      · exact .inl rfl
      · right
        refine ⟨h.mem_known.mpr ⟨_, _, _, hqueued, rfl⟩, ?_⟩
        intro old hold heq
        have hsame := hunique e ((sender, TransactionFormat.nonce transaction), old) hqueued
          hold heq
        exact hne (by rw [hsame])
  · intro a h1 b h2 heq
    rcases (hcases a).mp h1 with rfl | ⟨hfirs, h1⟩
    · rcases (hcases b).mp h2 with rfl | ⟨-, h2⟩
      · rfl
      · exact absurd heq.symm (ho _ _ _ h2)
    · rcases (hcases b).mp h2 with rfl | ⟨-, h2⟩
      · exact absurd heq (ho _ _ _ h1)
      · exact hunique a b h1 h2 heq
  · exact entries_nodup _
  · intro owner pos queued hqueued
    rw [mem_entries, queuedAt_enqueue] at hqueued
    split at hqueued
    · next heq =>
        obtain ⟨rfl, rfl⟩ := heq
        cases hqueued
        exact ⟨transaction, by simp, rfl, rfl⟩
    · obtain ⟨found, hf, hnonce⟩ := h.added owner pos queued (mem_entries.mpr hqueued)
      exact ⟨found, mem_append_left _ hf, hnonce⟩

omit [GasRules] in
theorem Represents.mono {more : List (Address × Transaction)} (h : Represents calls admission) :
    Represents (calls ++ more) admission where
  known_eq := h.known_eq
  hash_nodup := h.hash_nodup
  one_each := h.one_each
  added sender nonce queued he := by
    obtain ⟨transaction, hmem, hqueued⟩ := h.added sender nonce queued he
    exact ⟨transaction, mem_append_left _ hmem, hqueued⟩

/-- A run of calls keeps the representation. -/
theorem Represents.addEach {before : List (Address × Transaction)} {last : StaticPoolAdmission}
    {outcomes : List (Except StaticPoolRejection Unit)} (h : Represents before admission)
    (hrun : admission.addEach calls = .ok (outcomes, last)) :
    Represents (before ++ calls) last := by
  induction calls generalizing before admission outcomes with
  | nil =>
    cases hrun
    rwa [append_nil]
  | cons call calls ih =>
    obtain ⟨sender, transaction⟩ := call
    obtain ⟨⟨out, next⟩, hcall, hrun⟩ := bind_ok hrun
    obtain ⟨⟨rest, final⟩, hr, hrun⟩ := bind_ok hrun
    cases hrun
    have hn : Represents (before ++ [(sender, transaction)]) next := by
      rcases addInPlace_cases hcall with ⟨_, -, rfl⟩ | ⟨-, hadded⟩
      · exact h.mono
      · obtain ⟨hfresh, -, rfl⟩ := add_spec hadded
        exact h.enqueue hfresh
    have hl := ih hn hr
    rwa [append_assoc] at hl

omit [PoolFormat] [GasRules] in
/-- The fees of a replacement are higher, and by a tenth at least. -/
theorem outbids_iff {old : QueuedTransaction} {maxFeePerGas maxPriorityFeePerGas : BitVec 128} :
    outbids old maxFeePerGas maxPriorityFeePerGas = true ↔
      (old.maxFeePerGas < maxFeePerGas ∧
        old.maxFeePerGas.toNat * 110 / 100 ≤ maxFeePerGas.toNat) ∧
      old.maxPriorityFeePerGas < maxPriorityFeePerGas ∧
        old.maxPriorityFeePerGas.toNat * 110 / 100 ≤ maxPriorityFeePerGas.toNat := by
  unfold outbids staticPoolPriceBump
  simp only [Bool.and_eq_true]
  constructor
  · rintro ⟨⟨⟨hfee, htip⟩, hfeeB⟩, htipB⟩
    exact ⟨⟨of_decide_eq_true hfee, of_decide_eq_true hfeeB⟩, of_decide_eq_true htip,
      of_decide_eq_true htipB⟩
  · rintro ⟨⟨hfee, hfeeB⟩, htip, htipB⟩
    exact ⟨⟨⟨decide_eq_true hfee, decide_eq_true htip⟩, decide_eq_true hfeeB⟩,
      decide_eq_true htipB⟩

omit [GasRules] in
theorem represents_nil (hqueued : admission.queued = ∅) (hknown : admission.known = ∅) :
    Represents [] admission := by
  have hentr : admission.entries = [] := by
    rw [entries, hqueued]
    rfl
  refine ⟨?_, ?_, ?_, ?_⟩ <;> simp [hentr, hknown]

omit [PoolFormat] [GasRules] in
theorem new_empty [Crypto] {s : StateProvider} {head : StaticPoolHead}
    (h : new s head senders = .ok admission) : admission.queued = ∅ ∧ admission.known = ∅ := by
  iterate 5 obtain ⟨_, h⟩ := of_bind h
  cases h
  exact ⟨rfl, rfl⟩

/-- After every sequence of calls on a new pool, the known hashes are those of the queued
transactions, and one transaction is queued for each sender and nonce. A further call that is
refused changes no later outcome, and one that replaces a queued transaction has both fees higher,
and by a tenth at least. -/
theorem addEach_represents [Crypto] {state : StateProvider} {head : StaticPoolHead}
    {senders : List Address} {created : StaticPoolAdmission}
    (hnew : new state head senders = .ok created) {calls : List (Address × Transaction)}
    {outcomes : List (Except StaticPoolRejection Unit)} {admission : StaticPoolAdmission}
    (hrun : created.addEach calls = .ok (outcomes, admission)) :
    Represents calls admission ∧
    ∀ sender transaction outcome next,
      admission.addInPlace sender transaction = .ok (outcome, next) →
      (∀ rejection, outcome = .error rejection →
        ∀ later, next.addEach later = admission.addEach later) ∧
      (outcome = .ok () → ∀ old,
        admission.queuedAt sender (TransactionFormat.nonce transaction) = some old →
        (old.maxFeePerGas < maxFeePerGas transaction ∧
          old.maxFeePerGas.toNat * 110 / 100
            ≤ (maxFeePerGas transaction).toNat) ∧
        old.maxPriorityFeePerGas < tipOrFee transaction ∧
          old.maxPriorityFeePerGas.toNat * 110 / 100 ≤ (tipOrFee transaction).toNat) := by
  obtain ⟨hqueued, hknown⟩ := new_empty hnew
  refine ⟨(represents_nil hqueued hknown).addEach hrun, ?_⟩
  intro sender transaction outcome next hcall
  rcases addInPlace_cases hcall with ⟨rejection, rfl, rfl⟩ | ⟨rfl, hadded⟩
  · exact ⟨fun _ _ _ => rfl, nofun⟩
  · exact ⟨nofun, fun _ old hold => outbids_iff.mp ((add_spec hadded).2.1 old hold)⟩

end Pool

end StaticPoolAdmission

/-! ## Priced transfers -/

namespace PricedTransfers

def sender : Address := .ofNat 20 7

def transfer (price : BitVec 128) : PlainChain.PlainTransaction :=
  ⟨sender, 0, 21000, price, none, []⟩

/-- Transactions are told apart by their prices, and every message has a transfer inside. -/
scoped instance poolFormat : PoolFormat :=
  { PlainChain.poolFormat with
    txHash := fun transaction => .ofNat 32 transaction.price.toNat
    decode2718Exact := fun _ => some (transfer 100) }

scoped instance gasRules : GasRules := PlainChain.gasRules

scoped instance crypto : Crypto := PlainChain.crypto

/-- A state without storage in which every account is rich. -/
def richState : StateProvider where
  basicAccount _ := .ok (some ⟨0, 1000000000, false⟩)
  bytecode _ := .ok []
  storage _ _ := .ok none
  blockHash _ := .ok none

def pool : StaticPoolAdmission where
  head := ⟨30000000, .prague⟩
  policy := ⟨0, 0, 0, 0⟩
  accounts := (∅ : FiniteMap Address ParentAccount).insert sender ⟨0, 1000000000, false, false⟩
  queued := ∅
  known := ∅

end PricedTransfers

section Example

open PricedTransfers

/-- The pool refuses a transfer at a price that is higher by less than a tenth. -/
theorem addEach_represents_transfers :
    ∃ admission,
      pool.addEach [(sender, transfer 100), (sender, transfer 105), (sender, transfer 110)]
        = .ok ([.ok (), .error (.replaceUnderpriced 0), .ok ()], admission) ∧
      StaticPoolAdmission.Represents
        [(sender, transfer 100), (sender, transfer 105), (sender, transfer 110)] admission := by
  have hnew : StaticPoolAdmission.new richState ⟨30000000, .prague⟩ [sender] = .ok pool := rfl
  exact ⟨_, rfl, (StaticPoolAdmission.addEach_represents hnew rfl).1⟩

end Example

/-! ## Envelopes after their inner transactions -/

section Replacement

variable [PoolFormat]

/-- The price of a transaction package is the tip cap, or the fee cap of a transaction without
one. -/
class TipPrices : Prop where
  price_eq : ∀ transaction : Transaction,
    priorityFeeOrPrice transaction = tipOrFee transaction

theorem signedEffectiveTip_lt [TipPrices] {a b : Transaction}
    (hfee : maxFeePerGas a < maxFeePerGas b)
    (htip : tipOrFee a < tipOrFee b) (baseFee : UInt64) :
    signedEffectiveTip a baseFee < signedEffectiveTip b baseFee := by
  unfold signedEffectiveTip
  rw [TipPrices.price_eq, TipPrices.price_eq]
  rw [BitVec.lt_def] at hfee htip
  omega

variable {transaction : Transaction}

theorem outbids_eq_false [TipPrices] {queued : Transaction} {baseFee : UInt64}
    (htip : signedEffectiveTip transaction baseFee ≤ signedEffectiveTip queued baseFee) :
    outbids (StaticPoolAdmission.queuedTransaction queued)
      (maxFeePerGas transaction) (tipOrFee transaction) = false := by
  rw [Bool.eq_false_iff]
  intro hbid
  have hfees := StaticPoolAdmission.outbids_iff.mp hbid
  exact absurd (signedEffectiveTip_lt hfees.1.1 hfees.2.1 baseFee) (not_lt.mpr htip)

variable [GasRules]

/-- After a transaction was queued, the pool refuses one with its sender and nonce and no higher
tip. -/
theorem refused_after_add [TipPrices] {admission next : StaticPoolAdmission} {sender : Address}
    {queued : Transaction} {baseFee : UInt64}
    (hadded : admission.add sender queued = .ok (.ok next))
    (hnonce : TransactionFormat.nonce queued = TransactionFormat.nonce transaction)
    (htip : signedEffectiveTip transaction baseFee ≤ signedEffectiveTip queued baseFee) :
    ∃ rejection, next.add sender transaction = .ok (.error rejection) := by
  obtain ⟨answer, hanswer⟩ := (StaticPoolAdmission.covers_of_add hadded).exists_add
    (mem_singleton_self sender) transaction
  cases answer with
  | error rejection => exact ⟨rejection, hanswer⟩
  | ok later =>
    obtain ⟨-, -, rfl⟩ := StaticPoolAdmission.add_spec hadded
    have hbid := (StaticPoolAdmission.add_spec hanswer).2.1
      (StaticPoolAdmission.queuedTransaction queued)
      (by rw [StaticPoolAdmission.queuedAt_enqueue, hnonce, if_pos ⟨rfl, rfl⟩])
    rw [outbids_eq_false htip] at hbid
    cases hbid

variable {σ : Type} {execute : Execute σ} {outer : Transaction} {sender : Address}
  {replay : Replay σ}

/-- An Envelope whose inner transaction was queued and has failed is dropped without being
executed. -/
theorem includeDecrypted_of_failed [TipPrices] (i : Nat) {queued : StaticPoolAdmission}
    {baseFee : UInt64} {error : String} {failed : σ}
    (hadded : replay.admission.add sender transaction = .ok (.ok queued))
    (hfailed : execute replay.execution transaction sender = (.error error, failed))
    (hnonce : TransactionFormat.nonce transaction = TransactionFormat.nonce outer)
    (htip : signedEffectiveTip outer baseFee ≤ signedEffectiveTip transaction baseFee) :
    ∃ rejection, replay.includeDecrypted execute i outer transaction sender
      = .ok { replay with
          admission := queued
          execution := failed
          sequence := replay.sequence.drop sender i (.poolRejection rejection) } := by
  obtain ⟨rejection, hrefu⟩ := refused_after_add hadded hnonce htip
  refine ⟨rejection, ?_⟩
  rw [Replay.includeDecrypted, hadded, ok_bind]
  dsimp only
  rw [hfailed]
  dsimp only
  rw [Replay.includeFallback, Replay.includeOuter, hrefu, ok_bind]

variable {envelopeIndices : List Nat} {result : Replay σ} {start : Nat}

theorem replayFrom_append {a b : List (Transaction × Address)} :
    replayFrom execute envelopeIndices start (a ++ b) replay = .ok result ↔
      ∃ mid, replayFrom execute envelopeIndices start a replay = .ok mid ∧
        replayFrom execute envelopeIndices (start + a.length) b mid = .ok result := by
  induction a generalizing start replay with
  | nil => simp [replayFrom]
  | cons e a ih =>
    obtain ⟨outer, sender⟩ := e
    rw [cons_append, replayFrom, bind_eq_ok]
    simp only [ih, length_cons, replayFrom, bind_eq_ok]
    constructor
    · rintro ⟨next, hn, mid, hmid, hres⟩
      exact ⟨mid, ⟨next, hn, hmid⟩, by rw [← hres]; congr 1; omega⟩
    · rintro ⟨mid, ⟨next, hn, hmid⟩, hres⟩
      exact ⟨next, hn, mid, hmid, by rw [← hres]; congr 1; omega⟩

variable {outers : List (Transaction × Address)}

theorem decisions_replayFrom
    (h : replayFrom execute envelopeIndices start outers replay = .ok result) :
    ∃ decisions, result.sequence.decisions = replay.sequence.decisions ++ decisions ∧
      decisions.length = outers.length := by
  obtain ⟨decisions, hrepl⟩ := replayFrom_spec (fun _ _ hget => hget) h
  obtain ⟨hdeci, hidx⟩ := hrepl.decisions_eq
  have hlen := congrArg length hidx
  rw [length_map, length_range'] at hlen
  exact ⟨decisions, hdeci, hlen⟩

theorem lookup_replayFrom (h : replayFrom execute envelopeIndices start outers replay = .ok result)
    {i : Nat} {resolution : AntiMevEnvelopeResolution}
    (hget : result.resolutions.lookup i = some resolution) :
    replay.resolutions.lookup i = some resolution := by
  induction outers generalizing start replay with
  | nil =>
    cases h
    exact hget
  | cons e outers ih =>
    obtain ⟨outer, sender⟩ := e
    obtain ⟨mid, hmid, h⟩ := bind_ok h
    exact (replayTransaction_spec hmid).1 i resolution (ih h)

/-- The transactions of a sender that has failed are skipped. -/
theorem skipped_of_failed (h : replayFrom execute envelopeIndices start outers replay = .ok result)
    (hfailed : sender ∈ replay.sequence.failedSenders) :
    ∀ pos, (outers[pos]?).map Prod.snd = some sender →
      result.sequence.decisions[replay.sequence.decisions.length + pos]?
        = some (.dropped (start + pos) .priorSenderFailure) := by
  induction outers generalizing start replay with
  | nil => simp
  | cons e outers ih =>
    obtain ⟨outer, owner⟩ := e
    obtain ⟨mid, hmid, h⟩ := bind_ok h
    obtain ⟨-, decision, hdisp⟩ := replayTransaction_spec hmid
    have hstill := hdisp.failedSenders_subset hfailed
    have hdeci := hdisp.decisions_eq.1
    intro pos hpos
    cases pos with
    | zero =>
      have howner : owner = sender := by simpa using hpos
      subst howner
      rw [replayTransaction, if_pos hfailed] at hmid
      cases hmid
      obtain ⟨decisions, hall, -⟩ := decisions_replayFrom h
      rw [hall, ReconstructedSequence.skip]
      simp
    | succ pos =>
      have hr := ih h hstill pos (by simpa using hpos)
      rw [hdeci, length_append, length_singleton] at hr
      rw [show replay.sequence.decisions.length + (pos + 1)
        = replay.sequence.decisions.length + 1 + pos by omega, hr]
      rw [show start + 1 + pos = start + (pos + 1) by omega]

end Replacement

/-! ## Resolutions by position -/

section Resolved

variable [Curve] [PoolFormat]

/-- An inner transaction that replaces an Envelope passed the checks against the transaction and the
sender at its position. -/
theorem decrypted_of_resolveEnvelopes [Cipher] {preBlock : AntiMevPreBlock}
    {allocations : List UInt64} {strict : Bool} {currentKeys previousKeys : List G1Bytes}
    {currentIndex previousIndex : Nat} {envelopes : List AntiMevEnvelope}
    {rs : List AntiMevEnvelopeResolution}
    (h : resolveEnvelopes preBlock allocations strict currentKeys previousKeys currentIndex
      previousIndex envelopes = .ok rs) {pos : Nat} {transaction : Transaction}
    (hmem : .decrypted pos transaction ∈ rs) :
    ∃ envelope outer sender allocated, preBlock.transactions[pos]? = some outer ∧
      preBlock.senders[pos]? = some sender ∧
      validateDecryptedTransaction envelope transaction outer sender allocated
        preBlock.parentBaseFee = .ok () := by
  induction envelopes generalizing currentIndex previousIndex rs with
  | nil =>
    cases h
    cases hmem
  | cons envelope envelopes ih =>
    obtain ⟨outer, houter, h⟩ := ofOption_bind h
    obtain ⟨sender, hsd, h⟩ := ofOption_bind h
    obtain ⟨allocated, -, h⟩ := bind_ok h
    obtain ⟨rest, hr, h⟩ := bind_ok h
    cases h
    rcases mem_cons.mp hmem with h1 | hmem
    · unfold resolveEnvelope at h1
      split at h1
      · cases h1
      · split at h1
        · next hval =>
            cases h1
            exact ⟨envelope, outer, sender, allocated, houter, hsd, hval⟩
        · cases h1
    · exact ih hr hmem

theorem validateDecryptedTransaction_spec {envelope : AntiMevEnvelope}
    {decrypted outer : Transaction} {outerSender : Address} {allocatedGas parentBaseFee : UInt64}
    (h : validateDecryptedTransaction envelope decrypted outer outerSender allocatedGas
      parentBaseFee = .ok ()) :
    TransactionFormat.nonce decrypted = TransactionFormat.nonce outer ∧
      signedEffectiveTip outer parentBaseFee ≤ signedEffectiveTip decrypted parentBaseFee := by
  obtain ⟨_, h⟩ := of_bind h
  obtain ⟨hnonce, h⟩ := require_bind h
  obtain ⟨htip, -⟩ := require_bind h
  exact ⟨hnonce, htip⟩

variable {indexed : FiniteMap Nat AntiMevEnvelopeResolution}

omit [Curve] in
/-- A resolution that is found at a position is one of the list, for that position. -/
theorem lookup_insertResolutions {idx : Finset Nat} {rs : List AntiMevEnvelopeResolution}
    {result : FiniteMap Nat AntiMevEnvelopeResolution}
    (h : insertResolutions idx rs indexed = .ok result) {pos : Nat}
    {resolution : AntiMevEnvelopeResolution} (hget : result.lookup pos = some resolution) :
    (resolution ∈ rs ∧ resolution.transactionIndex = pos) ∨
      indexed.lookup pos = some resolution := by
  induction rs generalizing indexed with
  | nil =>
    cases h
    exact .inr hget
  | cons first rest ih =>
    obtain ⟨_, h⟩ := of_bind h
    obtain ⟨_, h⟩ := of_bind h
    rcases ih h with ⟨hmem, hi⟩ | hf
    · exact .inl ⟨mem_cons_of_mem _ hmem, hi⟩
    · rw [lookup_insert_if] at hf
      split at hf
      · next heq =>
          cases hf
          exact .inl ⟨mem_cons_self, heq.symm⟩
      · exact .inr hf

variable [GasRules] {σ : Type}

omit [GasRules] in
/-- An inner transaction that the loop takes for a position passed the checks against the
transaction at that position. -/
theorem taken_decrypted [Cipher] {antiMev : AntiMevProposal} {cs : List (UInt32 × DbftPreCommit)}
    {dkgState : DkgState} {t : Nat} {preBlock : AntiMevPreBlock} {strict : Bool}
    {resolved : List AntiMevEnvelopeResolution}
    (hreso : antiMev.decryptAndValidateWithMode cs dkgState t preBlock strict
      = .ok resolved) (hinde : indexResolutions antiMev resolved = .ok indexed)
    {index pos : Nat} {outer transaction : Transaction}
    (houter : preBlock.transactions[index]? = some outer)
    (hget : indexed.lookup index = some (.decrypted pos transaction)) :
    TransactionFormat.nonce transaction = TransactionFormat.nonce outer ∧
      signedEffectiveTip outer preBlock.parentBaseFee
        ≤ signedEffectiveTip transaction preBlock.parentBaseFee := by
  obtain ⟨_, -, hinse⟩ := bind_ok hinde
  obtain ⟨idx, -, hinse⟩ := bind_ok hinse
  have hmem : .decrypted pos transaction ∈ resolved ∧ pos = index := by
    rcases lookup_insertResolutions hinse hget with h1 | hempty
    · exact h1
    · cases hempty
  obtain ⟨hmem, rfl⟩ := hmem
  obtain ⟨_, _, _, -, -, -, hall⟩ := AntiMevProposal.decryptAndValidateWithMode_eq_ok hreso
  obtain ⟨envelope, found, owner, allocated, hf, -, hval⟩ :=
    decrypted_of_resolveEnvelopes hall hmem
  rw [houter, Option.some.injEq] at hf
  exact hf ▸ validateDecryptedTransaction_spec hval

omit [Curve] in
/-- A transaction that is dropped at a position stays dropped, and so are all later ones of its
sender. -/
theorem dropped_of_step {txs : List Transaction} {execute : Execute σ} {envelopeIndices : List Nat}
    {start : Replay σ} (hst : start.sequence = .empty) (halig : txs.length = senders.length)
    {result : Replay σ}
    (hrun : replayFrom execute envelopeIndices 0 (txs.zip senders) start = .ok result) {index : Nat}
    {outer : Transaction} {sender : Address} (houter : txs[index]? = some outer)
    (hsd : senders[index]? = some sender) {reached next : Replay σ}
    (hreac : replayFrom execute envelopeIndices 0 ((txs.zip senders).take index) start
      = .ok reached)
    (hstep : replayTransaction execute envelopeIndices reached index outer sender = .ok next)
    {reason : AntiMevDropReason}
    (hn : next.sequence = reached.sequence.drop sender index reason) :
    result.sequence.decisions[index]? = some (.dropped index reason) ∧
      ∀ later, index < later → senders[later]? = some sender →
        result.sequence.decisions[later]? = some (.dropped later .priorSenderFailure) := by
  have hat : (txs.zip senders)[index]? = some (outer, sender) :=
    List.getElem?_zip_eq_some.mpr ⟨houter, hsd⟩
  obtain ⟨hlt, hget⟩ := List.getElem?_eq_some_iff.mp hat
  have hsplit : txs.zip senders = (txs.zip senders).take index ++
      (outer, sender) :: (txs.zip senders).drop (index + 1) := by
    rw [← hget, List.getElem_cons_drop, List.take_append_drop]
  have htake : ((txs.zip senders).take index).length = index := by
    rw [List.length_take]
    omega
  rw [hsplit, replayFrom_append, htake, Nat.zero_add] at hrun
  obtain ⟨mid, hmid, hr⟩ := hrun
  obtain rfl := Except.ok.inj (hreac.symm.trans hmid)
  obtain ⟨after, hafter, hr⟩ := bind_ok hr
  obtain rfl := Except.ok.inj (hstep.symm.trans hafter)
  have hc : reached.sequence.decisions.length = index := by
    obtain ⟨decisions, hdeci, hlen⟩ := decisions_replayFrom hreac
    rw [hdeci, List.length_append, hlen, htake, hst]
    simp [ReconstructedSequence.empty]
  have hdeci : next.sequence.decisions
      = reached.sequence.decisions ++ [.dropped index reason] := by
    rw [hn]
    rfl
  constructor
  · obtain ⟨decisions, hall, -⟩ := decisions_replayFrom hr
    rw [hall, hdeci]
    simp [← hc]
  · intro later hlater hsame
    have hmem : sender ∈ next.sequence.failedSenders := by
      rw [hn]
      exact Finset.mem_insert_self sender _
    have hskip := skipped_of_failed hr hmem (later - (index + 1))
    have hb : later < senders.length := (List.getElem?_eq_some_iff.mp hsame).1
    have hzip : (txs.zip senders)[later]? = some (txs[later], sender) :=
      List.getElem?_zip_eq_some.mpr ⟨List.getElem?_eq_getElem (by omega), hsame⟩
    have hsum : index + 1 + (later - (index + 1)) = later := by omega
    rw [List.getElem?_drop, hsum, hzip, hdeci, List.length_append, hc,
      List.length_singleton, hsum] at hskip
    exact hskip rfl

/-- When the inner transaction of an Envelope was admitted and its execution fails, the Envelope is
neither executed nor included, and all later transactions of its sender are dropped. -/
theorem failed_decryption_drops_sender [Cipher] [TipPrices] {antiMev : AntiMevProposal}
    {contributions : List (UInt32 × DbftPreCommit)} {dkgState : DkgState} {threshold : Nat}
    {preBlock : AntiMevPreBlock} {strict : Bool} {resolved : List AntiMevEnvelopeResolution}
    (hresolved : antiMev.decryptAndValidateWithMode contributions dkgState threshold preBlock strict
      = .ok resolved)
    {indexed : FiniteMap Nat AntiMevEnvelopeResolution}
    (hindexed : indexResolutions antiMev resolved = .ok indexed)
    {admission : StaticPoolAdmission} {execute : Execute σ} {start : σ} {result : Replay σ}
    (hrun : executeSequence preBlock.transactions preBlock.senders
      (antiMev.envelopes.map AntiMevEnvelope.transactionIndex) admission indexed execute start
      = .ok result)
    {index : Nat} {outer : Transaction} {sender : Address}
    (houter : preBlock.transactions[index]? = some outer)
    (hsender : preBlock.senders[index]? = some sender)
    {reached taken : Replay σ}
    (hreached : replayFrom execute (antiMev.envelopes.map AntiMevEnvelope.transactionIndex) 0
      ((preBlock.transactions.zip preBlock.senders).take index)
      ⟨.empty, 0, admission, indexed, start⟩ = .ok reached)
    (hfresh : sender ∉ reached.sequence.failedSenders)
    {position : Nat} {transaction : Transaction}
    (htaken : reached.takeResolution (antiMev.envelopes.map AntiMevEnvelope.transactionIndex) index
      = (some (.decrypted position transaction), taken))
    {queued : StaticPoolAdmission}
    (hadmitted : reached.admission.add sender transaction = .ok (.ok queued))
    {error : String} {failed : σ}
    (hfailed : execute reached.execution transaction sender = (.error error, failed)) :
    ∃ rejection,
      replayTransaction execute (antiMev.envelopes.map AntiMevEnvelope.transactionIndex) reached
        index outer sender = .ok { taken with
          admission := queued
          execution := failed
          sequence := reached.sequence.drop sender index (.poolRejection rejection) } ∧
      result.sequence.decisions[index]? = some (.dropped index (.poolRejection rejection)) ∧
      ∀ later, index < later → preBlock.senders[later]? = some sender →
        result.sequence.decisions[later]? = some (.dropped later .priorSenderFailure) := by
  have haligned : preBlock.transactions.length = preBlock.senders.length := by
    obtain ⟨_, -, h⟩ := bind_ok hresolved
    obtain ⟨hlengths, -⟩ := require_bind h
    exact hlengths.1
  obtain ⟨hsequence, hexecution, hadmission, hfound, -⟩ := takeResolution_spec htaken
  obtain ⟨hnonce, htip⟩ := taken_decrypted hresolved hindexed houter
    (lookup_replayFrom hreached (hfound _ rfl))
  rw [← hadmission] at hadmitted
  rw [← hexecution] at hfailed
  obtain ⟨rejection, hdropped⟩ := includeDecrypted_of_failed index hadmitted hfailed hnonce htip
  rw [hsequence] at hdropped
  have hstep : replayTransaction execute
      (antiMev.envelopes.map AntiMevEnvelope.transactionIndex) reached index outer sender
      = .ok { taken with
          admission := queued
          execution := failed
          sequence := reached.sequence.drop sender index (.poolRejection rejection) } := by
    rw [replayTransaction, if_neg hfresh, htaken]
    exact hdropped
  exact ⟨rejection, hstep,
    dropped_of_step rfl haligned hrun houter hsender hreached hstep rfl⟩

end Resolved

/-! ## A transfer that fails -/

namespace PricedTransfers

scoped instance curve : Curve := ScalarCurve.curve

scoped instance cipher : Cipher := RawTransactions.cipher

scoped instance tipPrices : TipPrices := ⟨fun _ => rfl⟩

def envelope : AntiMevEnvelope :=
  ⟨0, .current, 1, 21000, .ofNat 32 100,
    TpkeCiphertext.encrypt (generator1 : G1) (generator1 : G1) 1, List.replicate 112 1⟩

def preBlock : AntiMevPreBlock :=
  ⟨[transfer 50, transfer 70], [sender, sender], [⟨21000⟩, ⟨42000⟩], 0⟩

def dkgState : DkgState :=
  ⟨⟨1, 1, 1⟩, ⟨1, .ofNat 128 2, compress1 (generator1 : G1)⟩, none⟩

def preCommit : DbftPreCommit := ⟨[envelope.encryptedKey.randomCommitment], [], []⟩

/-- Whether the Envelope at the first position is resolved to a transaction. -/
def opens (transaction : PlainChain.PlainTransaction) :
    Except AntiMevResolutionError (List AntiMevEnvelopeResolution) → Bool
  | .ok [.decrypted 0 opened] => decide (@Eq PlainChain.PlainTransaction opened transaction)
  | _ => false

def refuse : Execute Unit := fun _ _ _ => (.error "insufficient funds", ())

end PricedTransfers

section Example

open PricedTransfers

theorem resolved_transfer :
    AntiMevProposal.decryptAndValidateWithMode ⟨1, [envelope]⟩ [(1, preCommit)] dkgState 1 preBlock
      false = .ok [.decrypted 0 (transfer 100)] := by
  have hopens : opens (transfer 100) (AntiMevProposal.decryptAndValidateWithMode ⟨1, [envelope]⟩
      [(1, preCommit)] dkgState 1 preBlock false) = true := by
    decide +kernel
  generalize AntiMevProposal.decryptAndValidateWithMode ⟨1, [envelope]⟩ [(1, preCommit)] dkgState 1
    preBlock false = resolved at hopens ⊢
  unfold opens at hopens
  split at hopens
  · rw [of_decide_eq_true hopens]
  · cases hopens

/-- An Envelope whose transfer cannot be paid takes the later transfer with it. -/
theorem failed_decryption_drops_sender_transfer :
    ∃ result rejection,
      executeSequence preBlock.transactions preBlock.senders [0] pool
        (AList.insert 0 (.decrypted 0 (transfer 100)) ∅) refuse () = .ok result ∧
      result.sequence.decisions[0]? = some (.dropped 0 (.poolRejection rejection)) ∧
      result.sequence.decisions[1]? = some (.dropped 1 .priorSenderFailure) := by
  have hindexed : indexResolutions ⟨1, [envelope]⟩ [.decrypted 0 (transfer 100)]
      = .ok (AList.insert 0 (.decrypted 0 (transfer 100)) ∅) := rfl
  have hreached : replayFrom refuse [0] 0 ((preBlock.transactions.zip preBlock.senders).take 0)
      ⟨.empty, 0, pool, AList.insert 0 (.decrypted 0 (transfer 100)) ∅, ()⟩ = .ok _ := rfl
  have hadmitted : pool.add sender (transfer 100) = .ok (.ok _) := rfl
  obtain ⟨rejection, -, hdropped, hlater⟩ := failed_decryption_drops_sender resolved_transfer
    hindexed rfl rfl rfl hreached (Finset.notMem_empty _) rfl hadmitted rfl
  exact ⟨_, rejection, rfl, hdropped, hlater 1 (by decide) rfl⟩

end Example

end NeoX
