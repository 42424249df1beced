import NeoX.Library.Threads
import NeoX.Network.MessageCache
import NeoX.Network.Recovery

/-!
# Admission of consensus messages

The `dbft/0` service: messages of peers and of the local validator are verified, cached and
announced, while the canonical height and the validator set move. A call reads the
height and the set in several sections, and other calls may run in between.

Main results:

- `DbftProtocol.admitted_cacheMessage`: caching keeps the admission invariant.
- `DbftProtocol.keeps_handle`: every section of every call keeps it.
- `DbftProtocol.cache_admitted`: after every interleaving of calls, what is cached and
  what `get` returns is verified, is for the next height and is signed by the validator it
  names.
-/

namespace NeoX

open Except hiding ok error

/-- The identity of a peer. -/
abbrev PeerId := FixedBytes 64

/-- Largest message accepted from the wire. -/
def dbftMaxMessageSize : Nat := 4 * 1024 * 1024

/-- Violations of a `dbft/0` stream. -/
inductive DbftStreamViolation where
  | messageTooLarge (size : Nat)
  | invalidRlp (error : Rlp.Error)
  | invalidPayload (error : DbftPayloadError)
  | witness (violation : DbftProtocolViolation)
  | invalidHeight (current start last : UInt64)
  | inboundQueueSaturated
  | consensusInactive
  | invalidValidatorSet
  | disallowedSender (sender : Address)
  | validatorIndexOutOfBounds (index : UInt8) (validatorCount : Nat)
  | unauthorizedValidator (index : UInt8) (expected actual : Address)
  deriving DecidableEq

/-- The canonical height and, unless the node is syncing, the validators of the next block. -/
structure DbftAdmission where
  height : UInt64
  validators : Option (List Address)

/-- The shared state of the service, with the events it has handed to the consensus driver and
the hashes it has announced. -/
structure DbftProtocol where
  admission : DbftAdmission
  cache : DbftMessageCache
  events : List (PeerId × DbftMessage)
  announced : List B256

/-- A message for a height that was just finalized. -/
def isExactLateMessage (current messageEnd : UInt64) : Bool :=
  messageEnd = current

/-- A message for the height behind the canonical one; the last height has none. -/
def isNextHeightMessage (current messageEnd : UInt64) : Bool :=
  current.toNat + 1 = messageEnd.toNat

namespace DbftProtocol

variable [Crypto]

/-! ## Checks -/

/-- The service at a height, before a validator set is known. -/
def new (height : UInt64) : DbftProtocol :=
  ⟨⟨height, none⟩, {}, [], []⟩

/-- Check the size and the witness of a message. -/
def validateMessage (message : DbftMessage) : Except DbftStreamViolation B256 := do
  require (message.length ≤ dbftMaxMessageSize) (.messageTooLarge message.length)
  message.verifyWitness.mapError .witness

/-- Check the validity range of a message. -/
def validateHeight (current : UInt64) (message : DbftMessage) : Except DbftStreamViolation Unit :=
  require (message.validBlockStart ≤ current ∧ current ≤ message.validBlockEnd)
    (.invalidHeight current message.validBlockStart message.validBlockEnd)

def validatePayload (data : DbftConsensusData) : Except DbftStreamViolation Unit := do
  let _ ← data.decodedPayload.mapError .invalidPayload
  .ok ()

/-- Check that the sender is the validator at the declared index. -/
def validateSenderAgainst (validators : List Address) (message : DbftMessage)
    (data : DbftConsensusData) : Except DbftStreamViolation Unit := do
  let expected ← ofOption
    (.validatorIndexOutOfBounds data.validatorIndex validators.length)
    validators[data.validatorIndex.toNat]?
  require (expected = message.sender)
    (.unauthorizedValidator data.validatorIndex expected message.sender)

/-- Check the validity range and that the sender is a validator; the result is the height. -/
def validateSender (protocol : DbftProtocol) (message : DbftMessage) :
    Except DbftStreamViolation UInt64 := do
  validateHeight protocol.admission.height message
  let validators ← ofOption .consensusInactive protocol.admission.validators
  require (message.sender ∈ validators) (.disallowedSender message.sender)
  .ok protocol.admission.height

/-- Check the declared index against the current validators. -/
def validateValidatorIndex (protocol : DbftProtocol) (message : DbftMessage)
    (data : DbftConsensusData) : Except DbftStreamViolation Unit := do
  let validators ← ofOption .consensusInactive protocol.admission.validators
  validateSenderAgainst validators message data

/-! ## Sections -/

/-- Whether a message stays cached at a height with these validators. -/
def retainsMessage (height : UInt64) (validators : Option (List Address))
    (message : DbftMessage) : Bool :=
  isNextHeightMessage height message.validBlockEnd &&
    match validators with
    | none => true
    | some validators =>
      match message.consensusData with
      | .error _ => false
      | .ok data => validators[data.validatorIndex.toNat]? = some message.sender

/-- Drop cached messages of other heights and of other validators. -/
def purgeCachedMessages (protocol : DbftProtocol) (height : UInt64)
    (validators : Option (List Address)) : DbftProtocol :=
  { protocol with cache := protocol.cache.retain (retainsMessage height validators) }

def updateHeight (protocol : DbftProtocol) (height : UInt64) : DbftProtocol :=
  { protocol with admission := { protocol.admission with height := height } }.purgeCachedMessages
    height protocol.admission.validators

/-- Move to a height with its validators. -/
def activate (protocol : DbftProtocol) (height : UInt64) (validators : List Address) :
    Except DbftStreamViolation Unit × DbftProtocol :=
  if validators = [] then
    (.error .invalidValidatorSet, protocol)
  else
    let validators := sortAddresses validators
    if adjacentDuplicate validators ≠ none then
      (.error .invalidValidatorSet, protocol)
    else
      let protocol := protocol.purgeCachedMessages height (some validators)
      (.ok (), { protocol with admission := ⟨height, some validators⟩ })

def deactivate (protocol : DbftProtocol) : DbftProtocol :=
  { protocol with admission := { protocol.admission with validators := none }, cache := {} }

/-- The cached message of a hash, checked again. -/
def get (protocol : DbftProtocol) (hash : B256) : Option DbftMessage := do
  let validators ← protocol.admission.validators
  let message ← protocol.cache.get hash
  if ¬ isNextHeightMessage protocol.admission.height message.validBlockEnd ∨
      validateHeight protocol.admission.height message ≠ .ok () then
    none
  else do
    let data ← message.consensusData.toOption
    (validateSenderAgainst validators message data).toOption
    some message

/-- Check a message against the current height and validators and cache it, in one section. -/
def cacheMessage (protocol : DbftProtocol) (hash : B256) (message : DbftMessage)
    (data : DbftConsensusData) : Except DbftStreamViolation CacheMessageOutcome × DbftProtocol :=
  let checked : Except DbftStreamViolation Unit := do
    validateHeight protocol.admission.height message
    let validators ← ofOption .consensusInactive protocol.admission.validators
    validateSenderAgainst validators message data
  match checked with
  | .error violation => (.error violation, protocol)
  | .ok () =>
    if ¬ isNextHeightMessage protocol.admission.height message.validBlockEnd then
      (.ok (.outsideActiveRound protocol.admission.height), protocol)
    else
      match protocol.cache.insert hash message with
      | (.error size, cache) => (.error (.messageTooLarge size), { protocol with cache := cache })
      | (.ok outcome, cache) => (.ok outcome, { protocol with cache := cache })

def announce (hash : B256) (protocol : DbftProtocol) : Unit × DbftProtocol :=
  ((), { protocol with announced := protocol.announced ++ [hash] })

/-- Hand a message to the consensus driver. -/
def sendEvent (peer : PeerId) (message : DbftMessage) (protocol : DbftProtocol) :
    Unit × DbftProtocol :=
  ((), { protocol with events := protocol.events ++ [(peer, message)] })

/-! ## Calls -/

/-- Cache a verified message of the local validator and announce it. -/
def publishVerified (hash : B256) (message : DbftMessage) (data : DbftConsensusData) :
    Thread DbftProtocol (Except DbftStreamViolation Bool) := do
  match ← Thread.access (·.cacheMessage hash message data) with
  | .error violation => pure (.error violation)
  | .ok .inserted => do
      Thread.access (announce hash)
      pure (.ok true)
  | .ok .duplicate => pure (.ok false)
  | .ok (.outsideActiveRound current) =>
    pure (.error (.invalidHeight current message.validBlockStart message.validBlockEnd))

/-- Publish a message of the local validator. -/
def publish (message : DbftMessage) : Thread DbftProtocol (Except DbftStreamViolation Bool) :=
  match validateMessage message with
  | .error violation => pure (.error violation)
  | .ok hash => do
      match ← Thread.read (·.validateSender message) with
      | .error violation => pure (.error violation)
      | .ok _ =>
        match message.consensusData with
        | .error error => pure (.error (.invalidRlp error))
        | .ok data => do
            match ← Thread.read (·.validateValidatorIndex message data) with
            | .error violation => pure (.error violation)
            | .ok () =>
              match validatePayload data with
              | .error violation => pure (.error violation)
              | .ok () => publishVerified hash message data

/-- Cache an authenticated message of a peer and deliver it, also when it was cached before. Whether
the event queue has room for it is told from outside. -/
def deliverInbound (peer : PeerId) (room : Bool) (hash : B256) (message : DbftMessage)
    (data : DbftConsensusData) : Thread DbftProtocol (Except DbftStreamViolation Unit) :=
  if room = false then
    pure (.error .inboundQueueSaturated)
  else do
    match ← Thread.access (·.cacheMessage hash message data) with
    | .error (.messageTooLarge size) => pure (.error (.messageTooLarge size))
    -- Admission changed after the checks of the caller, or the round moved on.
    | .error _ | .ok (.outsideActiveRound _) => pure (.ok ())
    | .ok .inserted => do
        Thread.access (sendEvent peer message)
        Thread.access (announce hash)
        pure (.ok ())
    | .ok .duplicate => do
        Thread.access (sendEvent peer message)
        pure (.ok ())

/-- Decode a message of a validator. A payload that is malformed or names another index is dropped
without a violation. -/
def decodeInbound (peer : PeerId) (room : Bool) (hash : B256) (message : DbftMessage)
    (current : UInt64) : Thread DbftProtocol (Except DbftStreamViolation Unit) :=
  match message.consensusData with
  | .error _ => pure (.ok ())
  | .ok data => do
      match ← Thread.read (·.validateValidatorIndex message data) with
      | .error _ => pure (.ok ())
      | .ok () =>
        match validatePayload data with
        | .error _ => pure (.ok ())
        | .ok () =>
          if isNextHeightMessage current message.validBlockEnd then
            deliverInbound peer room hash message data
          else
            pure (.ok ())

def handleInboundMessage (peer : PeerId) (room : Bool) (message : DbftMessage) :
    Thread DbftProtocol (Except DbftStreamViolation Unit) :=
  match validateMessage message with
  | .error violation => pure (.error violation)
  | .ok hash => do
      let head ← Thread.read fun protocol => protocol.admission.height
      if isExactLateMessage head message.validBlockEnd then
        pure (.ok ())
      else do
        match ← Thread.read (·.validateSender message) with
        | .error .consensusInactive => pure (.ok ())
        | .error violation => pure (.error violation)
        | .ok current =>
          if isExactLateMessage current message.validBlockEnd then
            pure (.ok ())
          else
            decodeInbound peer room hash message current

/-- Whether an announced hash is asked for. -/
def handleAnnouncement (hash : B256) : Thread DbftProtocol Bool :=
  Thread.read fun protocol => ¬ protocol.cache.contains hash

inductive Request where
  | activate (height : UInt64) (validators : List Address)
  | updateHeight (height : UInt64)
  | deactivate
  | get (hash : B256)
  | publish (message : DbftMessage)
  | message (peer : PeerId) (room : Bool) (message : DbftMessage)
  | announcement (hash : B256)

/-- What a call returns. -/
inductive Reply where
  | done (result : Except DbftStreamViolation Unit)
  | published (result : Except DbftStreamViolation Bool)
  | found (message : Option DbftMessage)
  | wanted (ask : Bool)

def handle : Request → Thread DbftProtocol Reply
  | .activate height validators => do
      pure (.done (← Thread.access (·.activate height validators)))
  | .updateHeight height => do
      Thread.access fun protocol => ((), protocol.updateHeight height)
      pure (.done (.ok ()))
  | .deactivate => do
      Thread.access fun protocol => ((), protocol.deactivate)
      pure (.done (.ok ()))
  | .get hash => do pure (.found (← Thread.read (·.get hash)))
  | .publish message => do pure (.published (← publish message))
  | .message peer room message => do pure (.done (← handleInboundMessage peer room message))
  | .announcement hash => do pure (.wanted (← handleAnnouncement hash))

/-! ## The admission invariant -/

/-- A message that a service may hold: its witness is valid, it is for the next height, and
its sender is the validator at the declared index of the active set. -/
structure Admitted (admission : DbftAdmission) (hash : B256) (message : DbftMessage) : Prop where
  witness : message.verifyWitness = .ok hash
  next : admission.height.toNat + 1 = message.validBlockEnd.toNat
  sender : ∀ validators, admission.validators = some validators →
    ∃ data, message.consensusData = .ok data ∧
      validators[data.validatorIndex.toNat]? = some message.sender

/-- Everything that is cached may be held. -/
def CacheAdmitted (protocol : DbftProtocol) : Prop :=
  ∀ hash cached, protocol.cache.messages.lookup hash = some cached →
    Admitted protocol.admission hash cached.message

variable {hash : B256} {message : DbftMessage}

theorem validateMessage_eq_ok
    (h : validateMessage message = .ok hash) : message.verifyWitness = .ok hash := by
  obtain ⟨_, h⟩ := of_bind h
  exact mapError_eq_ok.mp h

variable {data : DbftConsensusData}

omit [Crypto] in
theorem validateSenderAgainst_eq_ok {vals : List Address}
    (h : validateSenderAgainst vals message data = .ok ()) :
    vals[data.validatorIndex.toNat]? = some message.sender := by
  obtain ⟨expected, hexpected, h⟩ := ofOption_bind h
  rw [← require_eq_ok.mp h]
  exact hexpected

variable {protocol : DbftProtocol}

/-- A purge for a height and a set leaves what may be held under them. -/
theorem admitted_purge (h : protocol.CacheAdmitted) (height : UInt64) (vals : Option (List Address))
    {cached : CachedDbftMessage}
    (hget : (protocol.purgeCachedMessages height vals).cache.messages.lookup hash
      = some cached) : Admitted ⟨height, vals⟩ hash cached.message := by
  rcases DbftMessageCache.lookup_retain hget with ⟨hf, hkeep⟩
  rcases Bool.and_eq_true_iff.mp hkeep with ⟨hn, hsd⟩
  refine ⟨(h hash cached hf).witness, of_decide_eq_true hn, ?_⟩
  rintro found rfl
  dsimp only at hsd
  cases hd : cached.message.consensusData with
  | error error =>
    rw [hd] at hsd
    cases hsd
  | ok data =>
    rw [hd] at hsd
    exact ⟨data, rfl, of_decide_eq_true hsd⟩

theorem admitted_updateHeight (h : protocol.CacheAdmitted) (height : UInt64) :
    (protocol.updateHeight height).CacheAdmitted := by
  intro hash cached hget
  exact admitted_purge h height protocol.admission.validators hget

theorem admitted_activate (h : protocol.CacheAdmitted) (height : UInt64) (vals : List Address) :
    (protocol.activate height vals).2.CacheAdmitted := by
  unfold activate
  split
  · exact h
  · dsimp only
    split
    · exact h
    · exact fun _ _ hget => admitted_purge h height _ hget

theorem admitted_deactivate (protocol : DbftProtocol) : protocol.deactivate.CacheAdmitted := by
  intro hash cached hget
  cases hget

/-- A section that caches a message with a verified witness keeps the invariant: it checks the
message against the height and the set of the same section. -/
theorem admitted_cacheMessage (h : protocol.CacheAdmitted)
    (hwitn : message.verifyWitness = .ok hash) (hd : message.consensusData = .ok data) :
    (protocol.cacheMessage hash message data).2.CacheAdmitted := by
  unfold cacheMessage
  dsimp only
  split
  · exact h
  · rename_i hchk
    obtain ⟨_, hchk⟩ := of_bind hchk
    obtain ⟨vals, hvals, hsd⟩ := ofOption_bind hchk
    split
    · exact h
    · rename_i hn
      have hadmi : Admitted protocol.admission hash message := by
        refine ⟨hwitn, of_decide_eq_true (not_not.mp hn), ?_⟩
        intro found hf
        rw [hvals] at hf
        cases hf
        exact ⟨data, hd, validateSenderAgainst_eq_ok hsd⟩
      have hinsert : ∀ o cached,
          (protocol.cache.insert hash message).2.messages.lookup o = some cached →
          Admitted protocol.admission o cached.message := by
        intro o cached hget
        rcases DbftMessageCache.lookup_insert hget with hold | ⟨rfl, hnew⟩
        · exact h o cached hold
        · rw [hnew]
          exact hadmi
      split
      · rename_i hcache
        exact fun o cached hget => hinsert o cached (by rw [hcache]; exact hget)
      · rename_i hcache
        exact fun o cached hget => hinsert o cached (by rw [hcache]; exact hget)

/-! ## Interleavings -/

section Interleavings

open Thread

variable {message : DbftMessage} {data : DbftConsensusData}

theorem keeps_cacheMessage (hwitn : message.verifyWitness = .ok hash)
    (hd : message.consensusData = .ok data) :
    (Thread.access fun protocol => protocol.cacheMessage hash message data).Keeps CacheAdmitted :=
  keeps_access fun _ h => admitted_cacheMessage h hwitn hd

theorem keeps_announce (hash : B256) : (Thread.access (announce hash)).Keeps CacheAdmitted :=
  keeps_access fun _ h => h

theorem keeps_sendEvent (peer : PeerId) (message : DbftMessage) :
    (Thread.access (sendEvent peer message)).Keeps CacheAdmitted :=
  keeps_access fun _ h => h

theorem keeps_publishVerified (hwitn : message.verifyWitness = .ok hash)
    (hd : message.consensusData = .ok data) :
    (publishVerified hash message data).Keeps CacheAdmitted := by
  refine (keeps_cacheMessage hwitn hd).bind fun out => ?_
  split
  · exact keeps_pure _
  · exact (keeps_announce hash).bind fun _ => keeps_pure _
  · exact keeps_pure _
  · exact keeps_pure _

theorem keeps_publish (message : DbftMessage) : (publish message).Keeps CacheAdmitted := by
  unfold publish
  split
  · exact keeps_pure _
  · rename_i hash ha
    refine (keeps_read _).bind fun sender => ?_
    split
    · exact keeps_pure _
    · split
      · exact keeps_pure _
      · rename_i data hd
        refine (keeps_read _).bind fun i => ?_
        split
        · exact keeps_pure _
        · split
          · exact keeps_pure _
          · exact keeps_publishVerified (validateMessage_eq_ok ha) hd

theorem keeps_deliverInbound (peer : PeerId) (room : Bool)
    (hwitn : message.verifyWitness = .ok hash) (hd : message.consensusData = .ok data) :
    (deliverInbound peer room hash message data).Keeps CacheAdmitted := by
  unfold deliverInbound
  split
  · exact keeps_pure _
  · refine (keeps_cacheMessage hwitn hd).bind fun out => ?_
    split
    · exact keeps_pure _
    · exact keeps_pure _
    · exact keeps_pure _
    · exact (keeps_sendEvent peer message).bind fun _ =>
        (keeps_announce hash).bind fun _ => keeps_pure _
    · exact (keeps_sendEvent peer message).bind fun _ => keeps_pure _

theorem keeps_decodeInbound (peer : PeerId) (room : Bool) (hwitn : message.verifyWitness = .ok hash)
    (cur : UInt64) :
    (decodeInbound peer room hash message cur).Keeps CacheAdmitted := by
  unfold decodeInbound
  split
  · exact keeps_pure _
  · rename_i data hd
    refine (keeps_read _).bind fun i => ?_
    split
    · exact keeps_pure _
    · split
      · exact keeps_pure _
      · split
        · exact keeps_deliverInbound peer room hwitn hd
        · exact keeps_pure _

theorem keeps_handleInboundMessage (peer : PeerId) (room : Bool) (message : DbftMessage) :
    (handleInboundMessage peer room message).Keeps CacheAdmitted := by
  unfold handleInboundMessage
  split
  · exact keeps_pure _
  · rename_i hash ha
    refine (keeps_read _).bind fun head => ?_
    split
    · exact keeps_pure _
    · refine (keeps_read _).bind fun sender => ?_
      split
      · exact keeps_pure _
      · exact keeps_pure _
      · split
        · exact keeps_pure _
        · exact keeps_decodeInbound peer room (validateMessage_eq_ok ha) _

theorem keeps_handle (req : Request) : (handle req).Keeps CacheAdmitted := by
  unfold handle
  cases req with
  | activate height vals =>
    exact (keeps_access fun _ h => admitted_activate h height vals).bind
      fun _ => keeps_pure _
  | updateHeight height =>
    exact (keeps_access fun _ h => admitted_updateHeight h height).bind fun _ => keeps_pure _
  | deactivate =>
    exact (keeps_access fun protocol _ => admitted_deactivate protocol).bind fun _ => keeps_pure _
  | get hash => exact (keeps_read _).bind fun _ => keeps_pure _
  | publish message =>
    exact Keeps.bind (keeps_publish message) fun _ => keeps_pure _
  | message peer room message =>
    exact Keeps.bind (keeps_handleInboundMessage peer room message) fun _ => keeps_pure _
  | announcement hash => exact (keeps_read _).bind fun _ => keeps_pure _

omit [Crypto] in
theorem cached_of_get {protocol : DbftProtocol} (h : protocol.get hash = some message) :
    protocol.admission.validators ≠ none ∧
      ∃ cached, protocol.cache.messages.lookup hash = some cached ∧ cached.message = message := by
  rcases Option.bind_eq_some_iff.mp h with ⟨vals, hvals, h⟩
  rcases Option.bind_eq_some_iff.mp h with ⟨found, hf, h⟩
  refine ⟨hvals ▸ Option.some_ne_none vals, ?_⟩
  split at h
  · cases h
  · rcases Option.bind_eq_some_iff.mp h with ⟨data, -, h⟩
    rcases Option.bind_eq_some_iff.mp h with ⟨_, -, h⟩
    cases h
    exact Option.map_eq_some_iff.mp hf

/-- After every interleaving of calls from any peers and from the local validator, every cached
message, and every message that is returned for a hash, has a valid witness with that hash, is for
the next height, and is signed by the validator it names in the active set. -/
theorem cache_admitted (height : UInt64) (events : List (Pool.Event Request)) :
    let protocol := (Machine.run (Pool.step handle) ⟨new height, []⟩ events).shared
    (∀ hash cached, protocol.cache.messages.lookup hash = some cached →
      Admitted protocol.admission hash cached.message) ∧
    ∀ hash message, protocol.get hash = some message →
      Admitted protocol.admission hash message := by
  have hnew : (new height).CacheAdmitted := admitted_deactivate (new height)
  have hcache := Pool.invariant_run keeps_handle hnew events
  refine ⟨hcache, ?_⟩
  intro hash message hget
  rcases cached_of_get hget with ⟨-, cached, hlookup, rfl⟩
  exact hcache hash cached hlookup

end Interleavings

end DbftProtocol
end NeoX
