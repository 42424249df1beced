import NeoX.Library.Rlp

/-!
# Codecs built from smaller ones

A codec writes a value and reads one value off the front of its input. The
combinators below are those of derived record formats: integers, strings and
fixed-size strings, a pair written one after the other, a list header around a
value, a list of values, and a change of representation.

Main results:

- `Codec.Canonical.pair`, `.wrap`, `.equiv`:
  combinators keep the property that only the encoder's output is accepted.
- `Codec.RoundTrips.pair`, `.wrap`, `.listOf`, `.equiv`:
  combinators keep the round trip.
- `Codec.Faithful.pair`, `.wrap`, `.listOf`, `.equiv`:
  combinators keep the round trip of everything that fits the format.
-/

namespace Rlp

open List
open Except hiding ok error

open BigEndian

/-- An encoder together with a decoder that returns the rest of its input. -/
structure Codec (α : Type) where
  encode : α → Bytes
  decode : Bytes → Except Error (α × Bytes)

namespace Codec

variable {α β : Type}

/-- The value is read back from its encoding, whatever follows it. -/
def RoundTrips (codec : Codec α) (value : α) : Prop :=
  ∀ rest, codec.decode (codec.encode value ++ rest) = .ok (value, rest)

/-- Only encoder output is accepted. -/
def Canonical (codec : Codec α) : Prop :=
  ∀ bytes value rest, codec.decode bytes = .ok (value, rest) → bytes = codec.encode value ++ rest

/-- Decode a value that must use up the whole input. -/
def decodeExact (codec : Codec α) (bytes : Bytes) : Except Error α := do
  let (value, rest) ← codec.decode bytes
  if rest = [] then .ok value else .error .unexpectedLength

variable {codec : Codec α} {value : α}

theorem RoundTrips.decodeExact (h : codec.RoundTrips value) :
    codec.decodeExact (codec.encode value) = .ok value := by
  have hdec := h []
  rw [append_nil] at hdec
  simp [Codec.decodeExact, hdec]

/-- Values that are read back are told apart by their encodings, whatever follows them. -/
theorem RoundTrips.append_inj {first second : α} (h1 : codec.RoundTrips first)
    (h2 : codec.RoundTrips second) {firstRest secondRest : Bytes}
    (heq : codec.encode first ++ firstRest = codec.encode second ++ secondRest) :
    first = second ∧ firstRest = secondRest := by
  have hdec := h1 firstRest
  rw [heq, h2 secondRest] at hdec
  cases hdec
  exact ⟨rfl, rfl⟩

theorem decodeExact_eq_ok {bytes : Bytes} :
    codec.decodeExact bytes = .ok value ↔ codec.decode bytes = .ok (value, []) := by
  constructor
  · intro h
    obtain ⟨⟨found, rest⟩, hdec, hr⟩ := bind_ok h
    simp only at hr
    split at hr
    · rename_i hnil
      cases hr
      rw [hdec, hnil]
    · cases hr
  · intro h
    simp [Codec.decodeExact, h]

theorem Canonical.of_decodeExact (hcodec : codec.Canonical) {bytes : Bytes}
    (h : codec.decodeExact bytes = .ok value) : bytes = codec.encode value := by
  simpa using hcodec _ _ _ (decodeExact_eq_ok.mp h)

/-! ## Strings and integers -/

def bytes : Codec Bytes where
  encode := encodeString
  decode := decodePayload false

theorem bytes_canonical : bytes.Canonical := by
  intro input value rest h
  exact (decodePayload_eq_ok h).1

theorem bytes_roundTrips {value : Bytes} (hfits : value.length < 2 ^ 64) :
    bytes.RoundTrips value := by
  intro rest
  exact @decodePayload_encodePayload false value hfits rest

def fixed (size : Nat) : Codec (FixedBytes size) where
  encode string := encodeString string.bytes
  decode input := do
    let (payload, rest) ← decodePayload false input
    let string ← ofOption .unexpectedLength (FixedBytes.ofBytes? size payload)
    .ok (string, rest)

theorem fixed_canonical (size : Nat) : (fixed size).Canonical := by
  intro input value rest h
  obtain ⟨⟨p, tail⟩, hp, h⟩ := bind_ok h
  obtain ⟨string, hstring, h⟩ := bind_ok h
  cases h
  rw [ofOption_eq_ok, FixedBytes.ofBytes?_eq_some] at hstring
  rw [(decodePayload_eq_ok hp).1, hstring]
  rfl

theorem fixed_roundTrips {size : Nat} (hsize : size < 2 ^ 64) (value : FixedBytes size) :
    (fixed size).RoundTrips value := by
  intro rest
  have hfits : value.bytes.length < 2 ^ 64 := by rw [value.length_eq]; exact hsize
  have hp : decodePayload false (encodeString value.bytes ++ rest) = .ok (value.bytes, rest) :=
    decodePayload_encodePayload hfits rest
  simp [fixed, hp, Except.ofOption]

/-- Read an integer of at most `width` bytes without leading zeros. -/
def decodeNat (width : Nat) (input : Bytes) : Except Error (Nat × Bytes) := do
  let (payload, rest) ← decodePayload false input
  if width < payload.length then
    .error .overflow
  else if payload.head? = some 0 then
    .error .leadingZero
  else
    .ok (ofBytes payload, rest)

variable {width : Nat}

theorem decodeNat_encode {value : Nat} (hwidth : width < 2 ^ 64) (hv : value < 256 ^ width)
    (rest : Bytes) :
    decodeNat width (encodeString (toMinimal width value) ++ rest) = .ok (value, rest) := by
  have hlen := length_toMinimal_le width value
  have hp : decodePayload false (encodeString (toMinimal width value) ++ rest)
      = .ok (toMinimal width value, rest) :=
    decodePayload_encodePayload (by omega) rest
  rw [decodeNat, hp, ok_bind]
  simp only
  rw [if_neg (by omega), if_neg (noLeadingZero_toMinimal width value), ofBytes_toMinimal hv]

theorem decodeNat_eq_ok {value : Nat} {input rest : Bytes}
    (h : decodeNat width input = .ok (value, rest)) :
    input = encodeString (toMinimal width value) ++ rest ∧ value < 256 ^ width := by
  obtain ⟨⟨p, tail⟩, hp, h⟩ := bind_ok h
  simp only at h
  split at h
  · cases h
  rename_i hlen
  split at h
  · cases h
  rename_i hlead
  cases h
  rw [toMinimal_ofBytes (not_lt.mp hlen) hlead]
  refine ⟨(decodePayload_eq_ok hp).1, ?_⟩
  calc ofBytes p < 256 ^ p.length := ofBytes_lt p
    _ ≤ 256 ^ width := Nat.pow_le_pow_right (by decide) (not_lt.mp hlen)

/-- Integers of type `α`, given by their values below `256 ^ width`. -/
def uint (width : Nat) (value : α → Nat) (ofValue : Nat → α) : Codec α where
  encode number := encodeString (toMinimal width (value number))
  decode input := do
    let (number, rest) ← decodeNat width input
    .ok (ofValue number, rest)

variable {ofValue : Nat → α}

theorem uint_canonical {value : α → Nat}
    (hv : ∀ number < 256 ^ width, value (ofValue number) = number) :
    (uint width value ofValue).Canonical := by
  intro input found rest h
  obtain ⟨⟨number, tail⟩, hnum, h⟩ := bind_ok h
  cases h
  obtain ⟨hinput, hb⟩ := decodeNat_eq_ok hnum
  simp only [uint, hv number hb]
  exact hinput

theorem uint_roundTrips {value : α → Nat} {number : α} (hwidth : width < 2 ^ 64)
    (hb : value number < 256 ^ width) (hnum : ofValue (value number) = number) :
    (uint width value ofValue).RoundTrips number := by
  intro rest
  simp [uint, decodeNat_encode hwidth hb, hnum]

def u8 : Codec UInt8 := uint 1 UInt8.toNat UInt8.ofNat

def u64 : Codec UInt64 := uint 8 UInt64.toNat UInt64.ofNat

theorem u8_canonical : u8.Canonical := by
  apply uint_canonical
  intro number hnum
  rw [UInt8.toNat_ofNat']
  omega

theorem u8_roundTrips (number : UInt8) : u8.RoundTrips number :=
  uint_roundTrips (by decide) (by simpa using number.toNat_lt) UInt8.ofNat_toNat

theorem u64_canonical : u64.Canonical := by
  apply uint_canonical
  intro number hnum
  rw [UInt64.toNat_ofNat']
  omega

theorem u64_roundTrips (number : UInt64) : u64.RoundTrips number :=
  uint_roundTrips (by decide) (by simpa using number.toNat_lt) UInt64.ofNat_toNat

/-! ## Records and lists -/

def pair (first : Codec α) (second : Codec β) : Codec (α × β) where
  encode values := first.encode values.1 ++ second.encode values.2
  decode input := do
    let (left, input) ← first.decode input
    let (right, rest) ← second.decode input
    .ok ((left, right), rest)

variable {first : Codec α} {second : Codec β}

theorem Canonical.pair (h1 : first.Canonical) (h2 : second.Canonical) :
    (first.pair second).Canonical := by
  intro input values rest h
  obtain ⟨⟨left, middle⟩, hleft, h⟩ := bind_ok h
  obtain ⟨⟨right, tail⟩, hright, h⟩ := bind_ok h
  cases h
  rw [h1 _ _ _ hleft, h2 _ _ _ hright]
  simp [Codec.pair]

/-- The second value of a pair is decoded from what the first leaves. -/
theorem decode_snd_of_pair {input rest : Bytes} {values : α × β}
    (h : (first.pair second).decode input = .ok (values, rest)) :
    ∃ middle, second.decode middle = .ok (values.2, rest) := by
  rcases bind_ok h with ⟨⟨left, middle⟩, -, h⟩
  rcases bind_ok h with ⟨⟨right, tail⟩, hright, h⟩
  cases h
  exact ⟨middle, hright⟩

theorem RoundTrips.pair {values : α × β} (h1 : first.RoundTrips values.1)
    (h2 : second.RoundTrips values.2) : (first.pair second).RoundTrips values := by
  intro rest
  have hleft := h1 (second.encode values.2 ++ rest)
  have hright := h2 rest
  simp [Codec.pair, append_assoc, hleft, hright]

/-- A value inside a list header. -/
def wrap (codec : Codec α) : Codec α where
  encode value := encodeList (codec.encode value)
  decode input := do
    let (payload, rest) ← decodePayload true input
    let (value, left) ← codec.decode payload
    if left = [] then
      .ok (value, rest)
    else
      .error (.listLengthMismatch payload.length (payload.length - left.length))

theorem Canonical.wrap (hcodec : codec.Canonical) : codec.wrap.Canonical := by
  intro input value rest h
  obtain ⟨⟨p, tail⟩, hp, h⟩ := bind_ok h
  obtain ⟨⟨found, left⟩, hf, h⟩ := bind_ok h
  simp only at h
  split at h
  · rename_i hleft
    cases h
    subst hleft
    have hcont := hcodec _ _ _ hf
    rw [append_nil] at hcont
    rw [(decodePayload_eq_ok hp).1, hcont]
    rfl
  · cases h

theorem decode_of_wrap {input rest : Bytes} (h : codec.wrap.decode input = .ok (value, rest)) :
    ∃ p, codec.decode p = .ok (value, []) := by
  rcases bind_ok h with ⟨⟨p, tail⟩, -, h⟩
  rcases bind_ok h with ⟨⟨found, left⟩, hf, h⟩
  simp only at h
  split at h
  · rename_i hleft
    cases h
    exact ⟨p, hleft ▸ hf⟩
  · cases h

theorem RoundTrips.wrap (hcodec : codec.RoundTrips value)
    (hfits : (codec.encode value).length < 2 ^ 64) : codec.wrap.RoundTrips value := by
  intro rest
  have hp : decodePayload true (encodeList (codec.encode value) ++ rest)
      = .ok (codec.encode value, rest) :=
    decodePayload_encodePayload hfits rest
  have hv := hcodec []
  rw [append_nil] at hv
  simp [Codec.wrap, hp, hv]

/-- The same format for another representation of the values. -/
def equiv (codec : Codec α) (e : α ≃ β) : Codec β where
  encode value := codec.encode (e.symm value)
  decode input := do
    let (value, rest) ← codec.decode input
    .ok (e value, rest)

theorem Canonical.equiv (hcodec : codec.Canonical) (e : α ≃ β) : (codec.equiv e).Canonical := by
  intro input value rest h
  obtain ⟨⟨found, tail⟩, hf, h⟩ := bind_ok h
  cases h
  rw [hcodec _ _ _ hf]
  simp [Codec.equiv]

theorem RoundTrips.equiv {e : α ≃ β} {value : β} (hcodec : codec.RoundTrips (e.symm value)) :
    (codec.equiv e).RoundTrips value := by
  intro rest
  simp [Codec.equiv, hcodec rest]

/-- Read values until the input is used up, at most `limit` of them. The first
argument bounds the number of rounds; every value takes at least one byte. -/
def decodeMany (codec : Codec α) (limit : Option Nat) (limitError : Error) :
    Nat → Bytes → Except Error (List α)
  | _, [] => .ok []
  | 0, _ :: _ => .error .inputTooShort
  | rounds + 1, first :: input =>
    if limit = some 0 then
      .error limitError
    else do
      let (value, rest) ← codec.decode (first :: input)
      let values ← decodeMany codec (limit.map (· - 1)) limitError rounds rest
      .ok (value :: values)

/-- A list of values of one kind, of at most `limit` entries when a limit is given. -/
def listOf (codec : Codec α) (limit : Option Nat) (limitError : Error) : Codec (List α) where
  encode values := encodeList (values.flatMap codec.encode)
  decode input := do
    let (payload, rest) ← decodePayload true input
    let values ← decodeMany codec limit limitError payload.length payload
    .ok (values, rest)

variable {values : List α} {limit : Option Nat} {limitError : Error}

theorem decodeMany_encode {rounds : Nat} (htrip : ∀ value ∈ values, codec.RoundTrips value)
    (hne : ∀ value ∈ values, codec.encode value ≠ [])
    (hlim : ∀ bound ∈ limit, values.length ≤ bound)
    (hrounds : (values.flatMap codec.encode).length ≤ rounds) :
    decodeMany codec limit limitError rounds (values.flatMap codec.encode) = .ok values := by
  induction values generalizing limit rounds with
  | nil => cases rounds <;> rfl
  | cons value values ih =>
    obtain ⟨first, input, hinput⟩ := exists_cons_of_ne_nil (hne value (by simp))
    rw [flatMap_cons, length_append] at hrounds
    rw [hinput, length_cons] at hrounds
    obtain ⟨rounds, rfl⟩ : ∃ left, rounds = left + 1 := ⟨rounds - 1, by omega⟩
    have hopen : limit ≠ some 0 := by
      rintro rfl
      simpa using hlim 0 rfl
    have hvalue := htrip value (by simp) (values.flatMap codec.encode)
    have hr := @ih (limit.map (· - 1)) rounds (fun v hv => htrip v (by simp [hv]))
      (fun v hv => hne v (by simp [hv]))
      (by
        intro bound hb
        obtain ⟨outer, houter, rfl⟩ := Option.mem_map.mp hb
        have := hlim outer houter
        simp only [length_cons] at this
        omega)
      (by omega)
    rw [hinput, cons_append] at hvalue
    rw [flatMap_cons, hinput, cons_append, decodeMany, if_neg hopen, hvalue]
    simp [hr]

theorem RoundTrips.listOf (htrip : ∀ value ∈ values, codec.RoundTrips value)
    (hne : ∀ value ∈ values, codec.encode value ≠ [])
    (hlim : ∀ bound ∈ limit, values.length ≤ bound)
    (hfits : (values.flatMap codec.encode).length < 2 ^ 64) :
    (codec.listOf limit limitError).RoundTrips values := by
  intro rest
  have hp : decodePayload true (encodeList (values.flatMap codec.encode) ++ rest)
      = .ok (values.flatMap codec.encode, rest) :=
    decodePayload_encodePayload hfits rest
  have hmany : decodeMany codec limit limitError (values.flatMap codec.encode).length
      (values.flatMap codec.encode) = .ok values :=
    decodeMany_encode htrip hne hlim le_rfl
  simp only [Codec.listOf, hp, ok_bind, hmany]

/-- One complete item, kept in its encoded form. -/
def rawItem : Codec Bytes where
  encode := id
  decode input := do
    let item ← decodeItem input
    .ok (input.take (input.length - item.rest.length), item.rest)

theorem rawItem_canonical : rawItem.Canonical := by
  intro input value rest h
  obtain ⟨item, hitem, h⟩ := bind_ok h
  cases h
  have hinput := (decodeItem_eq_ok hitem).1
  conv_lhs => rw [hinput]
  conv_rhs => rw [hinput]
  simp [rawItem]

theorem rawItem_roundTrips {list : Bool} {p : Bytes} (hfits : p.length < 2 ^ 64) :
    rawItem.RoundTrips (encodePayload list p) := by
  intro rest
  simp [rawItem, decodeItem_encodePayload hfits]

theorem rawItem_eq_ok {input value rest : Bytes} (h : rawItem.decode input = .ok (value, rest)) :
    ∃ list p, value = encodePayload list p ∧ p.length < 2 ^ 64 := by
  rcases bind_ok h with ⟨item, hitem, h⟩
  cases h
  rcases decodeItem_eq_ok hitem with ⟨hinput, hfits⟩
  refine ⟨item.list, item.payload, ?_, hfits⟩
  conv_lhs => rw [hinput]
  simp

/-! ## Everything that fits -/

/-- Every value whose encoding fits the format is read back. -/
def Faithful (codec : Codec α) : Prop :=
  ∀ value, (codec.encode value).length < 2 ^ 64 → codec.RoundTrips value

theorem bytes_faithful : bytes.Faithful := fun value hfits =>
  bytes_roundTrips ((length_le_encodeString value).trans_lt hfits)

theorem u8_faithful : u8.Faithful := fun value _ => u8_roundTrips value

theorem u64_faithful : u64.Faithful := fun value _ => u64_roundTrips value

theorem Faithful.pair (h1 : first.Faithful) (h2 : second.Faithful) :
    (first.pair second).Faithful := by
  intro values hfits
  simp only [Codec.pair, length_append] at hfits
  exact (h1 values.1 (by omega)).pair (h2 values.2 (by omega))

theorem Faithful.wrap (hcodec : codec.Faithful) : codec.wrap.Faithful := by
  intro value hfits
  have hp : (codec.encode value).length < 2 ^ 64 :=
    (length_le_encodeList _).trans_lt hfits
  exact (hcodec value hp).wrap hp

theorem Faithful.equiv (hcodec : codec.Faithful) (e : α ≃ β) :
    (codec.equiv e).Faithful := fun value hfits =>
  (hcodec (e.symm value) hfits).equiv

theorem length_encode_le_of_mem (hmem : value ∈ values) :
    (codec.encode value).length ≤ (values.flatMap codec.encode).length := by
  rw [length_flatMap]
  exact single_le_sum (fun _ _ => Nat.zero_le _) _ (mem_map.mpr ⟨value, hmem, rfl⟩)

/-- Lists of records within the limit are read back. -/
theorem Faithful.listOf (hcodec : codec.Faithful) (hne : ∀ value, codec.encode value ≠ [])
    (hlim : ∀ bound ∈ limit, values.length ≤ bound)
    (hfits : ((codec.listOf limit limitError).encode values).length < 2 ^ 64) :
    (codec.listOf limit limitError).RoundTrips values := by
  have hp : (values.flatMap codec.encode).length < 2 ^ 64 :=
    (length_le_encodeList _).trans_lt hfits
  refine RoundTrips.listOf ?_ (fun value _ => hne value) hlim hp
  intro value hv
  exact hcodec value ((length_encode_le_of_mem hv).trans_lt hp)

end Codec

end Rlp
