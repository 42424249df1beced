import NeoX.Library.BigEndian
import NeoX.Library.Fallible

/-!
# Recursive length prefix encoding

The wire format of byte strings, integers, fixed-size strings and lists, with the
strict decoder that accepts only canonical encodings. Codecs are combined from
smaller ones, and the two laws of a codec are proved once for each combinator:

- `Codec.Canonical`: what is decoded is exactly what the encoder writes;
- `Codec.RoundTrips`: a value whose encoding fits the format is decoded again.

Length headers hold at most eight bytes, so the round trip of a long string or a
list asks that its payload is shorter than `2 ^ 64` bytes.
-/

namespace Rlp

open BigEndian List

/-- Reasons for which the decoder rejects an input. -/
inductive Error where
  | overflow
  | leadingZero
  | inputTooShort
  | nonCanonicalSingleByte
  | nonCanonicalSize
  | unexpectedLength
  | unexpectedString
  | unexpectedList
  | listLengthMismatch (expected got : Nat)
  | custom (message : String)
  deriving DecidableEq, Repr

/-! ## Headers -/

/-- The prefix of an item with a payload of `length` bytes. -/
def encodeHeader (list : Bool) (length : Nat) : Bytes :=
  let base := if list then 0xc0 else 0x80
  if length < 56 then
    [UInt8.ofNat (base + length)]
  else
    let lengthBytes := toMinimal 8 length
    UInt8.ofNat (base + 55 + lengthBytes.length) :: lengthBytes

/-- Read a length of `count` bytes; leading zeros and lengths below 56 are not canonical. -/
def decodeLength (count : Nat) (bytes : Bytes) : Except Error (Nat × Bytes) :=
  if bytes.length < count then
    .error .inputTooShort
  else if bytes.head? = some 0 then
    .error .leadingZero
  else
    let length := ofBytes (bytes.take count)
    if length < 56 then
      .error .nonCanonicalSize
    else
      .ok (length, bytes.drop count)

/-- A decoded header: whether the item is a list, its payload and what follows it. -/
structure Item where
  list : Bool
  payload : Bytes
  rest : Bytes
  deriving DecidableEq, Repr

/-- Cut a payload of the decoded length off the input. -/
def takePayload (list : Bool) (length : Nat) (bytes : Bytes) : Except Error Item :=
  if bytes.length < length then
    .error .inputTooShort
  else
    .ok ⟨list, bytes.take length, bytes.drop length⟩

def decodeItem : Bytes → Except Error Item
  | [] => .error .inputTooShort
  | first :: bytes =>
    if first.toNat < 0x80 then
      .ok ⟨false, [first], bytes⟩
    else if first.toNat ≤ 0xb7 then
      if first.toNat = 0x81 ∧ ∃ next ∈ bytes.head?, next.toNat < 0x80 then
        .error .nonCanonicalSingleByte
      else
        takePayload false (first.toNat - 0x80) bytes
    else if first.toNat ≤ 0xbf then do
      let (length, bytes) ← decodeLength (first.toNat - 0xb7) bytes
      takePayload false length bytes
    else if first.toNat ≤ 0xf7 then
      takePayload true (first.toNat - 0xc0) bytes
    else do
      let (length, bytes) ← decodeLength (first.toNat - 0xf7) bytes
      takePayload true length bytes

/-- Read one item of the expected kind and return its payload and the following bytes. -/
def decodePayload (list : Bool) (bytes : Bytes) : Except Error (Bytes × Bytes) := do
  let item ← decodeItem bytes
  if item.list = list then
    .ok (item.payload, item.rest)
  else
    .error (if list then .unexpectedString else .unexpectedList)

def encodeString (bytes : Bytes) : Bytes :=
  match bytes with
  | [byte] => if byte.toNat < 0x80 then [byte] else encodeHeader false 1 ++ [byte]
  | _ => encodeHeader false bytes.length ++ bytes

/-- The encoding of a list whose items are already encoded. -/
def encodeList (payload : Bytes) : Bytes :=
  encodeHeader true payload.length ++ payload

/-- The encoding of an item of either kind. -/
def encodePayload (list : Bool) (payload : Bytes) : Bytes :=
  if list then encodeList payload else encodeString payload

/-! ## The item decoder inverts the encoders -/

theorem takePayload_append (list : Bool) (payload rest : Bytes) :
    takePayload list payload.length (payload ++ rest) = .ok ⟨list, payload, rest⟩ := by
  simp [takePayload]

variable {list : Bool} {length : Nat} {bytes : Bytes}

theorem takePayload_eq_ok {item : Item} (htake : takePayload list length bytes = .ok item) :
    item.list = list ∧ item.payload.length = length ∧ bytes = item.payload ++ item.rest := by
  unfold takePayload at htake
  split at htake
  · cases htake
  · rename_i hlong
    cases htake
    refine ⟨rfl, ?_, (take_append_drop _ _).symm⟩
    simp only [length_take]
    omega

/-- The length bytes written by the encoder are read back. -/
theorem decodeLength_toMinimal (hlong : 56 ≤ length) (hfits : length < 2 ^ 64) (rest : Bytes) :
    decodeLength (toMinimal 8 length).length (toMinimal 8 length ++ rest) = .ok (length, rest) := by
  have hv : ofBytes (toMinimal 8 length) = length := ofBytes_toMinimal hfits
  have hne : toMinimal 8 length ≠ [] := by
    intro hnil
    rw [hnil, ofBytes_nil] at hv
    omega
  have hlead := noLeadingZero_toMinimal 8 length
  unfold decodeLength
  rw [if_neg (by simp), head?_append_of_ne_nil _ hne, if_neg hlead, take_left, drop_left, hv]
  simp only [if_neg (not_lt.mpr hlong)]

/-- A length that is read back was written canonically. -/
theorem decodeLength_eq_ok {count : Nat} {rest : Bytes} (hc : count ≤ 8)
    (hdec : decodeLength count bytes = .ok (length, rest)) :
    56 ≤ length ∧ length < 2 ^ 64 ∧ (toMinimal 8 length).length = count ∧
      bytes = toMinimal 8 length ++ rest := by
  unfold decodeLength at hdec
  split at hdec
  · cases hdec
  rename_i hshort
  split at hdec
  · cases hdec
  rename_i hlead
  simp only at hdec
  split at hdec
  · cases hdec
  rename_i hlong
  cases hdec
  have htake : (bytes.take count).length = count := by
    rw [length_take]
    omega
  have hnoZero : NoLeadingZero (bytes.take count) := by
    intro hhead
    apply hlead
    cases bytes with
    | nil => simp at hhead
    | cons first bytes =>
      cases count with
      | zero => simp at hhead
      | succ count => simpa using hhead
  have hmini : toMinimal 8 (ofBytes (bytes.take count)) = bytes.take count :=
    toMinimal_ofBytes (by omega) hnoZero
  have hb : ofBytes (bytes.take count) < 2 ^ 64 := by
    calc ofBytes (bytes.take count) < 256 ^ (bytes.take count).length := ofBytes_lt _
      _ ≤ 256 ^ 8 := Nat.pow_le_pow_right (by decide) (by omega)
  rw [hmini]
  exact ⟨not_lt.mp hlong, hb, htake, (take_append_drop _ _).symm⟩

theorem encodeHeader_short (hshort : length < 56) :
    ∃ a : UInt8, encodeHeader list length = [a] ∧
      a.toNat = (if list then 0xc0 else 0x80) + length := by
  refine ⟨_, by simp [encodeHeader, hshort]; rfl, ?_⟩
  cases list <;> simp <;> omega

theorem encodeHeader_long (hlong : 56 ≤ length) (hfits : length < 2 ^ 64) :
    ∃ a : UInt8, encodeHeader list length = a :: toMinimal 8 length ∧
      a.toNat = (if list then 0xf7 else 0xb7) + (toMinimal 8 length).length ∧
      1 ≤ (toMinimal 8 length).length ∧ (toMinimal 8 length).length ≤ 8 := by
  have hb := length_toMinimal_le 8 length
  have hpos : 1 ≤ (toMinimal 8 length).length := by
    by_contra hno
    have hnil : toMinimal 8 length = [] := length_eq_zero_iff.mp (by omega)
    have hv : ofBytes (toMinimal 8 length) = length := ofBytes_toMinimal hfits
    rw [hnil, ofBytes_nil] at hv
    omega
  refine ⟨_, by simp [encodeHeader, not_lt.mpr hlong]; rfl, ?_, hpos, hb⟩
  cases list <;> simp <;> omega

variable {payload : Bytes}

/-- A header followed by its payload is read back, unless it stands for a small single byte. -/
theorem decodeItem_encodeHeader (hfits : payload.length < 2 ^ 64)
    (hcan : list = false → ∀ byte : UInt8, payload = [byte] → 0x80 ≤ byte.toNat) (rest : Bytes) :
    decodeItem (encodeHeader list payload.length ++ (payload ++ rest))
      = .ok ⟨list, payload, rest⟩ := by
  by_cases hshort : payload.length < 56
  · obtain ⟨a, hh, h1⟩ := @encodeHeader_short list _ hshort
    rw [hh, singleton_append, decodeItem]
    cases list with
    | true =>
      simp only [if_true] at h1
      rw [if_neg (by omega), if_neg (by omega), if_neg (by omega), if_pos (by omega)]
      have hlen : a.toNat - 0xc0 = payload.length := by omega
      rw [hlen, takePayload_append]
    | false =>
      simp only [Bool.false_eq_true, if_false] at h1
      have hsingle : ¬ (a.toNat = 0x81 ∧
          ∃ next ∈ (payload ++ rest).head?, next.toNat < 0x80) := by
        rintro ⟨hone, next, hn, hsmall⟩
        obtain ⟨byte, hbyte⟩ := length_eq_one_iff.mp (show payload.length = 1 by omega)
        have hlarge := hcan rfl byte hbyte
        simp only [hbyte, singleton_append, head?_cons, Option.mem_def, Option.some.injEq] at hn
        subst hn
        omega
      rw [if_neg (by omega), if_pos (by omega), if_neg hsingle]
      have hlen : a.toNat - 0x80 = payload.length := by omega
      rw [hlen, takePayload_append]
  · obtain ⟨a, hh, h1, hpos, hb⟩ :=
      @encodeHeader_long list _ (not_lt.mp hshort) hfits
    have hlen := decodeLength_toMinimal (not_lt.mp hshort) hfits (payload ++ rest)
    rw [hh, cons_append, decodeItem]
    cases list with
    | true =>
      simp only [if_true] at h1
      rw [if_neg (by omega), if_neg (by omega), if_neg (by omega), if_neg (by omega)]
      have hc : a.toNat - 0xf7 = (toMinimal 8 payload.length).length := by omega
      rw [hc, hlen]
      exact takePayload_append _ payload rest
    | false =>
      simp only [Bool.false_eq_true, if_false] at h1
      rw [if_neg (by omega), if_neg (by omega), if_pos (by omega)]
      have hc : a.toNat - 0xb7 = (toMinimal 8 payload.length).length := by omega
      rw [hc, hlen]
      exact takePayload_append _ payload rest

theorem encodeString_eq_header (hcan : ∀ byte : UInt8, bytes = [byte] → 0x80 ≤ byte.toNat) :
    encodeString bytes = encodeHeader false bytes.length ++ bytes := by
  unfold encodeString
  split
  · rename_i byte
    rw [if_neg (not_lt.mpr (hcan byte rfl))]
    rfl
  · rfl

theorem decodeItem_encodePayload (hfits : payload.length < 2 ^ 64) (rest : Bytes) :
    decodeItem (encodePayload list payload ++ rest) = .ok ⟨list, payload, rest⟩ := by
  cases list with
  | true =>
    simp only [encodePayload, if_true, encodeList, append_assoc]
    exact decodeItem_encodeHeader hfits (by simp) rest
  | false =>
    simp only [encodePayload, Bool.false_eq_true, if_false]
    by_cases hsmall : ∃ byte : UInt8, payload = [byte] ∧ byte.toNat < 0x80
    · obtain ⟨byte, rfl, hbyte⟩ := hsmall
      simp only [encodeString, if_pos hbyte, singleton_append, decodeItem]
    · have hcan : ∀ byte : UInt8, payload = [byte] → 0x80 ≤ byte.toNat := by
        intro byte hbyte
        by_contra hlow
        exact hsmall ⟨byte, hbyte, not_le.mp hlow⟩
      rw [encodeString_eq_header hcan, append_assoc]
      exact decodeItem_encodeHeader hfits (fun _ => hcan) rest

theorem encodeHeader_eq_short {a : UInt8} (hshort : length < 56)
    (h1 : a.toNat = (if list then 0xc0 else 0x80) + length) :
    encodeHeader list length = [a] := by
  obtain ⟨o, hh, ho⟩ := @encodeHeader_short list _ hshort
  rw [hh, UInt8.toNat_inj.mp (ho.trans h1.symm)]

theorem encodeHeader_eq_long {a : UInt8} (hlong : 56 ≤ length) (hfits : length < 2 ^ 64)
    (h1 : a.toNat = (if list then 0xf7 else 0xb7) + (toMinimal 8 length).length) :
    encodeHeader list length = a :: toMinimal 8 length := by
  obtain ⟨o, hh, ho, -, -⟩ := @encodeHeader_long list _ hlong hfits
  rw [hh, UInt8.toNat_inj.mp (ho.trans h1.symm)]

theorem decodeItem_eq_ok {item : Item} (hdec : decodeItem bytes = .ok item) :
    bytes = encodePayload item.list item.payload ++ item.rest ∧
      item.payload.length < 2 ^ 64 := by
  cases bytes with
  | nil => cases hdec
  | cons first bytes =>
    have hbyte : first.toNat < 256 := first.toNat_lt
    rw [decodeItem] at hdec
    split at hdec
    · rename_i hsmall
      cases hdec
      simp [encodePayload, encodeString, hsmall]
    rename_i hlow
    split at hdec
    · rename_i hshort
      split at hdec
      · cases hdec
      rename_i hsingle
      obtain ⟨hlist, hlen, hbs⟩ := takePayload_eq_ok hdec
      have hcan : ∀ byte : UInt8, item.payload = [byte] → 0x80 ≤ byte.toNat := by
        intro byte hp
        by_contra hsmall
        refine hsingle ⟨?_, byte, ?_, by omega⟩
        · rw [hp, length_singleton] at hlen
          omega
        · simp [hbs, hp]
      have hh : encodeHeader false item.payload.length = [first] :=
        encodeHeader_eq_short (by omega) (by simp only [Bool.false_eq_true, if_false]; omega)
      refine ⟨?_, by omega⟩
      simp only [hlist, encodePayload, Bool.false_eq_true, if_false]
      rw [encodeString_eq_header hcan, hh, hbs]
      rfl
    rename_i hmid
    split at hdec
    · rename_i hlong
      obtain ⟨⟨length, tail⟩, hread, htake⟩ := Except.bind_ok hdec
      obtain ⟨hlist, hlen, htail⟩ := takePayload_eq_ok htake
      obtain ⟨hlarge, hfits, hc, hbs⟩ := decodeLength_eq_ok (by omega) hread
      have hh : encodeHeader false item.payload.length
          = first :: toMinimal 8 item.payload.length := by
        rw [hlen]
        exact encodeHeader_eq_long hlarge hfits
          (by simp only [Bool.false_eq_true, if_false]; omega)
      have hcan : ∀ byte : UInt8, item.payload = [byte] → 0x80 ≤ byte.toNat := by
        intro byte hp
        rw [hp, length_singleton] at hlen
        omega
      refine ⟨?_, by omega⟩
      simp only [hlist, encodePayload, Bool.false_eq_true, if_false]
      rw [encodeString_eq_header hcan, hh, hlen, hbs, htail]
      simp
    rename_i hhigh
    split at hdec
    · rename_i hshort
      obtain ⟨hlist, hlen, hbs⟩ := takePayload_eq_ok hdec
      have hh : encodeHeader true item.payload.length = [first] :=
        encodeHeader_eq_short (by omega) (by simp only [if_true]; omega)
      refine ⟨?_, by omega⟩
      simp only [hlist, encodePayload, if_true, encodeList]
      rw [hh, hbs]
      rfl
    · rename_i hlong
      obtain ⟨⟨length, tail⟩, hread, htake⟩ := Except.bind_ok hdec
      obtain ⟨hlist, hlen, htail⟩ := takePayload_eq_ok htake
      obtain ⟨hlarge, hfits, hc, hbs⟩ := decodeLength_eq_ok (by omega) hread
      have hh : encodeHeader true item.payload.length
          = first :: toMinimal 8 item.payload.length := by
        rw [hlen]
        exact encodeHeader_eq_long hlarge hfits (by simp only [if_true]; omega)
      refine ⟨?_, by omega⟩
      simp only [hlist, encodePayload, if_true, encodeList]
      rw [hh, hlen, hbs, htail]
      simp

theorem decodePayload_encodePayload (hfits : payload.length < 2 ^ 64) (rest : Bytes) :
    decodePayload list (encodePayload list payload ++ rest) = .ok (payload, rest) := by
  simp [decodePayload, decodeItem_encodePayload hfits]

theorem decodePayload_eq_ok {rest : Bytes} (hdec : decodePayload list bytes = .ok (payload, rest)) :
    bytes = encodePayload list payload ++ rest ∧ payload.length < 2 ^ 64 := by
  obtain ⟨item, hitem, hk⟩ := Except.bind_ok hdec
  obtain ⟨hbs, hfits⟩ := decodeItem_eq_ok hitem
  split at hk
  · rename_i hlist
    cases hk
    exact ⟨hlist ▸ hbs, hfits⟩
  · cases hk

/-! ## Sizes -/

theorem length_encodeHeader_le (list : Bool) (length : Nat) :
    (encodeHeader list length).length ≤ 9 := by
  have hb := length_toMinimal_le 8 length
  unfold encodeHeader
  dsimp only
  split
  · simp
  · rw [length_cons]
    omega

theorem length_encodeString_le (bytes : Bytes) :
    (encodeString bytes).length ≤ bytes.length + 9 := by
  have hh := length_encodeHeader_le false bytes.length
  unfold encodeString
  split
  · split
    · simp
    · simp only [length_append, length_singleton] at hh ⊢
      omega
  · rw [length_append]
    omega

theorem length_le_encodeString (bytes : Bytes) : bytes.length ≤ (encodeString bytes).length := by
  unfold encodeString
  split
  · split <;> simp
  · rw [length_append]
    omega

theorem length_le_encodeList (payload : Bytes) : payload.length ≤ (encodeList payload).length := by
  rw [encodeList, length_append]
  omega

theorem encodeList_ne_nil (payload : Bytes) : encodeList payload ≠ [] := by
  unfold encodeList encodeHeader
  dsimp only
  split <;> simp

theorem encodeString_ne_nil (bytes : Bytes) : encodeString bytes ≠ [] := by
  have hh : ∀ length, encodeHeader false length ≠ [] := by
    intro length
    unfold encodeHeader
    dsimp only
    split <;> simp
  unfold encodeString
  split
  · split <;> simp
  · simp [hh]

theorem head?_encodeList_ne (hne : payload ≠ []) (rest : Bytes) :
    (encodeList payload ++ rest).head? ≠ some 0x80 ∧
      (encodeList payload ++ rest).head? ≠ some 0xc0 := by
  have hlen : 0 < payload.length := length_pos_iff.mpr hne
  have hmini := length_toMinimal_le 8 payload.length
  have h1 : ∃ byte : UInt8, (encodeList payload ++ rest).head? = some byte ∧
      0xc0 < byte.toNat := by
    unfold encodeList encodeHeader
    dsimp only
    split
    · refine ⟨_, rfl, ?_⟩
      rw [if_pos rfl, UInt8.toNat_ofNat_of_lt' (by simp only [UInt8.size]; omega)]
      omega
    · refine ⟨_, rfl, ?_⟩
      rw [if_pos rfl, UInt8.toNat_ofNat_of_lt' (by simp only [UInt8.size]; omega)]
      omega
  rcases h1 with ⟨byte, hbyte, hlarge⟩
  rw [hbyte]
  constructor
  · rintro ⟨⟩
    exact absurd hlarge (by decide)
  · rintro ⟨⟩
    exact absurd hlarge (by decide)

theorem encodeList_injective {a b : Bytes} (h1 : a.length < 2 ^ 64)
    (h2 : b.length < 2 ^ 64) (heq : encodeList a = encodeList b) :
    a = b := by
  have hdec := @decodePayload_encodePayload true a h1 []
  rw [encodePayload, if_pos rfl, heq] at hdec
  have ho := @decodePayload_encodePayload true b h2 []
  rw [encodePayload, if_pos rfl, hdec] at ho
  cases ho
  rfl

end Rlp
