import Mathlib.Data.List.Basic
import Mathlib.Tactic

/-!
# Big-endian byte strings

Byte strings, their big-endian value, and the two big-endian encodings of a
natural number: at a fixed width and with leading zero bytes removed.

Main results:

- `toBytes_ofBytes` / `ofBytes_toBytes`: a byte string of width
  `w` and its value determine each other.
- `toMinimal_ofBytes` / `ofBytes_toMinimal`: the same for byte
  strings without a leading zero byte.
-/

/-- A byte string. -/
abbrev Bytes := List UInt8

namespace BigEndian

/-! ## Values and fixed-width encodings -/

/-- The value of a byte string read with the most significant byte first. -/
def ofBytes (bytes : Bytes) : Nat :=
  bytes.foldl (fun acc byte => acc * 256 + byte.toNat) 0

/-- The `width` low bytes of `value`, most significant byte first. -/
def toBytes : Nat → Nat → Bytes
  | 0, _ => []
  | width + 1, value => toBytes width (value / 256) ++ [UInt8.ofNat value]

/-- The bytes of `value` (below `256 ^ width`) without leading zero bytes. -/
def toMinimal (width value : Nat) : Bytes :=
  (toBytes width value).dropWhile (· == 0)

/-- A byte string that does not start with a zero byte. -/
def NoLeadingZero (bytes : Bytes) : Prop :=
  bytes.head? ≠ some 0

@[simp] theorem ofBytes_nil : ofBytes [] = 0 := rfl

@[simp] theorem ofBytes_append_singleton (bs : Bytes) (byte : UInt8) :
    ofBytes (bs ++ [byte]) = ofBytes bs * 256 + byte.toNat := by
  simp [ofBytes]

@[simp] theorem length_toBytes (width v : Nat) :
    (toBytes width v).length = width := by
  induction width generalizing v with
  | zero => rfl
  | succ width ih => simp [toBytes, ih]

theorem ofBytes_lt (bs : Bytes) : ofBytes bs < 256 ^ bs.length := by
  induction bs using List.reverseRecOn with
  | nil => simp
  | append_singleton bs byte ih =>
    have hbyte : byte.toNat < 256 := byte.toNat_lt
    rw [ofBytes_append_singleton, List.length_append, List.length_singleton, pow_succ]
    omega

theorem ofBytes_toBytes (width v : Nat) :
    ofBytes (toBytes width v) = v % 256 ^ width := by
  induction width generalizing v with
  | zero => simp [toBytes, Nat.mod_one]
  | succ width ih =>
    have hlow : (UInt8.ofNat v).toNat = v % 256 := by simp
    rw [toBytes, ofBytes_append_singleton, ih, hlow, pow_succ, Nat.mul_comm (256 ^ width),
      Nat.mod_mul, Nat.mul_comm 256]
    omega

theorem toBytes_ofBytes (bytes : Bytes) : toBytes bytes.length (ofBytes bytes) = bytes := by
  induction bytes using List.reverseRecOn with
  | nil => rfl
  | append_singleton bytes byte ih =>
    have hbyte : byte.toNat < 256 := byte.toNat_lt
    have hdiv : (ofBytes bytes * 256 + byte.toNat) / 256 = ofBytes bytes := by omega
    have hlow : UInt8.ofNat (ofBytes bytes * 256 + byte.toNat) = byte := by
      rw [← UInt8.toNat_inj]
      simp only [UInt8.toNat_ofNat']
      omega
    rw [List.length_append, List.length_singleton, toBytes, ofBytes_append_singleton, hdiv, ih,
      hlow]

theorem ofBytes_injective_of_length {first second : Bytes} (hlen : first.length = second.length)
    (hv : ofBytes first = ofBytes second) :
    first = second := by
  rw [← toBytes_ofBytes first, ← toBytes_ofBytes second, hlen, hv]

/-! ## Encodings without leading zeros -/

@[simp] theorem ofBytes_zero_cons (bytes : Bytes) : ofBytes (0 :: bytes) = ofBytes bytes := by
  simp [ofBytes]

theorem ofBytes_dropWhile_zero (bytes : Bytes) :
    ofBytes (bytes.dropWhile (· == 0)) = ofBytes bytes := by
  induction bytes with
  | nil => rfl
  | cons byte bytes ih =>
    by_cases h0 : byte = 0
    · subst h0
      simpa using ih
    · have hkeep : (byte :: bytes).dropWhile (· == 0) = byte :: bytes := by
        simp [h0]
      rw [hkeep]

theorem ofBytes_toMinimal {width value : Nat} (hfits : value < 256 ^ width) :
    ofBytes (toMinimal width value) = value := by
  rw [toMinimal, ofBytes_dropWhile_zero, ofBytes_toBytes, Nat.mod_eq_of_lt hfits]

theorem length_toMinimal_le (width v : Nat) : (toMinimal width v).length ≤ width := by
  calc (toMinimal width v).length ≤ (toBytes width v).length :=
        (List.dropWhile_sublist _).length_le
    _ = width := length_toBytes width v

theorem noLeadingZero_dropWhile (bs : Bytes) :
    NoLeadingZero (bs.dropWhile (· == 0)) := by
  induction bs with
  | nil => simp [NoLeadingZero]
  | cons byte bs ih =>
    by_cases h0 : byte = 0
    · subst h0
      simpa using ih
    · simp [NoLeadingZero, h0]

theorem noLeadingZero_toMinimal (width v : Nat) :
    NoLeadingZero (toMinimal width v) :=
  noLeadingZero_dropWhile _

theorem dropWhile_replicate_zero_append {bytes : Bytes} (hlead : NoLeadingZero bytes)
    (count : Nat) :
    (List.replicate count 0 ++ bytes).dropWhile (· == 0) = bytes := by
  induction count with
  | zero =>
    cases bytes with
    | nil => rfl
    | cons byte bytes =>
      have h0 : byte ≠ 0 := by simpa [NoLeadingZero] using hlead
      simp [h0]
  | succ count ih => simpa [List.replicate_succ] using ih

theorem toBytes_add_of_lt {width value : Nat} (hfits : value < 256 ^ width) (extra : Nat) :
    toBytes (extra + width) value = List.replicate extra 0 ++ toBytes width value := by
  have hlen : (toBytes (extra + width) value).length
      = (List.replicate extra 0 ++ toBytes width value).length := by simp
  refine ofBytes_injective_of_length hlen ?_
  have hpad : ∀ count (bytes : Bytes),
      ofBytes (List.replicate count 0 ++ bytes) = ofBytes bytes := by
    intro count bytes
    induction count with
    | zero => rfl
    | succ count ih => simpa [List.replicate_succ] using ih
  have hwide : value < 256 ^ (extra + width) :=
    lt_of_lt_of_le hfits (Nat.pow_le_pow_right (by decide) (by omega))
  rw [hpad, ofBytes_toBytes, ofBytes_toBytes, Nat.mod_eq_of_lt hwide, Nat.mod_eq_of_lt hfits]

theorem toMinimal_ofBytes {width : Nat} {bytes : Bytes} (hwidth : bytes.length ≤ width)
    (hlead : NoLeadingZero bytes) : toMinimal width (ofBytes bytes) = bytes := by
  obtain ⟨extra, rfl⟩ : ∃ extra, width = extra + bytes.length :=
    ⟨width - bytes.length, by omega⟩
  rw [toMinimal, toBytes_add_of_lt (ofBytes_lt bytes), toBytes_ofBytes,
    dropWhile_replicate_zero_append hlead]

end BigEndian

/-! ## Byte strings of a fixed size -/

/-- A byte string of exactly `size` bytes. -/
@[ext]
structure FixedBytes (size : Nat) where
  /-- The bytes, most significant byte first. -/
  bytes : Bytes
  /-- The size of the type is the length of the string. -/
  length_eq : bytes.length = size
  deriving DecidableEq

namespace FixedBytes

open BigEndian

variable {size : Nat}

def zero (size : Nat) : FixedBytes size :=
  ⟨List.replicate size 0, List.length_replicate⟩

/-- The `size` low bytes of a number. -/
def ofNat (size value : Nat) : FixedBytes size :=
  ⟨toBytes size value, length_toBytes size value⟩

/-- Read a byte string as a fixed-size one, when it has that size. -/
def ofBytes? (size : Nat) (bytes : Bytes) : Option (FixedBytes size) :=
  if h : bytes.length = size then some ⟨bytes, h⟩ else none

/-- The first `size` bytes of a byte string, filled up with zero bytes. -/
def first (size : Nat) (bytes : Bytes) : FixedBytes size :=
  ⟨(bytes ++ List.replicate size 0).take size, by simp⟩

/-- The first `count` consecutive pieces of `size` bytes. -/
def chunks (size : Nat) : Nat → Bytes → List (FixedBytes size)
  | 0, _ => []
  | count + 1, bytes => first size bytes :: chunks size count (bytes.drop size)

/-- The big-endian value of the string. -/
def toNat (string : FixedBytes size) : Nat :=
  ofBytes string.bytes

@[simp] theorem ofBytes?_bytes (string : FixedBytes size) :
    ofBytes? size string.bytes = some string := by
  simp [ofBytes?, string.length_eq]

variable {bs : Bytes}

theorem ofBytes?_eq_some {string : FixedBytes size} :
    ofBytes? size bs = some string ↔ bs = string.bytes := by
  constructor
  · intro h
    unfold ofBytes? at h
    split at h
    · cases h
      rfl
    · cases h
  · rintro rfl
    exact ofBytes?_bytes string

theorem first_append_of_le {bytes : Bytes} (hsize : size ≤ bytes.length) (rest : Bytes) :
    first size (bytes ++ rest) = first size bytes := by
  apply FixedBytes.ext
  simp [first, List.take_append_of_le_length hsize]

@[simp] theorem first_append (string : FixedBytes size) (rest : Bytes) :
    first size (string.bytes ++ rest) = string := by
  apply FixedBytes.ext
  have hlen := string.length_eq
  simp [first, hlen]

theorem chunks_flatMap (strings : List (FixedBytes size)) (rest : Bytes) :
    chunks size strings.length (strings.flatMap bytes ++ rest) = strings := by
  induction strings with
  | nil => rfl
  | cons string strings ih =>
    rw [List.flatMap_cons, List.append_assoc, List.length_cons, chunks, first_append]
    have hdrop : (string.bytes ++ (strings.flatMap bytes ++ rest)).drop size
        = strings.flatMap bytes ++ rest :=
      List.drop_left' string.length_eq
    rw [hdrop, ih]

theorem bytes_first (hsize : size ≤ bs.length) :
    (first size bs).bytes = bs.take size := by
  simp [first, List.take_append_of_le_length hsize]

@[simp] theorem length_chunks (count : Nat) (bs : Bytes) :
    (chunks size count bs).length = count := by
  induction count generalizing bs with
  | zero => rfl
  | succ count ih => rw [chunks, List.length_cons, ih]

theorem getElem?_chunks {count pos : Nat} (bs : Bytes) (hpos : pos < count) :
    (chunks size count bs)[pos]? = some (first size (bs.drop (pos * size))) := by
  induction count generalizing bs pos with
  | zero => omega
  | succ count ih =>
    cases pos with
    | zero => simp [chunks]
    | succ pos =>
      rw [chunks, List.getElem?_cons_succ, ih _ (by omega), List.drop_drop, Nat.succ_mul,
        Nat.add_comm size]

theorem flatMap_chunks {count : Nat} (hlen : count * size ≤ bs.length) :
    (chunks size count bs).flatMap FixedBytes.bytes = bs.take (count * size) := by
  induction count generalizing bs with
  | zero => simp [chunks]
  | succ count ih =>
    rw [Nat.succ_mul] at hlen
    have h1 : (first size bs).bytes = bs.take size := bytes_first (by omega)
    have hr : count * size ≤ (bs.drop size).length := by
      rw [List.length_drop]
      omega
    rw [chunks, List.flatMap_cons, h1, ih hr, ← List.take_add, Nat.succ_mul, Nat.add_comm size]

theorem length_flatMap_bytes (strings : List (FixedBytes size)) :
    (strings.flatMap bytes).length = strings.length * size := by
  induction strings with
  | nil => simp
  | cons string strings ih =>
    rw [List.flatMap_cons, List.length_append, ih, string.length_eq, List.length_cons]
    ring

theorem toNat_injective : Function.Injective (toNat : FixedBytes size → Nat) := by
  intro a b hv
  have hlen : a.bytes.length = b.bytes.length := by
    rw [a.length_eq, b.length_eq]
  exact FixedBytes.ext (ofBytes_injective_of_length hlen hv)

/-- Fixed-size strings are compared byte by byte, which is the order of their values. -/
instance : LinearOrder (FixedBytes size) :=
  LinearOrder.lift' toNat toNat_injective

@[simp] theorem toNat_zero (size : Nat) : (zero size).toNat = 0 := by
  have h0 : ∀ count, ofBytes (List.replicate count 0) = 0 := by
    intro count
    induction count with
    | zero => rfl
    | succ count ih => rw [List.replicate_succ, ofBytes_zero_cons, ih]
  exact h0 size

theorem zero_le (string : FixedBytes size) : zero size ≤ string := by
  change (zero size).toNat ≤ string.toNat
  simp

end FixedBytes
