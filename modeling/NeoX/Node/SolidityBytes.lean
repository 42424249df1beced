import NeoX.AntiMev.Sealing
import NeoX.Node.ContractState

/-!
# Byte strings in contract storage

Three readers of byte strings, and a reader of arrays of byte strings, over the storage layout of
the contracts.

Main results:

- `solidityBytes_exact`: what is stored within the limit of a reader is what it
  returns, and no two readers return different strings.
-/

namespace NeoX

open Except hiding ok error
open BigEndian List

inductive DkgStorageError where
  | provider (error : String)
  | invalidShortBytesLength (length : Nat)
  | bytesTooLarge (actual : Nat) (maximum : UInt64)
  | bytesArrayTooLarge (actual : Nat) (maximum : UInt64)

/-- Errors of the reader of message keys. -/
inductive DkgTaskContractStateError where
  | provider (error : String)
  | invalidShortBytesLength (length : Nat)
  | bytesTooLarge (length : Nat)

def maxMessageKeyBytesLen : Nat := 1024

def neoxDkgMessageLen : UInt64 := 64 + 12 + 32 + 16

/-- What a reader says of a length that does not fit, is too large or is impossible. -/
structure SolidityBytesErrors (ε : Type) where
  overflow : ε
  tooLarge : Nat → ε
  invalidShort : Nat → ε

section Readers

variable [Crypto] {ε : Type}

def dataBase (slot : U256) : U256 := wordOfBytes (keccak256 (bytesOfWord slot)).bytes

/-- A byte string in storage. Only some readers limit the short ones. -/
def readBytes (errors : SolidityBytesErrors ε) (maximum : Nat) (limitShort : Bool)
    (storage : ContractStorage ε) (slot : U256) : Except ε Bytes := do
  let header := (← storage slot).getD 0
  if header.toNat % 2 = 1 then do
    let length := (header.toNat - 1) / 2
    require (length < 2 ^ 64) errors.overflow
    require (length ≤ maximum) (errors.tooLarge length)
    let words ← (range ((length + 31) / 32)).mapM fun index =>
      storage (dataBase slot + BitVec.ofNat 256 index)
    .ok ((words.flatMap fun word => bytesOfWord (word.getD 0)).take length)
  else do
    let length := header.toNat % 256 / 2
    require (length ≤ 31) (errors.invalidShort length)
    require (limitShort = true → length ≤ maximum) (errors.tooLarge length)
    .ok ((bytesOfWord header).take length)

theorem readSolidityBytes_eq (storage : ContractStorage KeyManagementError) (slot : U256) :
    readSolidityBytes storage slot = readBytes ⟨.bytesTooLarge (maxSolidityBytesLen + 1),
      .bytesTooLarge, .invalidShortBytesLength⟩ maxSolidityBytesLen false storage slot := rfl

namespace DkgStorage

def readSolidityBytes (storage : ContractStorage DkgStorageError) (slot : U256)
    (maximum : UInt64) : Except DkgStorageError Bytes :=
  readBytes ⟨.bytesTooLarge (2 ^ 64 - 1) maximum, (.bytesTooLarge · maximum),
    .invalidShortBytesLength⟩ maximum.toNat true storage slot

def readSolidityBytesArray (storage : ContractStorage DkgStorageError) (slot : U256)
    (maximum : UInt64) : Except DkgStorageError (List Bytes) := do
  let length := ((← storage slot).getD 0).toNat
  require (length < 2 ^ 64) (.bytesArrayTooLarge (2 ^ 64 - 1) maximum)
  require (length ≤ maximum.toNat) (.bytesArrayTooLarge length maximum)
  (range length).mapM fun index =>
    readSolidityBytes storage (dataBase slot + BitVec.ofNat 256 index) neoxDkgMessageLen

end DkgStorage

namespace DkgTaskContractState

def readSolidityBytes (storage : ContractStorage DkgTaskContractStateError) (slot : U256) :
    Except DkgTaskContractStateError Bytes :=
  readBytes ⟨.bytesTooLarge (maxMessageKeyBytesLen + 1), .bytesTooLarge,
    .invalidShortBytesLength⟩ maxMessageKeyBytesLen false storage slot

end DkgTaskContractState

/-! ## The layout -/

/-- A key of the storage has a word. Keys that were never written have zero. -/
def HasWord (storage : ContractStorage ε) (key word : U256) : Prop :=
  ∃ found, storage key = .ok found ∧ found.getD 0 = word

/-- The word of a short byte string: the bytes, and twice their number in the last byte. -/
def shortWord (bytes : Bytes) : U256 :=
  wordOfBytes ((FixedBytes.first 31 bytes).bytes ++ [UInt8.ofNat (2 * bytes.length)])

/-- A byte string is stored at a slot. A long one has twice its length and one there, and its
words, the last one filled up with zeros, from the hash of the slot on. -/
def StoredBytes (storage : ContractStorage ε) (slot : U256) (bytes : Bytes) : Prop :=
  if bytes.length ≤ 31 then
    HasWord storage slot (shortWord bytes)
  else
    HasWord storage slot (BitVec.ofNat 256 (2 * bytes.length + 1)) ∧
    Forall₂ (fun index word : _ =>
        HasWord storage (dataBase slot + BitVec.ofNat 256 index) (wordOfBytes word.bytes))
      (range ((bytes.length + 31) / 32)) (FixedBytes.chunks 32 ((bytes.length + 31) / 32) bytes)

/-- An array of byte strings is stored at a slot. -/
def StoredArray (storage : ContractStorage ε) (slot : U256) (elements : List Bytes) : Prop :=
  HasWord storage slot (BitVec.ofNat 256 elements.length) ∧
  Forall₂ (fun index element =>
      StoredBytes storage (dataBase slot + BitVec.ofNat 256 index) element)
    (range elements.length) elements

/-- Two readers read one state. -/
def SameStorage {δ : Type} (first : ContractStorage ε) (second : ContractStorage δ) : Prop :=
  ∀ key, (first key).toOption = (second key).toOption

/-! ## Words -/

section Words

variable {bs : Bytes}

omit [Crypto] in
theorem toNat_wordOfBytes (h : bs.length = 32) : (wordOfBytes bs).toNat = ofBytes bs := by
  have hlt := ofBytes_lt bs
  rw [h] at hlt
  exact Nat.mod_eq_of_lt (hlt.trans_eq (by norm_num))

omit [Crypto] in
theorem bytesOfWord_wordOfBytes (h : bs.length = 32) : bytesOfWord (wordOfBytes bs) = bs := by
  rw [bytesOfWord, toNat_wordOfBytes h, ← h, toBytes_ofBytes]

omit [Crypto] in
theorem take_first {size : Nat} (h : bs.length ≤ size) :
    (FixedBytes.first size bs).bytes.take bs.length = bs := by
  rw [FixedBytes.first, take_take, min_eq_left h, take_left]

omit [Crypto] in
theorem take_flatMap_chunks {size count : Nat} (h : bs.length ≤ count * size) :
    ((FixedBytes.chunks size count bs).flatMap FixedBytes.bytes).take bs.length = bs := by
  induction count generalizing bs with
  | zero => simp_all [FixedBytes.chunks]
  | succ count ih =>
    rw [FixedBytes.chunks, flatMap_cons]
    have hlen := (FixedBytes.first size bs).length_eq
    by_cases hle : bs.length ≤ size
    · rw [take_append_of_le_length (hle.trans_eq hlen.symm), take_first hle]
    · have hdrop := @ih (bs.drop size) (by rw [length_drop, Nat.sub_le_iff_le_add]; linarith)
      rw [take_append, hlen, take_of_length_le (by omega), FixedBytes.bytes_first (by omega),
        ← length_drop, hdrop, take_append_drop]

omit [Crypto] in
/-- Words that are there are read. -/
theorem mapM_words {read : Nat → Except ε (Option U256)} {keys : List Nat}
    {words : List (FixedBytes 32)} (h : Forall₂ (fun key word : _ =>
      ∃ found, read key = .ok found ∧ found.getD 0 = wordOfBytes word.bytes) keys words) :
    ∃ found, keys.mapM read = .ok found ∧
      found.flatMap (fun word => bytesOfWord (word.getD 0)) = words.flatMap FixedBytes.bytes := by
  induction h with
  | nil => exact ⟨[], rfl, rfl⟩
  | @cons key word keys words hhead _ ih =>
    obtain ⟨a, hread, hword⟩ := hhead
    obtain ⟨found, hfound, hbytes⟩ := ih
    refine ⟨a :: found, by simp [mapM_cons, hread, hfound], ?_⟩
    rw [flatMap_cons, flatMap_cons, hbytes, hword, bytesOfWord_wordOfBytes word.length_eq]

omit [Crypto] in
/-- Words that were read are those of the keys. -/
theorem flatMap_of_mapM {read : Nat → Except ε (Option U256)} {words : Nat → U256} {keys : List Nat}
    {data : List (Option U256)}
    (hwords : ∀ key found, read key = .ok found → found.getD 0 = words key)
    (h : keys.mapM read = .ok data) :
    data.flatMap (fun word => bytesOfWord (word.getD 0))
      = keys.flatMap fun key => bytesOfWord (words key) := by
  induction mapM_eq_ok.mp h with
  | nil => rfl
  | cons hhead hrest ih =>
    rw [flatMap_cons, flatMap_cons, ih (mapM_eq_ok.mpr hrest), hwords _ _ hhead]

end Words

/-! ## Reading -/

section Reading

variable {storage : ContractStorage ε} {slot : U256} {bs : Bytes}

/-- What is stored within the limit is read. -/
theorem readBytes_of_stored (errors : SolidityBytesErrors ε) {maximum : Nat} (limitShort : Bool)
    (h : StoredBytes storage slot bs) (hle : bs.length ≤ maximum) (hlt : maximum < 2 ^ 64) :
    readBytes errors maximum limitShort storage slot = .ok bs := by
  unfold StoredBytes at h
  split at h
  · rename_i hshort
    obtain ⟨found, hread, hheader⟩ := h
    have hlen : ((FixedBytes.first 31 bs).bytes ++ [UInt8.ofNat (2 * bs.length)]).length = 32 := by
      simp [(FixedBytes.first 31 bs).length_eq]
    have hvalue : (shortWord bs).toNat = ofBytes (FixedBytes.first 31 bs).bytes * 256
        + 2 * bs.length := by
      rw [shortWord, toNat_wordOfBytes hlen, ofBytes_append_singleton, UInt8.toNat_ofNat',
        Nat.mod_eq_of_lt (by omega)]
    have hlength : (shortWord bs).toNat % 256 / 2 = bs.length := by omega
    have htake : (bytesOfWord (shortWord bs)).take bs.length = bs := by
      rw [shortWord, bytesOfWord_wordOfBytes hlen, take_append_of_le_length
        (by rw [(FixedBytes.first 31 bs).length_eq]; exact hshort), take_first hshort]
    rw [readBytes, hread, ok_bind, hheader, if_neg (by omega)]
    dsimp only
    rw [hlength, require_of _ hshort, ok_bind, require_of _ fun _ => hle, ok_bind, htake]
  · rename_i hlong
    obtain ⟨⟨found, hread, hheader⟩, hwords⟩ := h
    have hvalue : (BitVec.ofNat 256 (2 * bs.length + 1)).toNat = 2 * bs.length + 1 := by
      rw [BitVec.toNat_ofNat, Nat.mod_eq_of_lt (by omega)]
    have hlength : (2 * bs.length + 1 - 1) / 2 = bs.length := by omega
    obtain ⟨words, hmap, hbytes⟩ := mapM_words hwords
    rw [readBytes, hread, ok_bind, hheader]
    dsimp only
    rw [hvalue, if_pos (by omega), hlength, require_of _ (by omega), ok_bind, require_of _ hle,
      ok_bind, hmap, ok_bind, hbytes, take_flatMap_chunks (by omega)]

/-- What a slot holds, whoever reads it. -/
def storedContent (words : U256 → U256) (slot : U256) : Bytes :=
  let header := words slot
  if header.toNat % 2 = 1 then
    let length := (header.toNat - 1) / 2
    ((range ((length + 31) / 32)).flatMap fun index =>
      bytesOfWord (words (dataBase slot + BitVec.ofNat 256 index))).take length
  else (bytesOfWord header).take (header.toNat % 256 / 2)

/-- A reader returns what the slot holds. -/
theorem readBytes_content {errors : SolidityBytesErrors ε} {maximum : Nat} {limitShort : Bool}
    {words : U256 → U256} (hwords : ∀ key found, storage key = .ok found → found.getD 0 = words key)
    (h : readBytes errors maximum limitShort storage slot = .ok bs) :
    bs = storedContent words slot := by
  obtain ⟨found, hread, h⟩ := bind_eq_ok.mp h
  rw [hwords slot found hread] at h
  rw [storedContent]
  dsimp only at h ⊢
  split at h
  · rename_i hodd
    obtain ⟨_, h⟩ := of_bind h
    obtain ⟨_, h⟩ := of_bind h
    obtain ⟨data, hdata, h⟩ := bind_eq_ok.mp h
    cases h
    rw [if_pos hodd, flatMap_of_mapM (fun index found => hwords _ found) hdata]
  · rename_i heven
    obtain ⟨_, h⟩ := of_bind h
    obtain ⟨_, h⟩ := of_bind h
    cases h
    rw [if_neg heven]

def wordsOf (storage : ContractStorage ε) (key : U256) : U256 :=
  ((storage key).toOption.getD none).getD 0

/-- Readers of one state return the same. -/
theorem readBytes_agree {δ : Type} {other : ContractStorage δ} {first : SolidityBytesErrors ε}
    {second : SolidityBytesErrors δ} {maximum limit : Nat} {checked limited : Bool} {cs : Bytes}
    (hsame : SameStorage storage other)
    (h : readBytes first maximum checked storage slot = .ok bs)
    (h' : readBytes second limit limited other slot = .ok cs) : bs = cs := by
  have hfirst : ∀ key found, storage key = .ok found → found.getD 0 = wordsOf storage key := by
    intro key found hread
    rw [wordsOf, hread]
    rfl
  have hsecond : ∀ key found, other key = .ok found → found.getD 0 = wordsOf storage key := by
    intro key found hread
    rw [wordsOf, hsame key, hread]
    rfl
  rw [readBytes_content hfirst h, readBytes_content hsecond h']

end Reading

/-- Array elements that are stored within the limits are read in their order. -/
theorem readSolidityBytesArray_of_stored {storage : ContractStorage DkgStorageError} {slot : U256}
    {maximum : UInt64} {elements : List Bytes} (h : StoredArray storage slot elements)
    (hcount : elements.length ≤ maximum.toNat)
    (hle : ∀ element ∈ elements, element.length ≤ neoxDkgMessageLen.toNat) :
    DkgStorage.readSolidityBytesArray storage slot maximum = .ok elements := by
  obtain ⟨⟨found, hread, hheader⟩, helements⟩ := h
  have hlt := maximum.toNat_lt
  have hvalue : (BitVec.ofNat 256 elements.length).toNat = elements.length := by
    rw [BitVec.toNat_ofNat, Nat.mod_eq_of_lt (by omega)]
  rw [DkgStorage.readSolidityBytesArray, hread, ok_bind, hheader]
  dsimp only
  rw [hvalue, require_of _ (by omega), ok_bind, require_of _ hcount, ok_bind]
  refine mapM_eq_ok_of_forall₂ (((forall₂_and_left _ _).mpr ⟨hle, helements.flip⟩).flip.imp ?_)
  intro index element helement
  exact readBytes_of_stored _ _ helement.2 helement.1 neoxDkgMessageLen.toNat_lt

/-- What is stored, short or long, within the limit of a reader is exactly what it returns; an
array is returned with every element in its place; and readers of one state that all succeed
return the same. -/
theorem solidityBytes_exact (first : ContractStorage KeyManagementError)
    (second : ContractStorage DkgStorageError) (third : ContractStorage DkgTaskContractStateError)
    (slot : U256) (maximum : UInt64) :
    (∀ bytes, StoredBytes first slot bytes → bytes.length ≤ maxSolidityBytesLen →
      readSolidityBytes first slot = .ok bytes) ∧
    (∀ bytes, StoredBytes second slot bytes → bytes.length ≤ maximum.toNat →
      DkgStorage.readSolidityBytes second slot maximum = .ok bytes) ∧
    (∀ bytes, StoredBytes third slot bytes → bytes.length ≤ maxMessageKeyBytesLen →
      DkgTaskContractState.readSolidityBytes third slot = .ok bytes) ∧
    (∀ elements, StoredArray second slot elements → elements.length ≤ maximum.toNat →
      (∀ element ∈ elements, element.length ≤ neoxDkgMessageLen.toNat) →
      DkgStorage.readSolidityBytesArray second slot maximum = .ok elements) ∧
    (SameStorage first second → SameStorage first third → ∀ a b c,
      readSolidityBytes first slot = .ok a →
      DkgStorage.readSolidityBytes second slot maximum = .ok b →
      DkgTaskContractState.readSolidityBytes third slot = .ok c → a = b ∧ a = c) := by
  refine ⟨?_, ?_, ?_, ?_, ?_⟩
  · intro bytes h hle
    rw [readSolidityBytes_eq]
    exact readBytes_of_stored _ _ h hle (by decide)
  · intro bytes h hle
    exact readBytes_of_stored _ _ h hle maximum.toNat_lt
  · intro bytes h hle
    exact readBytes_of_stored _ _ h hle (by decide)
  · intro elements h hcount hle
    exact readSolidityBytesArray_of_stored h hcount hle
  · intro hsecond hthird a b c ha hb hc
    rw [readSolidityBytes_eq] at ha
    exact ⟨readBytes_agree hsecond ha hb, readBytes_agree hthird ha hc⟩

end Readers

section Witness

open scoped ScalarCurve

/-- A short string at almost every slot. Its word is also the one of a string of 32 bytes. -/
def repeatedStorage (ε : Type) : ContractStorage ε := fun key =>
  .ok (some (if key = 1 then 65 else if key = 2 then 1 else shortWord [1, 2, 3]))

def longBytes : Bytes := [1, 2, 3] ++ replicate 28 0 ++ [6]

theorem repeatedStorage_long (ε : Type) : StoredBytes (repeatedStorage ε) 1 longBytes := by
  exact (if_neg (by decide)).mpr ⟨⟨_, rfl, by decide⟩, .cons ⟨_, rfl, by decide +kernel⟩ .nil⟩

theorem repeatedStorage_array (ε : Type) : StoredArray (repeatedStorage ε) 2 [[1, 2, 3]] :=
  ⟨⟨_, rfl, by decide⟩, .cons ((if_pos (by decide)).mpr ⟨_, rfl, by decide +kernel⟩) .nil⟩

theorem solidityBytes_exact_repeated :
    readSolidityBytes (repeatedStorage _) 1 = .ok longBytes ∧
    DkgStorage.readSolidityBytes (repeatedStorage _) 1 32 = .ok longBytes ∧
    DkgTaskContractState.readSolidityBytes (repeatedStorage _) 1 = .ok longBytes ∧
    DkgStorage.readSolidityBytesArray (repeatedStorage _) 2 1 = .ok [[1, 2, 3]] := by
  obtain ⟨hfirst, hsecond, hthird, -, -⟩ := solidityBytes_exact (repeatedStorage _)
    (repeatedStorage _) (repeatedStorage _) 1 32
  obtain ⟨-, -, -, harray, -⟩ := solidityBytes_exact (repeatedStorage _)
    (repeatedStorage _) (repeatedStorage _) 2 1
  exact ⟨hfirst _ (repeatedStorage_long _) (by decide),
    hsecond _ (repeatedStorage_long _) (by decide), hthird _ (repeatedStorage_long _) (by decide),
    harray _ (repeatedStorage_array _) (by decide) (by decide)⟩

end Witness

end NeoX
