import NeoX.Library.LineLog
import NeoX.Library.Machine
import NeoX.Primitives

/-!
# The duty journal of a signer

A validator binds every consensus duty, a height, a view and a kind, to the hash of
the payload it signed. The journal is a text file with one line for each duty; it is
read back when the process starts and consulted before anything is signed.

Main results:

- `Host.acknowledged_retained`: as long as no append starts behind an
  unfinished line, every acknowledged duty is loaded by every later start and every
  other hash for it is refused.
- `Host.acknowledged_lost`: an append behind the unfinished line of a
  crash loses the duty it acknowledges.
-/

namespace NeoX

open LineLog List

/-! ## Text of a record -/

/-- The separator of the fields of a record. -/
def colon : UInt8 := 58

def decimal (number : Nat) : Bytes :=
  if number = 0 then [48]
  else (Nat.digits 10 number).reverse.map fun digit => UInt8.ofNat (48 + digit)

/-- One hexadecimal digit in lower case. -/
def hexDigit (digit : Nat) : UInt8 :=
  if digit < 10 then UInt8.ofNat (48 + digit) else UInt8.ofNat (87 + digit)

/-- The two hexadecimal digits of a byte. -/
def hexByte (byte : UInt8) : Bytes :=
  [hexDigit (byte.toNat / 16), hexDigit (byte.toNat % 16)]

def hexEncode (hash : B256) : Bytes :=
  hash.bytes.flatMap hexByte

/-- Whether a byte is a hexadecimal digit in either case. -/
def isHexDigit (byte : UInt8) : Bool :=
  (48 ≤ byte && byte ≤ 57) || (97 ≤ byte && byte ≤ 102) || (65 ≤ byte && byte ≤ 70)

def toLower (byte : UInt8) : UInt8 :=
  if 65 ≤ byte ∧ byte ≤ 90 then byte + 32 else byte

def rsplitOnce (separator : UInt8) : Bytes → Option (Bytes × Bytes)
  | [] => none
  | byte :: rest =>
    match rsplitOnce separator rest with
    | some (front, back) => some (byte :: front, back)
    | none => if byte = separator then some ([], rest) else none

/-- A consensus duty. -/
structure Duty where
  blockIndex : UInt64
  viewNumber : UInt8
  kind : UInt8
  deriving DecidableEq

def headerCommitDuty (height : UInt64) : Duty := ⟨height, 0, 0xff⟩

def Duty.key (duty : Duty) : Bytes :=
  decimal duty.blockIndex.toNat ++ colon ::
    (decimal duty.viewNumber.toNat ++ colon :: decimal duty.kind.toNat)

/-- Read a complete record: a duty and a full payload hash. -/
def parseRecord (line : Bytes) : Option (Bytes × Bytes) :=
  match rsplitOnce colon line with
  | none => none
  | some (duty, hash) =>
    if hash.length = 64 ∧ hash.all isHexDigit then some (duty, hash.map toLower) else none

/-! ### Splitting -/

variable {separator : UInt8} {line : Bytes}

theorem rsplitOnce_of_notMem (hline : separator ∉ line) :
    rsplitOnce separator line = none := by
  induction line with
  | nil => rfl
  | cons byte line ih =>
    rw [mem_cons, not_or] at hline
    rcases hline with ⟨hbyte, hline⟩
    simp [rsplitOnce, ih hline, Ne.symm hbyte]

theorem rsplitOnce_append (front : Bytes) {back : Bytes} (hback : separator ∉ back) :
    rsplitOnce separator (front ++ separator :: back) = some (front, back) := by
  induction front with
  | nil => simp [rsplitOnce, rsplitOnce_of_notMem hback]
  | cons byte front ih => simp [rsplitOnce, ih]

theorem eq_of_rsplitOnce {front back : Bytes}
    (hsplit : rsplitOnce separator line = some (front, back)) :
    line = front ++ separator :: back := by
  induction line generalizing front with
  | nil => cases hsplit
  | cons byte line ih =>
    rw [rsplitOnce] at hsplit
    cases hr : rsplitOnce separator line with
    | some found =>
      rcases found with ⟨otherFront, otherBack⟩
      rw [hr] at hsplit
      cases hsplit
      rw [ih hr, cons_append]
    | none =>
      rw [hr] at hsplit
      by_cases hbyte : byte = separator
      · rw [if_pos hbyte] at hsplit
        cases hsplit
        rw [hbyte, nil_append]
      · rw [if_neg hbyte] at hsplit
        cases hsplit

/-! ### Digits -/

theorem mem_decimal {number : Nat} {byte : UInt8} (hbyte : byte ∈ decimal number) :
    48 ≤ byte.toNat ∧ byte.toNat ≤ 57 := by
  unfold decimal at hbyte
  by_cases h0 : number = 0
  · rw [if_pos h0, mem_singleton] at hbyte
    subst hbyte
    decide
  · rw [if_neg h0, mem_map] at hbyte
    rcases hbyte with ⟨digit, hdigit, rfl⟩
    have hlt := Nat.digits_lt_base (by norm_num) (mem_reverse.mp hdigit)
    rw [UInt8.toNat_ofNat', Nat.mod_eq_of_lt (by omega)]
    omega

theorem length_decimal_le {number count : Nat} (hnum : number < 10 ^ count)
    (hc : 0 < count) : (decimal number).length ≤ count := by
  unfold decimal
  by_cases h0 : number = 0
  · rw [if_pos h0, length_singleton]
    exact hc
  · rw [if_neg h0, length_map, length_reverse]
    exact (Nat.digits_length_le_iff (by norm_num) number).mpr hnum

theorem hexDigit_spec {digit : Nat} (hdigit : digit < 16) :
    isHexDigit (hexDigit digit) = true ∧ toLower (hexDigit digit) = hexDigit digit ∧
      hexDigit digit ≠ colon ∧ hexDigit digit ≠ newline ∧ hexDigit digit ≠ carriageReturn := by
  have hall : ∀ digit : Fin 16, isHexDigit (hexDigit digit) = true ∧
      toLower (hexDigit digit) = hexDigit digit ∧ hexDigit digit ≠ colon ∧
      hexDigit digit ≠ newline ∧ hexDigit digit ≠ carriageReturn := by decide
  exact hall ⟨digit, hdigit⟩

theorem hexDigit_injective {a b : Nat} (h1 : a < 16) (h2 : b < 16)
    (heq : hexDigit a = hexDigit b) : a = b := by
  have hall : ∀ a b : Fin 16, hexDigit a = hexDigit b → a = b := by
    decide
  exact congrArg Fin.val (hall ⟨a, h1⟩ ⟨b, h2⟩ heq)

theorem hexByte_injective : Function.Injective hexByte := by
  intro a b heq
  have h1 := a.toNat_lt
  have h2 := b.toNat_lt
  rw [hexByte, hexByte, cons.injEq, cons.injEq] at heq
  have hhigh := hexDigit_injective (by omega) (by omega) heq.1
  have hlow := hexDigit_injective (by omega) (by omega) heq.2.1
  apply UInt8.toNat_inj.mp
  omega

theorem mem_hexEncode {hash : B256} {byte : UInt8} (hbyte : byte ∈ hexEncode hash) :
    ∃ digit < 16, byte = hexDigit digit := by
  rcases mem_flatMap.mp hbyte with ⟨source, -, hmem⟩
  have hsource := source.toNat_lt
  rw [hexByte, mem_cons, mem_singleton] at hmem
  rcases hmem with rfl | rfl
  · exact ⟨_, by omega, rfl⟩
  · exact ⟨_, by omega, rfl⟩

theorem length_hexEncode (hash : B256) : (hexEncode hash).length = 64 := by
  have hlen := hash.length_eq
  simp [hexEncode, hexByte, length_flatMap, hlen]

theorem hexEncode_injective : Function.Injective hexEncode := by
  have hflat : ∀ first second : Bytes, first.flatMap hexByte = second.flatMap hexByte →
      first = second := by
    intro first
    induction first with
    | nil =>
      intro second heq
      cases second with
      | nil => rfl
      | cons byte second => cases heq
    | cons byte first ih =>
      intro second heq
      cases second with
      | nil => cases heq
      | cons other second =>
        rw [flatMap_cons, flatMap_cons] at heq
        rcases append_inj heq rfl with ⟨hhead, htail⟩
        rw [hexByte_injective hhead, ih second htail]
  intro first second heq
  exact FixedBytes.ext (hflat _ _ heq)

/-! ### The record format -/

theorem length_key_lt (duty : Duty) : duty.key.length < 64 := by
  have hblock : (decimal duty.blockIndex.toNat).length ≤ 20 :=
    length_decimal_le (lt_of_lt_of_le duty.blockIndex.toNat_lt (by norm_num)) (by norm_num)
  have hv : (decimal duty.viewNumber.toNat).length ≤ 3 :=
    length_decimal_le (lt_of_lt_of_le duty.viewNumber.toNat_lt (by norm_num)) (by norm_num)
  have hk : (decimal duty.kind.toNat).length ≤ 3 :=
    length_decimal_le (lt_of_lt_of_le duty.kind.toNat_lt (by norm_num)) (by norm_num)
  simp only [Duty.key, length_append, length_cons]
  omega

theorem mem_key {duty : Duty} {byte : UInt8} (hbyte : byte ∈ duty.key) :
    48 ≤ byte.toNat ∧ byte.toNat ≤ 58 := by
  have hcolon : colon.toNat = 58 := rfl
  simp only [Duty.key, mem_append, mem_cons] at hbyte
  rcases hbyte with hbyte | rfl | hbyte | rfl | hbyte
  · have := mem_decimal hbyte
    omega
  · omega
  · have := mem_decimal hbyte
    omega
  · omega
  · have := mem_decimal hbyte
    omega

theorem colon_notMem_hexEncode (hash : B256) : colon ∉ hexEncode hash := by
  intro hmem
  rcases mem_hexEncode hmem with ⟨digit, hdigit, heq⟩
  exact (hexDigit_spec hdigit).2.2.1 heq.symm

theorem toLower_hexEncode (hash : B256) : (hexEncode hash).map toLower = hexEncode hash := by
  conv_rhs => rw [← map_id (hexEncode hash)]
  apply map_congr_left
  intro byte hbyte
  rcases mem_hexEncode hbyte with ⟨digit, hdigit, rfl⟩
  exact (hexDigit_spec hdigit).2.1

/-- The line of a duty and a payload hash, without its newline. -/
def renderRecord (entry : Duty × B256) : Bytes :=
  entry.1.key ++ colon :: hexEncode entry.2

theorem parseRecord_render (e : Duty × B256) :
    parseRecord (renderRecord e) = some (e.1.key, hexEncode e.2) := by
  have hdigits : (hexEncode e.2).all isHexDigit = true := by
    rw [all_eq_true]
    intro byte hbyte
    rcases mem_hexEncode hbyte with ⟨digit, hdigit, rfl⟩
    exact (hexDigit_spec hdigit).1
  rw [parseRecord, renderRecord, rsplitOnce_append _ (colon_notMem_hexEncode e.2)]
  simp only
  rw [if_pos ⟨length_hexEncode e.2, hdigits⟩, toLower_hexEncode]

theorem parseRecord_torn (e : Duty × B256) (count : Nat) (hc : count < (renderRecord e).length) :
    parseRecord ((renderRecord e).take count) = none := by
  have hkey := length_key_lt e.1
  have hhash := length_hexEncode e.2
  by_cases hshort : count ≤ e.1.key.length
  · -- Fewer bytes than a separator and a full hash need.
    unfold parseRecord
    cases hsplit : rsplitOnce colon ((renderRecord e).take count) with
    | none => rfl
    | some found =>
      have hline := congrArg length (eq_of_rsplitOnce hsplit)
      rw [length_append, length_cons, length_take] at hline
      have hlen : ¬ (found.2.length = 64 ∧ found.2.all isHexDigit = true) := by
        rintro ⟨hfull, -⟩
        omega
      simp only
      rw [if_neg hlen]
  · -- The whole duty and a proper part of the hash.
    push Not at hshort
    rcases Nat.exists_eq_add_of_lt hshort with ⟨digits, rfl⟩
    have htake : (renderRecord e).take (e.1.key.length + digits + 1)
        = e.1.key ++ colon :: (hexEncode e.2).take digits := by
      rw [renderRecord, add_assoc, take_length_add_append, take_succ_cons]
    have hdigits : colon ∉ (hexEncode e.2).take digits := fun hmem =>
      colon_notMem_hexEncode e.2 (mem_of_mem_take hmem)
    have htot : (renderRecord e).length = e.1.key.length + 65 := by
      rw [renderRecord, length_append, length_cons, hhash]
    rw [htake, parseRecord, rsplitOnce_append _ hdigits]
    simp only
    rw [if_neg]
    rintro ⟨hfull, -⟩
    rw [length_take] at hfull
    omega

theorem notMem_renderRecord {byte : UInt8} (hlow : byte.toNat < 48)
    (hhex : ∀ digit < 16, hexDigit digit ≠ byte) (entry : Duty × B256) :
    byte ∉ renderRecord entry := by
  intro hmem
  rw [renderRecord, mem_append, mem_cons] at hmem
  rcases hmem with hmem | rfl | hmem
  · have := mem_key hmem
    omega
  · exact absurd hlow (by decide)
  · rcases mem_hexEncode hmem with ⟨digit, hdigit, heq⟩
    exact hhex digit hdigit heq.symm

def dutyFormat : Format (Duty × B256) Bytes Bytes where
  render := renderRecord
  parse := parseRecord
  key entry := entry.1.key
  value entry := hexEncode entry.2
  parse_render := parseRecord_render
  parse_torn := parseRecord_torn
  newline_notMem := notMem_renderRecord (by decide) fun _ hdigit => (hexDigit_spec hdigit).2.2.2.1
  return_notMem := notMem_renderRecord (by decide) fun _ hdigit => (hexDigit_spec hdigit).2.2.2.2

/-! ## The journal -/

inductive DutyError where
  | dutyJournal
  | conflictingDuty (duty recorded attempted : Bytes)
  deriving DecidableEq

/-- What the running process knows: the recorded hash of every duty. -/
structure DutyJournal where
  signed : FiniteMap Bytes Bytes

/-- How an append to the file ends: durable, or with an error after some bytes. -/
inductive AppendOutcome where
  | synced
  | failed (kept : Nat)
  deriving DecidableEq

variable {file : Bytes}

namespace DutyJournal

/-- Read the complete records of a journal file. -/
def «open» (file : Bytes) : DutyJournal :=
  ⟨dutyFormat.load file⟩

/-- Record a duty: agree with what was recorded, or append a line and remember it. The result
comes with the journal and the file that the call leaves. -/
def record (journal : DutyJournal) (file : Bytes) (duty : Duty) (payloadHash : B256)
    (outcome : AppendOutcome) : Except DutyError Unit × DutyJournal × Bytes :=
  match journal.signed.lookup duty.key with
  | some recorded =>
    if recorded = hexEncode payloadHash then
      (.ok (), journal, file)
    else
      (.error (.conflictingDuty duty.key recorded (hexEncode payloadHash)), journal, file)
  | none =>
    let line := dutyFormat.line (duty, payloadHash)
    match outcome with
    | .synced =>
      (.ok (), ⟨journal.signed.insert duty.key (hexEncode payloadHash)⟩, file ++ line)
    | .failed kept => (.error .dutyJournal, journal, file ++ line.take kept)

theorem record_conflict {journal : DutyJournal} {duty : Duty} {hash other : B256}
    (hsigned : journal.signed.lookup duty.key = some (hexEncode hash)) (ho : other ≠ hash)
    (file : Bytes) (out : AppendOutcome) :
    (journal.record file duty other out).1
      = .error (.conflictingDuty duty.key (hexEncode hash) (hexEncode other)) := by
  have hne : hexEncode hash ≠ hexEncode other := fun heq =>
    ho (hexEncode_injective heq).symm
  rw [record, hsigned]
  simp only [if_neg hne]

/-- A call that returns without error leaves its duty recorded with its hash. -/
theorem lookup_record_of_ok {journal : DutyJournal} {duty : Duty} {hash : B256}
    {out : AppendOutcome} (hok : (journal.record file duty hash out).1 = .ok ()) :
    (journal.record file duty hash out).2.1.signed.lookup duty.key = some (hexEncode hash) := by
  unfold record at hok ⊢
  cases hget : journal.signed.lookup duty.key with
  | some recorded =>
    rw [hget] at hok
    by_cases hsame : recorded = hexEncode hash
    · simp only [if_pos hsame]
      exact hsame ▸ hget
    · simp only [if_neg hsame] at hok
      cases hok
  | none =>
    rw [hget] at hok
    cases out with
    | synced => exact AList.lookup_insert _
    | failed kept => cases hok

/-- No call changes what is recorded for a duty. -/
theorem lookup_record {journal : DutyJournal} {key value : Bytes}
    (hv : journal.signed.lookup key = some value) (file : Bytes) (duty : Duty) (hash : B256)
    (out : AppendOutcome) :
    (journal.record file duty hash out).2.1.signed.lookup key = some value := by
  unfold record
  cases hget : journal.signed.lookup duty.key with
  | some recorded =>
    by_cases hsame : recorded = hexEncode hash
    · simp only [if_pos hsame]
      exact hv
    · simp only [if_neg hsame]
      exact hv
  | none =>
    have hne : key ≠ duty.key := by
      rintro rfl
      rw [hget] at hv
      cases hv
    cases out with
    | synced => exact (AList.lookup_insert_ne hne).trans hv
    | failed kept => exact hv

end DutyJournal

/-! ## Restarts and crashes -/

/-- A machine with the journal file, the process that has it open, and every duty whose
recording returned without error. -/
structure Host where
  file : Bytes
  journal : Option DutyJournal
  acknowledged : List (Duty × B256)

/-- What can happen to the machine. -/
inductive HostEvent where
  | start
  | record (duty : Duty) (payloadHash : B256) (outcome : AppendOutcome)
  | crash
  | crashDuringRecord (duty : Duty) (payloadHash : B256) (kept : Nat)
  deriving DecidableEq

namespace Host

def initial : Host := ⟨[], none, []⟩

/-- The file after a process died in a call that had written `kept` bytes of its line. -/
def tornFile (host : Host) (duty : Duty) (payloadHash : B256) (kept : Nat) : Bytes :=
  match host.journal with
  | none => host.file
  | some journal => (journal.record host.file duty payloadHash (.failed kept)).2.2

def step (host : Host) : HostEvent → Host
  | .start => { host with journal := some (DutyJournal.open host.file) }
  | .record duty payloadHash outcome =>
    match host.journal with
    | none => host
    | some journal =>
      match journal.record host.file duty payloadHash outcome with
      | (.ok (), journal, file) =>
        ⟨file, some journal, (duty, payloadHash) :: host.acknowledged⟩
      | (.error _, journal, file) => ⟨file, some journal, host.acknowledged⟩
  | .crash => { host with journal := none }
  | .crashDuringRecord duty payloadHash kept =>
    ⟨host.tornFile duty payloadHash kept, none, host.acknowledged⟩

/-- The machine after a sequence of events. -/
def run (host : Host) (events : List HostEvent) : Host :=
  Machine.run step host events

/-- The duty an event asks the running process to record. -/
def requested : HostEvent → Option Duty
  | .record duty _ _ | .crashDuringRecord duty _ _ => some duty
  | .start | .crash => none

/-- An event that makes the process append finds only complete lines in the file. -/
def AppendsCleanly (host : Host) (event : HostEvent) : Prop :=
  ∀ journal ∈ host.journal, ∀ duty ∈ requested event,
    journal.signed.lookup duty.key = none → Terminated host.file

/-- Every append of a sequence of events finds only complete lines. -/
def CleanRun (host : Host) (events : List HostEvent) : Prop :=
  Machine.Guarded step AppendsCleanly host events

/-- Every acknowledged duty is in the running process, and what that knows is in the file. -/
structure Retains (host : Host) : Prop where
  loaded : ∀ entry ∈ host.acknowledged,
    (DutyJournal.open host.file).signed.lookup entry.1.key = some (hexEncode entry.2)
  remembered : ∀ journal ∈ host.journal, ∀ entry ∈ host.acknowledged,
    journal.signed.lookup entry.1.key = some (hexEncode entry.2)
  durable : ∀ journal ∈ host.journal, ∀ key value, journal.signed.lookup key = some value →
    (DutyJournal.open host.file).signed.lookup key = some value

theorem retains_initial : Retains initial where
  loaded _ he := absurd he not_mem_nil
  remembered _ hj := absurd hj (by simp [initial])
  durable _ hj := absurd hj (by simp [initial])

theorem Retains.stopped {host : Host} (hloaded : ∀ e ∈ host.acknowledged,
      (DutyJournal.open file).signed.lookup e.1.key = some (hexEncode e.2)) :
    Retains ⟨file, none, host.acknowledged⟩ where
  loaded := hloaded
  remembered _ hj := absurd hj (by simp)
  durable _ hj := absurd hj (by simp)

section Appending

variable {host : Host} {journal : DutyJournal} {duty : Duty} {payloadHash : B256}

theorem Retains.durable_take (hreta : Retains host) (hj : host.journal = some journal)
    (hnew : journal.signed.lookup duty.key = none) (hclean : Terminated host.file) (kept : Nat)
    {key value : Bytes} (hv : journal.signed.lookup key = some value) :
    (DutyJournal.open (host.file ++ (dutyFormat.line (duty, payloadHash)).take kept)).signed.lookup
      key = some value := by
  have hne : key ≠ duty.key := by
    rintro rfl
    rw [hnew] at hv
    cases hv
  exact (dutyFormat.lookup_load_append_take hclean (duty, payloadHash) kept hne).trans
    (hreta.durable journal hj key value hv)

theorem Retains.failed (hreta : Retains host) (hj : host.journal = some journal)
    (hnew : journal.signed.lookup duty.key = none) (hclean : Terminated host.file) (kept : Nat) :
    Retains ⟨host.file ++ (dutyFormat.line (duty, payloadHash)).take kept, some journal,
      host.acknowledged⟩ where
  loaded entry he := hreta.durable_take hj hnew hclean kept
    (hreta.remembered journal hj entry he)
  remembered found hf := Option.some.inj hf ▸ hreta.remembered journal hj
  durable found hf _ _ hv := by
    cases hf
    exact hreta.durable_take hj hnew hclean kept hv

/-- A durable append adds its duty. -/
theorem Retains.synced (hreta : Retains host) (hj : host.journal = some journal)
    (hnew : journal.signed.lookup duty.key = none) (hclean : Terminated host.file) :
    Retains ⟨host.file ++ dutyFormat.line (duty, payloadHash),
      some ⟨journal.signed.insert duty.key (hexEncode payloadHash)⟩,
      (duty, payloadHash) :: host.acknowledged⟩ := by
  have hload := dutyFormat.load_append_line hclean (duty, payloadHash)
  have hown : (DutyJournal.open (host.file ++ dutyFormat.line (duty, payloadHash))).signed.lookup
      duty.key = some (hexEncode payloadHash) := by
    rw [DutyJournal.open, hload]
    exact AList.lookup_insert _
  have hold : ∀ key value, journal.signed.lookup key = some value →
      (DutyJournal.open (host.file ++ dutyFormat.line (duty, payloadHash))).signed.lookup key
        = some value := by
    intro key value hv
    have htake := dutyFormat.line (duty, payloadHash) |>.take_length
    rw [← htake]
    exact hreta.durable_take hj hnew hclean _ hv
  have hinsert : ∀ key value, journal.signed.lookup key = some value →
      (journal.signed.insert duty.key (hexEncode payloadHash)).lookup key = some value := by
    intro key value hv
    have hne : key ≠ duty.key := by
      rintro rfl
      rw [hnew] at hv
      cases hv
    rw [AList.lookup_insert_ne hne, hv]
  refine ⟨?_, ?_, ?_⟩
  · intro e he
    rcases mem_cons.mp he with rfl | he
    · exact hown
    · exact hold _ _ (hreta.remembered journal hj e he)
  · intro found hf e he
    cases hf
    rcases mem_cons.mp he with rfl | he
    · exact AList.lookup_insert _
    · exact hinsert _ _ (hreta.remembered journal hj e he)
  · intro found hf key value hv
    cases hf
    by_cases hkey : key = duty.key
    · subst hkey
      simp only [AList.lookup_insert] at hv
      cases hv
      exact hown
    · rw [AList.lookup_insert_ne hkey] at hv
      exact hold key value hv

/-- Recording the recorded payload again acknowledges what is already in the file. -/
theorem Retains.agreed (hreta : Retains host) (hj : host.journal = some journal)
    (hrec : journal.signed.lookup duty.key = some (hexEncode payloadHash)) :
    Retains ⟨host.file, some journal, (duty, payloadHash) :: host.acknowledged⟩ where
  loaded entry he := by
    rcases mem_cons.mp he with rfl | he
    · exact hreta.durable journal hj _ _ hrec
    · exact hreta.loaded entry he
  remembered found hf entry he := by
    cases hf
    rcases mem_cons.mp he with rfl | he
    · exact hrec
    · exact hreta.remembered journal hj entry he
  durable found hf := Option.some.inj hf ▸ hreta.durable journal hj

end Appending

theorem Retains.step {host : Host} (hreta : Retains host) {event : HostEvent}
    (hclean : host.AppendsCleanly event) : Retains (host.step event) := by
  cases event with
  | start =>
    refine ⟨hreta.loaded, ?_, ?_⟩
    · intro journal hj
      cases hj
      exact hreta.loaded
    · intro journal hj key v hv
      cases hj
      exact hv
  | record duty payloadHash out =>
    cases hj : host.journal with
    | none => simpa only [Host.step, hj] using hreta
    | some journal =>
      have hsame : Retains ⟨host.file, some journal, host.acknowledged⟩ := hj ▸ hreta
      simp only [Host.step, hj, DutyJournal.record]
      cases hget : journal.signed.lookup duty.key with
      | some recorded =>
        by_cases hagree : recorded = hexEncode payloadHash
        · simpa only [if_pos hagree] using hreta.agreed hj (hagree ▸ hget)
        · simpa only [if_neg hagree] using hsame
      | none =>
        have hterm := hclean journal hj duty rfl hget
        cases out with
        | synced => exact hreta.synced hj hget hterm
        | failed kept => exact hreta.failed hj hget hterm kept
  | crash => exact Retains.stopped hreta.loaded
  | crashDuringRecord duty payloadHash kept =>
    refine Retains.stopped ?_
    cases hj : host.journal with
    | none => simpa only [tornFile, hj] using hreta.loaded
    | some journal =>
      simp only [tornFile, hj, DutyJournal.record]
      cases hget : journal.signed.lookup duty.key with
      | some recorded =>
        by_cases hagree : recorded = hexEncode payloadHash
        · simpa only [if_pos hagree] using hreta.loaded
        · simpa only [if_neg hagree] using hreta.loaded
      | none =>
        have hterm := hclean journal hj duty rfl hget
        exact (hreta.failed hj hget hterm kept).loaded

theorem Retains.run {host : Host} (hreta : Retains host) {events : List HostEvent}
    (hclean : CleanRun host events) : Retains (host.run events) :=
  Machine.invariant_of_guarded (fun _ _ hs hevent => hs.step hevent) hreta hclean

/--
In every run whose appends all start behind complete lines, an acknowledged duty is
loaded with its hash by every start, and the running process refuses any other hash.
-/
theorem acknowledged_retained (events : List HostEvent) (hclean : CleanRun initial events)
    (duty : Duty) (hash : B256) (hack : (duty, hash) ∈ (initial.run events).acknowledged) :
    (DutyJournal.open (initial.run events).file).signed.lookup duty.key = some (hexEncode hash) ∧
      ∀ journal, (initial.run events).journal = some journal →
        ∀ other ≠ hash, ∀ outcome,
          (journal.record (initial.run events).file duty other outcome).1
            = .error (.conflictingDuty duty.key (hexEncode hash) (hexEncode other)) := by
  have hretains := retains_initial.run hclean
  refine ⟨hretains.loaded _ hack, ?_⟩
  intro journal hjournal other hother outcome
  exact DutyJournal.record_conflict (hretains.remembered journal hjournal _ hack) hother _ _

/-- A duty recorded before a crash in the next append is loaded by the restarted process. -/
theorem acknowledged_retained_restart :
    let events := [.start, .record (headerCommitDuty 42) (.ofNat 32 1) .synced,
      .crashDuringRecord (headerCommitDuty 43) (.ofNat 32 2) 14, .start]
    CleanRun initial events ∧
      (DutyJournal.open (initial.run events).file).signed.lookup (headerCommitDuty 42).key
        = some (hexEncode (.ofNat 32 1)) := by
  have hclean : CleanRun initial
      [.start, .record (headerCommitDuty 42) (.ofNat 32 1) .synced,
        .crashDuringRecord (headerCommitDuty 43) (.ofNat 32 2) 14, .start] := by
    refine ⟨?_, ?_, ?_, ?_, trivial⟩
    · intro journal hjournal
      cases hjournal
    · intro journal hjournal duty hduty hnew
      exact Or.inl rfl
    · intro journal hjournal duty hduty hnew
      exact Or.inr (by decide +kernel)
    · intro journal hjournal
      cases hjournal
  exact ⟨hclean, (acknowledged_retained _ hclean (headerCommitDuty 42) (.ofNat 32 1)
    (by decide +kernel)).1⟩

/--
A crash leaves fourteen bytes of a line behind. The restarted process records the same
duty behind them, so the next start reads one line that names another duty, and a
different header is accepted for the height.
-/
theorem acknowledged_lost :
    let events := [.start, .crashDuringRecord (headerCommitDuty 43) (.ofNat 32 1) 14,
      .start, .record (headerCommitDuty 43) (.ofNat 32 1) .synced, .crash, .start]
    let host := initial.run events
    (headerCommitDuty 43, .ofNat 32 1) ∈ host.acknowledged ∧
      (DutyJournal.open host.file).signed.lookup (headerCommitDuty 43).key = none ∧
      ((host.journal.map fun journal =>
        (journal.record host.file (headerCommitDuty 43) (.ofNat 32 2) .synced).1)
          = some (.ok ())) := by
  decide +kernel

end Host

end NeoX
