import NeoX.Library.BigEndian
import NeoX.Library.FiniteMap

/-!
# Append-only line logs

A log file is a sequence of lines, each written in one append. A crash during an
append leaves some first bytes of the line behind. A reader splits the file into
lines and keeps the last record it finds for each key.

Main results:

- `lines_append_of_terminated`: appending to a file whose last line is
  complete adds lines and changes none.
- `Format.load_append_take`: a torn append to such a file either adds
  the record that was being written or nothing.
-/

namespace LineLog

open List

/-! ## Lines of a file -/

def newline : UInt8 := 10

/-- The byte that is dropped when it stands right before a newline. -/
def carriageReturn : UInt8 := 13

/-- A line without the carriage return of a two-byte line ending. -/
def stripReturn (line : Bytes) : Bytes :=
  if line.getLast? = some carriageReturn then line.dropLast else line

/-- The lines of a file, where `current` holds the bytes since the last newline. -/
def linesFrom (current : Bytes) : Bytes → List Bytes
  | [] => if current = [] then [] else [current]
  | byte :: rest =>
    if byte = newline then stripReturn current :: linesFrom [] rest
    else linesFrom (current ++ [byte]) rest

/-- The lines of a file. The last one may lack its newline. -/
def lines (file : Bytes) : List Bytes :=
  linesFrom [] file

/-- The last line of a file is complete. -/
def Terminated (file : Bytes) : Prop :=
  file = [] ∨ file.getLast? = some newline

instance (file : Bytes) : Decidable (Terminated file) :=
  inferInstanceAs (Decidable (_ ∨ _))

theorem linesFrom_append_newline (cur front back : Bytes) :
    linesFrom cur (front ++ newline :: back)
      = linesFrom cur (front ++ [newline]) ++ lines back := by
  induction front generalizing cur with
  | nil => simp [linesFrom, lines]
  | cons byte front ih =>
    by_cases hbyte : byte = newline
    · simp [linesFrom, hbyte, ih]
    · simp [linesFrom, hbyte, ih]

theorem lines_append_of_terminated {file : Bytes} (hfile : Terminated file) (back : Bytes) :
    lines (file ++ back) = lines file ++ lines back := by
  rcases hfile with rfl | hl
  · simp [lines, linesFrom]
  · rcases getLast?_eq_some_iff.mp hl with ⟨front, rfl⟩
    rw [append_assoc]
    exact linesFrom_append_newline [] front back

theorem linesFrom_of_notMem {cur line : Bytes} (hline : newline ∉ line) :
    linesFrom cur line = if cur ++ line = [] then [] else [cur ++ line] := by
  induction line generalizing cur with
  | nil => simp [linesFrom]
  | cons byte line ih =>
    rw [mem_cons, not_or] at hline
    rcases hline with ⟨hbyte, hline⟩
    rw [linesFrom, if_neg (Ne.symm hbyte), ih hline]
    simp

theorem lines_of_notMem {line : Bytes} (hline : newline ∉ line) :
    lines line = if line = [] then [] else [line] :=
  linesFrom_of_notMem hline

theorem linesFrom_terminated {cur line : Bytes} (hline : newline ∉ line) :
    linesFrom cur (line ++ [newline]) = [stripReturn (cur ++ line)] := by
  induction line generalizing cur with
  | nil => simp [linesFrom]
  | cons byte line ih =>
    rw [mem_cons, not_or] at hline
    rcases hline with ⟨hbyte, hline⟩
    rw [cons_append, linesFrom, if_neg (Ne.symm hbyte), ih hline]
    simp

theorem lines_terminated {line : Bytes} (hline : newline ∉ line) (hreturn : carriageReturn ∉ line) :
    lines (line ++ [newline]) = [line] := by
  have hl : line.getLast? ≠ some carriageReturn := fun hl =>
    hreturn (mem_of_getLast? hl)
  have hlines := @linesFrom_terminated [] line hline
  rw [nil_append, stripReturn, if_neg hl] at hlines
  exact hlines

/-! ## Records -/

/-- A one-line format for records with a key and a value. No unfinished line reads as a record. -/
structure Format (R K V : Type) where
  render : R → Bytes
  parse : Bytes → Option (K × V)
  key : R → K
  value : R → V
  parse_render : ∀ entry, parse (render entry) = some (key entry, value entry)
  parse_torn : ∀ entry count, count < (render entry).length →
    parse ((render entry).take count) = none
  newline_notMem : ∀ entry, newline ∉ render entry
  return_notMem : ∀ entry, carriageReturn ∉ render entry

namespace Format

variable {R K V : Type} [DecidableEq K] (format : Format R K V)

def line (entry : R) : Bytes :=
  format.render entry ++ [newline]

/-- Keep the record of one line; a line that is no record is skipped. -/
def loadLine (map : FiniteMap K V) (line : Bytes) : FiniteMap K V :=
  match format.parse line with
  | none => map
  | some (key, value) => map.insert key value

/-- The last record of every key. -/
def load (file : Bytes) : FiniteMap K V :=
  (lines file).foldl format.loadLine ∅

variable {file : Bytes}

theorem load_append_line (hfile : Terminated file) (e : R) :
    format.load (file ++ format.line e)
      = (format.load file).insert (format.key e) (format.value e) := by
  have hlines := lines_terminated (format.newline_notMem e) (format.return_notMem e)
  unfold load line
  rw [lines_append_of_terminated hfile, hlines, foldl_append, foldl_cons, foldl_nil]
  simp only [loadLine, format.parse_render]

/-- The bytes of a record without its newline load like the finished record. -/
theorem load_append_render (hfile : Terminated file) (e : R) (hnone : format.render e ≠ []) :
    format.load (file ++ format.render e)
      = (format.load file).insert (format.key e) (format.value e) := by
  unfold load
  rw [lines_append_of_terminated hfile, lines_of_notMem (format.newline_notMem e),
    if_neg hnone, foldl_append, foldl_cons, foldl_nil]
  simp only [loadLine, format.parse_render]

/-- The first bytes of a record load as nothing. -/
theorem load_append_torn (hfile : Terminated file) (e : R) {count : Nat}
    (hc : count < (format.render e).length) :
    format.load (file ++ (format.render e).take count) = format.load file := by
  have hline : newline ∉ (format.render e).take count := fun hmem =>
    format.newline_notMem e (mem_of_mem_take hmem)
  unfold load
  rw [lines_append_of_terminated hfile, lines_of_notMem hline, foldl_append]
  by_cases hempty : (format.render e).take count = []
  · simp [hempty]
  · simp [hempty, loadLine, format.parse_torn e count hc]

/-- A torn append to complete lines adds the record being written or nothing. -/
theorem load_append_take (hfile : Terminated file) (e : R) (count : Nat) :
    format.load (file ++ (format.line e).take count) = format.load file ∨
      format.load (file ++ (format.line e).take count)
        = (format.load file).insert (format.key e) (format.value e) := by
  rcases lt_trichotomy count (format.render e).length with hlt | heq | hgt
  · rw [line, take_append_of_le_length hlt.le]
    exact Or.inl (format.load_append_torn hfile e hlt)
  · rw [line, take_append_of_le_length heq.le, heq, take_length]
    by_cases hempty : format.render e = []
    · rw [hempty, append_nil]
      exact Or.inl rfl
    · exact Or.inr (format.load_append_render hfile e hempty)
  · have hall : (format.line e).length ≤ count := by
      rw [line, length_append, length_singleton]
      omega
    rw [take_of_length_le hall]
    exact Or.inr (format.load_append_line hfile e)

/-- A torn append to complete lines changes the records of no other key. -/
theorem lookup_load_append_take (hfile : Terminated file) (e : R) (count : Nat) {other : K}
    (ho : other ≠ format.key e) :
    (format.load (file ++ (format.line e).take count)).lookup other
      = (format.load file).lookup other := by
  rcases format.load_append_take hfile e count with hload | hload
  · rw [hload]
  · rw [hload, AList.lookup_insert_ne ho]

end Format

end LineLog
