import NearestNeighbors.Csv.Record

/-!
# Reading records

The reader takes one byte at a time and is in one of five modes. Nothing but the mode,
the fields begun and the position is carried from one byte to the next, so a table is
read by a fold.

A comma ends a field; a carriage return or a line feed ends a record; line ends in
front of a record are skipped. A quote in front of a field opens a quoted field, in
which commas and line ends are plain bytes and two quotes stand for one; what follows
the closing quote up to the comma is plain as well. The end of the input ends what is
open.

* `State.step`: the effect of one byte.
* `readAll`: all records of a table.
* `dataRecords`: the records after the header.
-/

namespace NearestNeighbors.Csv

/-- The byte between two fields. -/
def comma : UInt8 := 44

/-- The byte around a quoted field. -/
def quote : UInt8 := 34

/-- The byte that starts a new line. -/
def lineFeed : UInt8 := 10

/-- A carriage return or a line feed. -/
def isLineEnd (b : UInt8) : Bool := b = 13 || b = lineFeed

/-- What the next byte means. -/
inductive Mode where
  /-- No field of the next record is open. -/
  | recordStart
  /-- After a comma. -/
  | fieldStart
  /-- In a field, outside quotes. -/
  | bare
  /-- Between the quotes of a field. -/
  | quoted
  /-- After a quote inside quotes: it closes them unless another one follows. -/
  | quoteEnd
  deriving DecidableEq, Repr

/-- The reader between two bytes. -/
structure State where
  mode : Mode
  /-- The field that is open. -/
  field : Array UInt8
  /-- The fields of the open record before it. -/
  fields : Array (List UInt8)
  /-- The records read. -/
  records : Array Record
  /-- Where the last of them ended. -/
  start : Position
  /-- The line the reader is on. -/
  line : Nat
  /-- The bytes behind the reader. -/
  byte : Nat
  deriving DecidableEq, Repr

namespace State

/-- A reader with `byte` bytes of a byte order mark behind it. -/
def afterMark (byte : Nat) : State :=
  ⟨.recordStart, #[], #[], #[], .start, 1, byte⟩

/-- Counts the byte `b`. -/
def count (s : State) (b : UInt8) : State :=
  { s with line := if b = lineFeed then s.line + 1 else s.line, byte := s.byte + 1 }

/-- Adds the byte `b` to the open field, which goes on in mode `mode`. -/
def push (s : State) (mode : Mode) (b : UInt8) : State :=
  { s with mode, field := s.field.push b }

/-- Ends the open field; another one follows. -/
def endField (s : State) : State :=
  { s with mode := .fieldStart, field := #[], fields := s.fields.push s.field.toList }

/-- Ends the open field and its record. -/
def endRecord (s : State) : State :=
  { s with
    mode := .recordStart
    field := #[]
    fields := #[]
    records := s.records.push ⟨s.start, (s.fields.push s.field.toList).toList⟩
    start := ⟨s.records.size + 1, s.line, s.byte⟩ }

/-- A byte outside quotes. -/
def outside (s : State) (b : UInt8) : State :=
  if b = comma then s.endField
  else if isLineEnd b then s.endRecord
  else s.push .bare b

/-- A byte in front of a field. -/
def opening (s : State) (b : UInt8) : State :=
  if b = quote then { s with mode := .quoted } else s.outside b

/-- The effect of a byte that is counted already. -/
def act (s : State) (b : UInt8) : State :=
  match s.mode with
  | .recordStart => if isLineEnd b then s else s.opening b
  | .fieldStart => s.opening b
  | .bare => s.outside b
  | .quoted => if b = quote then { s with mode := .quoteEnd } else s.push .quoted b
  | .quoteEnd => if b = quote then s.push .quoted b else s.outside b

/-- The effect of one byte. -/
def step (s : State) (b : UInt8) : State :=
  (s.count b).act b

/-- Takes in a row of bytes. -/
def run (s : State) (bytes : List UInt8) : State :=
  bytes.foldl step s

/-- Nothing but the state is carried over a cut of the input. -/
theorem run_append (s : State) (a b : List UInt8) : s.run (a ++ b) = (s.run a).run b :=
  List.foldl_append

/-- Every byte is counted. -/
theorem byte_step (s : State) (b : UInt8) : (s.step b).byte = s.byte + 1 := by
  grind [step, act, opening, outside, endField, endRecord, push, count]

/-- The reader has as many bytes behind it as it took in. -/
theorem byte_run (s : State) (bytes : List UInt8) : (s.run bytes).byte = s.byte + bytes.length := by
  induction bytes generalizing s with
  | nil => rfl
  | cons b bytes ih =>
    have h : s.run (b :: bytes) = (s.step b).run bytes := rfl
    rw [h, ih, byte_step, List.length_cons]
    omega

/-- The records read when the input ends here: an open record ends with it. -/
def finish (s : State) : List Record :=
  if s.mode = .recordStart then s.records.toList else s.endRecord.records.toList

end State

/-- The reader of a table and the bytes that are left to it: a byte order mark in front
is passed over, and its three bytes are counted. -/
def opened : List UInt8 → State × List UInt8
  | 0xEF :: 0xBB :: 0xBF :: bytes => (.afterMark 3, bytes)
  | bytes => (.afterMark 0, bytes)

/-- The reader after the whole of a table. -/
def readerAfter (bytes : List UInt8) : State :=
  (opened bytes).1.run (opened bytes).2

/-- All records of a table, the header first. -/
def readAll (bytes : List UInt8) : List Record :=
  (readerAfter bytes).finish

/-- The records after the header. The header and the first of them are read in one go,
so the reading of the first began where that of the header did. -/
def dataRecords (bytes : List UInt8) : List Record :=
  match readAll bytes with
  | header :: first :: rest => { first with start := header.start } :: rest
  | _ => []

end NearestNeighbors.Csv
