import ManagedC.Json.Record

/-!
# Places in source text

A `Location` is a file, a line and a column; a `Span` runs from one location to another. Neither is
checked against any text: the unknown place is line zero of a file called `<unknown>`.
-/

namespace ManagedC

/-- A place in a source file. -/
structure Location where
  /-- The name of the file. -/
  filename : String
  /-- The line, counted from one. -/
  line : UInt32
  /-- The column, counted from one. -/
  column : UInt32
  deriving DecidableEq, Inhabited

/-- A stretch of source text between two places. -/
structure Span where
  /-- Where the stretch begins. -/
  start : Location
  /-- Where the stretch ends. -/
  stop : Location
  deriving DecidableEq, Inhabited

namespace Location

/-- The place of what was not read from a file. -/
def unknown : Location := ⟨"<unknown>", 0, 0⟩

/-- File, line and column, separated by colons. -/
def text (l : Location) : String := s!"{l.filename}:{l.line}:{l.column}"

/-- The document of a location. -/
def toJson (l : Location) : Json :=
  .record [("filename", .ofText l.filename), ("line", .ofNat l.line.toNat),
    ("column", .ofNat l.column.toNat)]

/-- The location that a document describes. -/
def ofJson? : Nat → Json → Option Location
  | 0, _ => none
  | _ + 1, j =>
    match Json.fields? [Json.field "filename", Json.field "line", Json.field "column"] j with
    | some [some filename, some line, some column] => do
      return ⟨← filename.text?, UInt32.ofNat (← line.natBelow? (2 ^ 32)),
        UInt32.ofNat (← column.natBelow? (2 ^ 32))⟩
    | _ => none

end Location

namespace Span

/-- The empty stretch at a place. -/
def point (l : Location) : Span := ⟨l, l⟩

/-- The span of what was not read from a file. -/
def unknown : Span := .point .unknown

/-- The shortest text that tells where the span begins and ends: a place alone is shown by its line,
a line is written once if both ends are on it, and a file is written once if both ends are in it. -/
def text (s : Span) : String :=
  if s.start.filename ≠ s.stop.filename then s!"{s.start.text} to {s.stop.text}"
  else if s.start.line ≠ s.stop.line then s!"{s.start.text}-{s.stop.line}:{s.stop.column}"
  else if s.start.column ≠ s.stop.column then s!"{s.start.text}-{s.stop.column}"
  else s!"{s.start.filename}:{s.start.line}"

/-- The document of a span. -/
def toJson (s : Span) : Json := .record [("start", s.start.toJson), ("end", s.stop.toJson)]

/-- The span that a document describes. -/
def ofJson? : Nat → Json → Option Span
  | 0, _ => none
  | levels + 1, j =>
    match Json.fields? [Json.field "start", Json.field "end"] j with
    | some [some start, some stop] => do
      return ⟨← Location.ofJson? levels start, ← Location.ofJson? levels stop⟩
    | _ => none

/-- The span in a field that may be left out. -/
def ofField? (levels : Nat) : Option Json → Option Span :=
  Json.withDefault? (ofJson? levels) unknown

end Span

end ManagedC
