/-!
# Source ranges

A `Span` is the range of text a node was read from, counted from one. Line zero marks a node whose
place is not known; every field of such a span may still hold a number, and only the line decides.
-/

namespace MethodFlow

/-- A line and a column, both counted from one, as shown to a reader. -/
structure Position where
  line : Nat
  column : Nat
  deriving DecidableEq, Inhabited

namespace Position

/-- The place reported when nothing better is known: the top of the file. -/
def start : Position := ⟨1, 1⟩

end Position

/-- The source range of a node. The default span, all zero, stands for "unknown". -/
structure Span where
  line : UInt32 := 0
  column : UInt32 := 0
  endLine : UInt32 := 0
  endColumn : UInt32 := 0
  deriving DecidableEq, Inhabited

namespace Span

/-- The span of a node whose place is not known. -/
def unknown : Span := {}

/-- A span is unknown exactly when its line is zero, whatever its other fields hold. -/
def isUnknown (s : Span) : Bool := s.line == 0

/-- The span that stands for a whole line: its first column, twice. -/
def wholeLine (line : UInt32) : Span := ⟨line, 1, line, 1⟩

/-- Where a span begins. An unknown span begins at the top of the file; column zero is shown as
one. -/
def position (s : Span) : Position :=
  if s.isUnknown then .start else ⟨s.line.toNat, max s.column.toNat 1⟩

/-- The number of lines a span covers, zero when it is unknown or ends before it begins. -/
def lineCount (s : Span) : Nat :=
  if s.isUnknown || s.endLine < s.line then 0 else s.endLine.toNat - s.line.toNat + 1

end Span

end MethodFlow
