/-!
# Source positions

A position counts lines and columns from one. Columns count bytes, and only a line feed ends a line.
-/

namespace Tapecode

/-- A line and a column of a source text. -/
structure Position where
  line : Nat := 1
  column : Nat := 1
  deriving DecidableEq, Repr

namespace Position

/-- The position of the first byte of a text. -/
def start : Position := {}

/-- One byte further on the same line. -/
def nextColumn (p : Position) : Position :=
  { p with column := p.column + 1 }

/-- The start of the following line. -/
def nextLine (p : Position) : Position :=
  { line := p.line + 1, column := 1 }

/-- The byte that ends a line. -/
def lineFeed : UInt8 := 10

/-- The position of the byte that follows byte `b` at `p`. -/
def after (p : Position) (b : UInt8) : Position :=
  if b = lineFeed then p.nextLine else p.nextColumn

/-- A position as it is printed: line, colon, column. -/
def text (p : Position) : String :=
  toString p.line ++ ":" ++ toString p.column

end Position

end Tapecode
