/-!
# Positions and spans

Where a piece of text stands in its source: the characters before it, and the line and column that a
reader counts.
-/

namespace Arbor

/-- A point in a source text: the number of characters before it, its line and its column, the last
two counted from one. -/
structure Position where
  offset : Nat
  line : Nat
  column : Nat
  deriving DecidableEq

namespace Position

/-- The start of a source text. -/
def first : Position := ⟨0, 1, 1⟩

/-- The point that no source text has, for trees that were not read from one. -/
def nowhere : Position := ⟨0, 0, 0⟩

/-- The point behind one more character: a line feed ends the line. -/
def next (p : Position) (c : Char) : Position :=
  if c = '\n' then ⟨p.offset + 1, p.line + 1, 1⟩ else ⟨p.offset + 1, p.line, p.column + 1⟩

/-- The point behind a run of characters. -/
def after (p : Position) (cs : List Char) : Position := cs.foldl next p

end Position

/-- The stretch of a source text from one point up to another. -/
structure Span where
  start : Position
  stop : Position
  deriving DecidableEq

/-- The span of a tree that was not read from a source text. -/
def Span.nowhere : Span := ⟨.nowhere, .nowhere⟩

end Arbor
