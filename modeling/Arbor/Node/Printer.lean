import Arbor.Node
import Arbor.Text.Decimal
import Arbor.Text.Quoted
import Arbor.Text.Word

/-!
# The canonical text of a node

`Kind#id(key=value ..) { child .. }`, one line, attributes in key order, single spaces. An identifier
that would not read back as one value is written as a quoted string.
-/

namespace Arbor

open Text

/-- Writes an attribute value in front of `rest`. -/
def AttrValue.write (value : AttrValue) (rest : List Char) : List Char :=
  match value with
  | .string s => '"' :: escapeChars s.toList ++ '"' :: rest
  | .int n => intDigits n.toInt ++ rest
  | .bool b => (if b then "true" else "false").toList ++ rest
  | .identifier s =>
    if isBareIdentifier s then s.toList ++ rest else '"' :: escapeChars s.toList ++ '"' :: rest

namespace Node

/-- Writes attributes in front of `rest`, a space before each. -/
def writeMoreAttrs : List (String × AttrValue) → List Char → List Char
  | [], rest => rest
  | (key, value) :: more, rest =>
    ' ' :: key.toList ++ '=' :: value.write (writeMoreAttrs more rest)

/-- Writes the attribute list in front of `rest`: nothing when there are no attributes. -/
def writeAttrs : List (String × AttrValue) → List Char → List Char
  | [], rest => rest
  | (key, value) :: more, rest =>
    '(' :: key.toList ++ '=' :: value.write (writeMoreAttrs more (')' :: rest))

mutual

/-- Writes the node in front of `rest`. -/
def write : Node → List Char → List Char
  | ⟨kind, id, attrs, children, _⟩, rest =>
    kind.toList ++ '#' :: id.toList ++ writeAttrs attrs.entries (writeBlock children rest)

/-- Writes the child list in front of `rest`: nothing when there are no children. -/
def writeBlock : List Node → List Char → List Char
  | [], rest => rest
  | c :: cs, rest => ' ' :: '{' :: ' ' :: write c (writeMoreChildren cs (' ' :: '}' :: rest))

/-- Writes children in front of `rest`, a space before each. -/
def writeMoreChildren : List Node → List Char → List Char
  | [], rest => rest
  | c :: cs, rest => ' ' :: write c (writeMoreChildren cs rest)

end

/-- The canonical text of the node. -/
def format (n : Node) : String := String.ofList (n.write [])

end Node

end Arbor
