import Arbor.Node
import Arbor.Text.Decimal
import Arbor.Text.Word

/-!
# Diagnostics

A finding that does not stop the work: a code, a message, and where it was found. Diagnostics are
returned as data, and programs see them as `Err` nodes.
-/

namespace Arbor

open Text

/-- A finding of the lexer, the parser, the validator or a patch. -/
structure Diagnostic where
  code : String
  message : String
  nodeId? : Option String := none
  span? : Option Span := none
  deriving DecidableEq

/-- The `Err` node with a code, a message and the id of the node it is about. The code is an
identifier where it may stand without quotes. -/
def errNode (id code message nodeId : String) : Node where
  kind := "Err"
  id := id
  attrs := attrs
    [("code", if isBareIdentifier code then .identifier code else .string code),
      ("message", .string message),
      ("nodeId", .string nodeId)]

namespace Diagnostic

/-- A finding about a node. -/
def atNode (code message : String) (n : Node) : Diagnostic := ⟨code, message, some n.id, some n.span⟩

/-- A finding about a stretch of source text. -/
def atSpan (code message : String) (span : Span) : Diagnostic := ⟨code, message, none, some span⟩

/-- The diagnostic as a node. -/
def toErrNode (d : Diagnostic) (id : String) : Node :=
  errNode id d.code d.message (d.nodeId?.getD "")

/-- The diagnostic on one line: the place in the source if there is one, else the node id. -/
def display (d : Diagnostic) : String :=
  let byNode :=
    match d.nodeId? with
    | some id => d.code ++ " [" ++ id ++ "]: " ++ d.message
    | none => d.code ++ ": " ++ d.message
  match d.span? with
  | some span =>
    if span.start.line = 0 then byNode
    else d.code ++ " " ++ natText span.start.line ++ ":" ++ natText span.start.column ++ ": " ++
      d.message
  | none => byNode

end Diagnostic

end Arbor
