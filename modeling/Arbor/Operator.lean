import Arbor.Diagnostic
import Arbor.Saturation
import Arbor.Value

/-!
# Operators

The operators that the evaluator and the bytecode machine share. Each is total: an operand of the
wrong kind, or a wrong number of operands, gives `unknown`.
-/

namespace Arbor

open Text

/-- The operators of the language. -/
inductive Operator where
  | eq | add | toText | strConcat | strEscape
  | nodeKind | nodeId | attrCount | attrKey
  | attrValueKind | attrValueString | attrValueInt | attrValueBool
  | childCount | childAt
  | makeBlock | appendChild | makeErr | makeLitString
  deriving DecidableEq

namespace Operator

/-- All operators, in the order of the language. -/
def all : List Operator :=
  [eq, add, toText, strConcat, strEscape, nodeKind, nodeId, attrCount, attrKey, attrValueKind,
    attrValueString, attrValueInt, attrValueBool, childCount, childAt, makeBlock, appendChild,
    makeErr, makeLitString]

/-- The node kind that applies the operator to its children. -/
def kind : Operator → String
  | eq => "Eq"
  | add => "Add"
  | toText => "ToString"
  | strConcat => "StrConcat"
  | strEscape => "StrEscape"
  | nodeKind => "NodeKind"
  | nodeId => "NodeId"
  | attrCount => "AttrCount"
  | attrKey => "AttrKey"
  | attrValueKind => "AttrValueKind"
  | attrValueString => "AttrValueString"
  | attrValueInt => "AttrValueInt"
  | attrValueBool => "AttrValueBool"
  | childCount => "ChildCount"
  | childAt => "ChildAt"
  | makeBlock => "MakeBlock"
  | appendChild => "AppendChild"
  | makeErr => "MakeErr"
  | makeLitString => "MakeLitString"

/-- The operator that nodes of the kind apply. -/
def ofKind? (kind : String) : Option Operator := all.find? (·.kind == kind)

/-- The number of operands. -/
def arity : Operator → Nat
  | toText | strEscape | nodeKind | nodeId | attrCount | childCount | makeBlock => 1
  | makeErr => 4
  | _ => 2

/-- Are the values the same? Nothing can be said about an unknown one. -/
def equal (a b : Value) : Value :=
  if a.isUnknown || b.isUnknown then .unknown else .bool (a.same b)

/-- What `f` makes of the attribute at the index, in key order. -/
def ofAttr (n : Node) (index : Int32) (f : String → AttrValue → Option Value) : Value :=
  ((n.attrAt? index).bind fun (key, value) => f key value).getD .unknown

/-- Applies the operator to its operands, in the order of the source. -/
def apply : Operator → List Value → Value
  | eq, [a, b] => equal a b
  | add, [.int a, .int b] => .int (a + b)
  | toText, [.int n] => .str (intText n.toInt)
  | toText, [.bool b] => .str (Value.boolText b)
  | strConcat, [.str a, .str b] => .str (a ++ b)
  | strEscape, [.str s] => .str (escape s)
  | nodeKind, [.node n] => .str n.kind
  | nodeId, [.node n] => .str n.id
  | attrCount, [.node n] => .int (saturateCount n.attrs.size)
  | attrKey, [.node n, .int i] => ofAttr n i fun key _ => some (.str key)
  | attrValueKind, [.node n, .int i] => ofAttr n i fun _ value => some (.str value.kindName)
  | attrValueString, [.node n, .int i] => ofAttr n i fun _ value => value.text?.map .str
  | attrValueInt, [.node n, .int i] => ofAttr n i fun _ value => value.int?.map .int
  | attrValueBool, [.node n, .int i] => ofAttr n i fun _ value => value.bool?.map .bool
  | childCount, [.node n] => .int (saturateCount n.children.length)
  | childAt, [.node n, .int i] => ((n.childAt? i).map .node).getD .unknown
  | makeBlock, [.str id] => .node { kind := "Block", id }
  | appendChild, [.node parent, .node child] =>
    .node { parent with children := parent.children ++ [child] }
  | makeErr, [.str id, .str code, .str message, .str culprit] =>
    .node (errNode id code message culprit)
  | makeLitString, [.str id, .str value] =>
    .node { kind := "Lit", id, attrs := attrs [("value", .string value)] }
  | _, _ => .unknown

end Operator

end Arbor
