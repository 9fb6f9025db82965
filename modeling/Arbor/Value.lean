import Arbor.Node.Printer
import Arbor.ValueKind

/-!
# Values

What evaluation yields. `unknown` means that a value could not be determined; it is no error.

Two function values are equal when they are the same closure, which its serial number tells: the
runtime gives each closure it makes the next number.
-/

namespace Arbor

open Text

/-- A closure over values of type `V`: its parameters, its body, the bindings of the environment it
was made in, the name it calls itself by, and the serial number that tells closures apart. -/
structure Closure (V : Type) where
  params : List String
  body : Node
  captured : List (String × V)
  name? : Option String
  serial : Nat

/-- A value of the language. -/
inductive Value where
  | str (text : String)
  | int (value : Int32)
  | bool (value : Bool)
  | void
  | node (value : Node)
  | fn (closure : Closure Value)
  | unknown

/-- Bindings of names to values. -/
abbrev Env := Dict Value

namespace Value

instance : Inhabited Value := ⟨unknown⟩

def kind : Value → ValueKind
  | str _ => .string
  | int _ => .int
  | bool _ => .bool
  | void => .void
  | node _ => .node
  | fn _ => .function
  | unknown => .unknown

def isUnknown : Value → Bool
  | unknown => true
  | _ => false

/-- Is the value an error node? -/
def isErr : Value → Bool
  | node n => n.isErr
  | _ => false

/-- Are the values the same? Nodes compare with their spans, closures by their serial numbers. -/
def same : Value → Value → Bool
  | str a, str b => a == b
  | int a, int b => a == b
  | bool a, bool b => a == b
  | void, void => true
  | unknown, unknown => true
  | node a, node b => a == b
  | fn a, fn b => a.serial == b.serial
  | _, _ => false

/-- The text of a truth value. -/
def boolText (b : Bool) : String := if b then "true" else "false"

/-- The short form of the value that snapshots and call records show. -/
def render : Value → String
  | str s => quote s
  | int n => intText n.toInt
  | bool b => boolText b
  | void => "void"
  | node n => n.kind ++ "#" ++ n.id
  | fn _ => "fn"
  | unknown => "unknown"

/-- The value as plain text: a string as itself, a node in canonical form. -/
def display : Value → String
  | str s => s
  | node n => n.format
  | v => v.render

/-- The node that reports the value as a result: an error node as itself, all else as `Ok`. -/
def resultNode (v : Value) : Node :=
  let ok (more : List (String × AttrValue)) (children : List Node) : Node :=
    { kind := "Ok", id := "ok0", children
      attrs := attrs (("type", .identifier v.kind.name) :: more) }
  match v with
  | str s => ok [("value", .string s)] []
  | int n => ok [("value", .int n)] []
  | bool b => ok [("value", .bool b)] []
  | node n => if n.isErr then n else ok [] [n]
  | void | fn _ | unknown => ok [] []

/-- The value as a result, in canonical form. -/
def formatResult (v : Value) : String := v.resultNode.format

end Value

/-- The value that a literal with this attribute stands for. -/
def AttrValue.literal : AttrValue → Value
  | string s => .str s
  | int n => .int n
  | bool b => .bool b
  | identifier _ => .unknown

/-- The value of a literal node: that of its attribute `value`. -/
def Node.literal (n : Node) : Value := ((n.attr? "value").map AttrValue.literal).getD .unknown

end Arbor
