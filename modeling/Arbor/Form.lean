import Arbor.Operator

/-!
# Forms

The node kinds that the language gives a meaning to.
-/

namespace Arbor

/-- What a node of a program is. -/
inductive Form where
  | program | block | bind | var | lit | call | fn | branch | leave | importModule | exportName
  | operator (op : Operator)
  deriving DecidableEq

namespace Form

/-- The node kind of the form. -/
def kind : Form → String
  | program => "Program"
  | block => "Block"
  | bind => "Let"
  | var => "Var"
  | lit => "Lit"
  | call => "Call"
  | fn => "Fn"
  | branch => "If"
  | leave => "Return"
  | importModule => "Import"
  | exportName => "Export"
  | operator op => op.kind

/-- The forms that are no operators. -/
def nonOperators : List Form :=
  [program, block, bind, var, lit, call, fn, branch, leave, importModule, exportName]

/-- The form of a node kind, if the language defines one. -/
def ofKind? (kind : String) : Option Form :=
  (nonOperators.find? (·.kind == kind)).or ((Operator.ofKind? kind).map operator)

end Form

/-- The form of the node. -/
def Node.form? (n : Node) : Option Form := Form.ofKind? n.kind

/-- Is the node a `Fn`? -/
def Node.isFn (n : Node) : Bool := n.kind == Form.fn.kind

/-- Is the node a `Block`? -/
def Node.isBlock (n : Node) : Bool := n.kind == Form.block.kind

/-- Is the node a `Program`? -/
def Node.isProgram (n : Node) : Bool := n.kind == Form.program.kind

end Arbor
