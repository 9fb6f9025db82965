import Arbor.Capability.Contract
import Arbor.Diagnostic
import Arbor.Form
import Arbor.Node.Search

/-!
# The shape of well-formed nodes

Each form asks for certain attributes and bounds the number of its children. The structural pass checks
every node of a tree against its form.
-/

namespace Arbor

open Text

/-- What a form asks of its nodes: attributes, and a number of children. No upper bound means any
number. -/
structure Shape where
  attrs : List String
  minChildren : Nat
  maxChildren? : Option Nat

namespace Shape

/-- The shape that a form asks for. -/
def ofForm : Form → Shape
  | .program | .block => ⟨[], 0, none⟩
  | .bind => ⟨["name"], 1, some 1⟩
  | .var => ⟨["name"], 0, some 0⟩
  | .lit => ⟨["value"], 0, some 0⟩
  | .call => ⟨["target"], 0, none⟩
  | .fn => ⟨["params"], 1, some 1⟩
  | .branch => ⟨[], 2, some 3⟩
  | .leave => ⟨[], 0, some 1⟩
  | .importModule => ⟨["path"], 0, some 0⟩
  | .exportName => ⟨["name"], 0, some 1⟩
  | .operator op => ⟨[], op.arity, some op.arity⟩

/-- Is the number of children within the bounds? -/
def admits (s : Shape) (count : Nat) : Bool :=
  decide (s.minChildren ≤ count) && s.maxChildren?.all (fun max => decide (count ≤ max))

end Shape

/-- What the validator can find about a node. -/
inductive Issue where
  | duplicateId (id : String)
  | missingAttr (key : String)
  | childCount (kind : String) (shape : Shape)
  | unknownVariable (name : String)
  | conditionKind
  | thenNotBlock
  | elseNotBlock
  | branchKinds
  | noTarget
  | unknownTarget (target : String)
  | denied (permission : String)
  | bodyNotBlock
  /-- An operand of the wrong kind. -/
  | operand (code message : String)
  /-- Arguments that break the contract of a capability. -/
  | contract (violation : Violation)
  | unknownKind (kind : String)

namespace Issue

def code : Issue → String
  | duplicateId _ => "VAL001"
  | missingAttr _ => "VAL002"
  | childCount .. => "VAL003"
  | unknownVariable _ => "VAL010"
  | conditionKind => "VAL020"
  | thenNotBlock => "VAL021"
  | elseNotBlock => "VAL022"
  | branchKinds => "VAL023"
  | noTarget => "VAL030"
  | unknownTarget _ => "VAL036"
  | denied _ => "VAL040"
  | bodyNotBlock => "VAL050"
  | operand code _ => code
  | contract violation => violation.code
  | unknownKind _ => "VAL999"

def message : Issue → String
  | duplicateId id => "Duplicate node id '" ++ id ++ "'."
  | missingAttr key => "Missing attribute '" ++ key ++ "'."
  | childCount kind shape =>
    match shape.maxChildren? with
    | some max =>
      kind ++ " expects " ++ natText shape.minChildren ++ "-" ++ natText max ++ " children."
    | none => kind ++ " expects at least " ++ natText shape.minChildren ++ " children."
  | unknownVariable name => "Unknown variable '" ++ name ++ "'."
  | conditionKind => "If condition must be bool."
  | thenNotBlock => "If then-branch must be Block."
  | elseNotBlock => "If else-branch must be Block."
  | branchKinds => "If branches must return the same type."
  | noTarget => "Call target is required."
  | unknownTarget target => "Unknown call target '" ++ target ++ "'."
  | denied permission => "Permission '" ++ permission ++ "' denied."
  | bodyNotBlock => "Fn body must be Block."
  | operand _ message => message
  | contract violation => violation.message
  | unknownKind kind => "Unknown node kind '" ++ kind ++ "'."

/-- The report of the issue about a node. -/
def report (i : Issue) (n : Node) : Diagnostic := .atNode i.code i.message n

end Issue

namespace Shape

/-- What is wrong with a node of this shape: attributes that are missing, then the children. -/
def issues (s : Shape) (n : Node) : List Issue :=
  (s.attrs.filter (!n.attrs.contains ·)).map .missingAttr ++
    if s.admits n.children.length then [] else [.childCount n.kind s]

end Shape

/-- What is wrong with the node by itself. -/
def Node.shapeIssues (n : Node) : List Issue :=
  match n.form? with
  | some form => (Shape.ofForm form).issues n
  | none => [.unknownKind n.kind]

/-- The structural pass: what is wrong with each node of the tree, in pre-order. -/
def structuralReport (root : Node) : List Diagnostic :=
  root.walk.flatMap fun n => n.shapeIssues.map (·.report n)

end Arbor
