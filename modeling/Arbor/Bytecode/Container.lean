import Arbor.Bytecode.Program
import Arbor.Node.Parser

/-!
# Bytecode as nodes

A bytecode program is itself a tree:

    Bytecode#bc(flags=0 format="AiBC1" magic="AIBC" version=1) {
      Const#c0(kind=string value="hi")
      Func#f0(locals="x" name=main params="") { Inst#f0_0(a=0 b=0 op=CONST s="") .. }
    }

Loading is strict about the container and lenient about operands: one that is missing, or of another
kind, has its default.
-/

namespace Arbor

namespace BytecodeProgram

/-- The marks of the container format. -/
def magic : String := "AIBC"

def formatName : String := "AiBC1"

def version : Int32 := 1

/-- A fault of the container at a node. -/
def fault {α : Type} (message : String) (n : Node) : Except BytecodeError α :=
  .error (.load message n.id)

/-- The constant of a node. A constant that is a node is stored as its text. -/
def loadConstant (n : Node) : Except BytecodeError Value :=
  match n.ident? "kind", n.attr? "value" with
  | none, _ => fault "Invalid Const node." n
  | some "string", some (.string s) => .ok (.str s)
  | some "int", some (.int i) => .ok (.int i)
  | some "bool", some (.bool b) => .ok (.bool b)
  | some "node", some (.string text) =>
    match (parse text).clean with
    | .ok root => .ok (.node root)
    | .error _ => fault "Invalid node constant." n
  | some "null", _ => .ok .void
  | some _, _ => fault "Unsupported constant kind." n

/-- The text of an attribute whose value is a string; empty when it is not. -/
def stringAttr (n : Node) (key : String) : String :=
  match n.attr? key with
  | some (.string s) => s
  | _ => ""

/-- The instruction of a node. -/
def loadInstruction (n : Node) : Except BytecodeError Instruction :=
  if n.kind ≠ "Inst" then fault "Func contains non-instruction child." n
  else match n.ident? "op" with
    | none => fault "Instruction missing op." n
    | some op => .ok ⟨op, (n.int? "a").getD 0, (n.int? "b").getD 0, stringAttr n "s"⟩

/-- The function of a node. -/
def loadFunction (n : Node) : Except BytecodeError BytecodeFunction :=
  match n.ident? "name" with
  | none => fault "Func missing name." n
  | some name => do
    let code ← n.children.mapM loadInstruction
    pure
      { name
        params := Text.splitNames (stringAttr n "params")
        locals := Text.splitNames (stringAttr n "locals")
        code := code.toArray }

/-- Adds the section of a node to the constants and functions so far. -/
def loadSection (p : BytecodeProgram) (n : Node) : Except BytecodeError BytecodeProgram :=
  match n.kind with
  | "Const" => do
    let value ← loadConstant n
    pure { p with constants := p.constants ++ [value] }
  | "Func" => do
    let function ← loadFunction n
    pure { p with functions := p.functions.push function }
  | _ => fault "Unsupported Bytecode section." n

/-- The program of a container node. -/
def load (n : Node) : Except BytecodeError BytecodeProgram :=
  if n.kind ≠ "Bytecode" then fault "Expected Bytecode node." n
  else if n.attr? "magic" ≠ some (.string magic) then fault "Unsupported bytecode magic." n
  else if n.attr? "format" ≠ some (.string formatName) then fault "Unsupported bytecode format." n
  else if n.attr? "version" ≠ some (.int version) then fault "Unsupported bytecode version." n
  else if (n.int? "flags").isNone then fault "Invalid bytecode flags." n
  else n.children.foldlM loadSection ⟨[], #[]⟩

/-- The node of a constant. -/
def constantNode (id : String) (v : Value) : Node :=
  let const (more : List (String × AttrValue)) (kind : String) : Node :=
    { kind := "Const", id, attrs := attrs (("kind", .identifier kind) :: more) }
  match v with
  | .str s => const [("value", .string s)] "string"
  | .int n => const [("value", .int n)] "int"
  | .bool b => const [("value", .bool b)] "bool"
  | .node n => const [("value", .string n.format)] "node"
  | .void | .fn _ | .unknown => const [] "null"

/-- The node of an instruction. -/
def instructionNode (id : String) (i : Instruction) : Node where
  kind := "Inst"
  id := id
  attrs := attrs [("op", .identifier i.op), ("a", .int i.a), ("b", .int i.b), ("s", .string i.s)]

/-- The node of a function. -/
def functionNode (id : String) (f : BytecodeFunction) : Node where
  kind := "Func"
  id := id
  attrs := attrs
    [("name", .identifier f.name), ("params", .string (Text.joinNames f.params)),
      ("locals", .string (Text.joinNames f.locals))]
  children := f.code.toList.mapIdx fun i inst =>
    instructionNode (id ++ "_" ++ Text.natText i) inst

/-- The container node of the program: constants, then functions. -/
def toNode (p : BytecodeProgram) : Node where
  kind := "Bytecode"
  id := "bc"
  attrs := attrs
    [("magic", .string magic), ("format", .string formatName), ("version", .int version),
      ("flags", .int 0)]
  children :=
    p.constants.mapIdx (fun i v => constantNode ("c" ++ Text.natText i) v) ++
      p.functions.toList.mapIdx fun i f => functionNode ("f" ++ Text.natText i) f

end BytecodeProgram

end Arbor
