import Arbor.Bytecode.Program
import Arbor.Capability.Table
import Arbor.Form

/-!
# Compiling programs

A program becomes bytecode: each top-level `Let` of a function is a function of its own, and all other
top-level statements make up `main`. Code for a node leaves exactly one value on the stack.

A sequence stops at the first error: behind each statement but the last, a jump leads to the end of
the sequence when the value is an error node, and otherwise the value is dropped.
-/

namespace Arbor

/-- Why a program does not compile, and the node at fault. -/
structure CompileError where
  message : String
  nodeId : String
  deriving DecidableEq

namespace CompileError

def code : String := "VMC001"

/-- The error as a node. -/
def toErrNode (e : CompileError) : Node := errNode "err0" code e.message e.nodeId

end CompileError

namespace Compiler

/-- The function that holds the top-level statements. -/
def mainName : String := "main"

/-- What compilation has so far: the slots of the current function and the constants of the
program. -/
structure Scope where
  locals : List String
  constants : List Value

/-- Code, and what compilation has behind it. -/
abbrev Compiled := Except CompileError (List Instruction × Scope)

def fail {α : Type} (message : String) (n : Node) : Except CompileError α := .error ⟨message, n.id⟩

/-- The slot of a name, which is a new one when the name has none. -/
def Scope.resolve (s : Scope) (name : String) : Nat × Scope :=
  match s.locals.findIdx? (· == name) with
  | some slot => (slot, s)
  | none => (s.locals.length, { s with locals := s.locals ++ [name] })

/-- The index of a constant, which is a new one when it is not there. -/
def Scope.constant (s : Scope) (v : Value) : Nat × Scope :=
  match s.constants.findIdx? (·.same v) with
  | some index => (index, s)
  | none => (s.constants.length, { s with constants := s.constants ++ [v] })

/-- Joins the code of statements into that of a sequence which ends at `stop`. -/
def joinStatements (stop : Nat) : List (List Instruction) → List Instruction
  | [] => [.of .pushVoid]
  | [last] => last
  | code :: rest =>
    code ++ [.of .jumpIfErr (saturateCount stop), .of .pop] ++ joinStatements stop rest

/-- The number of instructions of a sequence of statements. -/
def sequenceLength (codes : List (List Instruction)) : Nat :=
  match codes with
  | [] => 1
  | _ => codes.flatten.length + 2 * (codes.length - 1)

/-- The code of a sequence whose statements start at `start`. -/
def sequenceCode (start : Nat) (codes : List (List Instruction)) : List Instruction :=
  joinStatements (start + sequenceLength codes) codes

/-- The code of a variable. -/
def varCode (functions : List String) (n : Node) (s : Scope) : Compiled :=
  match n.ident? "name" with
  | none => fail "Var missing name." n
  | some name =>
    match s.locals.findIdx? (· == name) with
    | some slot => .ok ([.of .loadLocal (saturateCount slot)], s)
    | none =>
      if functions.contains name then
        fail ("Function '" ++ name ++ "' cannot be used as a value.") n
      else fail ("Unbound variable '" ++ name ++ "'.") n

/-- The code of a literal. -/
def litCode (n : Node) (s : Scope) : Compiled :=
  match n.attr? "value" with
  | some (.string text) =>
    let (index, s) := s.constant (.str text)
    .ok ([.of .const (saturateCount index)], s)
  | some (.int i) => .ok ([.of .pushInt i], s)
  | some (.bool b) => .ok ([.of .pushBool (if b then 1 else 0)], s)
  | _ => fail "Lit value must be a string, int or bool." n

/-- The instruction of a call: of a capability when the table has one, else of a function. -/
def callOpcode (functions : List String) (target : String) (n : Node) :
    Except CompileError Opcode :=
  if (Contract.lookup? target).isSome then .ok .callSys
  else if functions.contains target then .ok .call
  else fail ("Unknown call target '" ++ target ++ "'.") n

/-- The code of a branch from the code of its parts; `start` is where it begins. -/
def branchCode (start : Nat) (condition thenCode elseCode : List Instruction) : List Instruction :=
  let elseStart := start + condition.length + 1 + thenCode.length + 1
  condition ++ [.of .jumpIfFalse (saturateCount elseStart)] ++ thenCode ++
    [.of .jump (saturateCount (elseStart + elseCode.length))] ++ elseCode

mutual

/-- The code of a node that starts at `start`. -/
def nodeCode (functions : List String) (start : Nat) : Node → Scope → Compiled
  | ⟨kind, id, attrs, children, span⟩, s =>
    let n : Node := ⟨kind, id, attrs, children, span⟩
    match n.form? with
    | some .program | some .block => do
      let (codes, s) ← nodeCodes functions 2 start children s
      pure (sequenceCode start codes, s)
    | some .bind =>
      match n.ident? "name", children with
      | none, _ => fail "Let missing name." n
      | some name, [child] => do
        let (code, s) ← nodeCode functions start child s
        let (slot, s) := s.resolve name
        pure (code ++ [.of .storeLocal (saturateCount slot), .of .pushVoid], s)
      | some _, _ => fail "Let expects one child." n
    | some .var => varCode functions n s
    | some .lit => litCode n s
    | some .call =>
      match n.ident? "target" with
      | none => fail "Call missing target." n
      | some target => do
        let op ← callOpcode functions target n
        let (codes, s) ← nodeCodes functions 0 start children s
        pure (codes.flatten ++ [.of op (saturateCount children.length) target], s)
    | some .branch =>
      match children with
      | [condition, thenArm] => do
        let (condition, s) ← nodeCode functions start condition s
        let (thenCode, s) ← nodeCode functions (start + condition.length + 1) thenArm s
        pure (branchCode start condition thenCode [.of .pushVoid], s)
      | [condition, thenArm, elseArm] => do
        let (condition, s) ← nodeCode functions start condition s
        let (thenCode, s) ← nodeCode functions (start + condition.length + 1) thenArm s
        let elseStart := start + condition.length + 1 + thenCode.length + 1
        let (elseCode, s) ← nodeCode functions elseStart elseArm s
        pure (branchCode start condition thenCode elseCode, s)
      | _ => fail "If expects 2 or 3 children." n
    | some .leave =>
      match children with
      | [] => .ok ([.of .pushVoid, .of .ret], s)
      | child :: _ => do
        let (code, s) ← nodeCode functions start child s
        pure (code ++ [.of .ret], s)
    | some .fn => fail "Nested Fn is not supported by the bytecode compiler." n
    | some .importModule | some .exportName =>
      fail (kind ++ " is not supported by the bytecode compiler.") n
    | some (.operator op) =>
      if children.length ≠ op.arity then
        fail (op.kind ++ " expects " ++ Text.natText op.arity ++ " operands.") n
      else do
        let (codes, s) ← nodeCodes functions 0 start children s
        pure (codes.flatten ++ [.of (.operator op)], s)
    | none => fail ("Unsupported node kind '" ++ kind ++ "'.") n

/-- The code of each node of a list, the first one starting at `start`, with `gap` more instructions
between one and the next. -/
def nodeCodes (functions : List String) (gap start : Nat) :
    List Node → Scope → Except CompileError (List (List Instruction) × Scope)
  | [], s => .ok ([], s)
  | n :: ns, s => do
    let (code, s) ← nodeCode functions start n s
    let (codes, s) ← nodeCodes functions gap (start + code.length + gap) ns s
    pure (code :: codes, s)

end

/-- A function from its name, its parameters and its statements; also the constants behind it. -/
def functionOf (functions : List String) (name : String) (params : List String)
    (statements : List Node) (constants : List Value) :
    Except CompileError (BytecodeFunction × List Value) := do
  let (codes, s) ← nodeCodes functions 2 0 statements ⟨params, constants⟩
  let code := sequenceCode 0 codes ++ [.of .ret]
  pure ({ name, params, locals := s.locals, code := code.toArray }, s.constants)

/-- The name and the function of a top-level definition, if the statement is one. -/
def definition? (n : Node) : Option (String × Node) :=
  if n.form? = some .bind then
    match n.children with
    | [child] => if child.isFn then (n.ident? "name").map (·, child) else none
    | _ => none
  else none

/-- The bytecode function of a definition; also the constants behind it. -/
def definitionCode (functions : List String) (name : String) (fn : Node) (constants : List Value) :
    Except CompileError (BytecodeFunction × List Value) :=
  match fn.children with
  | [body] =>
    if body.isBlock then
      functionOf functions name (Text.splitNames ((fn.text? "params").getD "")) body.children
        constants
    else fail "Fn body must be a single Block." fn
  | _ => fail "Fn body must be a single Block." fn

/-- The bytecode functions of the definitions among the statements; also the constants behind them. -/
def definitionCodes (functions : List String) :
    List Node → List Value → Except CompileError (List BytecodeFunction × List Value)
  | [], constants => .ok ([], constants)
  | n :: ns, constants =>
    match definition? n with
    | none => definitionCodes functions ns constants
    | some (name, fn) => do
      let (function, constants) ← definitionCode functions name fn constants
      let (rest, constants) ← definitionCodes functions ns constants
      pure (function :: rest, constants)

/-- Refuses a definition that takes the name of the function of the top-level statements. -/
def checkNames : List Node → Except CompileError Unit
  | [] => .ok ()
  | n :: ns =>
    match definition? n with
    | some (name, _) =>
      if name = mainName then fail "'main' is reserved for top-level statements." n
      else checkNames ns
    | none => checkNames ns

end Compiler

/-- The bytecode of a program: `main` first, then the definitions in order. -/
def compile (root : Node) : Except CompileError BytecodeProgram := do
  if !root.isProgram then Compiler.fail "Expected Program node." root
  else
    Compiler.checkNames root.children
    let names := (root.children.filterMap Compiler.definition?).map Prod.fst
    let (functions, constants) ← Compiler.definitionCodes names root.children []
    let statements := root.children.filter fun n => (Compiler.definition? n).isNone
    let (main, constants) ← Compiler.functionOf names Compiler.mainName [] statements constants
    pure ⟨constants, (main :: functions).toArray⟩

end Arbor
