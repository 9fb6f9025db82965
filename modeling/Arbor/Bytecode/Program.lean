import Arbor.Bytecode.Opcode
import Arbor.Text.Names

/-!
# Bytecode programs

What the machine runs: constants, and functions made of instructions.
-/

namespace Arbor

/-- An instruction: a mnemonic and operands, of which each opcode uses its own. -/
structure Instruction where
  op : String
  a : Int32 := 0
  b : Int32 := 0
  s : String := ""
  deriving DecidableEq

namespace Instruction

/-- The instruction with an opcode. -/
def of (op : Opcode) (a : Int32 := 0) (s : String := "") : Instruction :=
  { op := op.mnemonic, a, s }

/-- What the instruction does, if its mnemonic names an opcode. -/
def opcode? (i : Instruction) : Option Opcode := Opcode.ofMnemonic? i.op

end Instruction

/-- A function of a bytecode program. Its parameters have the first slots. -/
structure BytecodeFunction where
  name : String
  params : List String
  /-- The names of the slots. -/
  locals : List String
  code : Array Instruction
  deriving DecidableEq

/-- The number of slots that a call needs. -/
def BytecodeFunction.slotCount (f : BytecodeFunction) : Nat := max f.locals.length f.params.length

/-- A bytecode program. -/
structure BytecodeProgram where
  constants : List Value
  functions : Array BytecodeFunction

namespace BytecodeProgram

/-- The index of the last function with the name. -/
def functionIndex? (p : BytecodeProgram) (name : String) : Option Nat :=
  (p.functions.toList.reverse.findIdx? (·.name == name)).map fun i => p.functions.size - 1 - i

/-- The last function with the name. -/
def function? (p : BytecodeProgram) (name : String) : Option BytecodeFunction :=
  (p.functionIndex? name).bind fun i => p.functions[i]?

end BytecodeProgram

/-- Why bytecode does not load or does not run to its end. -/
inductive BytecodeError where
  /-- The container breaks its format at a node. -/
  | load (message nodeId : String)
  | invalidOpcode (op function : String) (pc : Nat)
  | stackOverflow (function : String)
  | stackUnderflow (function : String)
  | frameOverflow (function : String)
  | localOutOfRange (index : Int32) (function : String)
  | typeMismatch (message function : String)
  | invalidProgram (message function : String)
  deriving DecidableEq

namespace BytecodeError

def code : BytecodeError → String
  | load .. => "VM001"
  | invalidOpcode .. => "AIVM001"
  | stackOverflow _ => "AIVM002"
  | stackUnderflow _ => "AIVM003"
  | frameOverflow _ => "AIVM004"
  | localOutOfRange .. => "AIVM006"
  | typeMismatch .. => "AIVM007"
  | invalidProgram .. => "AIVM008"

def message : BytecodeError → String
  | load message _ => message
  | invalidOpcode op function pc =>
    "invalid opcode '" ++ op ++ "' at " ++ function ++ ":" ++ Text.natText pc
  | stackOverflow function => "stack overflow in " ++ function
  | stackUnderflow function => "stack underflow in " ++ function
  | frameOverflow function => "call depth exceeded calling " ++ function
  | localOutOfRange index function =>
    "local " ++ Text.intText index.toInt ++ " out of range in " ++ function
  | typeMismatch message function => message ++ " in " ++ function
  | invalidProgram message _ => message

/-- The node at fault, or the function that was running. -/
def nodeId : BytecodeError → String
  | load _ nodeId => nodeId
  | invalidOpcode _ function _ | stackOverflow function | stackUnderflow function
  | frameOverflow function | localOutOfRange _ function | typeMismatch _ function
  | invalidProgram _ function => function

/-- The error as a node. -/
def toErrNode (e : BytecodeError) : Node := errNode "err0" e.code e.message e.nodeId

end BytecodeError

end Arbor
