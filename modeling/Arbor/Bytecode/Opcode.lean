import Arbor.Operator

/-!
# Opcodes

The instructions of the stack machine and their mnemonics. Bytecode carries mnemonics; one that names
no opcode only matters when the machine comes to it.
-/

namespace Arbor

/-- What an instruction does. Operands are the fields of the instruction that carries the opcode. -/
inductive Opcode where
  | nop
  /-- Push the constant with index a. -/
  | const
  | pushInt
  /-- Push whether a is not zero. -/
  | pushBool
  | pushVoid
  | pop
  | dup
  | loadLocal
  /-- Pop into local a. -/
  | storeLocal
  /-- Go to instruction a. -/
  | jump
  /-- Pop, and go to a when that was false. -/
  | jumpIfFalse
  /-- Go to a when the top is an error node, which stays. -/
  | jumpIfErr
  | operator (op : Operator)
  /-- Call the function s with a arguments. -/
  | call
  /-- Call the capability s with a arguments. -/
  | callSys
  | ret
  | halt
  deriving DecidableEq

/-- The mnemonic of the instruction that applies the operator. -/
def Operator.mnemonic : Operator → String
  | eq => "EQ"
  | add => "ADD"
  | toText => "TO_STRING"
  | strConcat => "STR_CONCAT"
  | strEscape => "STR_ESCAPE"
  | nodeKind => "NODE_KIND"
  | nodeId => "NODE_ID"
  | attrCount => "ATTR_COUNT"
  | attrKey => "ATTR_KEY"
  | attrValueKind => "ATTR_VALUE_KIND"
  | attrValueString => "ATTR_VALUE_STRING"
  | attrValueInt => "ATTR_VALUE_INT"
  | attrValueBool => "ATTR_VALUE_BOOL"
  | childCount => "CHILD_COUNT"
  | childAt => "CHILD_AT"
  | makeBlock => "MAKE_BLOCK"
  | appendChild => "APPEND_CHILD"
  | makeErr => "MAKE_ERR"
  | makeLitString => "MAKE_LIT_STRING"

namespace Opcode

def mnemonic : Opcode → String
  | nop => "NOP"
  | const => "CONST"
  | pushInt => "PUSH_INT"
  | pushBool => "PUSH_BOOL"
  | pushVoid => "PUSH_VOID"
  | pop => "POP"
  | dup => "DUP"
  | loadLocal => "LOAD_LOCAL"
  | storeLocal => "STORE_LOCAL"
  | jump => "JUMP"
  | jumpIfFalse => "JUMP_IF_FALSE"
  | jumpIfErr => "JUMP_IF_ERR"
  | operator op => op.mnemonic
  | call => "CALL"
  | callSys => "CALL_SYS"
  | ret => "RETURN"
  | halt => "HALT"

/-- All opcodes. -/
def all : List Opcode :=
  [nop, const, pushInt, pushBool, pushVoid, pop, dup, loadLocal, storeLocal, jump, jumpIfFalse,
    jumpIfErr] ++ Operator.all.map operator ++ [call, callSys, ret, halt]

/-- The opcode with a mnemonic. -/
def ofMnemonic? (text : String) : Option Opcode := all.find? (·.mnemonic == text)

/-- The operator that the instruction applies, if it applies one. -/
def operator? : Opcode → Option Operator
  | operator op => some op
  | _ => none

end Opcode

end Arbor
