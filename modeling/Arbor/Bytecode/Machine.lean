import Arbor.Bytecode.Program
import Arbor.Recorder

/-!
# The stack machine

One operand stack is shared by all frames; a frame owns what lies above its base. The locals of a
frame are slots, the arguments first. Running off the end of a function returns `void`.

`step` does one instruction and says what comes of it. A capability call is handed to whoever runs the
machine, so a step needs nothing but the machine.
-/

namespace Arbor

/-- The most values that the operand stack holds. -/
def maxStack : Nat := 1024

/-- The most frames that are active at once. -/
def maxFrames : Nat := 256

/-- A call in progress. -/
structure Frame where
  /-- The index of the function. -/
  function : Nat
  /-- The index of the next instruction. -/
  pc : Nat
  locals : Array Value
  /-- Where the frame's part of the operand stack begins. -/
  base : Nat

/-- The state of the machine: the operand stack from the bottom, and the frames from the innermost. -/
structure Machine where
  stack : Array Value
  frames : List Frame

namespace Machine

/-- What comes of a step. -/
inductive Transition where
  /-- The machine goes on. -/
  | next (m : Machine)
  /-- The program ends with a value. -/
  | finished (v : Value)
  | failed (e : BytecodeError)
  /-- The machine goes on when the capability call is answered, for the function that made it. -/
  | calls (target : String) (args : List Value) (m : Machine) (function : String)

/-- The machine before its first call. -/
def idle : Machine := ⟨#[], []⟩

/-- Where the operands of the innermost frame begin. -/
def base (m : Machine) : Nat :=
  match m.frames with
  | [] => 0
  | f :: _ => f.base

/-- Pushes a value for a function. -/
def push (m : Machine) (function : String) (v : Value) : Except BytecodeError Machine :=
  if maxStack ≤ m.stack.size then .error (.stackOverflow function)
  else .ok { m with stack := m.stack.push v }

/-- The top of the innermost frame's operands. -/
def top? (m : Machine) : Option Value := if m.stack.size ≤ m.base then none else m.stack.back?

/-- The top, as a function needs it. -/
def top (m : Machine) (function : String) : Except BytecodeError Value :=
  match m.top? with
  | some v => .ok v
  | none => .error (.stackUnderflow function)

/-- Pops the top for a function. -/
def pop (m : Machine) (function : String) : Except BytecodeError (Value × Machine) :=
  match m.top? with
  | some v => .ok (v, { m with stack := m.stack.pop })
  | none => .error (.stackUnderflow function)

/-- Pops the last `count` values, in the order in which they were pushed. -/
def popMany (m : Machine) (function : String) (count : Nat) :
    Except BytecodeError (List Value × Machine) :=
  if m.stack.size < m.base + count then .error (.stackUnderflow function)
  else
    let keep := m.stack.size - count
    .ok ((m.stack.extract keep m.stack.size).toList, { m with stack := m.stack.extract 0 keep })

/-- Pops the arguments of a call, whose number an instruction gives. -/
def popArgs (m : Machine) (function : String) (count : Int32) :
    Except BytecodeError (List Value × Machine) :=
  if count < 0 then
    .error (.invalidProgram ("Negative argument count " ++ Text.intText count.toInt ++ ".") function)
  else m.popMany function count.toInt.toNat

/-- The top if there is one, else `void`. -/
def topOrVoid (m : Machine) : Value := m.top?.getD .void

/-- Begins a call of the function with the index. -/
def enter (m : Machine) (index : Nat) (callee : BytecodeFunction)
    (args : List Value) : Except BytecodeError Machine :=
  if maxFrames ≤ m.frames.length then .error (.frameOverflow callee.name)
  else
    let locals := args ++ List.replicate (callee.slotCount - args.length) .void
    .ok { m with frames := ⟨index, 0, locals.toArray, m.stack.size⟩ :: m.frames }

/-- The name of the function with an index. -/
def functionName (p : BytecodeProgram) (index : Nat) : String :=
  (p.functions[index]?.map (·.name)).getD ""

/-- Ends the innermost call: its operands are dropped, and its value goes to the caller, or is the
value of the program. -/
def leave (p : BytecodeProgram) (m : Machine) (v : Value) : Transition :=
  let stack := m.stack.extract 0 m.base
  match m.frames.tail with
  | [] => .finished v
  | caller :: outer =>
    match push ⟨stack, caller :: outer⟩ (functionName p caller.function) v with
    | .ok m => .next m
    | .error e => .failed e

/-- Changes the innermost frame. -/
def mapFrame (m : Machine) (f : Frame → Frame) : Machine :=
  match m.frames with
  | [] => m
  | frame :: outer => { m with frames := f frame :: outer }

/-- Goes to an instruction of the function; its end counts as one. -/
def jump (m : Machine) (function : BytecodeFunction) (target : Int32) :
    Except BytecodeError Machine :=
  if target < 0 || function.code.size < target.toInt.toNat then
    .error (.invalidProgram ("Jump target " ++ Text.intText target.toInt ++ " out of range.")
      function.name)
  else .ok (m.mapFrame fun f => { f with pc := target.toInt.toNat })

/-- The slot that an instruction names. -/
def slot (frame : Frame) (function : String) (index : Int32) : Except BytecodeError Nat :=
  if index < 0 || frame.locals.size ≤ index.toInt.toNat then
    .error (.localOutOfRange index function)
  else .ok index.toInt.toNat

/-- The constant that an instruction names. -/
def constant (p : BytecodeProgram) (function : String) (index : Int32) :
    Except BytecodeError Value :=
  match Node.at? p.constants index with
  | some v => .ok v
  | none =>
    .error (.invalidProgram ("Constant index " ++ Text.intText index.toInt ++ " out of range.")
      function)

/-- Goes on when nothing fails. -/
def proceed (r : Except BytecodeError Machine) : Transition :=
  match r with
  | .ok m => .next m
  | .error e => .failed e

/-- Does one instruction of the innermost frame. The machine's program counter is already behind
it. -/
def execute (p : BytecodeProgram) (m : Machine) (frame : Frame) (function : BytecodeFunction)
    (op : Opcode) (inst : Instruction) : Transition :=
  let name := function.name
  match op with
  | .nop => .next m
  | .const => proceed do
    let v ← constant p name inst.a
    m.push name v
  | .pushInt => proceed (m.push name (.int inst.a))
  | .pushBool => proceed (m.push name (.bool (inst.a != 0)))
  | .pushVoid => proceed (m.push name .void)
  | .pop => proceed do
    let (_, m) ← m.pop name
    pure m
  | .dup => proceed do
    let v ← m.top name
    m.push name v
  | .loadLocal => proceed do
    let i ← slot frame name inst.a
    m.push name (frame.locals.getD i .void)
  | .storeLocal => proceed do
    let i ← slot frame name inst.a
    let (v, m) ← m.pop name
    pure (m.mapFrame fun f => { f with locals := f.locals.setIfInBounds i v })
  | .jump => proceed (m.jump function inst.a)
  | .jumpIfFalse => proceed do
    let (v, m) ← m.pop name
    match v with
    | .bool false => m.jump function inst.a
    | .bool true => pure m
    | other => .error (.typeMismatch ("JUMP_IF_FALSE expects bool, got " ++ other.kind.name) name)
  | .jumpIfErr => proceed do
    let v ← m.top name
    if v.isErr then m.jump function inst.a else pure m
  | .operator shared => proceed do
    let (args, m) ← m.popMany name shared.arity
    m.push name (shared.apply args)
  | .call => proceed do
    let (args, m) ← m.popArgs name inst.a
    match p.functionIndex? inst.s with
    | none => .error (.invalidProgram ("Unknown function '" ++ inst.s ++ "'.") name)
    | some index =>
      match p.functions[index]? with
      | none => .error (.invalidProgram ("Unknown function '" ++ inst.s ++ "'.") name)
      | some callee =>
        if args.length = callee.params.length then m.enter index callee args
        else m.push name .unknown
  | .callSys =>
    match m.popArgs name inst.a with
    | .ok (args, m) => .calls inst.s args m name
    | .error e => .failed e
  | .ret => m.leave p m.topOrVoid
  | .halt => .finished m.topOrVoid

/-- The instruction that the machine comes to next. -/
inductive Fetched where
  /-- No call is in progress. -/
  | nothing
  /-- The end of the innermost frame's function. -/
  | functionEnd
  | unknown (e : BytecodeError)
  | instruction (frame : Frame) (function : BytecodeFunction) (op : Opcode) (inst : Instruction)

/-- Finds the next instruction. -/
def fetch (p : BytecodeProgram) (m : Machine) : Fetched :=
  match m.frames with
  | [] => .nothing
  | frame :: _ =>
    match p.functions[frame.function]? with
    | none => .nothing
    | some function =>
      match function.code[frame.pc]? with
      | none => .functionEnd
      | some inst =>
        match inst.opcode? with
        | none => .unknown (.invalidOpcode inst.op function.name frame.pc)
        | some op => .instruction frame function op inst

/-- Does one step. -/
def step (p : BytecodeProgram) (m : Machine) : Transition :=
  match m.fetch p with
  | .nothing => .finished .void
  | .functionEnd => m.leave p .void
  | .unknown e => .failed e
  | .instruction frame function op inst =>
    execute p (m.mapFrame fun f => { f with pc := f.pc + 1 }) frame function op inst

/-- What an observer sees before an instruction. -/
def view (p : BytecodeProgram) (m : Machine) (frame : Frame) (function : BytecodeFunction)
    (op : Opcode) : MachineView where
  function := function.name
  pc := frame.pc
  mnemonic := op.mnemonic
  stack := (m.stack.extract frame.base m.stack.size).toList
  locals := frame.locals.toList
  frames := m.frames.reverse.map fun f => functionName p f.function

/-- The machine at the start of a function, or why it cannot start there. -/
def start (p : BytecodeProgram) (entry : String) (args : List Value) :
    Except BytecodeError Machine :=
  match (p.functionIndex? entry).bind fun i => p.functions[i]?.map (i, ·) with
  | none => .error (.invalidProgram ("Unknown entry function '" ++ entry ++ "'.") entry)
  | some (index, function) =>
    if args.length ≠ function.params.length then
      .error (.invalidProgram ("Entry '" ++ entry ++ "' expects " ++
        Text.natText function.params.length ++ " arguments, got " ++ Text.natText args.length ++
        ".") entry)
    else idle.enter index function args

/-- Who runs the machine: a state of type `τ`, in which capability calls are answered and steps may be
observed. A call that ends the run does so with an `ε`. -/
structure Runner (τ ε : Type) where
  call : String → List Value → τ → Except ε Value × τ
  wantsSteps : τ → Bool
  observe : MachineView → τ → τ

/-- Why a run ends without a value. -/
inductive Stop (ε : Type) where
  | failed (e : BytecodeError)
  | ended (e : ε)
  | outOfFuel

variable {τ ε : Type}

/-- Lets the runner see the next instruction, if it wants to. -/
def observeNext (runner : Runner τ ε) (p : BytecodeProgram) (m : Machine) (t : τ) : τ :=
  if runner.wantsSteps t then
    match m.fetch p with
    | .instruction frame function op _ => runner.observe (m.view p frame function op) t
    | _ => t
  else t

/-- Runs the machine to its end, for at most as many steps as the fuel says. -/
def exec (runner : Runner τ ε) (p : BytecodeProgram) : Nat → Machine → τ → Except (Stop ε) Value × τ
  | 0, _, t => (.error .outOfFuel, t)
  | fuel + 1, m, t =>
    let t := observeNext runner p m t
    match m.step p with
    | .next m => exec runner p fuel m t
    | .finished v => (.ok v, t)
    | .failed e => (.error (.failed e), t)
    | .calls target args m function =>
      match runner.call target args t with
      | (.error e, t) => (.error (.ended e), t)
      | (.ok v, t) =>
        match m.push function v with
        | .ok m => exec runner p fuel m t
        | .error e => (.error (.failed e), t)

/-- Runs a function of the program on arguments. -/
def run (runner : Runner τ ε) (fuel : Nat) (p : BytecodeProgram) (entry : String)
    (args : List Value) (t : τ) : Except (Stop ε) Value × τ :=
  match start p entry args with
  | .ok m => exec runner p fuel m t
  | .error e => (.error (.failed e), t)

end Machine

end Arbor
