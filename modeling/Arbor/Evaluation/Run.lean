import Arbor.Evaluation.Evaluator

/-!
# Running programs in a session

Whole runs: a program against the globals, a node in a frame of its own, a capability call, and
bytecode on the machine. Each takes a bound on the work, yields a value or why there is none, and the
session behind it.
-/

namespace Arbor.Session

variable {σ : Type} [Host σ]

/-- How a whole run ends. A `Return` that no call encloses ends it with its value. -/
def conclude (o : Outcome Value) : Except Halt Value :=
  match o with
  | .value v | .returned v => .ok v
  | .halted h => .error h

/-- Evaluates a node against the globals. -/
def evaluate (s : Session σ) (fuel : Nat) (n : Node) : Except Halt Value × Session σ :=
  let (o, t) := Eval.eval fuel n ⟨s, []⟩
  (conclude o, t.session)

/-- Evaluates a node in a frame, so that what it binds stays there; also the frame behind it. -/
def evaluateInFrame (s : Session σ) (fuel : Nat) (n : Node) (frame : Env) :
    Except Halt Value × Env × Session σ :=
  let (o, t) := Eval.eval fuel n ⟨s, [frame]⟩
  (conclude o, t.frames.head?.getD ∅, t.session)

/-- Calls a capability on values, with the checks that a call in a program goes through. -/
def callCapability (s : Session σ) (fuel : Nat) (target : String) (args : List Value) :
    Except Halt Value × Session σ :=
  let (o, t) := Eval.callCapability (Eval.eval fuel) fuel fuel target args ⟨s, []⟩
  (conclude o, t.session)

/-- Runs a function of a bytecode program. -/
def runProgram (s : Session σ) (fuel : Nat) (p : BytecodeProgram) (entry : String)
    (args : List Value) : Except Halt Value × Session σ :=
  let call := Eval.callCapability (Eval.eval fuel) fuel fuel
  let (o, t) := Eval.runMachine call fuel p entry args ⟨s, []⟩
  (conclude o, t.session)

/-- Loads a bytecode node and runs a function of it on the values of the argument nodes. -/
def runBytecode (s : Session σ) (fuel : Nat) (bytecode : Node) (entry : String) (args : Node) :
    Except Halt Value × Session σ :=
  let call := Eval.callCapability (Eval.eval fuel) fuel fuel
  let (o, t) := Eval.runBytecode call fuel bytecode entry args ⟨s, []⟩
  (conclude o, t.session)

end Arbor.Session
