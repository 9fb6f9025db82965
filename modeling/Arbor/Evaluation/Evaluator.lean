import Arbor.Bytecode.Compiler
import Arbor.Bytecode.Container
import Arbor.Bytecode.Machine
import Arbor.Capability.Dispatch
import Arbor.Capability.Table
import Arbor.Evaluation.Module
import Arbor.Evaluation.Outcome
import Arbor.Path
import Arbor.Text.Names
import Arbor.Validation.Flow

/-!
# The evaluator

Evaluates nodes. Every function here takes the evaluation of a node, `self`, as an argument and
recurses on lists only; `eval` ties the knot with a bound on how deep evaluations nest. `steps` bounds
the runs of the bytecode machine that a program starts.

An operand, an argument or a name that does not fit makes a value `unknown`, which is no error. An
error node ends the sequence it occurs in. A fault ends the run.
-/

namespace Arbor

open Text

variable {σ : Type}

namespace Eval

/-! ## Sequences and operands -/

/-- Evaluates nodes in order up to the first error node, and yields the last value. `last` is the
value when there is no node left. -/
def sequence (self : Node → Eval σ Value) (last : Value) : List Node → Eval σ Value
  | [] => pure last
  | n :: ns => do
    let v ← self n
    if v.isErr then pure v else sequence self v ns

/-- Evaluates nodes in order to all their values. -/
def operands (self : Node → Eval σ Value) : List Node → Eval σ (List Value)
  | [] => pure []
  | n :: ns => do
    let v ← self n
    let vs ← operands self ns
    pure (v :: vs)

/-! ## Functions -/

/-- The closure that a `Fn` node makes of the current bindings; unknown when the node has no parameter
list or its body is no block. -/
def makeClosure (n : Node) (name? : Option String) : Eval σ Value :=
  match n.text? "params", n.children with
  | some params, [body] =>
    if body.isBlock then do
      let env ← currentEnv
      let serial ← newSerial
      pure (.fn ⟨splitNames params, body, env.entries, name?, serial⟩)
    else pure .unknown
  | _, _ => pure .unknown

/-- The bindings in which the body of a closure starts: globals, the closure under its own name, what
it captured, and its parameters, each over the ones before. -/
def calleeEnv (globals : Env) (f : Closure Value) (args : List Value) : Env :=
  let named := match f.name? with
    | some name => globals.insert name (.fn f)
    | none => globals
  (named.insertAll f.captured).insertAll (f.params.zip args)

/-- Calls a closure. A wrong number of arguments makes the result unknown. -/
def callClosure (self : Node → Eval σ Value) (f : Closure Value) (args : List Value) :
    Eval σ Value :=
  if f.params.length ≠ args.length then pure .unknown
  else do
    let s ← getSession
    let env := calleeEnv s.globals f args
    catchReturn (between (·.enterCall (f.name?.getD "<fn>") env) (·.leaveCall) (self f.body))

/-- Passes a value on, unless it is unknown and the session is strict: then the node is at fault. -/
def known (n : Node) (v : Value) : Eval σ Value := fun t =>
  if v.isUnknown && t.session.strict then (.halted (.fault (.strictUnknown n.id)), t)
  else (.value v, t)

/-- Evaluates a node whose value is about to be bound to a name. A `Fn` learns the name, so that its
body can call it. -/
def bound (self : Node → Eval σ Value) (n : Node) (name : String) : Eval σ Value :=
  if n.isFn then do
    noteStep n
    let v ← makeClosure n (some name)
    known n v
  else self n

/-! ## Programs that handle programs -/

/-- The root of a text, or the first thing to report about it as a node. -/
def parsedValue (text : String) : Value :=
  let parsed := parse text
  match parsed.diagnostics, parsed.root? with
  | d :: _, _ => .node (d.toErrNode "err0")
  | [], some root => .node root
  | [], none => .unknown

/-- What there is to report about a program, as nodes in a block. -/
def validationNode (n : Node) (permissions : List String) : Node where
  kind := "Block"
  id := "diagnostics"
  children := (validate n ∅ permissions true).mapIdx fun i d => d.toErrNode ("diag" ++ natText i)

/-- The bytecode of a program as a node, or why it does not compile. -/
def bytecodeNode (n : Node) : Node :=
  match compile n with
  | .ok program => program.toNode
  | .error e => e.toErrNode

/-- The value that a node stands for as an argument of a bytecode function. -/
def argumentValue (n : Node) : Value := if n.kind = Form.lit.kind then n.literal else .node n

/-- Evaluates a node in a frame of its own without bindings; the frames outside are out of reach. -/
def runNested (self : Node → Eval σ Value) (n : Node) : Eval σ Value := fun t =>
  let (o, t') := catchReturn (self n) { t with frames := [∅] }
  (o, { t' with frames := t.frames })

/-- The way in which a session runs the machine: capability calls go to `call`, and the recorder sees
the steps. -/
def machineRunner (call : String → List Value → Eval σ Value) :
    Machine.Runner (Activation σ) Halt where
  call target args t :=
    match call target args t with
    | (.value v, t) | (.returned v, t) => (.ok v, t)
    | (.halted h, t) => (.error h, t)
  wantsSteps t := t.session.recorder?.isSome
  observe v t := { t with session := t.session.record fun r => r.recordMachineStep v t.session.globals }

/-- Runs a function of a bytecode program on the machine. -/
def runMachine (call : String → List Value → Eval σ Value) (steps : Nat) (p : BytecodeProgram)
    (entry : String) (args : List Value) : Eval σ Value := fun t =>
  match Machine.run (machineRunner call) steps p entry args t with
  | (.ok v, t) => (.value v, t)
  | (.error (.failed e), t) => (.halted (.fault (.bytecode e)), t)
  | (.error (.ended h), t) => (.halted h, t)
  | (.error .outOfFuel, t) => (.halted .outOfFuel, t)

/-- Loads a bytecode node and runs a function of it on the values of the argument nodes. -/
def runBytecode (call : String → List Value → Eval σ Value) (steps : Nat) (bytecode : Node)
    (entry : String) (args : Node) : Eval σ Value :=
  match BytecodeProgram.load bytecode with
  | .ok p => runMachine call steps p entry (args.children.map argumentValue)
  | .error e => fault (.bytecode e)

/-- Turns a fault inside the step into its error node. -/
def faultAsValue (step : Eval σ Value) : Eval σ Value := fun t =>
  match step t with
  | (.halted (.fault f), t) => (.value (.node f.toErrNode), t)
  | (o, t) => (o, t)

/-! ## Capabilities -/

/-- Answers a capability that the session itself serves. -/
def serveMeta (self : Node → Eval σ Value) (call : String → List Value → Eval σ Value) (steps : Nat)
    (target : String) (args : List Value) : Eval σ Value :=
  match target, args with
  | "compiler.parse", [.str text] => pure (parsedValue text)
  | "compiler.format", [.node n] => pure (.str n.format)
  | "compiler.validate", [.node n] => do
    let s ← getSession
    pure (.node (validationNode n s.permissions))
  | "compiler.emitBytecode", [.node n] => pure (.node (bytecodeNode n))
  | "compiler.run", [.node n] => runNested self n
  | "sys.vm_run", [.node bytecode, .str entry, .node callArgs] =>
    faultAsValue (runBytecode call steps bytecode entry callArgs)
  | _, _ => pure .unknown

/-- Asks the host, or the recorded events, for a capability. -/
def serveHost [Host σ] (target : String) (args : List Value) : Eval σ Value := fun t =>
  let s := t.session
  let replayed := target == "sys.ui_pollEvent" && s.replay?.isSome
  let result := Dispatch.invoke s.host s.replay? target args
  let s := { s with host := result.host, replay? := result.replay? }
  match result.answer with
  | .given v =>
    let phase := if replayed then .replay else .ok
    (.value v, { t with session := s.recordCall target args v phase })
  | .refused e =>
    (.halted (.fault (.host target e)),
      { t with session := s.recordCall target args .unknown .failed })
  | .stopped => (.halted .stopped, { t with session := s })

/-- Records a call that the permissions do not allow; its arguments are not evaluated. -/
def deny (contract : Contract) : Eval σ Unit :=
  modifySession fun s => s.recordCall contract.target [] .unknown .denied

/-- Calls a capability on values, where `serve` answers those that the session itself serves. A target
that there is not, a missing permission and arguments that break the contract make the result
unknown. -/
def callChecked [Host σ] (serve : String → List Value → Eval σ Value) (target : String)
    (args : List Value) : Eval σ Value :=
  match Contract.lookup? target with
  | none => pure .unknown
  | some contract => do
    let s ← getSession
    if !s.hasPermission contract.permission then
      deny contract
      pure .unknown
    else if args.any Value.isUnknown || !(contract.check (args.map Value.kind)).isEmpty then
      modifySession fun s => s.recordCall target args .unknown .rejected
      pure .unknown
    else if contract.isMeta then
      let v ← serve target args
      modifySession fun s => s.recordCall target args v .ok
      pure v
    else serveHost target args

/-- Calls a capability on values. The last number bounds how deep runs of the machine nest inside each
other. -/
def callCapability [Host σ] (self : Node → Eval σ Value) (steps : Nat) :
    Nat → String → List Value → Eval σ Value
  | 0 => callChecked fun _ _ => halt .outOfFuel
  | nesting + 1 => callChecked (serveMeta self (callCapability self steps nesting) steps)

/-! ## Modules -/

/-- The path under which a session knows the file of an import. -/
def resolveModule [Host σ] (path : String) : Eval σ String := do
  let s ← getSession
  let joined := Path.join s.baseDir path
  match ← ask (.canonicalPath joined) with
  | .ok canonical => pure (canonical : String)
  | .error _ => pure joined

/-- The names of a module's exports start with this: the alias, or the name of its file. -/
def moduleNamespace (path : String) (alias? : Option String) : String :=
  alias?.getD (Path.stem path)

/-- Evaluates a module's program in a frame of its own, with its own scope of exports and its own
directory, and yields the outcome and the exports. -/
def runModule (self : Node → Eval σ Value) (path : String) (program : Node) :
    Eval σ (Outcome Value × Exports) := fun t =>
  let (o, t') := self program (t.enterModule path)
  (.value (o, t'.exports), t'.leaveModule path t.session.baseDir)

/-- Keeps the exports of a module for later imports. -/
def keepExports (path : String) (exports : Exports) : Eval σ (Except Node Exports) := fun t =>
  (.value (.ok exports), t.keepExports path exports)

/-- What an import makes of the run of a module's program. An error node that the program ends with
is what the import ends with. -/
def settleModule (path : String) : Outcome Value × Exports → Eval σ (Except Node Exports)
  | (.halted h, _) => halt h
  | (.value (.node n), exports) => if n.isErr then pure (.error n) else keepExports path exports
  | (.value _, exports) | (.returned _, exports) => keepExports path exports

/-- Loads a module that is not loaded yet: its exports, or the error node that keeps it from being
loaded. Loading a module that is being loaded is a fault. -/
def loadModule [Host σ] (self : Node → Eval σ Value) (path importId : String) :
    Eval σ (Except Node Exports) := do
  let s ← getSession
  if s.modules.loading.contains path then fault (.importCycle path)
  else match ← ask (.moduleText path) with
    | .error e => pure (.error ((ModuleError.unreadable path e.message).toErrNode importId))
    | .ok text =>
      match moduleProgram path text with
      | .error e => pure (.error (e.toErrNode importId))
      | .ok program => do
        let ran ← runModule self path program
        settleModule path ran

/-- Binds each export under its qualified name. -/
def bindExports (ns : String) (exports : Exports) : Eval σ Unit := fun t =>
  (.value (), t.mapEnv fun env =>
    env.insertAll (exports.entries.map fun (name, v) => (ns ++ "." ++ name, v)))

/-- The exports of a module, which is loaded unless it has been. -/
def importModule [Host σ] (self : Node → Eval σ Value) (path importId : String) :
    Eval σ (Except Node Exports) := do
  let s ← getSession
  match s.modules.cache.find? path with
  | some exports => pure (.ok exports)
  | none => loadModule self path importId

/-- The value of an import: the error that kept the module from being loaded, or nothing once its
exports are bound. -/
def bindImport (ns : String) : Except Node Exports → Eval σ Value
  | .error e => pure (.node e)
  | .ok exports => do
    bindExports ns exports
    pure .void

/-- Adds an export to the module being loaded, if there is one. -/
def addExport (name : String) (v : Value) : Eval σ Unit := fun t => (.value (), t.addExport name v)

/-! ## Forms -/

/-- Evaluates a `Let`, given the evaluation of what it binds. -/
def evalBind (bound : Node → String → Eval σ Value) (n : Node) : Eval σ Value :=
  match n.ident? "name" with
  | none => pure .unknown
  | some name => do
    let s ← getSession
    if s.readOnly.contains name then fault (.readOnlyBinding name n.id)
    else match n.children with
      | [child] => do
        let v ← bound child name
        bindName name v
        pure .void
      | _ => pure .unknown

def evalVar (n : Node) : Eval σ Value :=
  match n.ident? "name" with
  | none => pure .unknown
  | some name => do
    let env ← currentEnv
    pure ((env.find? name).getD .unknown)

/-- Evaluates a `Call`, given the evaluation of its arguments and the ways in which capabilities and
closures are called. The arguments of a call that reaches neither are not evaluated. -/
def evalCall (self : Node → Eval σ Value) (capability : String → List Value → Eval σ Value)
    (closure : Closure Value → List Value → Eval σ Value) (n : Node) : Eval σ Value :=
  match n.ident? "target" with
  | none => pure .unknown
  | some target =>
    match Contract.lookup? target with
    | some contract => do
      let s ← getSession
      if s.hasPermission contract.permission then
        let args ← operands self n.children
        capability target args
      else
        deny contract
        pure .unknown
    | none => do
      let env ← currentEnv
      let s ← getSession
      match (env.find? target).or (s.globals.find? target) with
      | some (.fn f) => do
        let args ← operands self n.children
        closure f args
      | _ => pure .unknown

/-- Goes on by what a condition comes to. One that is no truth value makes the branch unknown. -/
def choose (thenStep elseStep : Eval σ Value) : Value → Eval σ Value
  | .bool true => thenStep
  | .bool false => elseStep
  | _ => pure .unknown

def evalBranch (self : Node → Eval σ Value) (n : Node) : Eval σ Value :=
  match n.children with
  | [condition, thenArm] => do
    let v ← self condition
    choose (self thenArm) (pure .void) v
  | [condition, thenArm, elseArm] => do
    let v ← self condition
    choose (self thenArm) (self elseArm) v
  | _ => pure .unknown

def evalLeave (self : Node → Eval σ Value) (n : Node) : Eval σ Value :=
  match n.children with
  | [] => unwind .void
  | child :: _ => do
    let v ← self child
    unwind v

def evalImport [Host σ] (self : Node → Eval σ Value) (n : Node) : Eval σ Value :=
  match n.text? "path" with
  | none => pure .unknown
  | some path => do
    let resolved ← resolveModule path
    let imported ← importModule self resolved n.id
    bindImport (moduleNamespace resolved (n.text? "as")) imported

/-- Evaluates an `Export`, given the evaluation of what it exports. -/
def evalExport (bound : Node → String → Eval σ Value) (n : Node) : Eval σ Value :=
  match n.text? "name" with
  | none => pure .unknown
  | some name =>
    match n.children with
    | [] => do
      let env ← currentEnv
      addExport name ((env.find? name).getD .unknown)
      pure .void
    | [child] => do
      let v ← bound child name
      addExport name v
      pure .void
    | _ => pure .unknown

def evalOperator (self : Node → Eval σ Value) (op : Operator) (n : Node) : Eval σ Value :=
  if n.children.length ≠ op.arity then pure .unknown
  else do
    let args ← operands self n.children
    pure (op.apply args)

/-- Evaluates a node by its form. A kind that the language does not define is unknown. -/
def evalForm [Host σ] (self : Node → Eval σ Value) (steps : Nat) (n : Node) : Eval σ Value :=
  match n.form? with
  | some .program | some .block => sequence self .void n.children
  | some .bind => evalBind (bound self) n
  | some .var => evalVar n
  | some .lit => pure n.literal
  | some .call => evalCall self (callCapability self steps steps) (callClosure self) n
  | some .fn => makeClosure n none
  | some .branch => evalBranch self n
  | some .leave => evalLeave self n
  | some .importModule => evalImport self n
  | some .exportName => evalExport (bound self) n
  | some (.operator op) => evalOperator self op n
  | none => pure .unknown

/-- Lets a step count as nested, for as long as it takes. -/
def nested (step : Eval σ Value) : Eval σ Value := between (·.deepen) (·.surface) step

/-- Faults at a node when as many evaluations are nested as the session allows. -/
def checkDepth (n : Node) : Eval σ Unit := fun t =>
  let limit := t.session.maxDepth
  if limit ≤ t.session.depth then (.halted (.fault (.depthExceeded limit n.id)), t)
  else (.value (), t)

/-- Enters a node for a step of it: within the depth that the session allows, noted as a step, and with
an unknown value at fault in a strict session. -/
def entering (n : Node) (step : Eval σ Value) : Eval σ Value := do
  checkDepth n
  noteStep n
  let v ← nested step
  known n v

/-- Evaluates a node, given the evaluation of nodes. -/
def evalWith [Host σ] (self : Node → Eval σ Value) (steps : Nat) (n : Node) : Eval σ Value :=
  entering n (evalForm self steps n)

/-- Evaluates a node. The bound is on how deep evaluations nest, and on the steps of each run of the
bytecode machine. -/
def eval [Host σ] : Nat → Node → Eval σ Value
  | 0, _ => halt .outOfFuel
  | fuel + 1, n => evalWith (eval fuel) fuel n

end Eval

end Arbor
