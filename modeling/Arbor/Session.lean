import Arbor.Bytecode.Program
import Arbor.Capability.Contract
import Arbor.Host.Call
import Arbor.Recorder

/-!
# Sessions

A session is all that one or more runs of programs share: global bindings, permissions, what limits
and observes a run, the modules loaded so far, and the host. Nothing of it is kept anywhere else.
-/

namespace Arbor

/-- What a module exports, by name. -/
abbrev Exports := Dict Value

/-- The modules of a session: the exports of those loaded, the paths of those being loaded, and the
exports so far of each of these, the innermost first. -/
structure Modules where
  cache : Dict Exports := ∅
  loading : List String := []
  exportScopes : List Exports := []

/-- The evaluation depth that a session allows when nothing else is said. -/
def defaultMaxDepth : Nat := 4096

/-- The state of a session over a host of type `σ`. -/
structure Session (σ : Type) where
  globals : Env := ∅
  permissions : List String
  /-- Names that a `Let` may not bind. -/
  readOnly : List String := []
  /-- The directory that relative import paths start from. -/
  baseDir : String := "."
  /-- Does an unknown value end the run? -/
  strict : Bool := false
  maxDepth : Nat := defaultMaxDepth
  trace : Bool := false
  traceSteps : Array Node := #[]
  /-- The names of the active functions, the innermost first. -/
  callStack : List String := []
  recorder? : Option Recorder := none
  replay? : Option Replay := none
  host : σ
  modules : Modules := {}
  /-- How many evaluations are nested at the moment. -/
  depth : Nat := 0
  /-- The serial number of the next closure. -/
  nextSerial : Nat := 0

/-- The permissions that a session has by default, and more. -/
def defaultPermissions (more : List String) : List String := "math" :: more

namespace Session

variable {σ : Type}

def hasPermission (s : Session σ) (permission : String) : Bool := s.permissions.contains permission

def grant (s : Session σ) (permission : String) : Session σ :=
  if s.hasPermission permission then s else { s with permissions := permission :: s.permissions }

def revoke (s : Session σ) (permission : String) : Session σ :=
  { s with permissions := s.permissions.filter (· != permission) }

/-- Forgets all modules, between independent runs. -/
def resetModules (s : Session σ) : Session σ := { s with modules := {} }

/-- Lets the recorder, if there is one, make a record. -/
def record (s : Session σ) (f : Recorder → Recorder) : Session σ :=
  { s with recorder? := s.recorder?.map f }

/-- Records a capability call. -/
def recordCall (s : Session σ) (target : String) (args : List Value) (result : Value)
    (phase : CallPhase) : Session σ :=
  s.record fun r => r.recordSyscall target (args.map Value.render) result.render phase.name

end Session

/-- What ends a run at once. Unlike diagnostics and error nodes, a fault is no value. -/
inductive Fault where
  | readOnlyBinding (name nodeId : String)
  | depthExceeded (limit : Nat) (nodeId : String)
  | strictUnknown (nodeId : String)
  | importCycle (path : String)
  | host (target : String) (error : HostError)
  | bytecode (error : BytecodeError)
  deriving DecidableEq

namespace Fault

def code : Fault → String
  | readOnlyBinding .. => "RUN001"
  | depthExceeded .. => "RUN002"
  | strictUnknown _ => "RUN003"
  | importCycle _ => "RUN004"
  | host .. => "RUN005"
  | bytecode e => e.code

def message : Fault → String
  | readOnlyBinding name _ => "cannot rebind read-only name '" ++ name ++ "'"
  | depthExceeded limit _ => "maximum evaluation depth (" ++ Text.natText limit ++ ") exceeded"
  | strictUnknown nodeId => "node '" ++ nodeId ++ "' evaluated to unknown in strict mode"
  | importCycle path => "import cycle detected at '" ++ path ++ "'"
  | host target error => "host call " ++ target ++ " failed: " ++ error.message
  | bytecode e => e.message

/-- The node at fault, as far as one is. -/
def nodeId : Fault → String
  | readOnlyBinding _ nodeId | depthExceeded _ nodeId | strictUnknown nodeId => nodeId
  | importCycle _ | host .. => ""
  | bytecode e => e.nodeId

/-- The fault as a node. -/
def toErrNode (f : Fault) : Node := errNode "err0" f.code f.message f.nodeId

end Fault

/-- Why a run ends without a value. -/
inductive Halt where
  | fault (f : Fault)
  /-- The host ended the run. -/
  | stopped
  /-- The bound on the evaluation was too small. -/
  | outOfFuel

end Arbor
