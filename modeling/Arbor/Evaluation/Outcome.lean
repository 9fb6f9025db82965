import Arbor.Path
import Arbor.Session

/-!
# Evaluation steps and their outcomes

An evaluation step works on a session and on the frames of the functions and modules it is inside of.
It ends with a value, by a `Return` on its way to the enclosing call, or with the whole run at an end.
-/

namespace Arbor

/-- How an evaluation step ends. -/
inductive Outcome (α : Type) where
  | value (a : α)
  /-- A `Return` unwinds to the nearest call. -/
  | returned (v : Value)
  | halted (h : Halt)

/-- What an evaluation step works on: the session, and the bindings of the active frames from the
innermost. Without a frame the globals are the current bindings. -/
structure Activation (σ : Type) where
  session : Session σ
  frames : List Env

/-- An evaluation step that yields an `α`. -/
def Eval (σ α : Type) : Type := Activation σ → Outcome α × Activation σ

namespace Eval

variable {σ α β : Type}

@[always_inline]
instance : Monad (Eval σ) where
  pure a := fun t => (.value a, t)
  bind step f := fun t =>
    match step t with
    | (.value a, t) => f a t
    | (.returned v, t) => (.returned v, t)
    | (.halted h, t) => (.halted h, t)

theorem bind_def (step : Eval σ α) (f : α → Eval σ β) (t : Activation σ) :
    (step >>= f) t =
      match step t with
      | (.value a, u) => f a u
      | (.returned v, u) => (.returned v, u)
      | (.halted h, u) => (.halted h, u) := rfl

/-- Ends the run. -/
def halt (h : Halt) : Eval σ α := fun t => (.halted h, t)

/-- Ends the run with a fault. -/
def fault (f : Fault) : Eval σ α := halt (.fault f)

/-- Unwinds to the nearest call. -/
def unwind (v : Value) : Eval σ α := fun t => (.returned v, t)

/-- The session at this point. -/
def getSession : Eval σ (Session σ) := fun t => (.value t.session, t)

def modifySession (f : Session σ → Session σ) : Eval σ Unit :=
  fun t => (.value (), { t with session := f t.session })

/-- Does `step` after `enter`, and `leave` after it however it ends. -/
@[inline]
def between (enter leave : Activation σ → Activation σ) (step : Eval σ α) : Eval σ α := fun t =>
  let (o, t) := step (enter t)
  (o, leave t)

/-- Turns a `Return` inside the step into its value. -/
@[inline]
def catchReturn (step : Eval σ Value) : Eval σ Value := fun t =>
  match step t with
  | (.returned v, t) => (.value v, t)
  | (o, t) => (o, t)

/-- Asks the host. A refusal is a result; a stop ends the run. -/
def ask [Host σ] (call : HostCall) : Eval σ (Except HostError call.Reply) := fun t =>
  match Host.perform call t.session.host with
  | (.given reply, host) => (.value (.ok reply), { t with session := { t.session with host } })
  | (.refused e, host) => (.value (.error e), { t with session := { t.session with host } })
  | (.stopped, host) => (.halted .stopped, { t with session := { t.session with host } })

end Eval

namespace Activation

variable {σ : Type}

/-- The current bindings: those of the innermost frame, or the globals. -/
def env (t : Activation σ) : Env :=
  match t.frames with
  | [] => t.session.globals
  | frame :: _ => frame

/-- Changes the current bindings. -/
def mapEnv (t : Activation σ) (f : Env → Env) : Activation σ :=
  match t.frames with
  | [] => { t with session := { t.session with globals := f t.session.globals } }
  | frame :: outer => { t with frames := f frame :: outer }

/-- Enters a frame with these bindings. -/
def pushFrame (t : Activation σ) (env : Env) : Activation σ := { t with frames := env :: t.frames }

/-- Leaves the innermost frame. -/
def popFrame (t : Activation σ) : Activation σ := { t with frames := t.frames.tail }

/-- Enters the call of a function, whose body starts with the bindings `env`. -/
def enterCall (t : Activation σ) (function : String) (env : Env) : Activation σ :=
  { t with session := { t.session with callStack := function :: t.session.callStack } }.pushFrame env

/-- Leaves the innermost call. -/
def leaveCall (t : Activation σ) : Activation σ :=
  { t with session := { t.session with callStack := t.session.callStack.tail } }.popFrame

/-- Enters the program of a module: it has a frame of its own that starts with the globals, its own
scope of exports and its own directory. -/
def enterModule (t : Activation σ) (path : String) : Activation σ :=
  let s := t.session
  let modules : Modules :=
    { s.modules with
      loading := path :: s.modules.loading
      exportScopes := ∅ :: s.modules.exportScopes }
  { t with session := { s with modules, baseDir := (Path.parent? path).getD "" } }.pushFrame s.globals

/-- Leaves the program of a module for one in the directory `baseDir`. -/
def leaveModule (t : Activation σ) (path baseDir : String) : Activation σ :=
  let s := t.session
  let modules : Modules :=
    { s.modules with
      loading := s.modules.loading.erase path
      exportScopes := s.modules.exportScopes.tail }
  { t with session := { s with modules, baseDir } }.popFrame

/-- The exports so far of the module that is being loaded. -/
def exports (t : Activation σ) : Exports := t.session.modules.exportScopes.head?.getD ∅

/-- Adds an export to the module that is being loaded, if there is one. -/
def addExport (t : Activation σ) (name : String) (v : Value) : Activation σ :=
  match t.session.modules.exportScopes with
  | [] => t
  | scope :: outer =>
    let modules := { t.session.modules with exportScopes := scope.insert name v :: outer }
    { t with session := { t.session with modules } }

/-- Keeps the exports of a module for later imports. -/
def keepExports (t : Activation σ) (path : String) (exports : Exports) : Activation σ :=
  let modules := { t.session.modules with cache := t.session.modules.cache.insert path exports }
  { t with session := { t.session with modules } }

/-- Counts one more nested evaluation. -/
def deepen (t : Activation σ) : Activation σ :=
  { t with session := { t.session with depth := t.session.depth + 1 } }

/-- Counts one nested evaluation less. -/
def surface (t : Activation σ) : Activation σ :=
  { t with session := { t.session with depth := t.session.depth - 1 } }

/-- Notes in the trace and in the record that evaluation enters a node. -/
def noteStep (t : Activation σ) (n : Node) : Activation σ :=
  let s := t.session
  let traceSteps :=
    if s.trace then
      s.traceSteps.push
        { kind := "Step", id := "trace" ++ Text.natText s.traceSteps.size
          attrs := attrs [("kind", .string n.kind), ("nodeId", .string n.id)]
          span := n.span }
    else s.traceSteps
  let recorder? := s.recorder?.map fun r => r.recordAstStep n t.env s.callStack.reverse
  { t with session := { s with traceSteps, recorder? } }

end Activation

namespace Eval

variable {σ : Type}

/-- The current bindings. -/
def currentEnv : Eval σ Env := fun t => (.value t.env, t)

/-- Binds a name in the current bindings. -/
def bindName (name : String) (v : Value) : Eval σ Unit := fun t =>
  (.value (), t.mapEnv fun env => env.insert name v)

/-- Notes that evaluation enters a node. -/
def noteStep (n : Node) : Eval σ Unit := fun t => (.value (), t.noteStep n)

/-- The serial number of a new closure. -/
def newSerial : Eval σ Nat := fun t =>
  (.value t.session.nextSerial,
    { t with session := { t.session with nextSerial := t.session.nextSerial + 1 } })

end Eval

end Arbor
