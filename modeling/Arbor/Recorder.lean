import Arbor.Digest.Sha256
import Arbor.Json
import Arbor.Saturation
import Arbor.Value

/-!
# Recording a run

A recorder keeps what a run does: steps with a snapshot of the state at each, capability calls,
lifecycle events and diagnostics. Each record is a node, numbered by the counter of its category.
The id of the run comes from a seed, so that equal runs under one seed leave equal records.
-/

namespace Arbor

open Text

/-- A counter for each category of records. -/
structure Counters where
  step : Nat := 0
  snapshot : Nat := 0
  syscall : Nat := 0
  event : Nat := 0
  diagnostic : Nat := 0

/-- Each counter is the number of the records of its category. -/
structure Counters.Counts (c : Counters) (steps snapshots syscalls events diagnostics : Array Node) :
    Prop where
  step : c.step = steps.size
  snapshot : c.snapshot = snapshots.size
  syscall : c.syscall = syscalls.size
  event : c.event = events.size
  diagnostic : c.diagnostic = diagnostics.size

theorem counted_push {count : Nat} {records : Array Node} (h : count = records.size) (record : Node) :
    count + 1 = (records.push record).size := by
  rw [Array.size_push, h]

/-- What a run did so far, each category in order. The counters keep step with the categories. -/
@[ext]
structure Recorder where
  runId : String
  steps : Array Node
  snapshots : Array Node
  syscalls : Array Node
  events : Array Node
  diagnostics : Array Node
  counters : Counters
  counts : counters.Counts steps snapshots syscalls events diagnostics

/-- What became of a capability call. -/
inductive CallPhase where
  | ok | denied | rejected | failed | replay
  deriving DecidableEq

def CallPhase.name : CallPhase → String
  | ok => "ok"
  | denied => "denied"
  | rejected => "rejected"
  | failed => "failed"
  | replay => "replay"

/-- The state of the bytecode machine before an instruction: the operand stack of the current frame
from the bottom, its locals, and the functions of the active frames from the outermost. -/
structure MachineView where
  function : String
  pc : Nat
  mnemonic : String
  stack : List Value
  locals : List Value
  frames : List String

namespace Recorder

/-- The id of a run from its seed: the first twelve digits of the seed's digest. -/
def runIdOf (seed : String) : String := String.ofList ((Sha256.hexDigest seed).toList.take 12)

/-- A recorder without records. -/
def new (runId : String) : Recorder :=
  ⟨runId, #[], #[], #[], #[], #[], {}, ⟨rfl, rfl, rfl, rfl, rfl⟩⟩

/-- A recorder for a run under a seed. -/
def ofSeed (seed : String) : Recorder := new (runIdOf seed)

/-- The id of the next record of a category from the counter. -/
def nextId (stem : String) (counter : Nat) : String := stem ++ natText (counter + 1)

/-- Texts as numbered nodes below one node. -/
def textList (kind id itemKind itemStem : String) (values : List String) : Node where
  kind := kind
  id := id
  children := values.mapIdx fun i value =>
    { kind := itemKind, id := id ++ itemStem ++ natText i, attrs := attrs [("value", .string value)] }

/-- The record of a step. -/
def stepNode (id engine nodeId op function : String) (pc : Int32) (span : Span) : Node where
  kind := "Step"
  id := id
  attrs := attrs
    [("vm", .string engine), ("nodeId", .string nodeId), ("op", .string op),
      ("function", .string function), ("pc", .int pc)]
  span := span

/-- Adds the record of a step. -/
def addStep (r : Recorder) (step : String → Node) : Recorder :=
  { r with
    steps := r.steps.push (step (nextId "dbg_step_" r.counters.step))
    counters := { r.counters with step := r.counters.step + 1 }
    counts := { r.counts with step := counted_push r.counts.step _ } }

/-- Adds a snapshot of the state at a step. -/
def addSnapshot (r : Recorder) (engine stepNodeId : String) (env : Env) (callStack : List String)
    (stack locals : List Value) : Recorder :=
  let id := nextId "dbg_snap_" r.counters.snapshot
  let bindings := env.entries.map fun (name, value) => name ++ "=" ++ value.render
  let list (kind suffix : String) (values : List String) : Node :=
    textList kind (id ++ suffix) "Item" "_item_" values
  let snapshot : Node :=
    { kind := "Snapshot", id
      attrs := attrs [("vm", .string engine), ("stepNodeId", .string stepNodeId)]
      children :=
        [list "env" "_env" bindings, list "callStack" "_call" callStack,
          list "stack" "_stack" (stack.map Value.render),
          list "locals" "_locals" (locals.map Value.render)] }
  { r with
    snapshots := r.snapshots.push snapshot
    counters := { r.counters with snapshot := r.counters.snapshot + 1 }
    counts := { r.counts with snapshot := counted_push r.counts.snapshot _ } }

/-- Records that evaluation enters a node. `callStack` holds the active functions from the
outermost. -/
def recordAstStep (r : Recorder) (n : Node) (env : Env) (callStack : List String) : Recorder :=
  let step (id : String) := stepNode id "ast" n.id n.kind (callStack.getLast?.getD "") (-1) n.span
  (r.addStep step).addSnapshot "ast" n.id env callStack [] []

/-- Records that the bytecode machine comes to an instruction. -/
def recordMachineStep (r : Recorder) (v : MachineView) (env : Env) : Recorder :=
  let step (id : String) :=
    stepNode id "bytecode" v.function v.mnemonic v.function (saturateCount v.pc) .nowhere
  (r.addStep step).addSnapshot "bytecode" v.function env v.frames v.stack v.locals

/-- Records a capability call with the short forms of its arguments and its result. -/
def recordSyscall (r : Recorder) (target : String) (args : List String) (result : String)
    (phase : String) : Recorder :=
  let id := nextId "dbg_sys_" r.counters.syscall
  let syscall : Node :=
    { textList "Syscall" id "Arg" "_arg_" args with
      attrs := attrs
        [("target", .string target), ("result", .string result), ("phase", .string phase)] }
  { r with
    syscalls := r.syscalls.push syscall
    counters := { r.counters with syscall := r.counters.syscall + 1 }
    counts := { r.counts with syscall := counted_push r.counts.syscall _ } }

/-- Records a lifecycle event. -/
def recordEvent (r : Recorder) (kind payload : String) : Recorder :=
  let event : Node :=
    { kind := "Event", id := nextId "dbg_evt_" r.counters.event
      attrs := attrs [("kind", .string kind), ("payload", .string payload)] }
  { r with
    events := r.events.push event
    counters := { r.counters with event := r.counters.event + 1 }
    counts := { r.counts with event := counted_push r.counts.event _ } }

/-- Records a diagnostic. -/
def recordDiagnostic (r : Recorder) (code message nodeId : String) : Recorder :=
  let diagnostic : Node :=
    { kind := "Diagnostic", id := nextId "dbg_diag_" r.counters.diagnostic
      attrs := attrs
        [("code", .string code), ("message", .string message), ("nodeId", .string nodeId)] }
  { r with
    diagnostics := r.diagnostics.push diagnostic
    counters := { r.counters with diagnostic := r.counters.diagnostic + 1 }
    counts := { r.counts with diagnostic := counted_push r.counts.diagnostic _ } }

/-- All records below one node. -/
def toNode (r : Recorder) : Node where
  kind := "DebugRun"
  id := r.runId
  attrs := attrs [("runId", .string r.runId)]
  children :=
    [{ kind := "VmTrace", id := "trace", children := r.steps.toList },
      { kind := "StateSnapshots", id := "snapshots", children := r.snapshots.toList },
      { kind := "Syscalls", id := "syscalls", children := r.syscalls.toList },
      { kind := "LifecycleEvents", id := "events", children := r.events.toList },
      { kind := "Diagnostics", id := "diagnostics", children := r.diagnostics.toList }]

/-- All records as JSON. -/
def toJson (r : Recorder) : Json :=
  let list (records : Array Node) : Json := .arr (Node.toJsonList records.toList)
  .ofMembers
    [("runId", .ofText r.runId), ("vmTrace", list r.steps), ("stateSnapshots", list r.snapshots),
      ("syscalls", list r.syscalls), ("lifecycleEvents", list r.events),
      ("diagnostics", list r.diagnostics)]

end Recorder

end Arbor
