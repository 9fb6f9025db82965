import Arbor.Recorder
import Mathlib.Data.List.Infix

/-!
# Records are only added

Every record that a run makes goes behind those of its category. `Recorder.Extends` relates a recorder
to what later records make of it.
-/

namespace Arbor.Recorder

/-- The second recorder is of the same run and holds the records of the first, and more behind them. -/
structure Extends (r s : Recorder) : Prop where
  runId : s.runId = r.runId
  steps : r.steps.toList <+: s.steps.toList
  snapshots : r.snapshots.toList <+: s.snapshots.toList
  syscalls : r.syscalls.toList <+: s.syscalls.toList
  events : r.events.toList <+: s.events.toList
  diagnostics : r.diagnostics.toList <+: s.diagnostics.toList

namespace Extends

theorem refl (r : Recorder) : r.Extends r :=
  ⟨rfl, List.prefix_refl _, List.prefix_refl _, List.prefix_refl _, List.prefix_refl _,
    List.prefix_refl _⟩

theorem trans {r s t : Recorder} (h : r.Extends s) (h' : s.Extends t) : r.Extends t where
  runId := h'.runId.trans h.runId
  steps := h.steps.trans h'.steps
  snapshots := h.snapshots.trans h'.snapshots
  syscalls := h.syscalls.trans h'.syscalls
  events := h.events.trans h'.events
  diagnostics := h.diagnostics.trans h'.diagnostics

end Extends

theorem prefix_push (records : Array Node) (n : Node) :
    records.toList <+: (records.push n).toList := by
  rw [Array.toList_push]
  exact List.prefix_append _ _

theorem extends_recordSyscall (r : Recorder) (target : String) (args : List String)
    (result phase : String) : r.Extends (r.recordSyscall target args result phase) := by
  unfold recordSyscall
  exact { Extends.refl r with syscalls := prefix_push _ _ }

theorem extends_addSnapshot (r : Recorder) (engine stepNodeId : String) (env : Env)
    (callStack : List String) (stack locals : List Value) :
    r.Extends (r.addSnapshot engine stepNodeId env callStack stack locals) := by
  unfold addSnapshot
  exact { Extends.refl r with snapshots := prefix_push _ _ }

theorem extends_addStep (r : Recorder) (step : String → Node) : r.Extends (r.addStep step) := by
  unfold addStep
  exact { Extends.refl r with steps := prefix_push _ _ }

theorem extends_recordAstStep (r : Recorder) (n : Node) (env : Env) (callStack : List String) :
    r.Extends (r.recordAstStep n env callStack) := by
  unfold recordAstStep
  exact (extends_addStep r _).trans (extends_addSnapshot _ _ _ _ _ _ _)

theorem extends_recordMachineStep (r : Recorder) (v : MachineView) (env : Env) :
    r.Extends (r.recordMachineStep v env) := by
  unfold recordMachineStep
  exact (extends_addStep r _).trans (extends_addSnapshot _ _ _ _ _ _ _)

end Arbor.Recorder
