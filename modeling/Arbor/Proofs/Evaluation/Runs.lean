import Arbor.Host.Local
import Arbor.Proofs.Evaluation.Invariant
import Arbor.Proofs.Likeness.Evaluation

/-!
# Whole runs

The five ways to run something in a session as one: a program, a node in a frame of its own, a
capability call, a bytecode program and a bytecode node. What evaluation keeps is kept by each of
them (`Run.keeps`), and each ends alike in sessions that are alike (`Run.step_alike`), also when nodes
are evaluated in another way that is alike (`Run.stepWith_alike`).
-/

namespace Arbor

/-- Something to run in a session. -/
inductive Run where
  | evaluate (n : Node)
  | evaluateInFrame (n : Node) (frame : Env)
  | callCapability (target : String) (args : List Value)
  | runProgram (p : BytecodeProgram) (entry : String) (args : List Value)
  | runBytecode (bytecode : Node) (entry : String) (args : Node)

namespace Run

variable {σ τ : Type} [Host σ] [Host τ]

/-- Runs it: the result, the frame behind the run where there is one, and the session behind it. -/
def perform (run : Run) (fuel : Nat) (s : Session σ) : Except Halt Value × Env × Session σ :=
  match run with
  | evaluate n =>
    let (r, s) := s.evaluate fuel n
    (r, ∅, s)
  | evaluateInFrame n frame => s.evaluateInFrame fuel n frame
  | callCapability target args =>
    let (r, s) := s.callCapability fuel target args
    (r, ∅, s)
  | runProgram p entry args =>
    let (r, s) := s.runProgram fuel p entry args
    (r, ∅, s)
  | runBytecode bytecode entry args =>
    let (r, s) := s.runBytecode fuel bytecode entry args
    (r, ∅, s)

/-- The evaluation step that the run consists of. -/
def step (run : Run) (fuel : Nat) : Eval σ Value :=
  let call := Eval.callCapability (Eval.eval fuel) fuel fuel
  match run with
  | evaluate n => Eval.eval fuel n
  | evaluateInFrame n _ => Eval.eval fuel n
  | callCapability target args => call target args
  | runProgram p entry args => Eval.runMachine call fuel p entry args
  | runBytecode bytecode entry args => Eval.runBytecode call fuel bytecode entry args

/-- The same step with another evaluation of nodes. -/
def stepWith (self : Node → Eval σ Value) (run : Run) (fuel : Nat) : Eval σ Value :=
  let call := Eval.callCapability self fuel fuel
  match run with
  | evaluate n => self n
  | evaluateInFrame n _ => self n
  | callCapability target args => call target args
  | runProgram p entry args => Eval.runMachine call fuel p entry args
  | runBytecode bytecode entry args => Eval.runBytecode call fuel bytecode entry args

theorem step_eq (run : Run) (fuel : Nat) :
    run.step fuel = run.stepWith (Eval.eval fuel : Node → Eval σ Value) fuel := by
  cases run <;> rfl

/-- The frames in which the run starts. -/
def frames : Run → List Env
  | evaluateInFrame _ frame => [frame]
  | _ => []

/-- The frame that the run shows behind it, of those there are. -/
def frameBehind (run : Run) (frames : List Env) : Env :=
  match run with
  | evaluateInFrame _ _ => frames.head?.getD ∅
  | _ => ∅

theorem perform_eq (run : Run) (fuel : Nat) (s : Session σ) :
    run.perform fuel s =
      (Session.conclude (run.step fuel ⟨s, run.frames⟩).1,
        run.frameBehind (run.step fuel ⟨s, run.frames⟩).2.frames,
        (run.step fuel ⟨s, run.frames⟩).2.session) := by
  cases run <;> rfl

/-- Every run keeps a relation that all the primitive changes keep. -/
theorem keeps {R : Activation σ → Activation σ → Prop} (h : Eval.Invariant R) (run : Run)
    (fuel : Nat) : Eval.Keeps R (run.step fuel) := by
  have hcall := h.callCapability (h.eval fuel) fuel fuel
  cases run with
  | evaluate n => exact h.eval fuel n
  | evaluateInFrame n _ => exact h.eval fuel n
  | callCapability target args => exact hcall target args
  | runProgram p entry args => exact h.runMachine hcall fuel p entry args
  | runBytecode bytecode entry args => exact h.runBytecode hcall fuel bytecode entry args

/-- Every run ends alike in sessions that are alike, if nodes evaluate so. -/
theorem stepWith_alike {L : Likeness σ τ} {self : Node → Eval σ Value} {self' : Node → Eval τ Value}
    (hself : ∀ {n m}, L.Nodes n m → L.Steps L.Values (self n) (self' m)) (run : Run) (fuel : Nat) :
    L.Steps L.Values (run.stepWith self fuel) (run.stepWith self' fuel) := by
  have hcall (target : String) (vs ws : List Value) (hvs : L.ValueLists vs ws) :
      L.Steps L.Values (Eval.callCapability self fuel fuel target vs)
        (Eval.callCapability self' fuel fuel target ws) :=
    Likeness.callCapability hself fuel fuel target hvs
  cases run with
  | evaluate n => exact hself rfl
  | evaluateInFrame n _ => exact hself rfl
  | callCapability target args => exact hcall target args args rfl
  | runProgram p entry args => exact Likeness.runMachine hcall fuel p entry rfl
  | runBytecode bytecode entry args => exact Likeness.runBytecode hcall fuel bytecode entry args

theorem step_alike {L : Likeness σ τ} (run : Run) (fuel : Nat) :
    L.Steps L.Values (run.step fuel) (run.step fuel) := by
  rw [step_eq, step_eq]
  exact stepWith_alike (Likeness.eval fuel) run fuel

end Run

/-- A local host over an empty disk, with a standard input. -/
def LocalHost.ofInput (input : String) : LocalHost where
  disk := ⟨∅, true, []⟩
  cwd := "/"
  argv := []
  input? := some input

/-- A session as a program finds it, over such a host. -/
def Session.fresh (input : String) : Session LocalHost where
  permissions := defaultPermissions []
  host := .ofInput input

/-- A session over a disk with these files. -/
def Session.withFiles (files : List (String × String)) : Session LocalHost :=
  let entries := files.map fun e => (e.1, DiskEntry.file (some e.2) 60)
  { fresh "" with host := { LocalHost.ofInput "" with disk := ⟨.ofList entries, true, []⟩ } }

end Arbor
