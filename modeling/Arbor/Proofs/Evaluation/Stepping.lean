import Arbor.Evaluation.Evaluator

/-!
# The machine as evaluation steps

A run of the machine inside of a session is a sequence of evaluation steps like any other
(`Eval.runMachine_eq`, `Eval.stepping_succ`): it is observed, does an instruction, and goes on where
that leads, through the answer of a capability call if it is one. So what holds of sequences of
steps holds of the runs of the machine.
-/

namespace Arbor.Eval

variable {σ : Type}

/-- How a run of the machine ends, as an evaluation step ends. -/
def settled : Except (Machine.Stop Halt) Value → Outcome Value
  | .ok v => .value v
  | .error (.failed e) => .halted (.fault (.bytecode e))
  | .error (.ended h) => .halted h
  | .error .outOfFuel => .halted .outOfFuel

section Stepping

variable (call : String → List Value → Eval σ Value) (p : BytecodeProgram)

/-- Lets the recorder see the next instruction of the machine. -/
def observing (m : Machine) : Eval σ Unit :=
  fun t => (.value (), Machine.observeNext (machineRunner call) p m t)

/-- Runs the machine from a state of it. -/
def stepping (steps : Nat) (m : Machine) : Eval σ Value := fun t =>
  let (end?, u) := Machine.exec (machineRunner call) p steps m t
  (settled end?, u)

/-- Goes on from a state of the machine unless there is none. -/
def resuming (steps : Nat) : Except BytecodeError Machine → Eval σ Value
  | .ok m => stepping call p steps m
  | .error e => fault (.bytecode e)

/-- Goes on with what comes of an instruction. -/
def continuing (steps : Nat) : Machine.Transition → Eval σ Value
  | .next m => stepping call p steps m
  | .finished v => pure v
  | .failed e => fault (.bytecode e)
  | .calls target args m function => do
    let v ← catchReturn (call target args)
    resuming call p steps (m.push function v)

theorem stepping_zero (m : Machine) : stepping call p 0 m = halt .outOfFuel := rfl

theorem stepping_succ (steps : Nat) (m : Machine) :
    stepping call p (steps + 1) m =
      (observing call p m >>= fun _ => continuing call p steps (m.step p)) := by
  funext t
  rw [bind_def]
  unfold stepping observing Machine.exec
  dsimp only
  generalize Machine.observeNext (machineRunner call) p m t = u
  cases m.step p with
  | next m => rfl
  | finished v => rfl
  | failed e => rfl
  | calls target args m function =>
    show _ = (catchReturn (call target args) >>=
      fun v => resuming call p steps (m.push function v)) u
    rw [bind_def]
    unfold catchReturn machineRunner resuming
    dsimp only
    generalize call target args u = answer
    obtain ⟨o, w⟩ := answer
    cases o with
    | halted h => rfl
    | value v =>
      dsimp only
      cases m.push function v <;> rfl
    | returned v =>
      dsimp only
      cases m.push function v <;> rfl

theorem runMachine_eq (steps : Nat) (entry : String) (args : List Value) :
    runMachine call steps p entry args = resuming call p steps (Machine.start p entry args) := by
  funext t
  unfold runMachine Machine.run
  cases Machine.start p entry args with
  | error e => rfl
  | ok m =>
    show _ = stepping call p steps m t
    unfold stepping
    dsimp only
    generalize Machine.exec (machineRunner call) p steps m t = r
    obtain ⟨end?, u⟩ := r
    cases end? with
    | ok v => rfl
    | error stop => cases stop <;> rfl

end Stepping

theorem record_of_none {s : Session σ} (h : s.recorder? = none) (f : Recorder → Recorder) :
    s.record f = s := by
  obtain ⟨_, _, _, _, _, _, _, _, _, recorder?, _, _, _, _, _⟩ := s
  obtain rfl : recorder? = none := h
  rfl

/-- What the recorder makes of the next instruction, if there is one. -/
def viewing (p : BytecodeProgram) (m : Machine) (globals : Env) (r : Recorder) : Recorder :=
  match m.fetch p with
  | .instruction frame function op _ => r.recordMachineStep (m.view p frame function op) globals
  | _ => r

/-- Observing the machine changes the record and nothing else. -/
theorem observing_eq (call : String → List Value → Eval σ Value) (p : BytecodeProgram) (m : Machine)
    (t : Activation σ) :
    observing call p m t =
      (.value (), { t with session := t.session.record (viewing p m t.session.globals) }) := by
  have hwants : (machineRunner call).wantsSteps t = t.session.recorder?.isSome := rfl
  unfold observing Machine.observeNext
  rw [hwants]
  cases hrecorder : t.session.recorder? with
  | none => rw [record_of_none hrecorder]; rfl
  | some r =>
    have hrecord (f : Recorder → Recorder) :
        t.session.record f = { t.session with recorder? := some (f r) } := by
      unfold Session.record
      rw [hrecorder]
      rfl
    rw [hrecord]
    unfold viewing
    cases m.fetch p with
    | instruction frame function op inst =>
      show _ = (Outcome.value (), { t with session := { t.session with
        recorder? := some (r.recordMachineStep (m.view p frame function op) t.session.globals) } })
      rw [← hrecord fun r => r.recordMachineStep (m.view p frame function op) t.session.globals]
      rfl
    | _ =>
      show (Outcome.value (), t) = (Outcome.value (), { t with session := { t.session with
        recorder? := some r } })
      rw [← hrecorder]

end Arbor.Eval
