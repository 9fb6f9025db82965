import Arbor.Bytecode.Machine
import Arbor.Proofs.Likeness.Values
import Arbor.Proofs.Node.Indexing

/-!
# The machine up to the bodies of functions

The machine looks at no closure's body, so every step commutes with changing them: `step_mapBodies`.
Each operation of the machine has its lemma of the same form.
-/

namespace Arbor

open Value

namespace BytecodeProgram

/-- Changes the bodies of the closures among the constants. -/
def mapBodies (f : Node → Node) (p : BytecodeProgram) : BytecodeProgram :=
  { p with constants := p.constants.map (Value.mapBodies f) }

@[simp] theorem functions_mapBodies (f : Node → Node) (p : BytecodeProgram) :
    (p.mapBodies f).functions = p.functions := rfl

@[simp] theorem functionIndex?_mapBodies (f : Node → Node) (p : BytecodeProgram) (name : String) :
    (p.mapBodies f).functionIndex? name = p.functionIndex? name := rfl

end BytecodeProgram

/-- Changes the bodies of the closures in the frame's locals. -/
def Frame.mapBodies (f : Node → Node) (frame : Frame) : Frame :=
  { frame with locals := frame.locals.map (Value.mapBodies f) }

@[simp] theorem Frame.function_mapBodies (f : Node → Node) (frame : Frame) :
    (frame.mapBodies f).function = frame.function := rfl

@[simp] theorem Frame.pc_mapBodies (f : Node → Node) (frame : Frame) :
    (frame.mapBodies f).pc = frame.pc := rfl

namespace Machine

variable (f : Node → Node)

/-- Changes the bodies of the closures on the machine. -/
def mapBodies (m : Machine) : Machine :=
  ⟨m.stack.map (Value.mapBodies f), m.frames.map (Frame.mapBodies f)⟩

/-- Changes the bodies of the closures in what comes of a step. -/
def Transition.mapBodies : Transition → Transition
  | .next m => .next (m.mapBodies f)
  | .finished v => .finished (v.mapBodies f)
  | .failed e => .failed e
  | .calls target args m function =>
    .calls target (args.map (Value.mapBodies f)) (m.mapBodies f) function

/-- Changes the bodies of the closures in the frame of a fetched instruction. -/
def Fetched.mapBodies : Fetched → Fetched
  | .instruction frame callee op inst => .instruction (frame.mapBodies f) callee op inst
  | .nothing => .nothing
  | .functionEnd => .functionEnd
  | .unknown e => .unknown e

variable (p : BytecodeProgram) (m : Machine) (function : String)

/-! ## The operand stack -/

@[simp] theorem base_mapBodies : (m.mapBodies f).base = m.base := by
  obtain ⟨stack, frames⟩ := m
  cases frames <;> rfl

@[simp] theorem size_mapBodies : (m.mapBodies f).stack.size = m.stack.size := Array.size_map ..

theorem push_mapBodies (v : Value) :
    (m.mapBodies f).push function (v.mapBodies f) =
      (m.push function v).map (mapBodies f) := by
  unfold push
  rw [size_mapBodies]
  split
  · rfl
  · show Except.ok _ = Except.ok _
    simp [mapBodies]

theorem top?_mapBodies : (m.mapBodies f).top? = m.top?.map (Value.mapBodies f) := by
  unfold top?
  rw [size_mapBodies, base_mapBodies]
  split
  · rfl
  · simp [mapBodies, Array.back?]

theorem top_mapBodies :
    (m.mapBodies f).top function = (m.top function).map (Value.mapBodies f) := by
  unfold top
  rw [top?_mapBodies]
  cases m.top? <;> rfl

theorem pop_mapBodies :
    (m.mapBodies f).pop function =
      (m.pop function).map fun r => (r.1.mapBodies f, r.2.mapBodies f) := by
  unfold pop
  rw [top?_mapBodies]
  cases m.top? with
  | none => rfl
  | some v =>
    show Except.ok _ = Except.ok _
    simp [mapBodies, ← Array.map_pop]

theorem popMany_mapBodies (count : Nat) :
    (m.mapBodies f).popMany function count =
      (m.popMany function count).map fun r => (r.1.map (Value.mapBodies f), r.2.mapBodies f) := by
  unfold popMany
  rw [size_mapBodies, base_mapBodies]
  split
  · rfl
  · show Except.ok _ = Except.ok _
    simp [mapBodies, List.map_take, List.map_drop]

theorem popArgs_mapBodies (count : Int32) :
    (m.mapBodies f).popArgs function count =
      (m.popArgs function count).map fun r => (r.1.map (Value.mapBodies f), r.2.mapBodies f) := by
  unfold popArgs
  split
  · rfl
  · exact popMany_mapBodies ..

theorem topOrVoid_mapBodies : (m.mapBodies f).topOrVoid = m.topOrVoid.mapBodies f := by
  unfold topOrVoid
  rw [top?_mapBodies]
  cases m.top? <;> rfl

/-! ## Frames -/

theorem enter_mapBodies (index : Nat) (callee : BytecodeFunction) (args : List Value) :
    (m.mapBodies f).enter index callee (args.map (Value.mapBodies f)) =
      (m.enter index callee args).map (mapBodies f) := by
  unfold enter
  have hframes : (m.mapBodies f).frames.length = m.frames.length := List.length_map ..
  rw [hframes]
  split
  · rfl
  · show Except.ok _ = Except.ok _
    simp [mapBodies, Frame.mapBodies]

theorem leave_mapBodies (v : Value) :
    (m.mapBodies f).leave p (v.mapBodies f) = (m.leave p v).mapBodies f := by
  unfold leave
  rw [base_mapBodies]
  have htail : (m.mapBodies f).frames.tail = m.frames.tail.map (Frame.mapBodies f) := by
    simp [mapBodies]
  rw [htail]
  cases m.frames.tail with
  | nil => rfl
  | cons caller outer =>
    have hpush := push_mapBodies f ⟨m.stack.extract 0 m.base, caller :: outer⟩
      (functionName p caller.function) v
    have hstack : (m.mapBodies f).stack.extract 0 m.base =
        (m.stack.extract 0 m.base).map (Value.mapBodies f) := by simp [mapBodies]
    dsimp only [List.map_cons]
    rw [hstack]
    unfold mapBodies at hpush
    rw [List.map_cons] at hpush
    show proceed (push _ (functionName p caller.function) _) = _
    rw [hpush]
    cases push ⟨m.stack.extract 0 m.base, caller :: outer⟩ (functionName p caller.function) v <;> rfl

theorem mapFrame_mapBodies {g g' : Frame → Frame}
    (h : ∀ frame, g' (frame.mapBodies f) = (g frame).mapBodies f) :
    (m.mapBodies f).mapFrame g' = (m.mapFrame g).mapBodies f := by
  obtain ⟨stack, frames⟩ := m
  cases frames with
  | nil => rfl
  | cons frame outer =>
    show (⟨_, g' (frame.mapBodies f) :: _⟩ : Machine) = ⟨_, (g frame).mapBodies f :: _⟩
    rw [h]
    rfl

theorem jump_mapBodies (callee : BytecodeFunction) (target : Int32) :
    (m.mapBodies f).jump callee target = (m.jump callee target).map (mapBodies f) := by
  unfold jump
  split
  · rfl
  · exact congrArg Except.ok (mapFrame_mapBodies f m fun _ => rfl)

theorem slot_mapBodies (frame : Frame) (index : Int32) :
    slot (frame.mapBodies f) function index = slot frame function index := by
  unfold slot
  have hsize : (frame.mapBodies f).locals.size = frame.locals.size := Array.size_map ..
  rw [hsize]

theorem constant_mapBodies (index : Int32) :
    constant (p.mapBodies f) function index =
      (constant p function index).map (Value.mapBodies f) := by
  unfold constant
  have hat : Node.at? (p.mapBodies f).constants index =
      (Node.at? p.constants index).map (Value.mapBodies f) := Node.at?_map ..
  rw [hat]
  cases Node.at? p.constants index <;> rfl

/-! ## Steps -/

theorem proceed_mapBodies (r : Except BytecodeError Machine) :
    proceed (r.map (mapBodies f)) = (proceed r).mapBodies f := by
  cases r <;> rfl

theorem fetch_mapBodies : (m.mapBodies f).fetch (p.mapBodies f) = (m.fetch p).mapBodies f := by
  obtain ⟨stack, frames⟩ := m
  cases frames with
  | nil => rfl
  | cons frame outer =>
    simp only [fetch, mapBodies, List.map_cons, BytecodeProgram.functions_mapBodies,
      Frame.function_mapBodies, Frame.pc_mapBodies]
    cases p.functions[frame.function]? with
    | none => rfl
    | some callee =>
      dsimp only
      cases callee.code[frame.pc]? with
      | none => rfl
      | some inst =>
        dsimp only
        cases inst.opcode? <;> rfl

/-- Doing an instruction commutes with changing the bodies of closures. -/
theorem execute_mapBodies (frame : Frame) (callee : BytecodeFunction) (op : Opcode)
    (inst : Instruction) :
    execute (p.mapBodies f) (m.mapBodies f) (frame.mapBodies f) callee op inst =
      (execute p m frame callee op inst).mapBodies f := by
  cases op <;> simp only [execute]
  case nop => rfl
  case const =>
    rw [← proceed_mapBodies, constant_mapBodies]
    cases constant p callee.name inst.a with
    | error e => rfl
    | ok v => exact congrArg proceed (push_mapBodies f m callee.name v)
  case pushInt | pushBool | pushVoid =>
    rw [← proceed_mapBodies, ← push_mapBodies]
    rfl
  case pop =>
    rw [← proceed_mapBodies, pop_mapBodies]
    cases m.pop callee.name <;> rfl
  case dup =>
    rw [← proceed_mapBodies, top_mapBodies]
    cases m.top callee.name with
    | error e => rfl
    | ok v => exact congrArg proceed (push_mapBodies f m callee.name v)
  case loadLocal =>
    rw [← proceed_mapBodies, slot_mapBodies]
    cases slot frame callee.name inst.a with
    | error e => rfl
    | ok i =>
      have hlocal : (frame.mapBodies f).locals.getD i .void =
          (frame.locals.getD i .void).mapBodies f := by
        simp only [Frame.mapBodies, Array.getD_eq_getD_getElem?, Array.getElem?_map]
        cases frame.locals[i]? <;> rfl
      show proceed (Machine.push _ _ _) = _
      rw [hlocal]
      exact congrArg proceed (push_mapBodies f m callee.name _)
  case storeLocal =>
    rw [← proceed_mapBodies, slot_mapBodies]
    cases slot frame callee.name inst.a with
    | error e => rfl
    | ok i =>
      show proceed ((m.mapBodies f).pop callee.name >>= _) = _
      rw [pop_mapBodies]
      cases m.pop callee.name with
      | error e => rfl
      | ok r =>
        refine congrArg Transition.next (mapFrame_mapBodies f r.2 fun frame => ?_)
        simp [Frame.mapBodies]
  case jump =>
    rw [← proceed_mapBodies, jump_mapBodies]
  case jumpIfFalse =>
    rw [← proceed_mapBodies, pop_mapBodies]
    cases m.pop callee.name with
    | error e => rfl
    | ok r =>
      obtain ⟨v, m'⟩ := r
      cases v with
      | bool b =>
        cases b with
        | false => exact congrArg proceed (jump_mapBodies f m' callee inst.a)
        | true => rfl
      | _ => rfl
  case jumpIfErr =>
    rw [← proceed_mapBodies, top_mapBodies]
    cases m.top callee.name with
    | error e => rfl
    | ok v =>
      show proceed (if (v.mapBodies f).isErr = true then _ else _) =
        proceed (Except.map _ (if v.isErr = true then _ else _))
      rw [isErr_mapBodies]
      split
      · exact congrArg proceed (jump_mapBodies f m callee inst.a)
      · rfl
  case operator shared =>
    rw [← proceed_mapBodies, popMany_mapBodies]
    cases m.popMany callee.name shared.arity with
    | error e => rfl
    | ok r =>
      show proceed (Machine.push _ _ _) = _
      rw [Operator.apply_map_mapBodies, ← Operator.mapBodies_apply f]
      exact congrArg proceed (push_mapBodies f r.2 callee.name _)
  case call =>
    rw [← proceed_mapBodies, popArgs_mapBodies]
    cases m.popArgs callee.name inst.a with
    | error e => rfl
    | ok r =>
      obtain ⟨args, m'⟩ := r
      have hindex : (p.mapBodies f).functionIndex? inst.s = p.functionIndex? inst.s := rfl
      dsimp only [Bind.bind, Except.bind, Except.map]
      rw [hindex]
      cases p.functionIndex? inst.s with
      | none => rfl
      | some index =>
        dsimp only [BytecodeProgram.functions_mapBodies]
        cases p.functions[index]? with
        | none => rfl
        | some target =>
          dsimp only
          rw [List.length_map]
          split
          · exact congrArg proceed (enter_mapBodies f m' index target args)
          · exact congrArg proceed (push_mapBodies f m' callee.name .unknown)
  case callSys =>
    rw [popArgs_mapBodies]
    cases m.popArgs callee.name inst.a <;> rfl
  case ret =>
    rw [topOrVoid_mapBodies]
    exact leave_mapBodies f (p.mapBodies f) m _
  case halt =>
    rw [topOrVoid_mapBodies]
    rfl

/-- A step commutes with changing the bodies of closures. -/
theorem step_mapBodies : (m.mapBodies f).step (p.mapBodies f) = (m.step p).mapBodies f := by
  unfold step
  rw [fetch_mapBodies]
  cases m.fetch p with
  | nothing => rfl
  | functionEnd => exact leave_mapBodies f (p.mapBodies f) m .void
  | unknown e => rfl
  | «instruction» frame callee op inst =>
    rw [← execute_mapBodies]
    exact congrArg (execute (p.mapBodies f) · (frame.mapBodies f) callee op inst)
      (mapFrame_mapBodies f m fun _ => rfl)

theorem start_mapBodies (entry : String) (args : List Value) :
    start (p.mapBodies f) entry (args.map (Value.mapBodies f)) =
      (start p entry args).map (mapBodies f) := by
  unfold start
  rw [BytecodeProgram.functionIndex?_mapBodies, BytecodeProgram.functions_mapBodies]
  cases (p.functionIndex? entry).bind fun i => p.functions[i]?.map (i, ·) with
  | none => rfl
  | some r =>
    dsimp only
    rw [List.length_map]
    split
    · rfl
    · have hidle : idle.mapBodies f = idle := by simp [idle, mapBodies]
      rw [← enter_mapBodies, hidle]

theorem view_mapBodies (frame : Frame) (callee : BytecodeFunction) (op : Opcode) :
    view (p.mapBodies f) (m.mapBodies f) (frame.mapBodies f) callee op =
      { view p m frame callee op with
        stack := (view p m frame callee op).stack.map (Value.mapBodies f)
        locals := (view p m frame callee op).locals.map (Value.mapBodies f) } := by
  simp [view, functionName, mapBodies, Frame.mapBodies, List.map_take, List.map_drop,
    Function.comp_def]

/-! ## Machines that are alike -/

variable {f p}

theorem step_alike {m m' : Machine} (h : m.mapBodies f = m'.mapBodies f) :
    (m.step p).mapBodies f = (m'.step p).mapBodies f := by
  rw [← step_mapBodies, ← step_mapBodies, h]

theorem fetch_alike {m m' : Machine} (h : m.mapBodies f = m'.mapBodies f) :
    (m.fetch p).mapBodies f = (m'.fetch p).mapBodies f := by
  rw [← fetch_mapBodies, ← fetch_mapBodies, h]

theorem push_alike {m m' : Machine} {v w : Value} (function : String)
    (h : m.mapBodies f = m'.mapBodies f) (hv : v.mapBodies f = w.mapBodies f) :
    (m.push function v).map (mapBodies f) = (m'.push function w).map (mapBodies f) := by
  rw [← push_mapBodies, ← push_mapBodies, h, hv]

theorem start_alike {args args' : List Value} (entry : String)
    (h : args.map (Value.mapBodies f) = args'.map (Value.mapBodies f)) :
    (start p entry args).map (mapBodies f) = (start p entry args').map (mapBodies f) := by
  rw [← start_mapBodies, ← start_mapBodies, h]

end Machine

end Arbor
