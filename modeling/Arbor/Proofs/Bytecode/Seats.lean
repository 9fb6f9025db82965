import Arbor.Bytecode.Compiler
import Arbor.Bytecode.Machine
import Arbor.Proofs.Node.Indexing

/-!
# The machine inside a call

`Seat` is what stays the same while a function runs: which function it is, what lies below its
operands, and the frames outside. What changes are the next instruction, the slots and the operands;
`Seat.machine` puts all together. Each instruction then is a step from one such machine to another
(`Seat.step_eq` and the lemmas behind it).

`Placed code start f` says that the function's code has `code` at `start`.
-/

namespace Arbor

/-! ## 1. Instructions -/

theorem Instruction.opcode?_of (op : Opcode) (a : Int32) (s : String) :
    (Instruction.of op a s).opcode? = some op := by
  cases op with
  | operator o => cases o <;> rfl
  | _ => rfl

/-- The code stands in the function at an index. -/
def Placed (code : List Instruction) (start : Nat) (f : BytecodeFunction) : Prop :=
  code <+: f.code.toList.drop start

namespace Placed

variable {f : BytecodeFunction} {start : Nat}

theorem append {l r : List Instruction} (h : Placed (l ++ r) start f) :
    Placed l start f ∧ Placed r (start + l.length) f := by
  obtain ⟨rest, hrest⟩ := h
  constructor
  · exact ⟨r ++ rest, by rw [← hrest, List.append_assoc]⟩
  · refine ⟨rest, ?_⟩
    rw [← List.drop_drop, ← hrest, List.append_assoc, List.drop_left]

theorem head {i : Instruction} {code : List Instruction} (h : Placed (i :: code) start f) :
    f.code[start]? = some i ∧ Placed code (start + 1) f := by
  obtain ⟨rest, hrest⟩ := h
  constructor
  · have hhead := congrArg List.head? hrest
    rw [List.head?_drop] at hhead
    simpa using hhead.symm
  · exact (append (l := [i]) ⟨rest, hrest⟩).2

/-- The code ends in the function. -/
theorem le_size {i : Instruction} {l r : List Instruction} (h : Placed (l ++ i :: r) start f) :
    start + (l ++ i :: r).length ≤ f.code.size := by
  have hsize : f.code.toList.length = f.code.size := rfl
  have hlength : (l ++ i :: r).length ≤ (f.code.toList.drop start).length := List.IsPrefix.length_le h
  rw [List.length_drop] at hlength
  rw [List.length_append, List.length_cons] at hlength ⊢
  omega

end Placed

/-! ## 2. Seats -/

namespace Machine

/-- A call in progress: its function, the operands below its own, and the frames outside. -/
structure Seat where
  index : Nat
  function : BytecodeFunction
  below : List Value
  outer : List Frame

namespace Seat

/-- The frame of the call. -/
def frame (c : Seat) (pc : Nat) (slots : List Value) : Frame :=
  ⟨c.index, pc, slots.toArray, c.below.length⟩

/-- The machine in the call, before an instruction. -/
def machine (c : Seat) (pc : Nat) (slots ops : List Value) : Machine :=
  ⟨(c.below ++ ops).toArray, c.frame pc slots :: c.outer⟩

/-- What comes of ending the call with a value. -/
def leave (c : Seat) (p : BytecodeProgram) (v : Value) : Transition :=
  match c.outer with
  | [] => .finished v
  | caller :: outer =>
    match push ⟨c.below.toArray, caller :: outer⟩ (functionName p caller.function) v with
    | .ok m => .next m
    | .error e => .failed e

/-- The seat of a function that is called from this one. -/
def callee (c : Seat) (pc : Nat) (slots ops : List Value) (index : Nat)
    (function : BytecodeFunction) : Seat :=
  ⟨index, function, c.below ++ ops, c.frame pc slots :: c.outer⟩

variable (c : Seat) (p : BytecodeProgram) (pc : Nat) (slots ops : List Value) (name : String)

theorem enter_machine (index : Nat) (function : BytecodeFunction) (args : List Value) :
    (c.machine pc slots ops).enter index function args =
      if maxFrames ≤ c.outer.length + 1 then .error (.frameOverflow function.name)
      else .ok ((c.callee pc slots ops index function).machine 0
        (args ++ List.replicate (function.slotCount - args.length) .void) []) := by
  have hstack : ((c.below ++ ops) ++ []).toArray = (c.below ++ ops).toArray := by simp
  unfold Machine.enter machine frame callee
  rw [hstack]
  rfl

theorem leave_machine (v : Value) :
    Machine.leave p (c.machine pc slots ops) v = c.leave p v := by
  have hstack : (c.machine pc slots ops).stack.extract 0 (c.machine pc slots ops).base =
      c.below.toArray := by
    -- the base of the frame is where the operands below it end
    show ((c.below ++ ops).toArray).extract 0 c.below.length = c.below.toArray
    simp
  unfold Machine.leave
  rw [hstack]
  rfl

theorem push_machine (v : Value) :
    (c.machine pc slots ops).push name v =
      if maxStack ≤ c.below.length + ops.length then .error (.stackOverflow name)
      else .ok (c.machine pc slots (ops ++ [v])) := by
  have hsize : (c.machine pc slots ops).stack.size = c.below.length + ops.length := by
    simp [machine]
  unfold Machine.push
  rw [hsize]
  simp [machine]

theorem top?_machine (v : Value) : (c.machine pc slots (ops ++ [v])).top? = some v := by
  have hsize : ¬(c.machine pc slots (ops ++ [v])).stack.size ≤
      (c.machine pc slots (ops ++ [v])).base := by
    simp [machine, Machine.base, frame]
  unfold Machine.top?
  rw [if_neg hsize]
  simp [machine, ← List.append_assoc]

theorem topOrVoid_machine (v : Value) : (c.machine pc slots (ops ++ [v])).topOrVoid = v := by
  unfold Machine.topOrVoid
  rw [top?_machine]
  rfl

theorem top_machine (v : Value) : (c.machine pc slots (ops ++ [v])).top name = .ok v := by
  unfold Machine.top
  rw [top?_machine]

theorem pop_machine (v : Value) :
    (c.machine pc slots (ops ++ [v])).pop name = .ok (v, c.machine pc slots ops) := by
  unfold Machine.pop
  rw [top?_machine]
  simp [machine, ← List.append_assoc]

theorem popMany_machine (args : List Value) :
    (c.machine pc slots (ops ++ args)).popMany name args.length =
      .ok (args, c.machine pc slots ops) := by
  have hsize : (c.machine pc slots (ops ++ args)).stack.size =
      c.below.length + ops.length + args.length := by
    simp [machine, Nat.add_assoc]
  have hbase : (c.machine pc slots (ops ++ args)).base = c.below.length := rfl
  unfold Machine.popMany
  -- there are operands enough above the base
  rw [hsize, hbase, if_neg (by omega)]
  have hkeep : c.below.length + ops.length + args.length - args.length =
      (c.below ++ ops).length := by
    rw [List.length_append]
    omega
  rw [hkeep]
  simp [machine, ← List.append_assoc]

theorem popArgs_machine {args : List Value} (hargs : args.length < 2147483648) :
    (c.machine pc slots (ops ++ args)).popArgs name (saturateCount args.length) =
      .ok (args, c.machine pc slots ops) := by
  obtain ⟨hpositive, hcount⟩ := toNat_saturateCount hargs
  unfold Machine.popArgs
  rw [if_neg hpositive, hcount, popMany_machine]

theorem jump_machine {target : Nat} (htarget : target ≤ c.function.code.size)
    (hsize : c.function.code.size < 2147483648) :
    (c.machine pc slots ops).jump c.function (saturateCount target) =
      .ok (c.machine target slots ops) := by
  obtain ⟨hpositive, hcount⟩ := toNat_saturateCount (n := target) (by omega)
  have hrange : (decide (saturateCount target < 0) ||
      decide (c.function.code.size < (saturateCount target).toInt.toNat)) = false := by
    rw [hcount]
    simp only [Bool.or_eq_false_iff, decide_eq_false_iff_not]
    exact ⟨hpositive, by omega⟩
  unfold Machine.jump
  rw [hrange, hcount]
  rfl

theorem slot_frame {i : Nat} (hi : i < slots.length) (hsize : slots.length < 2147483648) :
    Machine.slot (c.frame pc slots) name (saturateCount i) = .ok i := by
  obtain ⟨hpositive, hcount⟩ := toNat_saturateCount (n := i) (by omega)
  have hrange : (decide (saturateCount i < 0) ||
      decide ((c.frame pc slots).locals.size ≤ (saturateCount i).toInt.toNat)) = false := by
    have hlocals : (c.frame pc slots).locals.size = slots.length := rfl
    rw [hcount, hlocals]
    simp only [Bool.or_eq_false_iff, decide_eq_false_iff_not]
    exact ⟨hpositive, by omega⟩
  unfold Machine.slot
  rw [hrange, hcount]
  rfl

/-- The machine does the instruction that it comes to. -/
theorem step_of_opcode? {inst : Instruction} {op : Opcode}
    (hfunction : p.functions[c.index]? = some c.function)
    (hinst : c.function.code[pc]? = some inst) (hop : inst.opcode? = some op) :
    (c.machine pc slots ops).step p =
      execute p (c.machine (pc + 1) slots ops) (c.frame pc slots) c.function op inst := by
  have hfetch : (c.machine pc slots ops).fetch p =
      .instruction (c.frame pc slots) c.function op inst := by
    unfold Machine.fetch machine
    dsimp only
    rw [show (c.frame pc slots).function = c.index from rfl, hfunction]
    dsimp only
    rw [show (c.frame pc slots).pc = pc from rfl, hinst]
    dsimp only
    rw [hop]
  unfold Machine.step
  rw [hfetch]
  rfl

theorem step_eq {op : Opcode} {a : Int32} {s : String}
    (hfunction : p.functions[c.index]? = some c.function)
    (hinst : c.function.code[pc]? = some (.of op a s)) :
    (c.machine pc slots ops).step p =
      execute p (c.machine (pc + 1) slots ops) (c.frame pc slots) c.function op (.of op a s) :=
  c.step_of_opcode? p pc slots ops hfunction hinst (Instruction.opcode?_of op a s)

end Seat

end Machine

end Arbor
