import Arbor.Proofs.Bytecode.Seats

/-!
# Instructions, backwards

A property of machines that holds as soon as it holds of what comes of the next step is `Backwards`.
Each instruction then has a rule, which leads from the machine behind the instruction to the one before
it. The rules of instructions that push also ask for the failure on a full stack to be accepted.
-/

namespace Arbor

/-- The error says that the machine ran out of operands or frames. -/
def BytecodeError.IsLimit (e : BytecodeError) : Prop := e.code = "AIVM002" ∨ e.code = "AIVM004"

/-- `S` holds of a machine as soon as `A` holds of its next step, and `A` of a step to a machine as soon
as `S` holds of that machine. -/
structure Backwards (p : BytecodeProgram) (S : Machine → Prop) (A : Machine.Transition → Prop) :
    Prop where
  of_step : ∀ m : Machine, A (m.step p) → S m
  next : ∀ m : Machine, S m → A (.next m)

namespace Backwards

variable {p : BytecodeProgram} {S : Machine → Prop} {A : Machine.Transition → Prop}
  (h : Backwards p S A)
include h

theorem push (hlimit : ∀ e : BytecodeError, e.IsLimit → A (.failed e)) {c : Machine.Seat} {pc : Nat}
    {slots ops : List Value} {v : Value} {name : String}
    (hnext : S (c.machine pc slots (ops ++ [v]))) :
    A (Machine.proceed ((c.machine pc slots ops).push name v)) := by
  rw [c.push_machine]
  split
  · exact hlimit _ (.inl rfl)
  · exact h.next _ hnext

/-- The value of a call goes to the operands of its caller. -/
theorem leave_callee (hlimit : ∀ e : BytecodeError, e.IsLimit → A (.failed e)) {c : Machine.Seat}
    {pc : Nat} {slots ops : List Value} {index : Nat} {callee : BytecodeFunction} {v : Value}
    (hnext : S (c.machine pc slots (ops ++ [v]))) :
    A ((c.callee pc slots ops index callee).leave p v) :=
  h.push hlimit hnext

section Instructions

variable {c : Machine.Seat} (hc : p.functions[c.index]? = some c.function) {pc : Nat}
  {slots ops : List Value}
include hc

theorem of_instruction {op : Opcode} {a : Int32} {text : String}
    (hinst : c.function.code[pc]? = some (.of op a text))
    (hexecute : A (Machine.execute p (c.machine (pc + 1) slots ops) (c.frame pc slots) c.function op
      (.of op a text))) : S (c.machine pc slots ops) := by
  apply h.of_step
  rw [c.step_eq p pc slots ops hc hinst]
  exact hexecute

theorem pop {v : Value} (hinst : c.function.code[pc]? = some (.of .pop))
    (hnext : S (c.machine (pc + 1) slots ops)) : S (c.machine pc slots (ops ++ [v])) := by
  apply h.of_instruction hc hinst
  unfold Machine.execute
  dsimp only
  rw [c.pop_machine]
  exact h.next _ hnext

theorem storeLocal {i : Nat} {v : Value} (hi : i < slots.length)
    (hsize : slots.length < 2147483648)
    (hinst : c.function.code[pc]? = some (.of .storeLocal (saturateCount i)))
    (hnext : S (c.machine (pc + 1) (slots.set i v) ops)) :
    S (c.machine pc slots (ops ++ [v])) := by
  apply h.of_instruction hc hinst
  unfold Machine.execute
  dsimp only
  rw [show (Instruction.of .storeLocal (saturateCount i)).a = saturateCount i from rfl,
    c.slot_frame pc slots _ hi hsize]
  have hpopped := c.pop_machine (pc + 1) slots ops c.function.name v
  show A (Machine.proceed (Machine.pop _ _ >>= fun r => _))
  rw [hpopped]
  refine h.next ⟨(c.below ++ ops).toArray,
    ⟨c.index, pc + 1, slots.toArray.setIfInBounds i v, c.below.length⟩ :: c.outer⟩ ?_
  rw [List.setIfInBounds_toArray]
  exact hnext

theorem jump {target : Nat} (htarget : target ≤ c.function.code.size)
    (hsize : c.function.code.size < 2147483648)
    (hinst : c.function.code[pc]? = some (.of .jump (saturateCount target)))
    (hnext : S (c.machine target slots ops)) : S (c.machine pc slots ops) := by
  apply h.of_instruction hc hinst
  unfold Machine.execute
  dsimp only
  rw [show (Instruction.of .jump (saturateCount target)).a = saturateCount target from rfl,
    c.jump_machine _ _ _ htarget hsize]
  exact h.next _ hnext

theorem jumpIfErr {target : Nat} {v : Value} (htarget : target ≤ c.function.code.size)
    (hsize : c.function.code.size < 2147483648)
    (hinst : c.function.code[pc]? = some (.of .jumpIfErr (saturateCount target)))
    (herr : v.isErr = true → S (c.machine target slots (ops ++ [v])))
    (hgood : v.isErr = false → S (c.machine (pc + 1) slots (ops ++ [v]))) :
    S (c.machine pc slots (ops ++ [v])) := by
  apply h.of_instruction hc hinst
  unfold Machine.execute
  dsimp only
  rw [show (Instruction.of .jumpIfErr (saturateCount target)).a = saturateCount target from rfl,
    c.top_machine]
  show A (Machine.proceed (if v.isErr = true then _ else _))
  by_cases hv : v.isErr = true
  · rw [if_pos hv, c.jump_machine _ _ _ htarget hsize]
    exact h.next _ (herr hv)
  · rw [if_neg hv]
    exact h.next _ (hgood (by simpa using hv))

theorem jumpIfFalse {target : Nat} {v : Value} (htarget : target ≤ c.function.code.size)
    (hsize : c.function.code.size < 2147483648)
    (hinst : c.function.code[pc]? = some (.of .jumpIfFalse (saturateCount target)))
    (hfalse : v = .bool false → S (c.machine target slots ops))
    (htrue : v = .bool true → S (c.machine (pc + 1) slots ops))
    (hodd : v.kind ≠ .bool → A (.failed
      (.typeMismatch ("JUMP_IF_FALSE expects bool, got " ++ v.kind.name) c.function.name))) :
    S (c.machine pc slots (ops ++ [v])) := by
  apply h.of_instruction hc hinst
  unfold Machine.execute
  dsimp only
  rw [show (Instruction.of .jumpIfFalse (saturateCount target)).a = saturateCount target from rfl,
    c.pop_machine]
  cases v with
  | bool b =>
    cases b with
    | false =>
      show A (Machine.proceed ((c.machine (pc + 1) slots ops).jump _ _))
      rw [c.jump_machine _ _ _ htarget hsize]
      exact h.next _ (hfalse rfl)
    | true => exact h.next _ (htrue rfl)
  | _ => exact hodd (by simp [Value.kind])

theorem ret {v : Value} (hinst : c.function.code[pc]? = some (.of .ret))
    (hleave : A (c.leave p v)) : S (c.machine pc slots (ops ++ [v])) := by
  apply h.of_instruction hc hinst
  unfold Machine.execute
  dsimp only
  rw [c.topOrVoid_machine, c.leave_machine]
  exact hleave

/-- A capability call is handed to whoever runs the machine. -/
theorem callSys {target : String} {args : List Value} (hargs : args.length < 2147483648)
    (hinst : c.function.code[pc]? = some (.of .callSys (saturateCount args.length) target))
    (hcall : A (.calls target args (c.machine (pc + 1) slots ops) c.function.name)) :
    S (c.machine pc slots (ops ++ args)) := by
  apply h.of_instruction hc hinst
  unfold Machine.execute
  dsimp only
  rw [show (Instruction.of .callSys (saturateCount args.length) target).a =
    saturateCount args.length from rfl, c.popArgs_machine _ _ _ _ hargs]
  exact hcall

section Pushing

variable (hlimit : ∀ e : BytecodeError, e.IsLimit → A (.failed e))
include hlimit

theorem pushVoid (hinst : c.function.code[pc]? = some (.of .pushVoid))
    (hnext : S (c.machine (pc + 1) slots (ops ++ [.void]))) : S (c.machine pc slots ops) := by
  apply h.of_instruction hc hinst
  exact h.push hlimit hnext

theorem pushInt {i : Int32} (hinst : c.function.code[pc]? = some (.of .pushInt i))
    (hnext : S (c.machine (pc + 1) slots (ops ++ [.int i]))) : S (c.machine pc slots ops) := by
  apply h.of_instruction hc hinst
  exact h.push hlimit hnext

theorem pushBool {b : Bool}
    (hinst : c.function.code[pc]? = some (.of .pushBool (if b then 1 else 0)))
    (hnext : S (c.machine (pc + 1) slots (ops ++ [.bool b]))) : S (c.machine pc slots ops) := by
  have hbool : ((if b then 1 else 0 : Int32) != 0) = b := by cases b <;> rfl
  apply h.of_instruction hc hinst
  unfold Machine.execute
  dsimp only
  rw [show (Instruction.of .pushBool (if b then 1 else 0)).a = (if b then 1 else 0 : Int32) from rfl,
    hbool]
  exact h.push hlimit hnext

theorem const {index : Nat} {v : Value} (hindex : p.constants[index]? = some v)
    (hsize : p.constants.length < 2147483648)
    (hinst : c.function.code[pc]? = some (.of .const (saturateCount index)))
    (hnext : S (c.machine (pc + 1) slots (ops ++ [v]))) : S (c.machine pc slots ops) := by
  have hlt : index < p.constants.length := (List.getElem?_eq_some_iff.mp hindex).1
  obtain ⟨hpositive, hcount⟩ := toNat_saturateCount (n := index) (by omega)
  have hconstant (name : String) :
      Machine.constant p name (saturateCount index) = .ok v := by
    unfold Machine.constant Node.at?
    rw [if_neg hpositive, hcount, hindex]
  apply h.of_instruction hc hinst
  unfold Machine.execute
  dsimp only
  rw [show (Instruction.of .const (saturateCount index)).a = saturateCount index from rfl,
    hconstant]
  exact h.push hlimit hnext

theorem loadLocal {i : Nat} {v : Value} (hi : slots[i]? = some v)
    (hsize : slots.length < 2147483648)
    (hinst : c.function.code[pc]? = some (.of .loadLocal (saturateCount i)))
    (hnext : S (c.machine (pc + 1) slots (ops ++ [v]))) : S (c.machine pc slots ops) := by
  have hlt : i < slots.length := (List.getElem?_eq_some_iff.mp hi).1
  have hvalue : (c.frame pc slots).locals.getD i .void = v := by
    show slots.toArray.getD i .void = v
    rw [Array.getD_eq_getD_getElem?, List.getElem?_toArray, hi]
    rfl
  apply h.of_instruction hc hinst
  unfold Machine.execute
  dsimp only
  rw [show (Instruction.of .loadLocal (saturateCount i)).a = saturateCount i from rfl,
    c.slot_frame pc slots _ hlt hsize]
  show A (Machine.proceed (Machine.push _ _ ((c.frame pc slots).locals.getD i .void)))
  rw [hvalue]
  exact h.push hlimit hnext

theorem operator {op : Operator} {args : List Value} (hargs : args.length = op.arity)
    (hinst : c.function.code[pc]? = some (.of (.operator op)))
    (hnext : S (c.machine (pc + 1) slots (ops ++ [op.apply args]))) :
    S (c.machine pc slots (ops ++ args)) := by
  apply h.of_instruction hc hinst
  unfold Machine.execute
  dsimp only
  rw [← hargs, c.popMany_machine]
  exact h.push hlimit hnext

/-- A call goes on in the function, or comes to an unknown value when the arguments do not fit. -/
theorem call {target : String} {args : List Value} {index : Nat} {callee : BytecodeFunction}
    (hindex : p.functionIndex? target = some index) (hcallee : p.functions[index]? = some callee)
    (hargs : args.length < 2147483648)
    (hinst : c.function.code[pc]? = some (.of .call (saturateCount args.length) target))
    (henter : args.length = callee.params.length →
      A (.next ((c.callee (pc + 1) slots ops index callee).machine 0
        (args ++ List.replicate (callee.slotCount - args.length) .void) [])))
    (hmiss : args.length ≠ callee.params.length → S (c.machine (pc + 1) slots (ops ++ [.unknown]))) :
    S (c.machine pc slots (ops ++ args)) := by
  apply h.of_instruction hc hinst
  unfold Machine.execute
  dsimp only
  rw [show (Instruction.of .call (saturateCount args.length) target).a =
    saturateCount args.length from rfl, c.popArgs_machine _ _ _ _ hargs,
    show (Instruction.of .call (saturateCount args.length) target).s = target from rfl, hindex]
  dsimp only
  rw [hcallee]
  show A (Machine.proceed (if args.length = callee.params.length then _ else _))
  by_cases hfit : args.length = callee.params.length
  · rw [if_pos hfit, c.enter_machine]
    split
    · exact hlimit _ (.inr rfl)
    · exact henter hfit
  · rw [if_neg hfit]
    exact h.push hlimit (hmiss hfit)

end Pushing

end Instructions

end Backwards

end Arbor
