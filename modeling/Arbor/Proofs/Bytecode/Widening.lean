import Arbor.Proofs.Evaluation.Bookkeeping
import Mathlib.Data.List.Forall2

/-!
# Programs with more slots

A program widens another one when its functions are the same but for slots behind those of the other.
The machine does the same in both (`exec_widens`): code that names no slot beyond its own never comes
to the further ones. So an observer that does not look at the locals cannot tell them apart.
-/

namespace Arbor

/-! ## 1. Functions and programs -/

/-- The second function is the first one with more slots. -/
structure BytecodeFunction.Widens (f g : BytecodeFunction) : Prop where
  name : g.name = f.name
  params : g.params = f.params
  code : g.code = f.code
  locals : f.locals.length ≤ g.locals.length

theorem BytecodeFunction.Widens.slotCount_le {f g : BytecodeFunction} (h : f.Widens g) :
    f.slotCount ≤ g.slotCount := by
  have hlocals := h.locals
  unfold slotCount
  rw [h.params]
  omega

/-- The instruction names none but the first slots. -/
def Instruction.InSlots (count : Nat) (i : Instruction) : Prop :=
  i.opcode? = some .loadLocal ∨ i.opcode? = some .storeLocal → 0 ≤ i.a ∧ i.a.toInt.toNat < count

/-- The code names none but the slots that a call has. -/
def BytecodeFunction.InSlots (f : BytecodeFunction) : Prop :=
  ∀ i ∈ f.code.toList, i.InSlots f.slotCount

/-- The second program is the first one with more slots in its functions. -/
structure BytecodeProgram.Widens (p q : BytecodeProgram) : Prop where
  constants : q.constants = p.constants
  functions : List.Forall₂ BytecodeFunction.Widens p.functions.toList q.functions.toList
  inSlots : ∀ f ∈ p.functions.toList, f.InSlots

/-- The results are in the relation, or the same error. -/
inductive Results {α β : Type} (r : α → β → Prop) :
    Except BytecodeError α → Except BytecodeError β → Prop where
  | ok {a b} : r a b → Results r (.ok a) (.ok b)
  | error (e) : Results r (.error e) (.error e)

theorem Results.bind {α β γ δ : Type} {r : α → β → Prop} {r' : γ → δ → Prop}
    {x : Except BytecodeError α} {y : Except BytecodeError β} {f : α → Except BytecodeError γ}
    {g : β → Except BytecodeError δ} (h : Results r x y)
    (hf : ∀ a b, r a b → Results r' (f a) (g b)) : Results r' (x >>= f) (y >>= g) := by
  cases h with
  | ok hab => exact hf _ _ hab
  | error e => exact .error e

namespace BytecodeProgram.Widens

variable {p q : BytecodeProgram} (h : p.Widens q)
include h

theorem function {i : Nat} {f : BytecodeFunction} (hf : p.functions[i]? = some f) :
    ∃ g, q.functions[i]? = some g ∧ f.Widens g ∧ f.InSlots := by
  rw [← Array.getElem?_toList] at hf
  have hmem : f ∈ p.functions.toList := List.mem_of_getElem? hf
  obtain ⟨hlt, hget⟩ := List.getElem?_eq_some_iff.mp hf
  have hlt' : i < q.functions.toList.length := h.functions.length_eq ▸ hlt
  have hwidens := h.functions.get hlt hlt'
  rw [List.get_eq_getElem, List.get_eq_getElem, hget] at hwidens
  refine ⟨q.functions.toList[i], ?_, hwidens, h.inSlots f hmem⟩
  rw [← Array.getElem?_toList]
  exact List.getElem?_eq_getElem hlt'

theorem function_none {i : Nat} (hf : p.functions[i]? = none) : q.functions[i]? = none := by
  rw [← Array.getElem?_toList, List.getElem?_eq_none_iff] at hf ⊢
  rwa [← h.functions.length_eq]

theorem functionName (i : Nat) : Machine.functionName q i = Machine.functionName p i := by
  unfold Machine.functionName
  cases hf : p.functions[i]? with
  | none => rw [h.function_none hf]
  | some f =>
    obtain ⟨g, hg, hwidens, -⟩ := h.function hf
    rw [hg]
    exact hwidens.name

theorem functionIndex? (name : String) : q.functionIndex? name = p.functionIndex? name := by
  have hnames : q.functions.toList.map (·.name) = p.functions.toList.map (·.name) := by
    have hforall := h.functions
    generalize p.functions.toList = fs at hforall
    generalize q.functions.toList = gs at hforall
    induction hforall with
    | nil => rfl
    | cons hfg _ ih => rw [List.map_cons, List.map_cons, hfg.name, ih]
  have hindex (r : BytecodeProgram) : r.functions.toList.reverse.findIdx? (·.name == name) =
      (r.functions.toList.map (·.name)).reverse.findIdx? (· == name) := by
    rw [← List.map_reverse, List.findIdx?_map]
    rfl
  have hsize : q.functions.size = p.functions.size := h.functions.length_eq.symm
  unfold BytecodeProgram.functionIndex?
  rw [hindex, hindex, hnames, hsize]

end BytecodeProgram.Widens

/-! ## 2. Machines -/

/-- The second frame is the first one with more slots behind those that its call made. -/
structure Frame.Widens (p : BytecodeProgram) (x y : Frame) : Prop where
  function : y.function = x.function
  pc : y.pc = x.pc
  base : y.base = x.base
  size : ∀ f, p.functions[x.function]? = some f → x.locals.size = f.slotCount
  locals : ∃ more, y.locals = x.locals ++ more

namespace Frame.Widens

variable {p : BytecodeProgram} {x y : Frame} {f : BytecodeFunction} {k : Nat} (h : Frame.Widens p x y)
  (hf : p.functions[x.function]? = some f) (hk : k < f.slotCount)
include h hf hk

theorem getD_locals : y.locals.getD k .void = x.locals.getD k .void := by
  obtain ⟨more, hlocals⟩ := h.locals
  have hlt : k < x.locals.size := by
    rw [h.size f hf]
    exact hk
  rw [hlocals, Array.getD_eq_getD_getElem?, Array.getD_eq_getD_getElem?,
    Array.getElem?_append_left hlt]

theorem store (v : Value) :
    Frame.Widens p { x with locals := x.locals.setIfInBounds k v }
      { y with locals := y.locals.setIfInBounds k v } := by
  obtain ⟨more, hlocals⟩ := h.locals
  have hlt : k < x.locals.size := by
    rw [h.size f hf]
    exact hk
  refine ⟨h.function, h.pc, h.base, fun f' hf' => ?_, more, ?_⟩
  · rw [Array.size_setIfInBounds]
    exact h.size f' hf'
  · rw [hlocals, Array.setIfInBounds_append_left hlt]

end Frame.Widens

namespace Machine

/-- The machines have the same operands, and frames that differ in their further slots. -/
structure Widens (p : BytecodeProgram) (m n : Machine) : Prop where
  stack : n.stack = m.stack
  frames : List.Forall₂ (Frame.Widens p) m.frames n.frames

/-- What comes of the steps is the same but for further slots. -/
inductive Transition.Widens (p : BytecodeProgram) : Transition → Transition → Prop where
  | next {m n} : m.Widens p n → Widens p (.next m) (.next n)
  | finished (v) : Widens p (.finished v) (.finished v)
  | failed (e) : Widens p (.failed e) (.failed e)
  | calls (target args function) {m n} : m.Widens p n →
    Widens p (.calls target args m function) (.calls target args n function)

variable {p q : BytecodeProgram} {m n : Machine}

theorem proceed_widens {x y : Except BytecodeError Machine} (h : Results (Widens p) x y) :
    (proceed x).Widens p (proceed y) := by
  cases h with
  | ok hmn => exact .next hmn
  | error e => exact .failed e

namespace Widens

variable (h : m.Widens p n)
include h

theorem base : n.base = m.base := by
  obtain ⟨stack, frames⟩ := m
  obtain ⟨stack', frames'⟩ := n
  cases h.frames with
  | nil => rfl
  | cons hfirst _ => exact hfirst.base

theorem top? : n.top? = m.top? := by
  unfold Machine.top?
  rw [h.stack, h.base]

theorem topOrVoid : n.topOrVoid = m.topOrVoid := by
  unfold Machine.topOrVoid
  rw [h.top?]

theorem top (name : String) : n.top name = m.top name := by
  unfold Machine.top
  rw [h.top?]

theorem push (name : String) (v : Value) : Results (Widens p) (m.push name v) (n.push name v) := by
  unfold Machine.push
  rw [h.stack]
  by_cases hfull : maxStack ≤ m.stack.size
  · rw [if_pos hfull, if_pos hfull]
    exact .error _
  · rw [if_neg hfull, if_neg hfull]
    exact .ok ⟨rfl, h.frames⟩

theorem pop (name : String) :
    Results (fun r r' => r'.1 = r.1 ∧ r.2.Widens p r'.2 ∧ r.2.frames = m.frames) (m.pop name)
      (n.pop name) := by
  unfold Machine.pop
  rw [h.top?, h.stack]
  cases m.top? with
  | none => exact .error _
  | some v => exact .ok ⟨rfl, ⟨rfl, h.frames⟩, rfl⟩

theorem popMany (name : String) (count : Nat) :
    Results (fun r r' => r'.1 = r.1 ∧ r.2.Widens p r'.2) (m.popMany name count)
      (n.popMany name count) := by
  unfold Machine.popMany
  rw [h.base, h.stack]
  by_cases hfew : m.stack.size < m.base + count
  · rw [if_pos hfew, if_pos hfew]
    exact .error _
  · rw [if_neg hfew, if_neg hfew]
    exact .ok ⟨rfl, rfl, h.frames⟩

theorem popArgs (name : String) (count : Int32) :
    Results (fun r r' => r'.1 = r.1 ∧ r.2.Widens p r'.2) (m.popArgs name count)
      (n.popArgs name count) := by
  unfold Machine.popArgs
  by_cases hnegative : count < 0
  · rw [if_pos hnegative, if_pos hnegative]
    exact .error _
  · rw [if_neg hnegative, if_neg hnegative]
    exact h.popMany name _

theorem mapFrame {f f' : Frame → Frame}
    (hf : ∀ x y, x ∈ m.frames.head? → Frame.Widens p x y → Frame.Widens p (f x) (f' y)) :
    (m.mapFrame f).Widens p (n.mapFrame f') := by
  obtain ⟨stack, frames⟩ := m
  obtain ⟨stack', frames'⟩ := n
  obtain rfl : stack' = stack := h.stack
  cases h.frames with
  | nil => exact h
  | cons hfirst hrest => exact ⟨rfl, .cons (hf _ _ rfl hfirst) hrest⟩

theorem jump {f g : BytecodeFunction} (hfg : f.Widens g) (target : Int32) :
    Results (Widens p) (m.jump f target) (n.jump g target) := by
  unfold Machine.jump
  rw [hfg.code, hfg.name]
  by_cases hout : (decide (target < 0) || decide (f.code.size < target.toInt.toNat)) = true
  · rw [if_pos hout, if_pos hout]
    exact .error _
  · rw [if_neg hout, if_neg hout]
    refine .ok (h.mapFrame fun x y _ hxy => ?_)
    exact ⟨hxy.function, rfl, hxy.base, hxy.size, hxy.locals⟩

theorem enter {index : Nat} {f g : BytecodeFunction} (hf : p.functions[index]? = some f)
    (hfg : f.Widens g) {args : List Value} (hargs : args.length ≤ f.slotCount) :
    Results (Widens p) (m.enter index f args) (n.enter index g args) := by
  unfold Machine.enter
  have hdepth : n.frames.length = m.frames.length := h.frames.length_eq.symm
  rw [hdepth, hfg.name, h.stack]
  by_cases hdeep : maxFrames ≤ m.frames.length
  · rw [if_pos hdeep, if_pos hdeep]
    exact .error _
  · rw [if_neg hdeep, if_neg hdeep]
    refine .ok ⟨rfl, .cons ⟨rfl, rfl, rfl, fun f' hf' => ?_, ?_⟩ h.frames⟩
    · obtain rfl : f = f' := Option.some.inj (hf.symm.trans hf')
      rw [List.size_toArray, List.length_append, List.length_replicate]
      omega
    · -- the slots behind the arguments are as many as the first function has, and then more
      have hmore := hfg.slotCount_le
      refine ⟨(List.replicate (g.slotCount - f.slotCount) Value.void).toArray, ?_⟩
      rw [show g.slotCount - args.length = f.slotCount - args.length + (g.slotCount - f.slotCount) by
        omega, List.replicate_add]
      simp

theorem leave (hpq : p.Widens q) (v : Value) : (m.leave p v).Widens p (n.leave q v) := by
  unfold Machine.leave
  dsimp only
  have hstack : n.stack.extract 0 n.base = m.stack.extract 0 m.base := by rw [h.base, h.stack]
  rw [hstack]
  have htail : List.Forall₂ (Frame.Widens p) m.frames.tail n.frames.tail := by
    have hframes := h.frames
    generalize m.frames = xs at hframes
    generalize n.frames = ys at hframes
    cases hframes with
    | nil => exact .nil
    | cons _ hrest => exact hrest
  generalize m.frames.tail = xs at htail
  generalize n.frames.tail = ys at htail
  cases htail with
  | nil => exact .finished v
  | @cons x y xs ys hfirst hrest =>
    dsimp only
    have hname : functionName q y.function = functionName p x.function := by
      rw [hfirst.function, hpq.functionName]
    rw [hname]
    have hcaller : Widens p ⟨m.stack.extract 0 m.base, x :: xs⟩ ⟨m.stack.extract 0 m.base, y :: ys⟩ :=
      ⟨rfl, .cons hfirst hrest⟩
    exact proceed_widens (hcaller.push (functionName p x.function) v)

end Widens

/-! ## 3. Steps -/

theorem slot_widens {x y : Frame} (hxy : Frame.Widens p x y) {f : BytecodeFunction}
    (hf : p.functions[x.function]? = some f) (name : String) {i : Instruction}
    (hi : 0 ≤ i.a ∧ i.a.toInt.toNat < f.slotCount) :
    slot x name i.a = .ok i.a.toInt.toNat ∧ slot y name i.a = .ok i.a.toInt.toNat := by
  have hsize := hxy.size f hf
  obtain ⟨more, hlocals⟩ := hxy.locals
  have hnegative : ¬i.a < 0 := Int32.not_lt.mpr hi.1
  unfold slot
  constructor
  · rw [if_neg]
    simp only [Bool.or_eq_true, decide_eq_true_eq, not_or]
    exact ⟨hnegative, by omega⟩
  · rw [if_neg]
    simp only [Bool.or_eq_true, decide_eq_true_eq, not_or, hlocals, Array.size_append]
    exact ⟨hnegative, by omega⟩

/-- An instruction that names no slot beyond those of its function does the same. -/
theorem execute_widens (hpq : p.Widens q) (h : m.Widens p n) {x y : Frame}
    (hxy : Frame.Widens p x y) (hhead : ∀ z ∈ m.frames.head?, z.function = x.function)
    {f g : BytecodeFunction} (hf : p.functions[x.function]? = some f) (hfg : f.Widens g) {op : Opcode}
    {i : Instruction} (hop : i.opcode? = some op) (hi : i.InSlots f.slotCount) :
    (execute p m x f op i).Widens p (execute q n y g op i) := by
  have hname := hfg.name
  -- only loads, stores and calls come to the locals; the others work on what is the same in both
  cases op <;> simp only [execute, hname]
  case nop => exact .next h
  case const =>
    apply proceed_widens
    have hconstant : constant q f.name i.a = constant p f.name i.a := by
      unfold constant
      rw [hpq.constants]
    rw [hconstant]
    cases constant p f.name i.a with
    | error e => exact .error e
    | ok v => exact h.push f.name v
  case pushInt | pushBool | pushVoid => exact proceed_widens (h.push f.name _)
  case pop =>
    apply proceed_widens
    exact (h.pop f.name).bind fun r r' hr => .ok hr.2.1
  case dup =>
    apply proceed_widens
    rw [h.top]
    cases m.top f.name with
    | error e => exact .error e
    | ok v => exact h.push f.name v
  case loadLocal =>
    apply proceed_widens
    obtain ⟨hslot, hslot'⟩ := slot_widens hxy hf f.name (hi (.inl hop))
    rw [hslot, hslot']
    show Results (Widens p) (m.push f.name _) (n.push f.name _)
    rw [hxy.getD_locals hf (hi (.inl hop)).2]
    exact h.push f.name _
  case storeLocal =>
    apply proceed_widens
    obtain ⟨hslot, hslot'⟩ := slot_widens hxy hf f.name (hi (.inr hop))
    rw [hslot, hslot']
    apply (h.pop f.name).bind
    rintro ⟨v, m'⟩ ⟨v', n'⟩ ⟨hv, hmn, hframes⟩
    obtain rfl : v' = v := hv
    refine .ok (hmn.mapFrame fun z w hz hzw => ?_)
    -- the frame that is changed is the one that the instruction was read in
    have hfunction : z.function = x.function := hhead z (hframes ▸ hz)
    exact hzw.store (hfunction.symm ▸ hf) (hi (.inr hop)).2 v'
  case jump => exact proceed_widens (h.jump hfg i.a)
  case jumpIfFalse =>
    apply proceed_widens
    apply (h.pop f.name).bind
    rintro ⟨v, m'⟩ ⟨v', n'⟩ ⟨hv, hmn, -⟩
    obtain rfl : v' = v := hv
    cases v' with
    | bool b =>
      cases b with
      | false => exact hmn.jump hfg i.a
      | true => exact .ok hmn
    | _ => exact .error _
  case jumpIfErr =>
    apply proceed_widens
    rw [h.top]
    cases m.top f.name with
    | error e => exact .error e
    | ok v =>
      show Results (Widens p) (if v.isErr = true then _ else _) (if v.isErr = true then _ else _)
      by_cases herr : v.isErr = true
      · rw [if_pos herr, if_pos herr]
        exact h.jump hfg i.a
      · rw [if_neg herr, if_neg herr]
        exact .ok h
  case operator shared =>
    apply proceed_widens
    apply (h.popMany f.name shared.arity).bind
    rintro ⟨args, m'⟩ ⟨args', n'⟩ ⟨hargs, hmn⟩
    obtain rfl : args' = args := hargs
    exact hmn.push f.name _
  case call =>
    apply proceed_widens
    apply (h.popArgs f.name i.a).bind
    rintro ⟨args, m'⟩ ⟨args', n'⟩ ⟨hargs, hmn⟩
    obtain rfl : args' = args := hargs
    dsimp only
    rw [hpq.functionIndex?]
    cases p.functionIndex? i.s with
    | none => exact .error _
    | some index =>
      dsimp only
      cases hcallee : p.functions[index]? with
      | none =>
        rw [hpq.function_none hcallee]
        exact .error _
      | some callee =>
        obtain ⟨wide, hwide, hwidens, -⟩ := hpq.function hcallee
        rw [hwide]
        dsimp only
        rw [hwidens.params]
        by_cases hfit : args'.length = callee.params.length
        · rw [if_pos hfit, if_pos hfit]
          apply hmn.enter hcallee hwidens
          unfold BytecodeFunction.slotCount
          omega
        · rw [if_neg hfit, if_neg hfit]
          exact hmn.push f.name _
  case callSys =>
    have hargs := h.popArgs f.name i.a
    generalize m.popArgs f.name i.a = r at hargs
    generalize n.popArgs f.name i.a = r' at hargs
    cases hargs with
    | error e => exact .failed e
    | @ok a b hab =>
      obtain ⟨args, m'⟩ := a
      obtain ⟨args', n'⟩ := b
      obtain ⟨hargs, hmn⟩ := hab
      obtain rfl : args' = args := hargs
      exact .calls _ _ _ hmn
  case ret =>
    rw [h.topOrVoid]
    exact h.leave hpq _
  case halt =>
    rw [h.topOrVoid]
    exact .finished _

/-- A step does the same in a wider program. -/
theorem step_widens (hpq : p.Widens q) (h : m.Widens p n) : (m.step p).Widens p (n.step q) := by
  obtain ⟨stack, frames⟩ := m
  obtain ⟨stack', frames'⟩ := n
  obtain rfl : stack' = stack := h.stack
  cases hframes : h.frames with
  | nil => exact .finished .void
  | @cons x y xs ys hxy hrest =>
    unfold step fetch
    dsimp only
    rw [hxy.function, hxy.pc]
    cases hf : p.functions[x.function]? with
    | none =>
      rw [hpq.function_none hf]
      exact .finished .void
    | some f =>
      obtain ⟨g, hg, hfg, hin⟩ := hpq.function hf
      rw [hg]
      dsimp only
      rw [hfg.code, hfg.name]
      cases hi : f.code[x.pc]? with
      | none => exact h.leave hpq .void
      | some i =>
        dsimp only
        cases hop : i.opcode? with
        | none => exact .failed _
        | some op =>
          have hadvanced : Widens p ⟨stack', { x with pc := x.pc + 1 } :: xs⟩
              ⟨stack', { y with pc := y.pc + 1 } :: ys⟩ := by
            refine ⟨rfl, .cons ⟨hxy.function, ?_, hxy.base, hxy.size, hxy.locals⟩ hrest⟩
            show y.pc + 1 = x.pc + 1
            rw [hxy.pc]
          have hmem : i ∈ f.code.toList := by
            rw [← Array.getElem?_toList] at hi
            exact List.mem_of_getElem? hi
          apply execute_widens hpq hadvanced hxy ?_ hf hfg hop (hin i hmem)
          rintro z ⟨⟩
          rfl

/-! ## 4. Runs -/

/-- In a wider program a run comes to the same end, for a runner that never looks at the steps. -/
theorem exec_widens {τ ε : Type} {runner : Runner τ ε} {quiet : τ → Prop}
    (hwants : ∀ t, quiet t → runner.wantsSteps t = false)
    (hcall : ∀ target args t, quiet t → quiet (runner.call target args t).2) (hpq : p.Widens q)
    (fuel : Nat) (h : m.Widens p n) {t : τ} (ht : quiet t) :
    exec runner q fuel n t = exec runner p fuel m t := by
  induction fuel generalizing m n t with
  | zero => rfl
  | succ fuel ih =>
    have hunseen (r : BytecodeProgram) (k : Machine) : observeNext runner r k t = t := by
      unfold observeNext
      rw [hwants t ht]
      rfl
    have hstep := step_widens hpq h
    unfold exec
    rw [hunseen, hunseen]
    generalize m.step p = next at hstep
    generalize n.step q = next' at hstep
    cases hstep with
    | next hmn => exact ih hmn ht
    | finished v => rfl
    | failed e => rfl
    | calls target args function hmn =>
      dsimp only
      have hquiet := hcall target args t ht
      generalize runner.call target args t = reply at hquiet
      obtain ⟨answer, t'⟩ := reply
      cases answer with
      | error e => rfl
      | ok v =>
        have hpush := hmn.push function v
        dsimp only
        generalize Machine.push _ function v = x at hpush
        generalize Machine.push _ function v = y at hpush
        cases hpush with
        | ok hmn => exact ih hmn hquiet
        | error e => rfl

theorem start_widens (hpq : p.Widens q) (entry : String) (args : List Value) :
    Results (Widens p) (start p entry args) (start q entry args) := by
  unfold start
  rw [hpq.functionIndex?]
  cases p.functionIndex? entry with
  | none => exact .error _
  | some index =>
    dsimp only [Option.bind_some]
    cases hf : p.functions[index]? with
    | none =>
      rw [hpq.function_none hf]
      exact .error _
    | some f =>
      obtain ⟨g, hg, hfg, -⟩ := hpq.function hf
      rw [hg]
      dsimp only [Option.map_some]
      rw [hfg.params]
      by_cases hfit : args.length ≠ f.params.length
      · rw [if_pos hfit, if_pos hfit]
        exact .error _
      · rw [if_neg hfit, if_neg hfit]
        have hidle : idle.Widens p idle := ⟨rfl, .nil⟩
        apply hidle.enter hf hfg
        unfold BytecodeFunction.slotCount
        omega

end Machine

/-- Without a recorder a capability call comes to none. -/
theorem Eval.recorder?_callCapability {σ : Type} [Host σ] (fuel nesting : Nat) (target : String)
    (args : List Value) {t : Activation σ} (ht : t.session.recorder? = none) :
    (callCapability (eval fuel) fuel nesting target args t).2.session.recorder? = none := by
  have hkept := (invariant_balanced.callCapability (invariant_balanced.eval fuel) fuel nesting target
    args t).recorder?
  generalize (callCapability (eval fuel) fuel nesting target args t).2.session.recorder? = r at hkept ⊢
  rw [ht] at hkept
  cases hkept
  rfl

/-- Without a recorder a wider program runs the same, and leaves the same session. -/
theorem runProgram_widens {σ : Type} [Host σ] {p q : BytecodeProgram} (hpq : p.Widens q)
    {s : Session σ} (hquiet : s.recorder? = none) (fuel : Nat) (entry : String) (args : List Value) :
    s.runProgram fuel q entry args = s.runProgram fuel p entry args := by
  unfold Session.runProgram Eval.runMachine
  dsimp only
  have hwants (t : Activation σ) (ht : t.session.recorder? = none) :
      (Eval.machineRunner (Eval.callCapability (Eval.eval fuel) fuel fuel)).wantsSteps t = false := by
    show t.session.recorder?.isSome = false
    rw [ht]
    rfl
  have hrun : Machine.run (Eval.machineRunner (Eval.callCapability (Eval.eval fuel) fuel fuel)) fuel q
      entry args (⟨s, []⟩ : Activation σ) =
        Machine.run (Eval.machineRunner (Eval.callCapability (Eval.eval fuel) fuel fuel)) fuel p entry
          args ⟨s, []⟩ := by
    have hstart := Machine.start_widens hpq entry args
    unfold Machine.run
    generalize Machine.start p entry args = x at hstart
    generalize Machine.start q entry args = y at hstart
    cases hstart with
    | ok hmn =>
      refine Machine.exec_widens hwants (fun target args t ht => ?_) hpq fuel hmn hquiet
      rw [Eval.machineRunner_call_snd]
      exact Eval.recorder?_callCapability fuel fuel target args ht
    | error e => rfl
  rw [hrun]

end Arbor
