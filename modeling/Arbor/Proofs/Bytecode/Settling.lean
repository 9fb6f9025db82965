import Arbor.Proofs.Bytecode.Rules
import Arbor.Proofs.Evaluation.Frames

/-!
# How a run of the machine ends

`Settles p Q m s` says that the machine `m`, run for enough steps in a session that agrees with `s`,
ends in a way that has the property `Q`. There is one rule for each instruction, which leads from the
machine behind the instruction to the one before it; so the end of a run is followed backwards. An
instruction may also fail on a full stack, so `Q` has to hold of that too.
-/

namespace Arbor

/-- A run that came to an end comes to the same one with more steps. -/
theorem Machine.exec_of_finished {τ ε : Type} (runner : Machine.Runner τ ε) {p : BytecodeProgram}
    {fuel : Nat} {m : Machine} {t : τ} (h : (exec runner p fuel m t).1 ≠ .error .outOfFuel)
    (more : Nat) : exec runner p (fuel + more) m t = exec runner p fuel m t := by
  induction fuel generalizing m t with
  | zero => exact absurd rfl h
  | succ fuel ih =>
    rw [Nat.add_right_comm]
    unfold exec at h ⊢
    dsimp only at h ⊢
    generalize observeNext runner p m t = t' at h ⊢
    cases hstep : m.step p with
    | next m' =>
      rw [hstep] at h
      exact ih h
    | finished v => rfl
    | failed e => rfl
    | calls target args m' function =>
      rw [hstep] at h
      dsimp only at h ⊢
      rcases hcall : runner.call target args t' with ⟨answer, t''⟩
      rw [hcall] at h
      cases answer with
      | error e => rfl
      | ok v =>
        dsimp only at h ⊢
        cases hpush : m'.push function v with
        | error e => rfl
        | ok m'' =>
          rw [hpush] at h
          exact ih h

/-- How a run of the machine ends, and what it leaves. -/
abbrev MachineEnd (σ : Type) := Except (Machine.Stop Halt) Value × Activation σ

section Runs

variable {σ : Type} [Host σ]

/-- The machine ends in this way when it runs for enough steps, whoever evaluates for it. -/
def Settles (p : BytecodeProgram) (Q : MachineEnd σ → Prop) (m : Machine) (s : Session σ) : Prop :=
  ∃ n, ∀ (self : Node → Eval σ Value) (steps nesting : Nat) (u : Activation σ),
    s.Agree u.session → ∀ k,
      Q (Machine.exec (Eval.machineRunner (Eval.callCapability self steps (nesting + 1))) p (n + k) m u)

/-- What comes of a step leads to such an end. -/
def After (p : BytecodeProgram) (Q : MachineEnd σ → Prop) (next : Machine.Transition)
    (s : Session σ) : Prop :=
  match next with
  | .next m => Settles p Q m s
  | .finished v => ∀ u : Activation σ, s.Agree u.session → Q (.ok v, u)
  | .failed e => ∀ u : Activation σ, s.Agree u.session → Q (.error (.failed e), u)
  | .calls .. => False

/-- An end at a limit of the machine is accepted. -/
def AcceptsLimits (Q : MachineEnd σ → Prop) : Prop :=
  ∀ (e : BytecodeError) (u : Activation σ), e.IsLimit → Q (.error (.failed e), u)

/-! ## 1. Steps -/

omit [Host σ] in
theorem observeNext_agree {s : Session σ} {u : Activation σ} (h : s.Agree u.session)
    (call : String → List Value → Eval σ Value) (p : BytecodeProgram) (m : Machine) :
    s.Agree (Machine.observeNext (Eval.machineRunner call) p m u).session := by
  unfold Machine.observeNext
  split
  · split
    · exact ⟨h.host, h.replay?, h.permissions⟩
    · exact h
  · exact h

section Steps

variable {p : BytecodeProgram} {Q : MachineEnd σ → Prop} {m : Machine} {s : Session σ}

theorem Settles.of_after (h : After p Q (m.step p) s) : Settles p Q m s := by
  cases hstep : m.step p with
  | next m' =>
    rw [hstep] at h
    obtain ⟨n, hn⟩ := h
    refine ⟨n + 1, fun self steps nesting u hu k => ?_⟩
    rw [Nat.add_right_comm, Machine.exec, hstep]
    exact hn self steps nesting _ (observeNext_agree hu _ p m) k
  -- the run ends with the step, so one step is enough
  | finished v =>
    rw [hstep] at h
    refine ⟨1, fun self steps nesting u hu k => ?_⟩
    rw [Nat.add_comm 1 k, Machine.exec, hstep]
    exact h _ (observeNext_agree hu _ p m)
  | failed e =>
    rw [hstep] at h
    refine ⟨1, fun self steps nesting u hu k => ?_⟩
    rw [Nat.add_comm 1 k, Machine.exec, hstep]
    exact h _ (observeNext_agree hu _ p m)
  | calls target args m' function =>
    rw [hstep] at h
    exact h.elim

/-- The run behind a capability call of a function that came to this outcome. -/
def answered (runner : Machine.Runner (Activation σ) Halt) (p : BytecodeProgram) (k : Nat)
    (m : Machine) (function : String) : Outcome Value → Activation σ → MachineEnd σ
  | .value v, u | .returned v, u =>
    match m.push function v with
    | .ok m => Machine.exec runner p k m u
    | .error e => (.error (.failed e), u)
  | .halted e, u => (.error (.ended e), u)

section Calls

variable {target : String} {args : List Value} {m' : Machine} {function : String}
  {self : Node → Eval σ Value} {steps nesting : Nat} {t t' : Activation σ} {o : Outcome Value}
  (hidle : Eval.Idle t.session.permissions target)
  (hstep : m.step p = .calls target args m' function)
  (hcall : Eval.callCapability self steps (nesting + 1) target args t = (o, t'))
include hidle hstep hcall

theorem exec_calls {u : Activation σ} (hu : t.session.Agree u.session) (self' : Node → Eval σ Value)
    (steps' nesting' k : Nat) :
    ∃ u' : Activation σ, t'.session.Agree u'.session ∧
      Machine.exec (Eval.machineRunner (Eval.callCapability self' steps' (nesting' + 1))) p (k + 1) m
          u =
        answered (Eval.machineRunner (Eval.callCapability self' steps' (nesting' + 1))) p k m' function
          o u' := by
  -- the observer may have recorded the step, which no capability depends on
  have hnesting : nesting + 1 = 0 ↔ nesting' + 1 = 0 := by omega
  obtain ⟨hsame, hagree, -⟩ := Eval.callCapability_agree_of_idle hidle
    (observeNext_agree hu (Eval.callCapability self' steps' (nesting' + 1)) p m)
    (Eq.refl (args.map Value.uncaptured))
    self self' steps steps' hnesting
  rw [hcall] at hsame hagree
  refine ⟨_, hagree, ?_⟩
  rw [Machine.exec, hstep]
  dsimp only
  generalize Machine.observeNext _ p m u = w at hsame ⊢
  rcases hresult : Eval.callCapability self' steps' (nesting' + 1) target args w with ⟨o', u'⟩
  rw [hresult] at hsame
  obtain rfl : o = o' := hsame
  unfold Eval.machineRunner
  dsimp only
  rw [hresult]
  cases o <;> rfl

/-- A capability call is answered as the evaluator answers it. -/
theorem Settles.of_calls
    (hvalue : ∀ v, o = .value v → After p Q (Machine.proceed (m'.push function v)) t'.session)
    (hhalt : ∀ e, e ≠ .outOfFuel → o = .halted e → ∀ u : Activation σ, t'.session.Agree u.session →
      Q (.error (.ended e), u)) : Settles p Q m t.session := by
  have hanswers := Eval.callCapability_agree_of_idle hidle (.refl _)
    (Eq.refl (args.map Value.uncaptured)) self self steps steps (Iff.refl (nesting + 1 = 0))
  rw [hcall] at hanswers
  have hreturn := hanswers.returned
  have hfuel := hanswers.fuel (Nat.succ_ne_zero nesting)
  have hexec {u : Activation σ} (hu : t.session.Agree u.session) (self' : Node → Eval σ Value)
      (steps' nesting' k : Nat) := exec_calls hidle hstep hcall hu self' steps' nesting' k
  cases o with
  | returned v => exact absurd rfl (hreturn v)
  | halted e =>
    refine ⟨1, fun self' steps' nesting' u hu k => ?_⟩
    obtain ⟨u', hagree, hend⟩ := hexec hu self' steps' nesting' k
    rw [Nat.add_comm 1 k, hend]
    exact hhalt e (fun he => hfuel (congrArg _ he)) rfl u' hagree
  | value v =>
    have hafter := hvalue v rfl
    -- one more step than behind the call, unless there is no room for the answer
    cases hpush : m'.push function v with
    | error e =>
      rw [hpush] at hafter
      refine ⟨1, fun self' steps' nesting' u hu k => ?_⟩
      obtain ⟨u', hagree, hend⟩ := hexec hu self' steps' nesting' k
      rw [Nat.add_comm 1 k, hend, answered, hpush]
      exact hafter u' hagree
    | ok m'' =>
      rw [hpush] at hafter
      obtain ⟨n, hn⟩ := hafter
      refine ⟨n + 1, fun self' steps' nesting' u hu k => ?_⟩
      obtain ⟨u', hagree, hend⟩ := hexec hu self' steps' nesting' (n + k)
      rw [Nat.add_right_comm, hend, answered, hpush]
      exact hn self' steps' nesting' u' hagree k

end Calls

theorem Settles.of_agree {s' : Session σ} (hagree : s'.Agree s) (h : Settles p Q m s) :
    Settles p Q m s' := by
  obtain ⟨n, hn⟩ := h
  exact ⟨n, fun self steps nesting u hu k => hn self steps nesting u (hagree.symm.trans hu) k⟩

theorem After.of_agree {s' : Session σ} (hagree : s'.Agree s) {next : Machine.Transition}
    (h : After p Q next s) : After p Q next s' := by
  cases next with
  | next m => exact Settles.of_agree hagree h
  | finished v => exact fun u hu => h u (hagree.symm.trans hu)
  | failed e => exact fun u hu => h u (hagree.symm.trans hu)
  | calls target args m function => exact h.elim

end Steps

/-! ## 2. Instructions -/

section Instructions

variable {p : BytecodeProgram} {Q : MachineEnd σ → Prop} {s : Session σ}

theorem Settles.backwards : Backwards p (Settles p Q · s) (After p Q · s) where
  of_step _ h := .of_after h
  next _ h := h

theorem AcceptsLimits.after (hQ : AcceptsLimits Q) (e : BytecodeError) (he : e.IsLimit) :
    After p Q (.failed e) s := fun u _ => hQ e u he

variable (hQ : AcceptsLimits Q) {c : Machine.Seat} (hc : p.functions[c.index]? = some c.function)
  {pc : Nat} {slots ops : List Value}

include hQ

theorem After.push {v : Value} {name : String}
    (h : Settles p Q (c.machine pc slots (ops ++ [v])) s) :
    After p Q (Machine.proceed ((c.machine pc slots ops).push name v)) s :=
  Settles.backwards.push hQ.after h

namespace Settles

include hc

theorem pushVoid (hinst : c.function.code[pc]? = some (.of .pushVoid))
    (h : Settles p Q (c.machine (pc + 1) slots (ops ++ [.void])) s) :
    Settles p Q (c.machine pc slots ops) s := backwards.pushVoid hc hQ.after hinst h

theorem pushInt {i : Int32} (hinst : c.function.code[pc]? = some (.of .pushInt i))
    (h : Settles p Q (c.machine (pc + 1) slots (ops ++ [.int i])) s) :
    Settles p Q (c.machine pc slots ops) s := backwards.pushInt hc hQ.after hinst h

theorem pushBool {b : Bool}
    (hinst : c.function.code[pc]? = some (.of .pushBool (if b then 1 else 0)))
    (h : Settles p Q (c.machine (pc + 1) slots (ops ++ [.bool b])) s) :
    Settles p Q (c.machine pc slots ops) s := backwards.pushBool hc hQ.after hinst h

theorem const {index : Nat} {v : Value} (hindex : p.constants[index]? = some v)
    (hsize : p.constants.length < 2147483648)
    (hinst : c.function.code[pc]? = some (.of .const (saturateCount index)))
    (h : Settles p Q (c.machine (pc + 1) slots (ops ++ [v])) s) :
    Settles p Q (c.machine pc slots ops) s := backwards.const hc hQ.after hindex hsize hinst h

theorem loadLocal {i : Nat} {v : Value} (hi : slots[i]? = some v)
    (hsize : slots.length < 2147483648)
    (hinst : c.function.code[pc]? = some (.of .loadLocal (saturateCount i)))
    (h : Settles p Q (c.machine (pc + 1) slots (ops ++ [v])) s) :
    Settles p Q (c.machine pc slots ops) s := backwards.loadLocal hc hQ.after hi hsize hinst h

omit hQ

theorem pop {v : Value} (hinst : c.function.code[pc]? = some (.of .pop))
    (h : Settles p Q (c.machine (pc + 1) slots ops) s) :
    Settles p Q (c.machine pc slots (ops ++ [v])) s := backwards.pop hc hinst h

theorem storeLocal {i : Nat} {v : Value} (hi : i < slots.length)
    (hsize : slots.length < 2147483648)
    (hinst : c.function.code[pc]? = some (.of .storeLocal (saturateCount i)))
    (h : Settles p Q (c.machine (pc + 1) (slots.set i v) ops) s) :
    Settles p Q (c.machine pc slots (ops ++ [v])) s := backwards.storeLocal hc hi hsize hinst h

theorem jump {target : Nat} (htarget : target ≤ c.function.code.size)
    (hsize : c.function.code.size < 2147483648)
    (hinst : c.function.code[pc]? = some (.of .jump (saturateCount target)))
    (h : Settles p Q (c.machine target slots ops) s) : Settles p Q (c.machine pc slots ops) s :=
  backwards.jump hc htarget hsize hinst h

theorem jumpIfErr {target : Nat} {v : Value} (htarget : target ≤ c.function.code.size)
    (hsize : c.function.code.size < 2147483648)
    (hinst : c.function.code[pc]? = some (.of .jumpIfErr (saturateCount target)))
    (herr : v.isErr = true → Settles p Q (c.machine target slots (ops ++ [v])) s)
    (hgood : v.isErr = false → Settles p Q (c.machine (pc + 1) slots (ops ++ [v])) s) :
    Settles p Q (c.machine pc slots (ops ++ [v])) s :=
  backwards.jumpIfErr hc htarget hsize hinst herr hgood

/-- How the machine fails at a condition that is no truth value. -/
def oddCondition (v : Value) (name : String) : BytecodeError :=
  .typeMismatch ("JUMP_IF_FALSE expects bool, got " ++ v.kind.name) name

theorem jumpIfFalse {target : Nat} {v : Value} (htarget : target ≤ c.function.code.size)
    (hsize : c.function.code.size < 2147483648)
    (hinst : c.function.code[pc]? = some (.of .jumpIfFalse (saturateCount target)))
    (hfalse : v = .bool false → Settles p Q (c.machine target slots ops) s)
    (htrue : v = .bool true → Settles p Q (c.machine (pc + 1) slots ops) s)
    (hodd : v.kind ≠ .bool → ∀ u : Activation σ, s.Agree u.session →
      Q (.error (.failed (oddCondition v c.function.name)), u)) :
    Settles p Q (c.machine pc slots (ops ++ [v])) s :=
  backwards.jumpIfFalse hc htarget hsize hinst hfalse htrue hodd

theorem ret {v : Value} (hinst : c.function.code[pc]? = some (.of .ret))
    (h : After p Q (c.leave p v) s) : Settles p Q (c.machine pc slots (ops ++ [v])) s :=
  backwards.ret hc hinst h

include hQ

theorem operator {op : Operator} {args : List Value} (hargs : args.length = op.arity)
    (hinst : c.function.code[pc]? = some (.of (.operator op)))
    (h : Settles p Q (c.machine (pc + 1) slots (ops ++ [op.apply args])) s) :
    Settles p Q (c.machine pc slots (ops ++ args)) s :=
  backwards.operator hc hQ.after hargs hinst h

omit hQ in
/-- A capability call is answered as the evaluator answers it. -/
theorem callSys {target : String} {args : List Value} (hargs : args.length < 2147483648)
    (hinst : c.function.code[pc]? = some (.of .callSys (saturateCount args.length) target))
    {self : Node → Eval σ Value} {steps nesting : Nat} {t t' : Activation σ} {o : Outcome Value}
    (hidle : Eval.Idle t.session.permissions target)
    (hlimit : ∀ e : BytecodeError, e.IsLimit → After p Q (.failed e) t'.session)
    (hcall : Eval.callCapability self steps (nesting + 1) target args t = (o, t'))
    (hvalue : ∀ v, o = .value v → Settles p Q (c.machine (pc + 1) slots (ops ++ [v])) t'.session)
    (hhalt : ∀ e, e ≠ .outOfFuel → o = .halted e → ∀ u : Activation σ, t'.session.Agree u.session →
      Q (.error (.ended e), u)) :
    Settles p Q (c.machine pc slots (ops ++ args)) t.session := by
  have hstep : (c.machine pc slots (ops ++ args)).step p =
      .calls target args (c.machine (pc + 1) slots ops) c.function.name := by
    rw [c.step_eq p pc slots _ hc hinst]
    unfold Machine.execute
    dsimp only
    rw [show (Instruction.of .callSys (saturateCount args.length) target).a =
      saturateCount args.length from rfl, c.popArgs_machine _ _ _ _ hargs]
    rfl
  exact of_calls hidle hstep hcall (fun v hv => backwards.push hlimit (hvalue v hv)) hhalt

/-- A call goes on in the function, or comes to an unknown value when the arguments do not fit. -/
theorem call {target : String} {args : List Value} {index : Nat} {callee : BytecodeFunction}
    (hindex : p.functionIndex? target = some index) (hcallee : p.functions[index]? = some callee)
    (hargs : args.length < 2147483648)
    (hinst : c.function.code[pc]? = some (.of .call (saturateCount args.length) target))
    (henter : args.length = callee.params.length →
      Settles p Q ((c.callee (pc + 1) slots ops index callee).machine 0
        (args ++ List.replicate (callee.slotCount - args.length) .void) []) s)
    (hmiss : args.length ≠ callee.params.length →
      Settles p Q (c.machine (pc + 1) slots (ops ++ [.unknown])) s) :
    Settles p Q (c.machine pc slots (ops ++ args)) s :=
  backwards.call hc hQ.after hindex hcallee hargs hinst henter hmiss

end Settles

/-- The value of a call goes to the operands of its caller. -/
theorem After.leave_callee {index : Nat} {callee : BytecodeFunction} {v : Value}
    (h : Settles p Q (c.machine pc slots (ops ++ [v])) s) :
    After p Q ((c.callee pc slots ops index callee).leave p v) s :=
  After.push hQ h

end Instructions

end Runs

end Arbor
