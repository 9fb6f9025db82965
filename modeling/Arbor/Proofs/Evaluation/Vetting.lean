import Arbor.Proofs.Evaluation.Composition

/-!
# Vetted runs of the machine

A vetted evaluation looks at each bytecode module before the machine runs it, and at the number of
runs of the machine that this one is directly inside of: one in whose code it is called, one in
whose code that one is called, and so on. Where it admits the module the machine runs, and else
there is an alarm in place of the run, which may be any step.

An evaluation runs only what is admitted (`Eval.RunsOnly`) when it is the same as the vetted one,
whatever the alarm is.
-/

namespace Arbor

variable {σ ι : Type}

namespace Eval

/-! ## 1. Vetted evaluation -/

section Vetted

variable (admits : Nat → Node → Bool) (alarm : Eval σ Value)

/-- Runs a function of a bytecode node inside of as many runs as the level says. -/
def vettedRun (level : Nat) (call : String → List Value → Eval σ Value) (steps : Nat)
    (bytecode : Node) (entry : String) (callArgs : Node) : Eval σ Value :=
  if admits level bytecode then faultAsValue (runBytecode call steps bytecode entry callArgs)
  else alarm

/-- Answers a capability that the session itself serves. -/
def vettedMeta (self : Node → Eval σ Value) (call : String → List Value → Eval σ Value)
    (steps level : Nat) (target : String) (args : List Value) : Eval σ Value :=
  match target, args with
  | "sys.vm_run", [.node bytecode, .str entry, .node callArgs] =>
    vettedRun admits alarm level call steps bytecode entry callArgs
  | target, args => serveMeta self call steps target args

/-- Calls a capability on values. -/
def vettedCapability [Host σ] (self : Node → Eval σ Value) (steps : Nat) :
    Nat → Nat → String → List Value → Eval σ Value
  | 0, _ => callChecked fun _ _ => halt .outOfFuel
  | nesting + 1, level =>
    callChecked
      (vettedMeta admits alarm self (vettedCapability self steps nesting (level + 1)) steps level)

/-- Evaluates a node by its form. A call in a program is inside of no run of the machine directly.
-/
def vettedForm [Host σ] (self : Node → Eval σ Value) (steps : Nat) (n : Node) : Eval σ Value :=
  if n.form? = some .call then
    evalCall self (vettedCapability admits alarm self steps steps 0) (callClosure self) n
  else evalForm self steps n

/-- Evaluates a node. -/
def vetted [Host σ] : Nat → Node → Eval σ Value
  | 0, _ => halt .outOfFuel
  | fuel + 1, n => entering n (vettedForm admits alarm (vetted fuel) fuel n)

end Vetted

section Equalities

variable {admits admits' : Nat → Node → Bool} (alarm : Eval σ Value)

theorem vettedMeta_congr {level : Nat} (h : admits level = admits' level)
    (self : Node → Eval σ Value) (call : String → List Value → Eval σ Value) (steps : Nat) :
    vettedMeta admits alarm self call steps level =
      vettedMeta admits' alarm self call steps level := by
  funext target args
  unfold vettedMeta vettedRun
  rw [h]

theorem vettedMeta_of_all (self : Node → Eval σ Value) (call : String → List Value → Eval σ Value)
    (steps level : Nat) :
    vettedMeta (fun _ _ => true) alarm self call steps level = serveMeta self call steps := by
  funext target args
  unfold vettedMeta
  split
  · rfl
  · rfl

variable [Host σ]

/-- Only the levels matter that the runs of the machine can reach. -/
theorem vettedCapability_congr (self : Node → Eval σ Value) (steps nesting level : Nat)
    (h : ∀ i, i < level + nesting → admits i = admits' i) :
    vettedCapability admits alarm self steps nesting level =
      vettedCapability admits' alarm self steps nesting level := by
  induction nesting generalizing level with
  | zero => rfl
  | succ nesting ih =>
    unfold vettedCapability
    rw [ih (level + 1) fun i hi => h i (by omega), vettedMeta_congr alarm (h level (by omega))]

theorem vetted_congr (fuel : Nat) (h : ∀ level < fuel, admits level = admits' level) (n : Node) :
    vetted admits alarm fuel n = vetted admits' alarm fuel n := by
  induction fuel generalizing n with
  | zero => rfl
  | succ fuel ih =>
    have hself : vetted admits alarm fuel = vetted admits' alarm fuel :=
      funext (ih fun level hlevel => h level (by omega))
    have hcall : vettedCapability admits alarm (vetted admits' alarm fuel) fuel fuel 0 =
        vettedCapability admits' alarm (vetted admits' alarm fuel) fuel fuel 0 :=
      vettedCapability_congr alarm _ fuel fuel 0 fun i hi => h i (by omega)
    unfold vetted vettedForm
    rw [hself, hcall]

theorem vettedCapability_of_all (self : Node → Eval σ Value) (steps nesting level : Nat) :
    vettedCapability (fun _ _ => true) alarm self steps nesting level =
      callCapability self steps nesting := by
  induction nesting generalizing level with
  | zero => rfl
  | succ nesting ih =>
    unfold vettedCapability callCapability
    rw [ih, vettedMeta_of_all]

/-- Admitting everything makes no difference. -/
theorem vetted_of_all (fuel : Nat) (n : Node) :
    vetted (fun _ _ => true) alarm fuel n = eval fuel n := by
  induction fuel generalizing n with
  | zero => rfl
  | succ fuel ih =>
    have hself : vetted (fun _ _ => true) alarm fuel = eval fuel := funext ih
    unfold vetted eval evalWith vettedForm
    rw [hself, vettedCapability_of_all]
    by_cases hform : n.form? = some .call
    · rw [if_pos hform]
      unfold evalForm
      rw [hform]
    · rw [if_neg hform]

/-- The machine runs nothing in the evaluation that is not admitted at its level. -/
def RunsOnly (admits : Nat → Node → Bool) (fuel : Nat) (n : Node) (t : Activation σ) : Prop :=
  ∀ alarm, vetted admits alarm fuel n t = eval fuel n t

end Equalities

/-! ## 2. What vetted evaluation is made of -/

namespace Compositional

variable [Host σ] (C : Compositional σ ι) {admits : ι → Nat → Node → Bool}
  {alarm : ι → Eval σ Value} {self : ι → Node → Eval σ Value}
  (hself : ∀ n, C.Holds fun i => self i n)
include hself

theorem vettedMeta {call : ι → String → List Value → Eval σ Value} {steps : ι → Nat} {level : Nat}
    {target : String} {args : List Value}
    (hrun : ∀ bytecode entry callArgs, target = "sys.vm_run" → C.Holds fun i =>
      vettedRun (admits i) (alarm i) level (call i) (steps i) bytecode entry callArgs) :
    C.Holds fun i =>
      Eval.vettedMeta (admits i) (alarm i) (self i) (call i) (steps i) level target args := by
  unfold Eval.vettedMeta
  split
  · exact hrun _ _ _ rfl
  · next hother =>
    refine C.serveMeta hself fun bytecode entry callArgs htarget hargs => ?_
    exact absurd hargs (hother bytecode entry callArgs htarget)

theorem vettedForm {steps : ι → Nat} (n : Node)
    (hcapability : ∀ target args, C.Holds fun i =>
      vettedCapability (admits i) (alarm i) (self i) (steps i) (steps i) 0 target args) :
    C.Holds fun i => Eval.vettedForm (admits i) (alarm i) (self i) (steps i) n := by
  unfold Eval.vettedForm
  by_cases hform : n.form? = some .call
  · simp only [if_pos hform]
    exact C.evalCall hself hcapability n
  · simp only [if_neg hform]
    exact C.evalForm hself hform

end Compositional

end Eval

end Arbor
