import Arbor.Proofs.Evaluation.Imports

/-!
# Properties that evaluation is made of

A property of steps is often wanted of all that evaluation does: that a step ends, or that it does
the same under other circumstances. `Compositional` lists what is needed of the primitive steps, and
of the ways in which steps are put together. What evaluation makes of nodes, calls, imports and
forms then has the property as soon as the evaluation of nodes inside has it.

The property is one of families of steps: one step for each value of a parameter, such as the bound
on the evaluation, or which one of two evaluations it is.
-/

namespace Arbor

variable {σ ι α β : Type}

/-! ## 1. The session apart from its oversight -/

/-- What limits a run and what observes it. -/
structure Oversight where
  readOnly : List String
  strict : Bool
  maxDepth : Nat
  trace : Bool
  traceSteps : Array Node
  recorder? : Option Recorder

def Session.oversight (s : Session σ) : Oversight :=
  ⟨s.readOnly, s.strict, s.maxDepth, s.trace, s.traceSteps, s.recorder?⟩

/-- The session with another oversight. -/
def Session.under (s : Session σ) (o : Oversight) : Session σ :=
  { s with
    readOnly := o.readOnly, strict := o.strict, maxDepth := o.maxDepth
    trace := o.trace, traceSteps := o.traceSteps, recorder? := o.recorder? }

def Activation.under (t : Activation σ) (o : Oversight) : Activation σ :=
  { t with session := t.session.under o }

/-- What is looked at is not the oversight. -/
def Session.Blind (view : Session σ → β) : Prop := ∀ s o, view (s.under o) = view s

namespace Eval

/-! ## 2. What is needed of primitive steps -/

/-- Goes on unless the session keeps the name from being bound. -/
def checkWritable (name : String) (n : Node) : Eval σ Unit := fun t =>
  if t.session.readOnly.contains name then (.halted (.fault (.readOnlyBinding name n.id)), t)
  else (.value (), t)

/-- A property of families of steps, with what makes it one that evaluation is made of. -/
structure Compositional (σ ι : Type) [Host σ] where
  Holds {α : Type} : (ι → Eval σ α) → Prop
  /-- The permissions that may be held. -/
  Granted : String → Prop
  pure {α : Type} (a : α) : Holds fun _ => (Pure.pure a : Eval σ α)
  fault {α : Type} (f : Fault) : Holds fun _ => (Eval.fault f : Eval σ α)
  unwind {α : Type} (v : Value) : Holds fun _ => (Eval.unwind v : Eval σ α)
  bind {α β : Type} {step : ι → Eval σ α} {f : ι → α → Eval σ β} : Holds step →
    (∀ a, Holds fun i => f i a) → Holds fun i => step i >>= f i
  catchReturn {step : ι → Eval σ Value} : Holds step → Holds fun i => Eval.catchReturn (step i)
  look {β : Type} {view : Session σ → β} : Session.Blind view →
    Holds fun _ => (do return view (← getSession) : Eval σ β)
  permitted {α : Type} (permission : String) {yes no : ι → Eval σ α} :
    (Granted permission → Holds yes) → Holds no →
    Holds fun i => do if (← getSession).hasPermission permission then yes i else no i
  currentEnv : Holds fun _ => (Eval.currentEnv : Eval σ Env)
  newSerial : Holds fun _ => (Eval.newSerial : Eval σ Nat)
  mapEnv (f : Env → Env) : Holds fun _ => (fun t => (.value (), t.mapEnv f) : Eval σ Unit)
  addExport (name : String) (v : Value) : Holds fun _ => (Eval.addExport name v : Eval σ Unit)
  recordCall (target : String) (args : List Value) (v : Value) (phase : CallPhase) :
    Holds fun _ => modifySession fun s : Session σ => s.recordCall target args v phase
  noteStep (n : Node) : Holds fun _ => (Eval.noteStep n : Eval σ Unit)
  known (n : Node) (v : Value) : Holds fun _ => (Eval.known n v : Eval σ Value)
  checkWritable (name : String) (n : Node) :
    Holds fun _ => (Eval.checkWritable name n : Eval σ Unit)
  ask (call : HostCall) : Holds fun _ => (Eval.ask call : Eval σ _)
  serveHost (target : String) (args : List Value) :
    Holds fun _ => (Eval.serveHost target args : Eval σ _)
  inCall (function : String) (env : Env) {step : ι → Eval σ Value} : Holds step →
    Holds fun i => between (·.enterCall function env) (·.leaveCall) (step i)
  runNested {self : ι → Node → Eval σ Value} {n : Node} : Holds (fun i => self i n) →
    Holds fun i => Eval.runNested (self i) n
  load (path : String) {self : ι → Node → Eval σ Value} {program : Node} :
    Holds (fun i => self i program) →
    Holds fun i => runModule (self i) path program >>= settleModule path

namespace Compositional

variable [Host σ] (C : Compositional σ ι)

/-! ## 3. Functions -/

/-- What follows a look at the session may depend on all that is not its oversight. -/
theorem looking {f : ι → Session σ → Eval σ α} (hblind : ∀ i, Session.Blind (f i))
    (hf : ∀ s, C.Holds fun i => f i s) : C.Holds fun i => getSession >>= f i := by
  -- the session under some fixed oversight shows as much, and all the same in every run
  let view (s : Session σ) : Session σ := s.under ⟨[], false, 0, false, #[], none⟩
  have hview : (fun i => getSession >>= f i) =
      fun i => (getSession >>= fun s => Pure.pure (view s)) >>= f i := by
    funext i t
    exact congrFun (hblind i t.session _).symm t
  rw [hview]
  exact C.bind (C.look fun _ _ => rfl) hf

theorem makeClosure (n : Node) (name? : Option String) :
    C.Holds fun _ => (Eval.makeClosure n name? : Eval σ Value) := by
  unfold Eval.makeClosure
  split
  · split
    · exact C.bind C.currentEnv fun env => C.bind C.newSerial fun serial => C.pure _
    · exact C.pure _
  · exact C.pure _

section Nested

variable {self : ι → Node → Eval σ Value} (hself : ∀ n, C.Holds fun i => self i n)
include hself

theorem sequence (last : Value) (ns : List Node) :
    C.Holds fun i => Eval.sequence (self i) last ns := by
  induction ns generalizing last with
  | nil => exact C.pure last
  | cons n ns ih =>
    refine C.bind (hself n) fun v => ?_
    by_cases herr : v.isErr = true
    · simp only [if_pos herr]
      exact C.pure v
    · simp only [if_neg herr]
      exact ih v

theorem operands (ns : List Node) : C.Holds fun i => Eval.operands (self i) ns := by
  induction ns with
  | nil => exact C.pure []
  | cons n ns ih => exact C.bind (hself n) fun v => C.bind ih fun vs => C.pure (v :: vs)

theorem bound (n : Node) (name : String) : C.Holds fun i => Eval.bound (self i) n name := by
  unfold Eval.bound
  by_cases hfn : n.isFn = true
  · simp only [if_pos hfn]
    exact C.bind (C.noteStep n) fun _ => C.bind (C.makeClosure n _) fun v => C.known n v
  · simp only [if_neg hfn]
    exact hself n

theorem callClosure (f : Closure Value) (args : List Value) :
    C.Holds fun i => Eval.callClosure (self i) f args := by
  unfold Eval.callClosure
  by_cases hlength : f.params.length ≠ args.length
  · simp only [if_pos hlength]
    exact C.pure _
  · simp only [if_neg hlength]
    exact C.looking (fun _ _ _ => rfl) fun s => C.catchReturn (C.inCall _ _ (hself f.body))

/-! ## 4. Capabilities -/

/-- Whoever evaluates, a run of the machine is left to the last hypothesis. -/
theorem serveMeta {call : ι → String → List Value → Eval σ Value} {steps : ι → Nat}
    {target : String} {args : List Value}
    (hrun : ∀ bytecode entry callArgs, target = "sys.vm_run" →
      args = [.node bytecode, .str entry, .node callArgs] →
      C.Holds fun i => faultAsValue (runBytecode (call i) (steps i) bytecode entry callArgs)) :
    C.Holds fun i => Eval.serveMeta (self i) (call i) (steps i) target args := by
  unfold Eval.serveMeta
  split
  · exact C.pure _
  · exact C.pure _
  · next n =>
    exact C.looking (fun _ _ _ => rfl) fun s =>
      C.pure (Value.node (validationNode n s.permissions))
  · exact C.pure _
  · exact C.runNested (hself _)
  · exact hrun _ _ _ rfl rfl
  · exact C.pure _

omit hself in
theorem callChecked {serve : ι → String → List Value → Eval σ Value} {target : String}
    {args : List Value}
    (hserve : ∀ contract, Contract.lookup? target = some contract → C.Granted contract.permission →
      C.Holds fun i => serve i target args) :
    C.Holds fun i => Eval.callChecked (serve i) target args := by
  unfold Eval.callChecked
  split
  · exact C.pure _
  · next contract hlookup =>
    have hrefused (target : String) (given : List Value) (phase : CallPhase) :
        C.Holds fun _ => (do
          modifySession fun s => s.recordCall target given .unknown phase
          Pure.pure .unknown : Eval σ Value) :=
      C.bind (C.recordCall target given .unknown phase) fun _ => C.pure _
    simp only [Bool.not_eq_true', ← Bool.not_eq_true, ite_not]
    have hdenied := hrefused contract.target [] .denied
    refine C.permitted contract.permission (fun hgranted => ?_) hdenied
    by_cases hfits :
        (args.any Value.isUnknown || !(contract.check (args.map Value.kind)).isEmpty) = true
    · simp only [if_pos hfits]
      exact hrefused target args .rejected
    · simp only [if_neg hfits]
      by_cases hmeta : contract.isMeta = true
      · simp only [if_pos hmeta]
        exact C.bind (hserve contract hlookup hgranted) fun v =>
          C.bind (C.recordCall target args v .ok) fun _ => C.pure v
      · simp only [if_neg hmeta]
        exact C.serveHost target args

/-! ## 5. Modules -/

omit hself in
theorem resolveModule (path : String) :
    C.Holds fun _ => (Eval.resolveModule path : Eval σ String) := by
  unfold Eval.resolveModule
  refine C.looking (fun _ _ _ => rfl) fun s => C.bind (C.ask _) fun reply => ?_
  split
  · exact C.pure _
  · exact C.pure _

theorem importModule (path importId : String) :
    C.Holds fun i => Eval.importModule (self i) path importId := by
  have hsame : (fun i => Eval.importModule (self i) path importId) = fun i =>
      Eval.getSession >>= fun s => importAs
        (fun program => runModule (self i) path program >>= settleModule path) path importId
        (s.modules.standing path) := by
    funext i t
    exact importModule_eq (self i) path importId t
  rw [hsame]
  refine C.looking (fun _ _ _ => rfl) fun s => ?_
  cases s.modules.standing path with
  | loaded exports => exact C.pure _
  | underWay => exact C.fault _
  | fresh =>
    refine C.bind (C.ask _) fun reply => ?_
    cases reply with
    | error e => exact C.pure _
    | ok text =>
      dsimp only
      cases moduleProgram path text with
      | error e => exact C.pure _
      | ok program => exact C.load path (hself program)

theorem evalImport (n : Node) : C.Holds fun i => Eval.evalImport (self i) n := by
  unfold Eval.evalImport
  split
  · exact C.pure _
  · refine C.bind (C.resolveModule _) fun resolved => ?_
    refine C.bind (C.importModule hself resolved n.id) fun imported => ?_
    cases imported with
    | error e => exact C.pure _
    | ok exports => exact C.bind (C.mapEnv _) fun _ => C.pure _

/-! ## 6. Forms -/

omit hself in
theorem evalBind {bound : ι → Node → String → Eval σ Value}
    (hbound : ∀ n name, C.Holds fun i => bound i n name) (n : Node) :
    C.Holds fun i => Eval.evalBind (bound i) n := by
  unfold Eval.evalBind
  split
  · exact C.pure _
  · next name _ =>
    have hsame {step : Eval σ Value} : (do
        let s ← getSession
        if s.readOnly.contains name then Eval.fault (.readOnlyBinding name n.id) else step) =
        Eval.checkWritable name n >>= fun _ => step := by
      funext t
      show (if t.session.readOnly.contains name then _ else _ : Eval σ Value) t = _
      by_cases hheld : t.session.readOnly.contains name = true
      · have hcheck : Eval.checkWritable name n t =
          (.halted (.fault (.readOnlyBinding name n.id)), t) := if_pos hheld
        rw [if_pos hheld, bind_def, hcheck]
        rfl
      · have hcheck : Eval.checkWritable name n t = (.value (), t) := if_neg hheld
        rw [if_neg hheld, bind_def, hcheck]
    simp only [hsame]
    refine C.bind (C.checkWritable name n) fun _ => ?_
    split
    · exact C.bind (hbound _ name) fun v => C.bind (C.mapEnv _) fun _ => C.pure _
    · exact C.pure _

omit hself in
theorem evalVar (n : Node) : C.Holds fun _ => (Eval.evalVar n : Eval σ Value) := by
  unfold Eval.evalVar
  split
  · exact C.pure _
  · exact C.bind C.currentEnv fun env => C.pure _

theorem evalCall {capability : ι → String → List Value → Eval σ Value}
    (hcapability : ∀ target args, C.Holds fun i => capability i target args) (n : Node) :
    C.Holds fun i => Eval.evalCall (self i) (capability i) (Eval.callClosure (self i)) n := by
  unfold Eval.evalCall
  split
  · exact C.pure _
  · next target _ =>
    split
    · next contract _ =>
      refine C.permitted contract.permission (fun _ => ?_) ?_
      · exact C.bind (C.operands hself _) fun args => hcapability target args
      · exact C.bind (C.recordCall contract.target [] .unknown .denied) fun _ => C.pure _
    · refine C.bind C.currentEnv fun env => ?_
      refine C.looking (fun _ _ _ => rfl) fun s => ?_
      split
      · next f _ => exact C.bind (C.operands hself _) fun args => C.callClosure hself f args
      · exact C.pure _

theorem evalBranch (n : Node) : C.Holds fun i => Eval.evalBranch (self i) n := by
  have hchoose (v : Value) (thenArm : Node) {elseStep : ι → Eval σ Value}
      (helse : C.Holds elseStep) :
      C.Holds fun i => Eval.choose (self i thenArm) (elseStep i) v := by
    unfold Eval.choose
    split
    · exact hself thenArm
    · exact helse
    · exact C.pure _
  unfold Eval.evalBranch
  split
  · exact C.bind (hself _) fun v => hchoose v _ (C.pure _)
  · exact C.bind (hself _) fun v => hchoose v _ (hself _)
  · exact C.pure _

theorem evalLeave (n : Node) : C.Holds fun i => Eval.evalLeave (self i) n := by
  unfold Eval.evalLeave
  split
  · exact C.unwind _
  · exact C.bind (hself _) fun v => C.unwind v

omit hself in
theorem evalExport {bound : ι → Node → String → Eval σ Value}
    (hbound : ∀ n name, C.Holds fun i => bound i n name) (n : Node) :
    C.Holds fun i => Eval.evalExport (bound i) n := by
  unfold Eval.evalExport
  split
  · exact C.pure _
  · next name _ =>
    split
    · exact C.bind C.currentEnv fun env => C.bind (C.addExport name _) fun _ => C.pure _
    · exact C.bind (hbound _ name) fun v => C.bind (C.addExport name v) fun _ => C.pure _
    · exact C.pure _

theorem evalOperator (op : Operator) (n : Node) :
    C.Holds fun i => Eval.evalOperator (self i) op n := by
  unfold Eval.evalOperator
  by_cases hcount : n.children.length ≠ op.arity
  · simp only [if_pos hcount]
    exact C.pure _
  · simp only [if_neg hcount]
    exact C.bind (C.operands hself _) fun args => C.pure _

/-- Every form but a call, which also depends on the way in which capabilities are called. -/
theorem evalForm {steps : ι → Nat} {n : Node} (hform : n.form? ≠ some .call) :
    C.Holds fun i => Eval.evalForm (self i) (steps i) n := by
  unfold Eval.evalForm
  split
  · exact C.sequence hself _ _
  · exact C.sequence hself _ _
  · exact C.evalBind (C.bound hself) n
  · exact C.evalVar n
  · exact C.pure _
  · next hcall => exact absurd hcall hform
  · exact C.makeClosure n none
  · exact C.evalBranch hself n
  · exact C.evalLeave hself n
  · exact C.evalImport hself n
  · exact C.evalExport (C.bound hself) n
  · exact C.evalOperator hself _ n
  · exact C.pure _

end Nested

end Compositional

end Eval

end Arbor
