import Arbor.Evaluation.Run
import Arbor.Proofs.Capability.Contract
import Arbor.Proofs.Evaluation.Imports
import Arbor.Proofs.Recorder

/-!
# What every evaluation keeps

A relation between the activation before and the one behind a step is kept by all of evaluation once
the primitive changes keep it: noting a step, binding a name, asking the host, entering and leaving a
call or a module. `Invariant` lists them, and `Invariant.eval` draws the conclusion, by induction on
the bound of the evaluation. It has two parts. `Calm` lists what the parts of evaluation need that bind
nothing, and `Calm.evalForm` draws the conclusion for one form, from what the nodes, calls and imports
inside of it keep. `Offline` lists what those parts need that call no capability. What both of them
need is `Quiet`.
-/

namespace Arbor.Eval

variable {σ α β : Type} {R : Activation σ → Activation σ → Prop}

/-- From `t` on, `R` relates where the step starts to where it ends. -/
def KeepsFrom (R : Activation σ → Activation σ → Prop) (t : Activation σ) (step : Eval σ α) : Prop :=
  R t (step t).2

/-- Wherever the step starts, `R` relates that to where it ends. -/
def Keeps (R : Activation σ → Activation σ → Prop) (step : Eval σ α) : Prop :=
  ∀ t, KeepsFrom R t step

theorem KeepsFrom.of_eq {t u : Activation σ} {step : Eval σ α} {o : Outcome α}
    (h : KeepsFrom R t step) (hstep : step t = (o, u)) : R t u := by
  unfold KeepsFrom at h
  rwa [hstep] at h

/-- What a relation needs for the parts of evaluation that bind nothing and call no capability to keep
it. What is observed of a step leaves the recorded calls alone. -/
structure Quiet [Host σ] (R : Activation σ → Activation σ → Prop) : Prop where
  refl : ∀ t, R t t
  trans : ∀ {t u v}, R t u → R u v → R t v
  note : ∀ t n, R t (t.noteStep n)
  serial : ∀ t k, R t { t with session := { t.session with nextSerial := k } }
  observed : ∀ t f, (∀ r : Recorder, (f r).syscalls = r.syscalls ∧ r.Extends (f r)) →
    R t { t with session := t.session.record f }
  exported : ∀ t name v, R t (t.addExport name v)
  resolve : ∀ t path, R t (ask (.canonicalPath path) t).2
  read : ∀ t path, R t (ask (.moduleText path) t).2

/-- What a relation needs for the parts of evaluation that bind nothing to keep it. -/
structure Calm [Host σ] (R : Activation σ → Activation σ → Prop) : Prop extends Quiet R where
  record : ∀ t f, (∀ r : Recorder, r.Extends (f r)) → R t { t with session := t.session.record f }
  serve : ∀ t target args, Allowed t.session.permissions target args →
    R t (serveHost target args t).2
  observed t f hf := record t f fun r => (hf r).2

/-- What a relation needs for the parts of evaluation that call no capability to keep it. -/
structure Offline [Host σ] (R : Activation σ → Activation σ → Prop) : Prop extends Quiet R where
  assign : ∀ t f, R t (t.mapEnv f)
  nest : ∀ {t u}, R t.deepen u → R t u.surface
  isolate : ∀ {t u}, R { t with frames := [∅] } u → R t { u with frames := t.frames }
  call : ∀ {t u function env}, R (t.enterCall function env) u → R t u.leaveCall
  load : ∀ {t u path}, t.session.modules.loading.contains path = false →
    t.session.modules.cache.find? path = none → R (t.enterModule path) u →
    R t (u.leaveModule path t.session.baseDir) ∧
      ∀ exports, R t ((u.leaveModule path t.session.baseDir).keepExports path exports)

/-- What a relation needs for all of evaluation to keep it. -/
structure Invariant [Host σ] (R : Activation σ → Activation σ → Prop) : Prop
  extends Calm R, Offline R

/-- The runs of the program of a module that is not loaded yet keep the relation. -/
def Calm.KeepsModule (R : Activation σ → Activation σ → Prop) (self : Node → Eval σ Value)
    (path : String) : Prop :=
  ∀ ⦃t⦄ program, t.session.modules.loading.contains path = false →
    t.session.modules.cache.find? path = none →
    KeepsFrom R t (Eval.runModule self path program >>= Eval.settleModule path)

/-! ## Sequencing -/

theorem machineRunner_call_snd (call : String → List Value → Eval σ Value) (target : String)
    (args : List Value) (t : Activation σ) :
    ((machineRunner call).call target args t).2 = (call target args t).2 := by
  unfold machineRunner
  dsimp only
  split <;> simp_all

theorem catchReturn_snd (step : Eval σ Value) (t : Activation σ) :
    (Eval.catchReturn step t).2 = (step t).2 := by
  unfold Eval.catchReturn
  split <;> simp_all

theorem KeepsFrom.catchReturn {step : Eval σ Value} {t : Activation σ} (h : R t (step t).2) :
    KeepsFrom R t (Eval.catchReturn step) := by
  unfold KeepsFrom
  rwa [catchReturn_snd]

namespace Quiet

variable [Host σ] (h : Quiet R)
include h

theorem bindFrom {t : Activation σ} {step : Eval σ α} {f : α → Eval σ β}
    (hstep : KeepsFrom R t step) (hf : ∀ a u, step t = (.value a, u) → KeepsFrom R u (f a)) :
    KeepsFrom R t (step >>= f) := by
  unfold KeepsFrom at hstep ⊢
  rw [bind_def]
  rcases hs : step t with ⟨o, u⟩
  rw [hs] at hstep
  -- a step that comes to no value is the last one
  cases o with
  | value a => exact h.trans hstep (hf a u hs)
  | returned v => exact hstep
  | halted e => exact hstep

theorem pure (a : α) : Keeps R (Pure.pure a : Eval σ α) := fun t => h.refl t

theorem bind {step : Eval σ α} {f : α → Eval σ β} (hstep : Keeps R step)
    (hf : ∀ a, Keeps R (f a)) : Keeps R (step >>= f) :=
  fun t => h.bindFrom (hstep t) fun a u _ => hf a u

theorem halt (e : Halt) : Keeps R (halt e : Eval σ α) := fun t => h.refl t

theorem getSession : Keeps R (Eval.getSession : Eval σ _) := fun t => h.refl t

theorem currentEnv : Keeps R (Eval.currentEnv : Eval σ _) := fun t => h.refl t

theorem newSerial : Keeps R (Eval.newSerial : Eval σ _) := fun t => h.serial t _

theorem noteStep (n : Node) : Keeps R (Eval.noteStep n) := fun t => h.note t n

theorem known (n : Node) (v : Value) : Keeps R (Eval.known n v) := by
  intro t
  unfold KeepsFrom Eval.known
  split <;> exact h.refl t

variable {self : Node → Eval σ Value}

theorem sequence (last : Value) {ns : List Node} (hns : ∀ n ∈ ns, Keeps R (self n)) :
    Keeps R (Eval.sequence self last ns) := by
  induction ns generalizing last with
  | nil => exact h.pure last
  | cons n ns ih =>
    obtain ⟨hn, hns⟩ := List.forall_mem_cons.mp hns
    refine h.bind hn fun v => ?_
    split
    · exact h.pure v
    · exact ih v hns

theorem operands {ns : List Node} (hns : ∀ n ∈ ns, Keeps R (self n)) :
    Keeps R (Eval.operands self ns) := by
  induction ns with
  | nil => exact h.pure []
  | cons n ns ih =>
    obtain ⟨hn, hns⟩ := List.forall_mem_cons.mp hns
    exact h.bind hn fun v => h.bind (ih hns) fun vs => h.pure (v :: vs)

/-! ## Functions -/

theorem makeClosure (n : Node) (name? : Option String) : Keeps R (Eval.makeClosure n name?) := by
  unfold Eval.makeClosure
  split
  · split
    · exact h.bind h.currentEnv fun env => h.bind h.newSerial fun serial => h.pure _
    · exact h.pure _
  · exact h.pure _

theorem bound {n : Node} (hn : Keeps R (self n)) (name : String) :
    Keeps R (Eval.bound self n name) := by
  unfold Eval.bound
  split
  · exact h.bind (h.noteStep n) fun _ =>
      h.bind (h.makeClosure n (some name)) fun v => h.known n v
  · exact hn

/-! ## The machine -/

theorem observeNext (call : String → List Value → Eval σ Value) (p : BytecodeProgram) (m : Machine)
    (t : Activation σ) : R t (Machine.observeNext (machineRunner call) p m t) := by
  unfold Machine.observeNext
  split
  · split
    · exact h.observed t _ fun r => ⟨rfl, r.extends_recordMachineStep _ _⟩
    · exact h.refl t
  · exact h.refl t

theorem exec {call : String → List Value → Eval σ Value}
    (hcall : ∀ target args, Keeps R (call target args))
    (p : BytecodeProgram) (fuel : Nat) (m : Machine) (t : Activation σ) :
    R t (Machine.exec (machineRunner call) p fuel m t).2 := by
  induction fuel generalizing m t with
  | zero => exact h.refl t
  | succ fuel ih =>
    have hseen := h.observeNext call p m t
    unfold Machine.exec
    generalize Machine.observeNext (machineRunner call) p m t = u at hseen ⊢
    dsimp only
    split
    · exact h.trans hseen (ih _ u)
    · exact hseen
    · exact hseen
    · next target args m' function _ =>
      have hc : R t ((machineRunner call).call target args u).2 := by
        rw [machineRunner_call_snd]
        exact h.trans hseen (hcall target args u)
      generalize (machineRunner call).call target args u = reply at hc ⊢
      obtain ⟨r, w⟩ := reply
      cases r with
      | error e => exact hc
      | ok v =>
        dsimp only at hc ⊢
        split
        · exact h.trans hc (ih _ w)
        · exact hc

theorem runMachine {call : String → List Value → Eval σ Value}
    (hcall : ∀ target args, Keeps R (call target args)) (steps : Nat) (p : BytecodeProgram)
    (entry : String) (args : List Value) : Keeps R (Eval.runMachine call steps p entry args) := by
  intro t
  have hrun : R t (Machine.run (machineRunner call) steps p entry args t).2 := by
    unfold Machine.run
    split
    · exact h.exec hcall p steps _ t
    · exact h.refl t
  unfold KeepsFrom Eval.runMachine
  split <;> simp_all

theorem runBytecode {call : String → List Value → Eval σ Value}
    (hcall : ∀ target args, Keeps R (call target args)) (steps : Nat) (bytecode : Node)
    (entry : String) (args : Node) : Keeps R (Eval.runBytecode call steps bytecode entry args) := by
  unfold Eval.runBytecode
  split
  · exact h.runMachine hcall steps _ entry _
  · exact h.halt _

/-! ## Capabilities -/

theorem serveMeta (hnested : ∀ n, Keeps R (Eval.runNested self n))
    {call : String → List Value → Eval σ Value}
    (hcall : ∀ target args, Keeps R (call target args)) (steps : Nat) (target : String)
    (args : List Value) : Keeps R (Eval.serveMeta self call steps target args) := by
  unfold Eval.serveMeta
  split
  · exact h.pure _
  · exact h.pure _
  · exact h.bind h.getSession fun s => h.pure _
  · exact h.pure _
  · exact hnested _
  · next bytecode entry callArgs =>
    intro t
    have hrun := h.runBytecode hcall steps bytecode entry callArgs t
    unfold KeepsFrom at hrun ⊢
    unfold faultAsValue
    split <;> simp_all
  · exact h.pure _

/-! ## Modules -/

theorem resolveModule (path : String) : Keeps R (Eval.resolveModule path) := by
  unfold Eval.resolveModule
  refine h.bind h.getSession fun s => h.bind (fun t => h.resolve t _) fun reply => ?_
  split <;> exact h.pure _

theorem importModule {path : String} (hmodule : Calm.KeepsModule R self path) (importId : String) :
    Keeps R (Eval.importModule self path importId) := by
  intro t
  unfold KeepsFrom
  rw [importModule_eq]
  cases hstanding : t.session.modules.standing path with
  | loaded exports => exact h.refl t
  | underWay => exact h.refl t
  | fresh =>
    obtain ⟨hnew, hidle⟩ := Modules.of_standing_fresh hstanding
    have hsame := modules_ask (.moduleText path) t
    rcases importAs_fresh path importId t with ⟨o, hends⟩ | ⟨program, hloads⟩
    · rw [hends]
      exact h.read t path
    · rw [hloads]
      exact h.trans (h.read t path)
        (hmodule program (by simpa [hsame] using hidle) (by rwa [hsame]))

theorem addExport (name : String) (v : Value) : Keeps R (Eval.addExport name v) :=
  fun t => h.exported t name v

/-- An import keeps what the loading of the module keeps and what the binding of its exports does. -/
theorem evalImport {n : Node} (hmodule : ∀ path, Calm.KeepsModule R self path)
    (hbind : ∀ path exports,
      Keeps R (Eval.bindExports (moduleNamespace path (n.text? "as")) exports)) :
    Keeps R (Eval.evalImport self n) := by
  unfold Eval.evalImport
  split
  · exact h.pure _
  · refine h.bind (h.resolveModule _) fun resolved =>
      h.bind (h.importModule (hmodule resolved) n.id) fun imported => ?_
    unfold Eval.bindImport
    split
    · exact h.pure _
    · exact h.bind (hbind resolved _) fun _ => h.pure _

/-! ## Forms -/

theorem evalBind {bound : Node → String → Eval σ Value} {n : Node}
    (hbound : ∀ c ∈ n.children, ∀ name, Keeps R (bound c name))
    (hname : ∀ name, n.ident? "name" = some name → ∀ v, Keeps R (Eval.bindName name v)) :
    Keeps R (Eval.evalBind bound n) := by
  unfold Eval.evalBind
  split
  · exact h.pure _
  · next name hfound =>
    refine h.bind h.getSession fun s => ?_
    split
    · exact h.halt _
    · split
      · next child hchildren =>
        exact h.bind (hbound child (by simp [hchildren]) name) fun v =>
          h.bind (hname name hfound v) fun _ => h.pure _
      · exact h.pure _

theorem evalVar (n : Node) : Keeps R (Eval.evalVar n) := by
  unfold Eval.evalVar
  split
  · exact h.pure _
  · exact h.bind h.currentEnv fun env => h.pure _

theorem choose {thenStep elseStep : Eval σ Value} (hthen : Keeps R thenStep)
    (helse : Keeps R elseStep) (v : Value) : Keeps R (Eval.choose thenStep elseStep v) := by
  unfold Eval.choose
  split
  · exact hthen
  · exact helse
  · exact h.pure _

theorem evalExport {bound : Node → String → Eval σ Value} {n : Node}
    (hbound : ∀ c ∈ n.children, ∀ name, Keeps R (bound c name)) :
    Keeps R (Eval.evalExport bound n) := by
  unfold Eval.evalExport
  split
  · exact h.pure _
  · next name _ =>
    split
    · exact h.bind h.currentEnv fun env => h.bind (h.addExport name _) fun _ => h.pure _
    · next child hchildren =>
      exact h.bind (hbound child (by simp [hchildren]) name) fun v =>
        h.bind (h.addExport name v) fun _ => h.pure _
    · exact h.pure _

section Children

variable {n : Node} (hself : ∀ c ∈ n.children, Keeps R (self c))
include hself

/-- A call keeps what its arguments keep and the capability or the closure that it is of, and its denial
where the permission is missing. -/
theorem evalCallFrom {capability : String → List Value → Eval σ Value}
    {closure : Closure Value → List Value → Eval σ Value} {t : Activation σ}
    (hdeny : ∀ target contract, n.ident? "target" = some target →
      Contract.lookup? target = some contract →
      t.session.hasPermission contract.permission = false → KeepsFrom R t (Eval.deny contract))
    (hcapability : ∀ target args, Keeps R (capability target args))
    (hclosure : ∀ f args, Keeps R (closure f args)) :
    KeepsFrom R t (Eval.evalCall self capability closure n) := by
  unfold Eval.evalCall
  split
  · exact h.pure _ t
  · next target htarget =>
    split
    · next contract hlookup =>
      refine h.bindFrom (h.getSession t) fun s u hs => ?_
      obtain ⟨rfl, rfl⟩ : t.session = s ∧ t = u := by simpa [Eval.getSession] using hs
      split
      · exact h.bind (h.operands hself) (fun args => hcapability target args) t
      · next hdenied =>
        have hdenied : t.session.hasPermission contract.permission = false := by simpa using hdenied
        exact h.bindFrom (hdeny target contract htarget hlookup hdenied) fun _ u _ => h.pure _ u
    · refine h.bind h.currentEnv (fun env => h.bind h.getSession fun s => ?_) t
      split
      · next f _ => exact h.bind (h.operands hself) fun args => hclosure f args
      · exact h.pure _

theorem evalBranch : Keeps R (Eval.evalBranch self n) := by
  unfold Eval.evalBranch
  split
  · next hchildren =>
    exact h.bind (hself _ (by simp [hchildren])) fun v =>
      h.choose (hself _ (by simp [hchildren])) (h.pure _) v
  · next hchildren =>
    exact h.bind (hself _ (by simp [hchildren])) fun v =>
      h.choose (hself _ (by simp [hchildren])) (hself _ (by simp [hchildren])) v
  · exact h.pure _

theorem evalLeave : Keeps R (Eval.evalLeave self n) := by
  unfold Eval.evalLeave
  split
  · exact fun t => h.refl t
  · next hchildren => exact h.bind (hself _ (by simp [hchildren])) fun v t => h.refl t

theorem evalOperator (op : Operator) : Keeps R (Eval.evalOperator self op n) := by
  unfold Eval.evalOperator
  split
  · exact h.pure _
  · exact h.bind (h.operands hself) fun args => h.pure _

end Children

/-- A form keeps what its children keep, what the call or the import that it may stand for keeps, and
the binding of its name. The body of a `Fn` is not evaluated with it. -/
theorem evalForm (steps : Nat) {n : Node}
    (hself : n.form? ≠ some .fn → ∀ c ∈ n.children, Keeps R (self c))
    (hname : n.form? = some .bind → ∀ name, n.ident? "name" = some name →
      ∀ v, Keeps R (Eval.bindName name v))
    (hcall : n.form? = some .call → Keeps R
      (Eval.evalCall self (Eval.callCapability self steps steps) (Eval.callClosure self) n))
    (himport : n.form? = some .importModule → Keeps R (Eval.evalImport self n)) :
    Keeps R (Eval.evalForm self steps n) := by
  by_cases hfn : n.form? = some .fn
  · unfold Eval.evalForm
    rw [hfn]
    exact h.makeClosure n none
  have hself := hself hfn
  have hbound : ∀ c ∈ n.children, ∀ name, Keeps R (Eval.bound self c name) :=
    fun c hc => h.bound (hself c hc)
  unfold Eval.evalForm
  split
  · exact h.sequence _ hself
  · exact h.sequence _ hself
  · next hform => exact h.evalBind hbound (hname hform)
  · exact h.evalVar n
  · exact h.pure _
  · next hform => exact hcall hform
  · next hform => exact absurd hform hfn
  · exact h.evalBranch hself
  · exact h.evalLeave hself
  · next hform => exact himport hform
  · exact h.evalExport hbound
  · exact h.evalOperator hself _
  · exact h.pure _

/-- Entering a node keeps what the step at it keeps, if the depth makes no difference. -/
theorem entering (hnest : ∀ {t u}, R t.deepen u → R t u.surface) (n : Node) {step : Eval σ Value}
    (hstep : Keeps R step) : Keeps R (Eval.entering n step) := by
  unfold Eval.entering
  refine h.bind (fun t => ?_) fun _ => h.bind (h.noteStep n) fun _ =>
    h.bind (fun t => hnest (hstep _)) fun v => h.known n v
  unfold KeepsFrom checkDepth
  dsimp only
  split <;> exact h.refl t

theorem callClosure {f : Closure Value} {args : List Value} {t : Activation σ}
    (hbody : f.params.length = args.length → R t (self f.body
      (t.enterCall (f.name?.getD "<fn>") (calleeEnv t.session.globals f args))).2.leaveCall) :
    KeepsFrom R t (Eval.callClosure self f args) := by
  unfold Eval.callClosure
  split
  · exact h.refl t
  · next hfit =>
    refine h.bindFrom (h.getSession t) fun s u hs => ?_
    obtain ⟨rfl, rfl⟩ : t.session = s ∧ t = u := by simpa [Eval.getSession] using hs
    exact KeepsFrom.catchReturn (hbody (Decidable.not_not.mp hfit))

end Quiet

/-! ## Calls of capabilities -/

namespace Calm

variable [Host σ] (h : Calm R)
include h

theorem recordedCall (target : String) (args : List Value) (v : Value) (phase : CallPhase) :
    Keeps R (modifySession fun s : Session σ => s.recordCall target args v phase) :=
  fun t => h.record t _ fun r => r.extends_recordSyscall _ _ _ _

theorem callChecked {serve : String → List Value → Eval σ Value}
    (hserve : ∀ target args, Keeps R (serve target args)) (target : String) (args : List Value) :
    Keeps R (Eval.callChecked serve target args) := by
  intro t
  unfold Eval.callChecked
  split
  · exact h.refl t
  · next contract hlookup =>
    refine h.bindFrom (h.getSession t) fun s u hs => ?_
    obtain ⟨rfl, rfl⟩ : t.session = s ∧ t = u := by simpa [Eval.getSession] using hs
    split
    · exact h.bind (h.recordedCall _ _ _ _) (fun _ => h.pure _) t
    · split
      · exact h.bind (h.recordedCall _ _ _ _) (fun _ => h.pure _) t
      · split
        · exact h.bind (hserve target args) (fun v => h.bind (h.recordedCall _ _ _ _) fun _ => h.pure _) t
        · next hheld hfit hhost =>
          obtain ⟨hknown, hkinds⟩ := Contract.kinds_eq_of_fit hfit
          exact h.serve t target args ⟨⟨contract, hlookup, by simpa using hhost,
            by simpa [Session.hasPermission] using hheld, hkinds⟩, hknown⟩

/-- A capability call keeps what the runs of programs that it starts keep. -/
theorem callCapability {self : Node → Eval σ Value}
    (hnested : ∀ n, Keeps R (Eval.runNested self n)) (steps nesting : Nat) (target : String)
    (args : List Value) :
    Keeps R (Eval.callCapability self steps nesting target args) := by
  induction nesting generalizing target args with
  | zero => exact h.callChecked (fun _ _ => h.halt _) target args
  | succ nesting ih => exact h.callChecked (h.serveMeta hnested ih steps) target args

theorem evalCall {self : Node → Eval σ Value} {n : Node}
    (hself : ∀ c ∈ n.children, Keeps R (self c)) {capability : String → List Value → Eval σ Value}
    {closure : Closure Value → List Value → Eval σ Value}
    (hcapability : ∀ target args, Keeps R (capability target args))
    (hclosure : ∀ f args, Keeps R (closure f args)) :
    Keeps R (Eval.evalCall self capability closure n) :=
  fun _ => h.toQuiet.evalCallFrom hself (fun _ _ _ _ _ => h.recordedCall _ _ _ _ _) hcapability
    hclosure

/-- A form keeps what its children keep, what the calls and imports that it may stand for keep, and the
binding of its name. -/
theorem evalForm {self : Node → Eval σ Value} (steps : Nat) {n : Node}
    (hself : n.form? ≠ some .fn → ∀ c ∈ n.children, Keeps R (self c))
    (hname : n.form? = some .bind → ∀ name, n.ident? "name" = some name →
      ∀ v, Keeps R (Eval.bindName name v))
    (hcapability : ∀ target args, Keeps R (Eval.callCapability self steps steps target args))
    (hclosure : ∀ f args, Keeps R (Eval.callClosure self f args))
    (himport : n.form? = some .importModule → Keeps R (Eval.evalImport self n)) :
    Keeps R (Eval.evalForm self steps n) := by
  refine h.toQuiet.evalForm steps hself hname (fun hform => ?_) himport
  have hfn : n.form? ≠ some .fn := by simp [hform]
  exact h.evalCall (hself hfn) hcapability hclosure

end Calm

/-! ## Calls, programs and modules -/

theorem KeepsFrom.runNested {self : Node → Eval σ Value} {n : Node} {t : Activation σ}
    (h : R t { (self n { t with frames := [∅] }).2 with frames := t.frames }) :
    KeepsFrom R t (Eval.runNested self n) := by
  unfold KeepsFrom Eval.runNested
  dsimp only
  rwa [catchReturn_snd]

/-- Settling an import keeps the exports of the module, or changes nothing. -/
theorem settleModule_snd (path : String) (ran : Outcome Value × Exports) (t : Activation σ) :
    (Eval.settleModule path ran t).2 = t ∨
      ∃ exports, (Eval.settleModule path ran t).2 = t.keepExports path exports := by
  unfold Eval.settleModule
  split
  · exact .inl rfl
  · split
    · exact .inl rfl
    · exact .inr ⟨_, rfl⟩
  · exact .inr ⟨_, rfl⟩
  · exact .inr ⟨_, rfl⟩

theorem KeepsFrom.runModule {self : Node → Eval σ Value} {path : String} {program : Node}
    {t : Activation σ}
    (h : R t ((self program (t.enterModule path)).2.leaveModule path t.session.baseDir) ∧
      ∀ exports, R t (((self program (t.enterModule path)).2.leaveModule path
        t.session.baseDir).keepExports path exports)) :
    KeepsFrom R t (Eval.runModule self path program >>= Eval.settleModule path) := by
  unfold KeepsFrom
  rw [bind_def]
  unfold Eval.runModule
  dsimp only
  generalize (self program (t.enterModule path)).2.leaveModule path t.session.baseDir = u at h ⊢
  obtain hu | ⟨exports, hu⟩ := settleModule_snd path
    ((self program (t.enterModule path)).1, (self program (t.enterModule path)).2.exports) u
  · rw [hu]
    exact h.1
  · rw [hu]
    exact h.2 exports

namespace Offline

variable [Host σ] (h : Offline R)
include h

theorem bindName (name : String) (v : Value) : Keeps R (Eval.bindName name v) :=
  fun t => h.assign t fun env => env.insert name v

theorem bindExports (ns : String) (exports : Exports) : Keeps R (Eval.bindExports ns exports) := by
  intro t
  unfold KeepsFrom Eval.bindExports
  dsimp only
  exact h.assign t _

theorem entering (n : Node) {step : Eval σ Value} (hstep : Keeps R step) :
    Keeps R (Eval.entering n step) :=
  h.toQuiet.entering h.nest n hstep

variable {self : Node → Eval σ Value} (hself : ∀ n, Keeps R (self n))
include hself

theorem callClosure (f : Closure Value) (args : List Value) :
    Keeps R (Eval.callClosure self f args) :=
  fun _ => h.toQuiet.callClosure fun _ => h.call (hself f.body _)

theorem runNested (n : Node) : Keeps R (Eval.runNested self n) :=
  fun _ => KeepsFrom.runNested (h.isolate (hself n _))

theorem keepsModule (path : String) : Calm.KeepsModule R self path :=
  fun _ program hidle hnew => KeepsFrom.runModule (h.load hidle hnew (hself program _))

theorem evalImport (n : Node) : Keeps R (Eval.evalImport self n) :=
  h.toQuiet.evalImport (h.keepsModule hself) fun _ _ => h.bindExports _ _

/-- A form keeps what its nodes keep, and the call that it may stand for. -/
theorem evalForm (steps : Nat) (n : Node)
    (hcall : n.form? = some .call → Keeps R
      (Eval.evalCall self (Eval.callCapability self steps steps) (Eval.callClosure self) n)) :
    Keeps R (Eval.evalForm self steps n) :=
  h.toQuiet.evalForm steps (fun _ c _ => hself c) (fun _ name _ v => h.bindName name v) hcall
    fun _ => h.evalImport hself n

end Offline

namespace Invariant

variable [Host σ] (h : Invariant R) {self : Node → Eval σ Value} (hself : ∀ n, Keeps R (self n))
include h

section Nested

include hself

theorem callCapability (steps nesting : Nat) (target : String) (args : List Value) :
    Keeps R (Eval.callCapability self steps nesting target args) :=
  h.toCalm.callCapability (h.runNested hself) steps nesting target args

theorem evalForm (steps : Nat) (n : Node) : Keeps R (Eval.evalForm self steps n) := by
  refine h.toOffline.evalForm hself steps n fun _ => ?_
  exact h.evalCall (fun c _ => hself c) (h.callCapability hself steps steps) (h.callClosure hself)

theorem evalWith (steps : Nat) (n : Node) : Keeps R (Eval.evalWith self steps n) :=
  h.entering n (h.evalForm hself steps n)

end Nested

/-- Evaluation keeps a relation that all the primitive changes keep. -/
theorem eval (fuel : Nat) : ∀ n, Keeps R (Eval.eval fuel n : Eval σ Value) := by
  induction fuel with
  | zero => exact fun n => h.halt _
  | succ fuel ih => exact fun n => h.evalWith ih fuel n

end Invariant

end Arbor.Eval
