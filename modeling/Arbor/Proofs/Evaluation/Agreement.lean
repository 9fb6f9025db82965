import Arbor.Proofs.Evaluation.Invariant

/-!
# Evaluators that agree on some states

Two evaluators that differ only in what they do at some nodes do the same wherever a condition on the
state holds, if they do so at these nodes and both keep up the condition. `Agrees` is that for one
step, and `Agrees.evalForm` carries it from the evaluation of nodes to that of a form which is no
import. The condition has to be one that evaluation between imports does not touch (`Steady`).
-/

namespace Arbor.Eval

variable {σ α β : Type} {S : Activation σ → Prop}

/-- In the states of `S` the second step does the same as the first one, which leads to such a
state. -/
def Agrees (S : Activation σ → Prop) (step step' : Eval σ α) : Prop :=
  ∀ t, S t → step' t = step t ∧ S (step t).2

/-- A condition on the modules and the host of a session that holds on whatever the host is asked and
whatever is exported. -/
structure Steady [Host σ] (S : Activation σ → Prop) : Prop where
  of_eq : ∀ {t u}, S t → u.session.modules = t.session.modules → u.session.host = t.session.host → S u
  exported : ∀ {t} name v, S t → S (t.addExport name v)
  asked : ∀ {t} call, S t → S (ask call t).2
  served : ∀ {t} target args, S t → S (serveHost target args t).2

namespace Steady

variable [Host σ] (h : Steady S)
include h

theorem calm : Calm fun t u => S t → S u where
  refl _ ht := ht
  trans h h' ht := h' (h ht)
  note _ _ ht := h.of_eq ht rfl rfl
  serial _ _ ht := h.of_eq ht rfl rfl
  record _ _ _ ht := h.of_eq ht rfl rfl
  exported _ name v := h.exported name v
  resolve _ _ := h.asked _
  read _ _ := h.asked _
  serve _ target args _ := h.served target args

theorem mapEnv {t : Activation σ} (ht : S t) (f : Env → Env) : S (t.mapEnv f) := by
  unfold Activation.mapEnv
  split
  · exact h.of_eq ht rfl rfl
  · exact h.of_eq ht rfl rfl

end Steady

namespace Agrees

/-! ## 1. Sequencing -/

theorem of_keeps {step : Eval σ α} (h : Keeps (fun t u => S t → S u) step) : Agrees S step step :=
  fun t ht => ⟨rfl, h t ht⟩

theorem pure (a : α) : Agrees S (Pure.pure a : Eval σ α) (Pure.pure a) := fun _ ht => ⟨rfl, ht⟩

theorem halt (e : Halt) : Agrees S (Eval.halt e : Eval σ α) (Eval.halt e) := fun _ ht => ⟨rfl, ht⟩

theorem getSession : Agrees S (Eval.getSession : Eval σ (Session σ)) Eval.getSession :=
  fun _ ht => ⟨rfl, ht⟩

theorem currentEnv : Agrees S (Eval.currentEnv : Eval σ Env) Eval.currentEnv :=
  fun _ ht => ⟨rfl, ht⟩

theorem bind {step step' : Eval σ α} {f f' : α → Eval σ β} (hstep : Agrees S step step')
    (hf : ∀ a, Agrees S (f a) (f' a)) : Agrees S (step >>= f) (step' >>= f') := by
  intro t ht
  obtain ⟨hsame, hbehind⟩ := hstep t ht
  rw [bind_def, bind_def, hsame]
  generalize step t = x at hbehind
  obtain ⟨o, u⟩ := x
  cases o with
  | value a => exact hf a u hbehind
  | returned v => exact ⟨rfl, hbehind⟩
  | halted e => exact ⟨rfl, hbehind⟩

theorem catchReturn {step step' : Eval σ Value} (h : Agrees S step step') :
    Agrees S (Eval.catchReturn step) (Eval.catchReturn step') := by
  intro t ht
  obtain ⟨hsame, hbehind⟩ := h t ht
  rw [catchReturn_snd]
  refine ⟨?_, hbehind⟩
  unfold Eval.catchReturn
  rw [hsame]

theorem between {enter leave : Activation σ → Activation σ} {step step' : Eval σ α}
    {S' : Activation σ → Prop} (henter : ∀ {t}, S t → S' (enter t)) (hstep : Agrees S' step step')
    (hleave : ∀ {t}, S' t → S (leave t)) :
    Agrees S (Eval.between enter leave step) (Eval.between enter leave step') := by
  intro t ht
  obtain ⟨hsame, hbehind⟩ := hstep (enter t) (henter ht)
  unfold Eval.between
  rw [hsame]
  exact ⟨rfl, hleave hbehind⟩

variable [Host σ] {self self' : Node → Eval σ Value}

omit [Host σ] in
theorem sequence (last : Value) {ns : List Node} (hns : ∀ n ∈ ns, Agrees S (self n) (self' n)) :
    Agrees S (Eval.sequence self last ns) (Eval.sequence self' last ns) := by
  induction ns generalizing last with
  | nil => exact pure last
  | cons n ns ih =>
    obtain ⟨hn, hns⟩ := List.forall_mem_cons.mp hns
    refine hn.bind fun v => ?_
    split
    · exact pure v
    · exact ih v hns

omit [Host σ] in
theorem operands {ns : List Node} (hns : ∀ n ∈ ns, Agrees S (self n) (self' n)) :
    Agrees S (Eval.operands self ns) (Eval.operands self' ns) := by
  induction ns with
  | nil => exact pure []
  | cons n ns ih =>
    obtain ⟨hn, hns⟩ := List.forall_mem_cons.mp hns
    exact hn.bind fun v => (ih hns).bind fun vs => pure (v :: vs)

theorem bound (h : Calm fun t u => S t → S u) {n : Node} (hn : Agrees S (self n) (self' n))
    (name : String) : Agrees S (Eval.bound self n name) (Eval.bound self' n name) := by
  unfold Eval.bound
  split
  · exact (of_keeps (h.noteStep n)).bind fun _ =>
      (of_keeps (h.makeClosure n (some name))).bind fun v => of_keeps (h.known n v)
  · exact hn

variable (h : Steady S) (hself : ∀ n, Agrees S (self n) (self' n))

section Nested

include h hself

theorem callClosure (f : Closure Value) (args : List Value) :
    Agrees S (Eval.callClosure self f args) (Eval.callClosure self' f args) := by
  unfold Eval.callClosure
  split
  · exact pure _
  · exact getSession.bind fun s => catchReturn <|
      between (fun ht => h.of_eq ht rfl rfl) (hself f.body) fun ht => h.of_eq ht rfl rfl

theorem runNested (n : Node) : Agrees S (Eval.runNested self n) (Eval.runNested self' n) := by
  intro t ht
  obtain ⟨hsame, hbehind⟩ := (hself n).catchReturn { t with frames := [∅] } (h.of_eq ht rfl rfl)
  unfold Eval.runNested
  rw [hsame]
  exact ⟨rfl, h.of_eq hbehind rfl rfl⟩

end Nested

/-! ## 2. Capabilities -/

section Calls

variable {call call' : String → List Value → Eval σ Value}
  (hcall : ∀ target args, Agrees S (call target args) (call' target args))
include h hcall

theorem exec (p : BytecodeProgram) (fuel : Nat) (m : Machine) {t : Activation σ} (ht : S t) :
    Machine.exec (machineRunner call') p fuel m t = Machine.exec (machineRunner call) p fuel m t := by
  induction fuel generalizing m t with
  | zero => rfl
  | succ fuel ih =>
    have hseen := h.calm.observeNext call p m t ht
    -- what is observed does not depend on who answers the calls
    have hobserve : Machine.observeNext (machineRunner call') p m t =
        Machine.observeNext (machineRunner call) p m t := rfl
    unfold Machine.exec
    rw [hobserve]
    generalize Machine.observeNext (machineRunner call) p m t = u at hseen
    dsimp only
    cases m.step p with
    | next m => exact ih m hseen
    | finished v => rfl
    | failed e => rfl
    | calls target args m function =>
      obtain ⟨hsame, hbehind⟩ := hcall target args u hseen
      have hanswer : (machineRunner call').call target args u =
          (machineRunner call).call target args u := by
        unfold machineRunner
        dsimp only
        rw [hsame]
      have hafter : S ((machineRunner call).call target args u).2 := by
        rw [machineRunner_call_snd]
        exact hbehind
      dsimp only
      rw [hanswer]
      generalize (machineRunner call).call target args u = reply at hafter
      obtain ⟨r, w⟩ := reply
      cases r with
      | error e => rfl
      | ok v =>
        dsimp only
        split
        · exact ih _ hafter
        · rfl

theorem runMachine (steps : Nat) (p : BytecodeProgram) (entry : String) (args : List Value) :
    Agrees S (Eval.runMachine call steps p entry args) (Eval.runMachine call' steps p entry args) := by
  intro t ht
  refine ⟨?_, h.calm.runMachine (fun target args t ht => (hcall target args t ht).2) steps p entry
    args t ht⟩
  have hrun : Machine.run (machineRunner call') steps p entry args t =
      Machine.run (machineRunner call) steps p entry args t := by
    unfold Machine.run
    split
    · exact exec h hcall p steps _ ht
    · rfl
  unfold Eval.runMachine
  rw [hrun]

theorem runBytecode (steps : Nat) (bytecode : Node) (entry : String) (args : Node) :
    Agrees S (Eval.runBytecode call steps bytecode entry args)
      (Eval.runBytecode call' steps bytecode entry args) := by
  unfold Eval.runBytecode
  split
  · exact runMachine h hcall steps _ entry _
  · exact halt _

include hself

theorem serveMeta (steps : Nat) (target : String) (args : List Value) :
    Agrees S (Eval.serveMeta self call steps target args)
      (Eval.serveMeta self' call' steps target args) := by
  unfold Eval.serveMeta
  split
  · exact pure _
  · exact pure _
  · exact getSession.bind fun s => pure _
  · exact pure _
  · exact runNested h hself _
  · next bytecode entry callArgs =>
    intro t ht
    obtain ⟨hsame, hbehind⟩ := runBytecode h hcall steps bytecode entry callArgs t ht
    unfold faultAsValue
    rw [hsame]
    refine ⟨rfl, ?_⟩
    split <;> simp_all
  · exact pure _

end Calls

include h in
theorem callChecked {serve serve' : String → List Value → Eval σ Value}
    (hserve : ∀ target args, Agrees S (serve target args) (serve' target args)) (target : String)
    (args : List Value) :
    Agrees S (Eval.callChecked serve target args) (Eval.callChecked serve' target args) := by
  have hrecorded (args : List Value) (v : Value) (phase : CallPhase) :=
    of_keeps (h.calm.recordedCall target args v phase)
  unfold Eval.callChecked
  split
  · exact pure _
  · refine getSession.bind fun s => ?_
    split
    · exact (of_keeps (h.calm.recordedCall _ _ _ _)).bind fun _ => pure _
    · split
      · exact (hrecorded _ _ _).bind fun _ => pure _
      · split
        · exact (hserve target args).bind fun v => (hrecorded _ _ _).bind fun _ => pure _
        · exact of_keeps fun t => h.served target args

include h hself

theorem callCapability (steps nesting : Nat) (target : String) (args : List Value) :
    Agrees S (Eval.callCapability self steps nesting target args)
      (Eval.callCapability self' steps nesting target args) := by
  induction nesting generalizing target args with
  | zero => exact callChecked h (fun _ _ => halt _) target args
  | succ nesting ih => exact callChecked h (serveMeta h hself ih steps) target args

/-! ## 3. Forms -/

section Children

omit h hself

variable {n : Node} (hchildren : ∀ c ∈ n.children, Agrees S (self c) (self' c))
include hchildren

omit [Host σ] in
theorem evalBranch : Agrees S (Eval.evalBranch self n) (Eval.evalBranch self' n) := by
  have hchoose (v : Value) {thenStep thenStep' elseStep elseStep' : Eval σ Value}
      (hthen : Agrees S thenStep thenStep') (helse : Agrees S elseStep elseStep') :
      Agrees S (Eval.choose thenStep elseStep v) (Eval.choose thenStep' elseStep' v) := by
    unfold Eval.choose
    split
    · exact hthen
    · exact helse
    · exact pure _
  unfold Eval.evalBranch
  split
  · next hc =>
    simp only [hc, List.forall_mem_cons] at hchildren
    obtain ⟨hcondition, hthen, -⟩ := hchildren
    exact hcondition.bind fun v => hchoose v hthen (pure _)
  · next hc =>
    simp only [hc, List.forall_mem_cons] at hchildren
    obtain ⟨hcondition, hthen, helse, -⟩ := hchildren
    exact hcondition.bind fun v => hchoose v hthen helse
  · exact pure _

omit [Host σ] in
theorem evalLeave : Agrees S (Eval.evalLeave self n) (Eval.evalLeave self' n) := by
  unfold Eval.evalLeave
  split
  · exact fun t ht => ⟨rfl, ht⟩
  · next hc =>
    rw [hc, List.forall_mem_cons] at hchildren
    exact hchildren.1.bind fun v t ht => ⟨rfl, ht⟩

omit [Host σ] in
theorem evalOperator (op : Operator) :
    Agrees S (Eval.evalOperator self op n) (Eval.evalOperator self' op n) := by
  unfold Eval.evalOperator
  split
  · exact pure _
  · exact (operands hchildren).bind fun args => pure _

/-- Calls agree if the capabilities and the closures that they may be of do. -/
theorem evalCallOf (h : Calm fun t u => S t → S u)
    {capability capability' : String → List Value → Eval σ Value}
    {closure closure' : Closure Value → List Value → Eval σ Value}
    (hcapability : ∀ target args, Agrees S (capability target args) (capability' target args))
    (hclosure : ∀ f args, Agrees S (closure f args) (closure' f args)) :
    Agrees S (Eval.evalCall self capability closure n)
      (Eval.evalCall self' capability' closure' n) := by
  have hargs := operands hchildren
  unfold Eval.evalCall
  split
  · exact pure _
  · next target _ =>
    split
    · refine getSession.bind fun s => ?_
      split
      · exact hargs.bind fun args => hcapability target args
      · exact (of_keeps (h.recordedCall _ _ _ _)).bind fun _ => pure _
    · refine currentEnv.bind fun env => getSession.bind fun s => ?_
      split
      · next f _ => exact hargs.bind fun args => hclosure f args
      · exact pure _

theorem evalExport (h : Calm fun t u => S t → S u) :
    Agrees S (Eval.evalExport (Eval.bound self) n) (Eval.evalExport (Eval.bound self') n) := by
  unfold Eval.evalExport
  split
  · exact pure _
  · next name _ =>
    have hexported (v : Value) := of_keeps (h.addExport name v)
    split
    · exact currentEnv.bind fun env => (hexported _).bind fun _ => pure _
    · next hc =>
      rw [hc, List.forall_mem_cons] at hchildren
      exact (bound h hchildren.1 name).bind fun v => (hexported v).bind fun _ => pure _
    · exact pure _

omit hchildren in
/-- Evaluators that agree on the nodes below it agree on every form but a `Let`, a `Call` and an
`Import`, if they do on these. -/
theorem evalFormOf (h : Calm fun t u => S t → S u) (steps : Nat)
    (hchildren : n.form? ≠ some .fn → ∀ c ∈ n.children, Agrees S (self c) (self' c))
    (hbind : n.form? = some .bind →
      Agrees S (Eval.evalBind (Eval.bound self) n) (Eval.evalBind (Eval.bound self') n))
    (hcall : n.form? = some .call →
      Agrees S (Eval.evalCall self (Eval.callCapability self steps steps) (Eval.callClosure self) n)
        (Eval.evalCall self' (Eval.callCapability self' steps steps) (Eval.callClosure self') n))
    (himport : n.form? = some .importModule →
      Agrees S (Eval.evalImport self n) (Eval.evalImport self' n)) :
    Agrees S (Eval.evalForm self steps n) (Eval.evalForm self' steps n) := by
  by_cases hfn : n.form? = some .fn
  · unfold Eval.evalForm
    rw [hfn]
    exact of_keeps (h.makeClosure n none)
  have hchildren := hchildren hfn
  unfold Eval.evalForm
  split
  · exact sequence _ hchildren
  · exact sequence _ hchildren
  · next hform => exact hbind hform
  · exact of_keeps (h.evalVar n)
  · exact pure _
  · next hform => exact hcall hform
  · next hform => exact absurd hform hfn
  · exact evalBranch hchildren
  · exact evalLeave hchildren
  · next hform => exact himport hform
  · exact evalExport hchildren h
  · exact evalOperator hchildren _
  · exact pure _

omit hchildren in
/-- Entering a node agrees if the step at it does, and the depth makes no difference. -/
theorem enteringOf (h : Calm fun t u => S t → S u) (hdeepen : ∀ {t}, S t → S t.deepen)
    (hsurface : ∀ {t}, S t → S t.surface) (n : Node) {step step' : Eval σ Value}
    (hstep : Agrees S step step') : Agrees S (Eval.entering n step) (Eval.entering n step') := by
  have hdepth : Keeps (fun t u => S t → S u) (checkDepth n : Eval σ Unit) := by
    intro t ht
    unfold checkDepth
    dsimp only
    split
    · exact ht
    · exact ht
  have hnested : Agrees S (nested step) (nested step') := between hdeepen hstep hsurface
  exact (of_keeps hdepth).bind fun _ => (of_keeps (h.noteStep n)).bind fun _ =>
    hnested.bind fun v => of_keeps (h.known n v)

end Children

theorem evalBind (n : Node) :
    Agrees S (Eval.evalBind (Eval.bound self) n) (Eval.evalBind (Eval.bound self') n) := by
  unfold Eval.evalBind
  split
  · exact pure _
  · next name _ =>
    refine getSession.bind fun s => ?_
    split
    · exact halt _
    · split
      · refine (bound h.calm (hself _) name).bind fun v => bind ?_ fun _ => pure _
        exact of_keeps fun t ht => h.mapEnv ht fun env => env.insert name v
      · exact pure _

theorem evalCall (steps : Nat) (n : Node) :
    Agrees S (Eval.evalCall self (Eval.callCapability self steps steps) (Eval.callClosure self) n)
      (Eval.evalCall self' (Eval.callCapability self' steps steps) (Eval.callClosure self') n) :=
  evalCallOf (fun c _ => hself c) h.calm (callCapability h hself steps steps) (callClosure h hself)

/-- Evaluators that agree on nodes agree on every form but an import, which reads the modules. -/
theorem evalForm (steps : Nat) {n : Node} (hform : n.form? ≠ some .importModule) :
    Agrees S (Eval.evalForm self steps n) (Eval.evalForm self' steps n) :=
  evalFormOf h.calm steps (fun _ c _ => hself c) (fun _ => evalBind h hself n)
    (fun _ => evalCall h hself steps n) fun himport => absurd himport hform

omit hself in
theorem entering (n : Node) {step step' : Eval σ Value} (hstep : Agrees S step step') :
    Agrees S (Eval.entering n step) (Eval.entering n step') :=
  enteringOf h.calm (fun ht => h.of_eq ht rfl rfl) (fun ht => h.of_eq ht rfl rfl) n hstep

end Agrees

end Arbor.Eval
