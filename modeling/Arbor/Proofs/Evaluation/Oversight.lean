import Arbor.Proofs.Evaluation.Runs
import Arbor.Proofs.Evaluation.Stepping
import Arbor.Proofs.Evaluation.Vetting

/-!
# Two runs under different oversight

A `Laxity` says how the oversight of a second run may differ from that of a first one. The limits of
the second may be wider, if it is excused that the first run is cut short at its own. Then the
second run retraces the first one: it does the same in a state that is the same but for the
oversight, unless the first run was cut short (`Laxity.Retraces`). This is a property that
evaluation is made of (`Laxity.rules`), and so it holds of whole evaluations
(`Laxity.Retraces.vetted`).
-/

namespace Arbor

variable {σ α β : Type}

/-! ## 1. Laxities -/

/-- How the oversight of a second run may differ from that of a first one, and in which ways the
first run may be cut short for that. -/
structure Laxity (σ : Type) where
  allows : Oversight → Oversight → Prop
  excuses : Halt → Prop
  note : ∀ {t : Activation σ} {o}, allows t.session.oversight o → ∀ n,
    allows (t.noteStep n).session.oversight ((t.under o).noteStep n).session.oversight
  record : ∀ {s : Session σ} {o}, allows s.oversight o → ∀ f,
    allows (s.record f).oversight ((s.under o).record f).oversight
  readOnly : ∀ {o o'}, allows o o' → o.readOnly = o'.readOnly ∨
    o'.readOnly ⊆ o.readOnly ∧ ∀ name id, excuses (.fault (.readOnlyBinding name id))
  strict : ∀ {o o'}, allows o o' → o.strict = o'.strict ∨
    o'.strict = false ∧ ∀ id, excuses (.fault (.strictUnknown id))
  depth : ∀ {o o'}, allows o o' → o.maxDepth = o'.maxDepth ∨
    o.maxDepth ≤ o'.maxDepth ∧ ∀ limit id, excuses (.fault (.depthExceeded limit id))

/-- The step does not see the oversight, and leaves it alone. -/
def Eval.Unaware (step : Eval σ α) : Prop :=
  ∀ t o, step (t.under o) = ((step t).1, (step t).2.under o)

namespace Laxity

variable (L : Laxity σ)

/-- The first run is cut short, or both end alike. -/
inductive Ends : Outcome α × Activation σ → Outcome α × Activation σ → Prop where
  | cut {h t r} : L.excuses h → Ends (.halted h, t) r
  | same {a t o} : L.allows t.session.oversight o → Ends (a, t) (a, t.under o)

/-- Under any oversight that is allowed, the second step does the same as the first one, unless that
is cut short. -/
def Retraces (step step' : Eval σ α) : Prop :=
  ∀ ⦃t o⦄, L.allows t.session.oversight o → L.Ends (step t) (step' (t.under o))

/-- The second bound on a run is as good as the first one. -/
def Lasts (fuel fuel' : Nat) : Prop := fuel = fuel' ∨ fuel ≤ fuel' ∧ L.excuses .outOfFuel

variable {L} in
theorem Lasts.of_zero {fuel' : Nat} (h : L.Lasts 0 fuel') : fuel' = 0 ∨ L.excuses .outOfFuel := by
  rcases h with heq | ⟨_, hexcused⟩
  · exact .inl heq.symm
  · exact .inr hexcused

variable {L} in
theorem Lasts.of_succ {fuel fuel' : Nat} (h : L.Lasts (fuel + 1) fuel') :
    ∃ rest, fuel' = rest + 1 ∧ L.Lasts fuel rest := by
  rcases h with heq | ⟨hle, hexcused⟩
  · exact ⟨fuel, heq.symm, .inl rfl⟩
  · exact ⟨fuel' - 1, by omega, .inr ⟨by omega, hexcused⟩⟩

namespace Retraces

variable {L}

/-! ## 2. Primitive steps, and how they are put together -/

theorem of_unaware {step : Eval σ α} (h : step.Unaware) : L.Retraces step step := by
  intro t o ho
  have hkept : step t = ((step t).1, (step t).2.under t.session.oversight) :=
    h t t.session.oversight
  have hover : (step t).2.session.oversight = t.session.oversight :=
    congrArg (fun r => r.2.session.oversight) hkept
  rw [h t o]
  exact .same (hover ▸ ho)

theorem pure (a : α) : L.Retraces (Pure.pure a : Eval σ α) (Pure.pure a) := fun _ _ ho => .same ho

theorem halt (h : Halt) : L.Retraces (Eval.halt h : Eval σ α) (Eval.halt h) :=
  fun _ _ ho => .same ho

/-- A step that is cut short is retraced by any step. -/
theorem of_excused {h : Halt} (hexcused : L.excuses h) (step' : Eval σ α) :
    L.Retraces (Eval.halt h) step' := fun _ _ _ => .cut hexcused

theorem unwind (v : Value) : L.Retraces (Eval.unwind v : Eval σ α) (Eval.unwind v) :=
  fun _ _ ho => .same ho

theorem bind {step step' : Eval σ α} {f f' : α → Eval σ β} (hstep : L.Retraces step step')
    (hf : ∀ a, L.Retraces (f a) (f' a)) : L.Retraces (step >>= f) (step' >>= f') := by
  intro t o ho
  have hends := hstep ho
  rw [Eval.bind_def, Eval.bind_def]
  generalize step t = x at hends ⊢
  generalize step' (t.under o) = y at hends ⊢
  cases hends with
  | cut hexcused => exact .cut hexcused
  | @same a _ _ hallowed =>
    cases a with
    | value a => exact hf a hallowed
    | returned v => exact .same hallowed
    | halted h => exact .same hallowed

theorem look {view : Session σ → β} (hview : Session.Blind view) :
    L.Retraces (do return view (← Eval.getSession) : Eval σ β)
      (do return view (← Eval.getSession)) := by
  refine of_unaware fun t o => ?_
  show (Outcome.value (view (t.session.under o)), t.under o) = _
  rw [hview]
  rfl

theorem permitted (permission : String) {yes no yes' no' : Eval σ α} (hyes : L.Retraces yes yes')
    (hno : L.Retraces no no') :
    L.Retraces (do if (← Eval.getSession).hasPermission permission then yes else no)
      (do if (← Eval.getSession).hasPermission permission then yes' else no') := by
  intro t o ho
  show L.Ends ((if t.session.hasPermission permission then yes else no) t)
    ((if t.session.hasPermission permission then yes' else no') (t.under o))
  by_cases hheld : t.session.hasPermission permission = true
  · rw [if_pos hheld, if_pos hheld]
    exact hyes ho
  · rw [if_neg hheld, if_neg hheld]
    exact hno ho

theorem currentEnv : L.Retraces (Eval.currentEnv : Eval σ Env) Eval.currentEnv :=
  of_unaware fun _ _ => rfl

theorem newSerial : L.Retraces (Eval.newSerial : Eval σ Nat) Eval.newSerial :=
  of_unaware fun _ _ => rfl

theorem noteStep (n : Node) : L.Retraces (Eval.noteStep n) (Eval.noteStep n) :=
  fun _ _ ho => .same (L.note ho n)

theorem recorded {f : Session σ → Recorder → Recorder} (hf : ∀ s o, f (s.under o) = f s) :
    L.Retraces (Eval.modifySession fun s => s.record (f s))
      (Eval.modifySession fun s => s.record (f s)) := by
  intro t o ho
  have hrecord := L.record ho (f t.session)
  show L.Ends (.value (), { t with session := t.session.record (f t.session) })
    (.value (), { t.under o with session := (t.session.under o).record (f (t.session.under o)) })
  rw [hf]
  exact .same (t := { t with session := t.session.record (f t.session) }) hrecord

theorem recordedCall (target : String) (args : List Value) (v : Value) (phase : CallPhase) :
    L.Retraces (Eval.modifySession fun s : Session σ => s.recordCall target args v phase)
      (Eval.modifySession fun s => s.recordCall target args v phase) := by
  refine recorded fun _ _ => ?_
  rfl

theorem mapEnv (f : Env → Env) :
    L.Retraces (fun t => (.value (), t.mapEnv f) : Eval σ Unit)
      fun t => (.value (), t.mapEnv f) := by
  refine of_unaware fun t o => ?_
  obtain ⟨s, frames⟩ := t
  cases frames <;> rfl

theorem addExport (name : String) (v : Value) :
    L.Retraces (Eval.addExport name v : Eval σ Unit) (Eval.addExport name v) := by
  refine of_unaware fun t o => ?_
  unfold Eval.addExport Activation.addExport
  have hscopes : (t.under o).session.modules.exportScopes = t.session.modules.exportScopes := rfl
  rw [hscopes]
  cases t.session.modules.exportScopes <;> rfl

theorem ask [Host σ] (call : HostCall) : L.Retraces (Eval.ask call : Eval σ _) (Eval.ask call) := by
  refine of_unaware fun t o => ?_
  unfold Eval.ask
  have hhost : (t.under o).session.host = t.session.host := rfl
  rw [hhost]
  generalize Host.perform call t.session.host = answer
  obtain ⟨a, host⟩ := answer
  cases a <;> rfl

/-- A check fails alike in both runs, or it fails in the first one only and that is excused. -/
theorem check {fails : Activation σ → Prop} [DecidablePred fails] {fault : Activation σ → Fault}
    {a : α} (hlax : ∀ {t o}, L.allows t.session.oversight o →
      ((fails (t.under o) ↔ fails t) ∧ fault (t.under o) = fault t) ∨
        ((fails (t.under o) → fails t) ∧ L.excuses (.fault (fault t)))) :
    L.Retraces (fun t => if fails t then (.halted (.fault (fault t)), t) else (.value a, t))
      (fun t => if fails t then (.halted (.fault (fault t)), t) else (.value a, t)) := by
  intro t o ho
  dsimp only
  by_cases hfails : fails t
  · rw [if_pos hfails]
    rcases hlax ho with ⟨hiff, hfault⟩ | ⟨_, hexcused⟩
    · rw [if_pos (hiff.mpr hfails), hfault]
      exact .same ho
    · exact .cut hexcused
  · have hpasses : ¬fails (t.under o) := by
      rcases hlax ho with ⟨hiff, _⟩ | ⟨hfewer, _⟩
      · rwa [hiff]
      · exact fun h => hfails (hfewer h)
    rw [if_neg hfails, if_neg hpasses]
    exact .same ho

theorem known (n : Node) (v : Value) :
    L.Retraces (Eval.known n v : Eval σ Value) (Eval.known n v) := by
  refine check fun {t o} ho => ?_
  show (((v.isUnknown && o.strict) = true ↔ (v.isUnknown && t.session.strict) = true) ∧ _) ∨
    ((v.isUnknown && o.strict) = true → _) ∧ _
  have hstrict : t.session.strict = o.strict ∨
      o.strict = false ∧ ∀ id, L.excuses (.fault (.strictUnknown id)) := L.strict ho
  rcases hstrict with heq | ⟨hoff, hexcused⟩
  · exact .inl ⟨by rw [heq], rfl⟩
  · exact .inr ⟨fun h => by simp [hoff] at h, hexcused n.id⟩

theorem checkWritable (name : String) (n : Node) :
    L.Retraces (Eval.checkWritable name n : Eval σ Unit) (Eval.checkWritable name n) := by
  refine check fun {t o} ho => ?_
  show ((o.readOnly.contains name = true ↔ t.session.readOnly.contains name = true) ∧ _) ∨
    (o.readOnly.contains name = true → t.session.readOnly.contains name = true) ∧ _
  have hreadOnly : t.session.readOnly = o.readOnly ∨ o.readOnly ⊆ t.session.readOnly ∧
      ∀ name id, L.excuses (.fault (.readOnlyBinding name id)) := L.readOnly ho
  rcases hreadOnly with heq | ⟨hsubset, hexcused⟩
  · exact .inl ⟨by rw [heq], rfl⟩
  · exact .inr ⟨fun h => by simpa using hsubset (by simpa using h), hexcused name n.id⟩

theorem checkDepth (n : Node) :
    L.Retraces (Eval.checkDepth n : Eval σ Unit) (Eval.checkDepth n) := by
  refine check fun {t o} ho => ?_
  show ((o.maxDepth ≤ t.session.depth ↔ t.session.maxDepth ≤ t.session.depth) ∧
      Fault.depthExceeded o.maxDepth n.id = .depthExceeded t.session.maxDepth n.id) ∨
    (o.maxDepth ≤ t.session.depth → t.session.maxDepth ≤ t.session.depth) ∧ _
  have hdepth : t.session.maxDepth = o.maxDepth ∨ t.session.maxDepth ≤ o.maxDepth ∧
      ∀ limit id, L.excuses (.fault (.depthExceeded limit id)) := L.depth ho
  rcases hdepth with heq | ⟨hle, hexcused⟩
  · exact .inl ⟨by rw [heq], by rw [heq]⟩
  · exact .inr ⟨fun h => by omega, hexcused _ _⟩

theorem catchReturn {step step' : Eval σ Value} (hstep : L.Retraces step step') :
    L.Retraces (Eval.catchReturn step) (Eval.catchReturn step') := by
  intro t o ho
  have hends := hstep ho
  unfold Eval.catchReturn
  generalize step t = x at hends ⊢
  generalize step' (t.under o) = y at hends ⊢
  cases hends with
  | cut hexcused => exact .cut hexcused
  | @same a _ _ hallowed => cases a <;> exact .same hallowed

/-- What is entered and left does not see the oversight. -/
theorem between {enter leave : Activation σ → Activation σ} {step step' : Eval σ α}
    (henter : ∀ t o, enter (t.under o) = (enter t).under o)
    (hleave : ∀ t o, leave (t.under o) = (leave t).under o) (hstep : L.Retraces step step') :
    L.Retraces (Eval.between enter leave step) (Eval.between enter leave step') := by
  have hkept {f : Activation σ → Activation σ} (hf : ∀ t o, f (t.under o) = (f t).under o)
      (t : Activation σ) : (f t).session.oversight = t.session.oversight :=
    congrArg (fun u => u.session.oversight) (hf t t.session.oversight)
  intro t o ho
  have hends := hstep (t := enter t) (o := o) (by rwa [hkept henter])
  unfold Eval.between
  rw [henter]
  generalize step (enter t) = x at hends ⊢
  generalize step' ((enter t).under o) = y at hends ⊢
  cases hends with
  | cut hexcused => exact .cut hexcused
  | same hallowed =>
    dsimp only
    rw [hleave]
    exact .same (by rwa [hkept hleave])

theorem nested {step step' : Eval σ Value} (hstep : L.Retraces step step') :
    L.Retraces (Eval.nested step) (Eval.nested step') :=
  between (fun _ _ => rfl) (fun _ _ => rfl) hstep

theorem entering (n : Node) {step step' : Eval σ Value} (hstep : L.Retraces step step') :
    L.Retraces (Eval.entering n step) (Eval.entering n step') :=
  (checkDepth n).bind fun _ => (noteStep n).bind fun _ => hstep.nested.bind fun v => known n v

section Nested

variable {self self' : Node → Eval σ Value}

theorem runNested {n : Node} (hn : L.Retraces (self n) (self' n)) :
    L.Retraces (Eval.runNested self n) (Eval.runNested self' n) := by
  intro t o ho
  have hends := hn.catchReturn (t := { t with frames := [∅] }) (o := o) ho
  unfold Eval.runNested
  generalize Eval.catchReturn (self n) { t with frames := [∅] } = x at hends ⊢
  have hnested : ({ t.under o with frames := [∅] } : Activation σ) =
      Activation.under { t with frames := [∅] } o := rfl
  rw [hnested]
  generalize Eval.catchReturn (self' n) (Activation.under { t with frames := [∅] } o) = y at hends ⊢
  cases hends with
  | cut hexcused => exact .cut hexcused
  | @same a u o hallowed =>
    exact .same (t := { u with frames := t.frames }) hallowed

/-- A program that is cut short cuts short what imports it. -/
theorem runModule (path : String) {program : Node}
    (hprogram : L.Retraces (self program) (self' program)) :
    L.Retraces (Eval.runModule self path program >>= Eval.settleModule path)
      (Eval.runModule self' path program >>= Eval.settleModule path) := by
  have hkeep (exports : Exports) : L.Retraces (Eval.keepExports path exports : Eval σ _)
      (Eval.keepExports path exports) := of_unaware fun _ _ => rfl
  have hsettle (ran : Outcome Value × Exports) : L.Retraces (Eval.settleModule path ran : Eval σ _)
      (Eval.settleModule path ran) := by
    unfold Eval.settleModule
    split
    · exact halt _
    · split
      · exact pure _
      · exact hkeep _
    · exact hkeep _
    · exact hkeep _
  intro t o ho
  have hends := hprogram (t := t.enterModule path) (o := o) ho
  rw [Eval.bind_def, Eval.bind_def]
  unfold Eval.runModule
  dsimp only
  rw [show (t.under o).enterModule path = (t.enterModule path).under o from rfl]
  generalize self program (t.enterModule path) = x at hends ⊢
  generalize self' program ((t.enterModule path).under o) = y at hends ⊢
  cases hends with
  | cut hexcused => exact .cut hexcused
  | @same a u o' hallowed =>
    exact hsettle (a, u.exports) (t := u.leaveModule path t.session.baseDir) hallowed

end Nested

theorem serveHost [Host σ] (target : String) (args : List Value) :
    L.Retraces (Eval.serveHost target args) (Eval.serveHost target args) := by
  intro t o ho
  -- the host and the recorded events are the same for both
  have hsame : Dispatch.invoke (t.under o).session.host (t.under o).session.replay? target args =
      Dispatch.invoke t.session.host t.session.replay? target args := rfl
  unfold Eval.serveHost
  dsimp only
  rw [hsame]
  generalize Dispatch.invoke t.session.host t.session.replay? target args = result
  obtain ⟨answer, host, replay?⟩ := result
  have hasked : L.allows { t.session with host, replay? }.oversight o := ho
  have hrecorded (v : Value) (phase : CallPhase) :=
    L.record hasked fun r => r.recordSyscall target (args.map Value.render) v.render phase.name
  cases answer with
  | given v =>
    exact .same (a := .value v) (t := { t with
      session := { t.session with host, replay? }.recordCall target args v
        (if target == "sys.ui_pollEvent" && t.session.replay?.isSome then .replay else .ok) })
      (hrecorded v _)
  | refused e =>
    exact .same (a := .halted (.fault (.host target e))) (t := { t with
      session := { t.session with host, replay? }.recordCall target args .unknown .failed })
      (hrecorded .unknown .failed)
  | stopped =>
    exact .same (a := .halted .stopped)
      (t := { t with session := { t.session with host, replay? } }) hasked

end Retraces

/-! ## 3. Evaluation -/

/-- Evaluation is made of steps that are retraced if those inside are. -/
def rules [Host σ] : Eval.Compositional σ Bool where
  Holds step := L.Retraces (step false) (step true)
  Granted _ := True
  pure := .pure
  fault _ := .halt _
  unwind := .unwind
  bind := .bind
  catchReturn := .catchReturn
  look := .look
  permitted permission _ _ hyes hno := .permitted permission (hyes trivial) hno
  currentEnv := .currentEnv
  newSerial := .newSerial
  mapEnv := .mapEnv
  addExport := .addExport
  recordCall := .recordedCall
  noteStep := .noteStep
  known := .known
  checkWritable := .checkWritable
  ask := .ask
  serveHost := .serveHost
  inCall _ _ _ := .between (fun _ _ => rfl) (fun _ _ => rfl)
  runNested := .runNested
  load path _ _ := .runModule path

namespace Retraces

variable {L}

section Calls

variable {call call' : String → List Value → Eval σ Value}
  (hcall : ∀ target args, L.Retraces (call target args) (call' target args))

theorem observing (p : BytecodeProgram) (m : Machine) :
    L.Retraces (Eval.observing call p m) (Eval.observing call' p m) := by
  have hrecorded := recorded (L := L) (f := fun s => Eval.viewing p m s.globals) fun _ _ => rfl
  intro t o ho
  rw [Eval.observing_eq, Eval.observing_eq]
  exact hrecorded ho

include hcall

theorem stepping (p : BytecodeProgram) {steps steps' : Nat} (hsteps : L.Lasts steps steps')
    (m : Machine) : L.Retraces (Eval.stepping call p steps m) (Eval.stepping call' p steps' m) := by
  induction steps generalizing steps' m with
  | zero =>
    rw [Eval.stepping_zero]
    rcases hsteps.of_zero with rfl | hexcused
    · exact halt _
    · exact of_excused hexcused _
  | succ steps ih =>
    obtain ⟨rest, rfl, hrest⟩ := hsteps.of_succ
    rw [Eval.stepping_succ, Eval.stepping_succ]
    refine (observing p m).bind fun _ => ?_
    unfold Eval.continuing
    cases m.step p with
    | next m => exact ih hrest m
    | finished v => exact pure v
    | failed e => exact halt _
    | calls target args m function =>
      refine (hcall target args).catchReturn.bind fun v => ?_
      unfold Eval.resuming
      cases m.push function v with
      | ok m => exact ih hrest m
      | error e => exact halt _

theorem runMachine {steps steps' : Nat} (hsteps : L.Lasts steps steps') (p : BytecodeProgram)
    (entry : String) (args : List Value) :
    L.Retraces (Eval.runMachine call steps p entry args)
      (Eval.runMachine call' steps' p entry args) := by
  rw [Eval.runMachine_eq, Eval.runMachine_eq]
  cases Machine.start p entry args with
  | ok m => exact stepping hcall p hsteps m
  | error e => exact halt _

theorem runBytecode {steps steps' : Nat} (hsteps : L.Lasts steps steps') (bytecode : Node)
    (entry : String) (args : Node) :
    L.Retraces (Eval.runBytecode call steps bytecode entry args)
      (Eval.runBytecode call' steps' bytecode entry args) := by
  unfold Eval.runBytecode
  split
  · exact runMachine hcall hsteps _ entry _
  · exact halt _

end Calls

/-- A fault inside becomes a value, so none may be excused. -/
theorem faultAsValue {step step' : Eval σ Value} (hfaults : ∀ f, ¬L.excuses (.fault f))
    (hstep : L.Retraces step step') :
    L.Retraces (Eval.faultAsValue step) (Eval.faultAsValue step') := by
  intro t o ho
  have hends := hstep ho
  unfold Eval.faultAsValue
  generalize step t = x at hends ⊢
  generalize step' (t.under o) = y at hends ⊢
  cases hends with
  | @cut h _ _ hexcused =>
    cases h with
    | fault f => exact absurd hexcused (hfaults f)
    | stopped => exact .cut hexcused
    | outOfFuel => exact .cut hexcused
  | @same a _ _ hallowed =>
    cases a with
    | value v => exact .same hallowed
    | returned v => exact .same hallowed
    | halted h => cases h <;> exact .same hallowed

/-- The first and the second one of two, as a family. -/
def both (x y : α) : Bool → α
  | false => x
  | true => y

theorem callChecked [Host σ] {serve serve' : String → List Value → Eval σ Value} {target : String}
    {args : List Value} (hserve : L.Retraces (serve target args) (serve' target args)) :
    L.Retraces (Eval.callChecked serve target args) (Eval.callChecked serve' target args) := by
  show L.rules.Holds fun i => Eval.callChecked (both serve serve' i) target args
  exact L.rules.callChecked fun _ _ _ => hserve

section Vetted

variable [Host σ] {admits admits' : Nat → Node → Bool} {alarm alarm' : Eval σ Value}
  (hrun : ∀ {call call' : String → List Value → Eval σ Value} {steps steps' : Nat},
    (∀ target args, L.Retraces (call target args) (call' target args)) → L.Lasts steps steps' →
    ∀ level bytecode entry callArgs, L.Retraces
      (Eval.vettedRun admits alarm level call steps bytecode entry callArgs)
      (Eval.vettedRun admits' alarm' level call' steps' bytecode entry callArgs))
include hrun

theorem vettedCapability {self self' : Node → Eval σ Value}
    (hself : ∀ n, L.Retraces (self n) (self' n)) {steps steps' : Nat}
    (hsteps : L.Lasts steps steps') {nesting nesting' : Nat} (hnesting : L.Lasts nesting nesting')
    (level : Nat) (target : String) (args : List Value) :
    L.Retraces (Eval.vettedCapability admits alarm self steps nesting level target args)
      (Eval.vettedCapability admits' alarm' self' steps' nesting' level target args) := by
  induction nesting generalizing nesting' level target args with
  | zero =>
    rcases hnesting.of_zero with rfl | hexcused
    · exact callChecked (halt _)
    · -- the second run goes deeper where the first one was cut short
      cases nesting' with
      | zero => exact callChecked (of_excused hexcused _)
      | succ nesting' => exact callChecked (of_excused hexcused _)
  | succ nesting ih =>
    obtain ⟨rest, rfl, hrest⟩ := hnesting.of_succ
    let call := Eval.vettedCapability admits alarm self steps nesting (level + 1)
    let call' := Eval.vettedCapability admits' alarm' self' steps' rest (level + 1)
    refine callChecked ?_
    show L.rules.Holds fun i => Eval.vettedMeta (both admits admits' i) (both alarm alarm' i)
      (both self self' i) (both call call' i) (both steps steps' i) level target args
    have hboth (n : Node) : L.rules.Holds fun i => both self self' i n := hself n
    refine L.rules.vettedMeta hboth fun bytecode entry callArgs _ => ?_
    exact hrun (ih hrest (level + 1)) hsteps level bytecode entry callArgs

/-- A vetted evaluation is retraced if the runs of the machine in it are. -/
theorem vetted {fuel fuel' : Nat} (hfuel : L.Lasts fuel fuel') (n : Node) :
    L.Retraces (Eval.vetted admits alarm fuel n) (Eval.vetted admits' alarm' fuel' n) := by
  induction fuel generalizing fuel' n with
  | zero =>
    rcases hfuel.of_zero with rfl | hexcused
    · exact halt _
    · exact of_excused hexcused _
  | succ fuel ih =>
    obtain ⟨rest, rfl, hrest⟩ := hfuel.of_succ
    let self := Eval.vetted admits alarm fuel
    let self' := Eval.vetted admits' alarm' rest
    have hboth (n : Node) : L.rules.Holds fun i => both self self' i n := ih hrest n
    refine entering n ?_
    show L.rules.Holds fun i => Eval.vettedForm (both admits admits' i) (both alarm alarm' i)
      (both self self' i) (both fuel rest i) n
    exact L.rules.vettedForm hboth n (vettedCapability hrun (ih hrest) hrest hrest 0)

end Vetted

end Retraces

/-! ## 4. Whole runs -/

section Runs

variable {L} [Host σ] (hfaults : ∀ f, ¬L.excuses (.fault f))
include hfaults

omit [Host σ] in
/-- A run of the machine that is admitted is retraced if no fault is excused. -/
theorem retraces_vettedRun {admits admits' : Nat → Node → Bool} {alarm alarm' : Eval σ Value}
    {level : Nat} {bytecode : Node} (hsame : admits level bytecode = admits' level bytecode)
    (halarm : admits level bytecode = false → L.Retraces alarm alarm')
    {call call' : String → List Value → Eval σ Value} {steps steps' : Nat}
    (hcall : ∀ target args, L.Retraces (call target args) (call' target args))
    (hsteps : L.Lasts steps steps') (entry : String) (callArgs : Node) :
    L.Retraces (Eval.vettedRun admits alarm level call steps bytecode entry callArgs)
      (Eval.vettedRun admits' alarm' level call' steps' bytecode entry callArgs) := by
  unfold Eval.vettedRun
  rw [← hsame]
  cases hadmits : admits level bytecode with
  | true => exact (Retraces.runBytecode hcall hsteps bytecode entry callArgs).faultAsValue hfaults
  | false => exact halarm hadmits

/-- Without an excuse for a fault, every run is retraced. -/
theorem retraces_step {fuel fuel' : Nat} (hfuel : L.Lasts fuel fuel') (run : Run) :
    L.Retraces (run.step fuel) (run.step fuel') := by
  have hrun {call call' : String → List Value → Eval σ Value} {steps steps' : Nat}
      (hcall : ∀ target args, L.Retraces (call target args) (call' target args))
      (hsteps : L.Lasts steps steps') (level : Nat) (bytecode : Node) (entry : String)
      (callArgs : Node) :
      L.Retraces (Eval.vettedRun (fun _ _ => true) (Eval.halt .stopped) level call steps bytecode
          entry callArgs)
        (Eval.vettedRun (fun _ _ => true) (Eval.halt .stopped) level call' steps' bytecode entry
          callArgs) :=
    retraces_vettedRun hfaults rfl (fun hrefused => absurd hrefused (by decide)) hcall hsteps
      entry callArgs
  have hself (n : Node) : L.Retraces (Eval.eval fuel n) (Eval.eval fuel' n) := by
    have hvetted := Retraces.vetted hrun hfuel n
    rwa [Eval.vetted_of_all, Eval.vetted_of_all] at hvetted
  have hcall (target : String) (args : List Value) :
      L.Retraces (Eval.callCapability (Eval.eval fuel) fuel fuel target args)
        (Eval.callCapability (Eval.eval fuel') fuel' fuel' target args) := by
    have hvetted := Retraces.vettedCapability hrun hself hfuel hfuel 0 target args
    rwa [Eval.vettedCapability_of_all, Eval.vettedCapability_of_all] at hvetted
  cases run with
  | evaluate n => exact hself n
  | evaluateInFrame n _ => exact hself n
  | callCapability target args => exact hcall target args
  | runProgram p entry args => exact Retraces.runMachine hcall hfuel p entry args
  | runBytecode bytecode entry args => exact Retraces.runBytecode hcall hfuel bytecode entry args

end Runs

/-! ## 5. More fuel -/

/-- Both runs have the same oversight, and the first one may run out of fuel. -/
def ofFuel (σ : Type) : Laxity σ where
  allows o o' := o' = o
  excuses h := h = .outOfFuel
  note := by
    rintro t o rfl n
    rfl
  record := by
    rintro s o rfl f
    rfl
  readOnly h := .inl (by rw [h])
  strict h := .inl (by rw [h])
  depth h := .inl (by rw [h])

/-- Under the same oversight every step retraces itself. -/
theorem Retraces.rfl_ofFuel (step : Eval σ α) : (ofFuel σ).Retraces step step := by
  rintro t o rfl
  show (ofFuel σ).Ends (step t) ((step t).1, (step t).2.under (step t).2.session.oversight)
  exact .same rfl

end Laxity

/-- A vetted evaluation that does not run out of fuel is the same with more. -/
theorem Eval.vetted_stable [Host σ] {admits : Nat → Node → Bool} {alarm : Eval σ Value}
    {fuel fuel' : Nat} (hfuel : fuel ≤ fuel') {n : Node} {t : Activation σ}
    (hdone : (vetted admits alarm fuel n t).1 ≠ .halted .outOfFuel) :
    vetted admits alarm fuel' n t = vetted admits alarm fuel n t := by
  have hlasts : (Laxity.ofFuel σ).Lasts fuel fuel' := .inr ⟨hfuel, rfl⟩
  have hfaults (f : Fault) : ¬(Laxity.ofFuel σ).excuses (.fault f) := by
    rintro ⟨⟩
  have hretraces : (Laxity.ofFuel σ).Retraces (vetted admits alarm fuel n)
      (vetted admits alarm fuel' n) :=
    .vetted (fun hcall hsteps _ _ => Laxity.retraces_vettedRun hfaults rfl
      (fun _ => .rfl_ofFuel alarm) hcall hsteps) hlasts n
  have hends := hretraces (t := t) (o := t.session.oversight) rfl
  rw [show t.under t.session.oversight = t from rfl] at hends
  generalize vetted admits alarm fuel n t = x at hends hdone ⊢
  generalize vetted admits alarm fuel' n t = y at hends ⊢
  cases hends with
  | cut hexcused =>
    subst hexcused
    exact absurd rfl hdone
  | same hallowed =>
    subst hallowed
    rfl

end Arbor
