import Arbor.Proofs.Evaluation.Imports
import Arbor.Proofs.Likeness.Machine
import Arbor.Proofs.Likeness.Sessions

/-!
# Evaluations that are alike

Nodes that are alike evaluate alike in sessions that are alike: `Likeness.eval`, by induction on the
bound of the evaluation. Each part of evaluation has its lemma, under the assumption that nested
evaluations are alike. `Likeness.runMachine` is the same for a program on the machine.
-/

namespace Arbor

namespace Likeness

variable {σ τ α β γ δ : Type} [Host σ] [Host τ] {L : Likeness σ τ}

/-! ## 1. Sequencing -/

theorem pure {r : α → β → Prop} {a : α} {b : β} (h : r a b) :
    L.Steps r (Pure.pure a) (Pure.pure b) :=
  fun _ _ ht => .value h ht

/-- Both steps yield the value `v`. -/
theorem same (v : Value) :
    L.Steps L.Values (Pure.pure v : Eval σ Value) (Pure.pure v : Eval τ Value) := pure rfl

theorem bind {r : α → β → Prop} {q : γ → δ → Prop} {step : Eval σ α} {step' : Eval τ β}
    {f : α → Eval σ γ} {f' : β → Eval τ δ} (hstep : L.Steps r step step')
    (hf : ∀ ⦃a b⦄, r a b → L.Steps q (f a) (f' b)) : L.Steps q (step >>= f) (step' >>= f') := by
  intro t u h
  have hends := hstep h
  rw [Eval.bind_def, Eval.bind_def]
  generalize step t = x at hends ⊢
  generalize step' u = y at hends ⊢
  cases hends with
  | value hab hact => exact hf hab hact
  | returned hv hact => exact .returned hv hact
  | halted hact => exact .halted hact

theorem halt {r : α → β → Prop} (e : Halt) :
    L.Steps r (Eval.halt e : Eval σ α) (Eval.halt e : Eval τ β) := fun _ _ ht => .halted ht

theorem getSession : L.Steps L.Sessions (Eval.getSession : Eval σ _) (Eval.getSession : Eval τ _) :=
  fun _ _ ht => .value ht.session ht

theorem currentEnv : L.Steps L.Envs (Eval.currentEnv : Eval σ _) (Eval.currentEnv : Eval τ _) :=
  fun _ _ ht => .value ht.env ht

theorem newSerial :
    L.Steps (· = ·) (Eval.newSerial : Eval σ _) (Eval.newSerial : Eval τ _) := by
  intro t u ht
  exact .value ht.session.nextSerial
    ⟨{ ht.session with nextSerial := congrArg (· + 1) ht.session.nextSerial }, ht.frames⟩

theorem noteStep {n m : Node} (hn : L.Nodes n m) :
    L.Steps (fun _ _ => True) (Eval.noteStep n : Eval σ _) (Eval.noteStep m : Eval τ _) :=
  fun _ _ ht => .value trivial (ht.noteStep hn)

theorem bindName {v w : Value} (name : String) (hv : L.Values v w) :
    L.Steps (fun _ _ => True) (Eval.bindName name v : Eval σ _) (Eval.bindName name w : Eval τ _) :=
  fun _ _ ht => .value trivial (ht.mapEnv fun h => h.insert hv name)

theorem known {n m : Node} {v w : Value} (hn : L.Nodes n m) (hv : L.Values v w) :
    L.Steps L.Values (Eval.known n v : Eval σ _) (Eval.known m w : Eval τ _) := by
  intro t u ht
  unfold Eval.known
  rw [hv.isUnknown, ht.session.strict, hn.id]
  split
  · exact .halted ht
  · exact .value hv ht

theorem catchReturn {step : Eval σ Value} {step' : Eval τ Value}
    (hstep : L.Steps L.Values step step') :
    L.Steps L.Values (Eval.catchReturn step) (Eval.catchReturn step') := by
  intro t u ht
  have hends := hstep ht
  unfold Eval.catchReturn
  generalize step t = x at hends ⊢
  generalize step' u = y at hends ⊢
  cases hends with
  | value hv hact => exact .value hv hact
  | returned hv hact => exact .value hv hact
  | halted hact => exact .halted hact

theorem between {enter leave : Activation σ → Activation σ} {enter' leave' : Activation τ → Activation τ}
    {step : Eval σ Value} {step' : Eval τ Value} (hstep : L.Steps L.Values step step')
    (henter : ∀ {t u}, L.Activations t u → L.Activations (enter t) (enter' u))
    (hleave : ∀ {t u}, L.Activations t u → L.Activations (leave t) (leave' u)) :
    L.Steps L.Values (Eval.between enter leave step) (Eval.between enter' leave' step') := by
  intro t u ht
  have hends := hstep (henter ht)
  unfold Eval.between
  generalize step (enter t) = x at hends ⊢
  generalize step' (enter' u) = y at hends ⊢
  cases hends with
  | value hv hact => exact .value hv (hleave hact)
  | returned hv hact => exact .returned hv (hleave hact)
  | halted hact => exact .halted (hleave hact)

section Nested

variable {self : Node → Eval σ Value} {self' : Node → Eval τ Value}
  (hself : ∀ {n m}, L.Nodes n m → L.Steps L.Values (self n) (self' m))
include hself

theorem sequence {ns ms : List Node} (hns : List.Forall₂ L.Nodes ns ms) :
    ∀ {v w : Value}, L.Values v w →
      L.Steps L.Values (Eval.sequence self v ns) (Eval.sequence self' w ms) := by
  induction hns with
  | nil => exact fun hv => pure hv
  | cons hn _ ih =>
    intro _ _ _
    refine bind (hself hn) fun _ _ hv => ?_
    rw [hv.isErr]
    split
    · exact pure hv
    · exact ih hv

theorem operands {ns ms : List Node} (hns : List.Forall₂ L.Nodes ns ms) :
    L.Steps L.ValueLists (Eval.operands self ns) (Eval.operands self' ms) := by
  induction hns with
  | nil => exact pure rfl
  | cons hn _ ih =>
    exact bind (hself hn) fun _ _ hv => bind ih fun _ _ hvs => pure (.cons hv hvs)

/-! ## 2. Functions -/

omit hself in
theorem makeClosure {n m : Node} (hn : L.Nodes n m) (name? : Option String) :
    L.Steps L.Values (Eval.makeClosure n name? : Eval σ _) (Eval.makeClosure m name? : Eval τ _) := by
  unfold Eval.makeClosure
  rw [hn.text]
  have hchildren := hn.children
  generalize n.children = ns at hchildren ⊢
  generalize m.children = ms at hchildren ⊢
  cases m.text? "params" with
  | none => exact same _
  | some params =>
    cases hchildren with
    | nil => exact same _
    | cons hbody hrest =>
      cases hrest with
      | cons _ _ => exact same _
      | nil =>
        dsimp only
        rw [hbody.isBlock]
        split
        · refine bind currentEnv fun _ _ henv => bind newSerial fun _ _ hserial => pure ?_
          unfold Values
          rw [Value.mapBodies_fn, Value.mapBodies_fn, henv.entries, hserial, hbody]
        · exact same _

omit hself in
theorem calleeEnv {d e : Env} {f g : Closure Value} {vs ws : List Value} (hde : L.Envs d e)
    (hfg : L.Values (.fn f) (.fn g)) (hvs : L.ValueLists vs ws) :
    L.Envs (Eval.calleeEnv d f vs) (Eval.calleeEnv e g ws) := by
  have hfn := hfg
  unfold Values at hfn
  rw [Value.mapBodies_fn, Value.mapBodies_fn] at hfn
  simp only [Value.fn.injEq, Closure.mk.injEq] at hfn
  obtain ⟨hparams, -, hcaptured, hname, -⟩ := hfn
  unfold Eval.calleeEnv
  rw [hparams, hname]
  -- its own name first, then what it captured, then its arguments
  refine Envs.insertAll (Envs.insertAll ?_ hcaptured) ?_
  · cases g.name? with
    | none => exact hde
    | some name => exact hde.insert hfg name
  · have hzip (l : List Value) : (g.params.zip l).map (fun b => (b.1, b.2.mapBodies L.essence)) =
        g.params.zip (l.map (Value.mapBodies L.essence)) := by
      rw [List.zip_map_right]
      rfl
    rw [hzip, hzip, hvs]

theorem callClosure {f g : Closure Value} {vs ws : List Value} (hfg : L.Values (.fn f) (.fn g))
    (hvs : L.ValueLists vs ws) :
    L.Steps L.Values (Eval.callClosure self f vs) (Eval.callClosure self' g ws) := by
  have hfn := hfg
  unfold Values at hfn
  rw [Value.mapBodies_fn, Value.mapBodies_fn] at hfn
  simp only [Value.fn.injEq, Closure.mk.injEq] at hfn
  obtain ⟨hparams, hbody, -, hname, -⟩ := hfn
  unfold Eval.callClosure
  rw [hparams, hvs.length_eq, hname]
  split
  · exact same _
  · refine bind getSession fun _ _ hs => catchReturn ?_
    exact between (hself hbody) (fun ht => ht.enterCall _ (calleeEnv hs.globals hfg hvs))
      fun ht => ht.leaveCall

theorem bound {n m : Node} (hn : L.Nodes n m) (name : String) :
    L.Steps L.Values (Eval.bound self n name) (Eval.bound self' m name) := by
  unfold Eval.bound
  rw [hn.isFn]
  split
  · exact bind (noteStep hn) fun _ _ _ =>
      bind (makeClosure hn (some name)) fun _ _ hv => known hn hv
  · exact hself hn

/-! ## 3. The machine -/

omit hself in
/-- The runs of the machine end in the same way. -/
inductive Stops : Except (Machine.Stop Halt) Value × Activation σ →
    Except (Machine.Stop Halt) Value × Activation τ → Prop where
  | ok {v w t u} : L.Values v w → L.Activations t u → Stops (.ok v, t) (.ok w, u)
  | error {e t u} : L.Activations t u → Stops (.error e, t) (.error e, u)

section Calls

variable {call : String → List Value → Eval σ Value} {call' : String → List Value → Eval τ Value}
  (hcall : ∀ target vs ws, L.ValueLists vs ws → L.Steps L.Values (call target vs) (call' target ws))

omit hself in
theorem observeNext (p : BytecodeProgram) {m m' : Machine}
    (hm : m.mapBodies L.essence = m'.mapBodies L.essence) {t : Activation σ} {u : Activation τ}
    (ht : L.Activations t u) :
    L.Activations (Machine.observeNext (Eval.machineRunner call) p m t)
      (Machine.observeNext (Eval.machineRunner call') p m' u) := by
  have hfetch := Machine.fetch_alike (p := p) hm
  have hwants : (Eval.machineRunner call).wantsSteps t = (Eval.machineRunner call').wantsSteps u :=
    wantsRecord ht.session
  unfold Machine.observeNext
  rw [hwants]
  split
  -- both machines come to the same instruction, or both to none
  · cases hf : m.fetch p <;> cases hf' : m'.fetch p <;>
      simp only [hf, hf', Machine.Fetched.mapBodies, reduceCtorEq, Machine.Fetched.unknown.injEq,
        Machine.Fetched.instruction.injEq] at hfetch
    · exact ht
    · exact ht
    · exact ht
    · obtain ⟨hframe, rfl, rfl, rfl⟩ := hfetch
      refine ⟨ht.session.record fun r r' hr => recordMachineStep_congr ht.session.globals hr ?_,
        ht.frames⟩
      rw [← Machine.view_mapBodies, ← Machine.view_mapBodies, hm, hframe]
  · exact ht

include hcall

omit hself in
theorem machineCall (target : String) {vs ws : List Value} (hvs : L.ValueLists vs ws)
    {t : Activation σ} {u : Activation τ} (ht : L.Activations t u) :
    (∃ v w t' u', (Eval.machineRunner call).call target vs t = (.ok v, t') ∧
        (Eval.machineRunner call').call target ws u = (.ok w, u') ∧ L.Values v w ∧
          L.Activations t' u') ∨
      ∃ e t' u', (Eval.machineRunner call).call target vs t = (.error e, t') ∧
        (Eval.machineRunner call').call target ws u = (.error e, u') ∧ L.Activations t' u' := by
  have hends := hcall target vs ws hvs ht
  unfold Eval.machineRunner
  dsimp only
  generalize call target vs t = x at hends ⊢
  generalize call' target ws u = y at hends ⊢
  cases hends with
  | value hv hact => exact .inl ⟨_, _, _, _, rfl, rfl, hv, hact⟩
  | returned hv hact => exact .inl ⟨_, _, _, _, rfl, rfl, hv, hact⟩
  | halted hact => exact .inr ⟨_, _, _, rfl, rfl, hact⟩

omit hself in
theorem exec (p : BytecodeProgram) (fuel : Nat) :
    ∀ {m m' : Machine} {t : Activation σ} {u : Activation τ},
      m.mapBodies L.essence = m'.mapBodies L.essence → L.Activations t u →
      Stops (L := L) (Machine.exec (Eval.machineRunner call) p fuel m t)
        (Machine.exec (Eval.machineRunner call') p fuel m' u) := by
  induction fuel with
  | zero => exact fun _ ht => .error ht
  | succ fuel ih =>
    intro m m' t u hm ht
    have hseen : L.Activations (Machine.observeNext (Eval.machineRunner call) p m t)
        (Machine.observeNext (Eval.machineRunner call') p m' u) := observeNext p hm ht
    have hstep := Machine.step_alike (p := p) hm
    unfold Machine.exec
    generalize Machine.observeNext (Eval.machineRunner call) p m t = t at hseen ⊢
    generalize Machine.observeNext (Eval.machineRunner call') p m' u = u at hseen ⊢
    dsimp only
    -- both machines go on, end, fail or call alike, so four of the sixteen cases are left
    cases hs : m.step p <;> cases hs' : m'.step p <;>
      simp only [hs, hs', Machine.Transition.mapBodies, reduceCtorEq,
        Machine.Transition.next.injEq, Machine.Transition.finished.injEq,
        Machine.Transition.failed.injEq, Machine.Transition.calls.injEq] at hstep
    case next.next => exact ih hstep hseen
    case finished.finished => exact .ok hstep hseen
    case failed.failed =>
      rw [hstep]
      exact .error hseen
    case calls.calls target vs m₁ function _ ws m₂ _ =>
      obtain ⟨rfl, hargs, hm₁, rfl⟩ := hstep
      dsimp only
      obtain ⟨v, w, t', u', ht', hu', hv, hact⟩ | ⟨e, t', u', ht', hu', hact⟩ :=
        machineCall hcall target hargs hseen
      · rw [ht', hu']
        have hpush := Machine.push_alike function hm₁ hv
        dsimp only
        cases hp : m₁.push function v <;> cases hp' : m₂.push function w <;>
          simp only [hp, hp', Except.map, reduceCtorEq, Except.error.injEq, Except.ok.injEq] at hpush
        · rw [hpush]
          exact .error hact
        · exact ih hpush hact
      · rw [ht', hu']
        exact .error hact

omit hself in
theorem runMachine (steps : Nat) (p : BytecodeProgram) (entry : String) {vs ws : List Value}
    (hvs : L.ValueLists vs ws) :
    L.Steps L.Values (Eval.runMachine call steps p entry vs)
      (Eval.runMachine call' steps p entry ws) := by
  intro t u ht
  have hstops : Stops (L := L) (Machine.run (Eval.machineRunner call) steps p entry vs t)
      (Machine.run (Eval.machineRunner call') steps p entry ws u) := by
    have hstart := Machine.start_alike (p := p) entry hvs
    unfold Machine.run
    cases hs : Machine.start p entry vs <;> cases hs' : Machine.start p entry ws <;>
      simp only [hs, hs', Except.map, reduceCtorEq, Except.error.injEq, Except.ok.injEq] at hstart
    · rw [hstart]
      exact .error ht
    · exact exec hcall p steps hstart ht
  unfold Eval.runMachine
  generalize Machine.run (Eval.machineRunner call) steps p entry vs t = x at hstops ⊢
  generalize Machine.run (Eval.machineRunner call') steps p entry ws u = y at hstops ⊢
  cases hstops with
  | ok hv hact => exact .value hv hact
  | @error e _ _ hact => cases e <;> exact .halted hact

omit hself in
theorem runBytecode (steps : Nat) (bytecode : Node) (entry : String) (args : Node) :
    L.Steps L.Values (Eval.runBytecode call steps bytecode entry args)
      (Eval.runBytecode call' steps bytecode entry args) := by
  unfold Eval.runBytecode
  split
  · exact runMachine hcall steps _ entry rfl
  · exact halt _

/-! ## 4. Capabilities -/

omit hcall in
theorem runNested {n m : Node} (hn : L.Nodes n m) :
    L.Steps L.Values (Eval.runNested self n) (Eval.runNested self' m) := by
  intro t u ht
  have hends := catchReturn (hself hn) (t := { t with frames := [∅] })
    (u := { u with frames := [∅] }) ⟨ht.session, rfl⟩
  unfold Eval.runNested
  generalize Eval.catchReturn (self n) { t with frames := [∅] } = x at hends ⊢
  generalize Eval.catchReturn (self' m) { u with frames := [∅] } = y at hends ⊢
  cases hends with
  | value hv hact => exact .value hv ⟨hact.session, ht.frames⟩
  | returned hv hact => exact .returned hv ⟨hact.session, ht.frames⟩
  | halted hact => exact .halted ⟨hact.session, ht.frames⟩

omit hself hcall in
theorem faultAsValue {step : Eval σ Value} {step' : Eval τ Value}
    (hstep : L.Steps L.Values step step') :
    L.Steps L.Values (Eval.faultAsValue step) (Eval.faultAsValue step') := by
  intro t u ht
  have hends := hstep ht
  unfold Eval.faultAsValue
  generalize step t = x at hends ⊢
  generalize step' u = y at hends ⊢
  cases hends with
  | value hv hact => exact .value hv hact
  | returned hv hact => exact .returned hv hact
  | @halted e _ _ hact =>
    cases e with
    | fault f => exact .value rfl hact
    | stopped => exact .halted hact
    | outOfFuel => exact .halted hact

theorem serveMeta (steps : Nat) (target : String) (args : List Value) :
    L.Steps L.Values (Eval.serveMeta self call steps target args)
      (Eval.serveMeta self' call' steps target args) := by
  unfold Eval.serveMeta
  split
  · exact same _
  · exact same _
  · refine bind getSession fun s u hs => pure ?_
    rw [hs.permissions, hs.permissions']
    rfl
  · exact same _
  · exact runNested hself rfl
  · exact faultAsValue (runBytecode hcall steps _ _ _)
  · exact same _

end Calls

omit hself in
theorem recordCall {t : Activation σ} {u : Activation τ} (ht : L.Activations t u) (target : String)
    {vs ws : List Value} (hvs : L.ValueLists vs ws) {v w : Value} (hv : L.Values v w)
    (phase : CallPhase) :
    L.Activations { t with session := t.session.recordCall target vs v phase }
      { u with session := u.session.recordCall target ws w phase } := by
  refine ⟨ht.session.record fun r r' hr => ?_, ht.frames⟩
  rw [map_congr hvs (Value.render_mapBodies L.essence), hv.render]
  exact congrArg (Recorder.recordSyscall · target _ _ _) hr

omit hself in
theorem recordedCall (target : String) {vs ws : List Value} (hvs : L.ValueLists vs ws)
    {v w : Value} (hv : L.Values v w) (phase : CallPhase) :
    L.Steps (fun _ _ => True)
      (Eval.modifySession fun s : Session σ => s.recordCall target vs v phase)
      (Eval.modifySession fun s : Session τ => s.recordCall target ws w phase) :=
  fun _ _ ht => .value trivial (recordCall ht target hvs hv phase)

omit hself in
theorem serveHost {target : String} {args : List Value}
    (hallowed : Allowed L.permissions target args) :
    L.Steps L.Values (Eval.serveHost target args : Eval σ Value)
      (Eval.serveHost target args : Eval τ Value) := by
  intro t u ht
  obtain ⟨hanswer, hreplay, hhost⟩ := L.serve ht.session.host t.session.replay? target args hallowed
  unfold Eval.serveHost
  dsimp only
  rw [← ht.session.replay?, ← hanswer]
  have hafter : L.Activations
      { t with session := { t.session with
          host := (Dispatch.invoke t.session.host t.session.replay? target args).host
          replay? := (Dispatch.invoke t.session.host t.session.replay? target args).replay? } }
      { u with session := { u.session with
          host := (Dispatch.invoke u.session.host t.session.replay? target args).host
          replay? := (Dispatch.invoke u.session.host t.session.replay? target args).replay? } } :=
    ⟨{ ht.session with replay? := hreplay, host := hhost }, ht.frames⟩
  cases (Dispatch.invoke t.session.host t.session.replay? target args).answer with
  | given v => exact .value rfl (recordCall hafter target rfl rfl _)
  | refused e => exact .halted (recordCall hafter target rfl rfl _)
  | stopped => exact .halted hafter

omit hself in
theorem deny (contract : Contract) :
    L.Steps (fun _ _ => True) (Eval.deny contract : Eval σ _) (Eval.deny contract : Eval τ _) :=
  recordedCall contract.target rfl rfl _

omit hself in
theorem callChecked {serve : String → List Value → Eval σ Value}
    {serve' : String → List Value → Eval τ Value}
    (hserve : ∀ target args, L.Steps L.Values (serve target args) (serve' target args))
    (target : String) {vs ws : List Value} (hvs : L.ValueLists vs ws) :
    L.Steps L.Values (Eval.callChecked serve target vs) (Eval.callChecked serve' target ws) := by
  unfold Eval.callChecked
  cases hlookup : Contract.lookup? target with
  | none => exact same _
  | some contract =>
    dsimp only
    refine bind getSession fun s u hs => ?_
    have hheld : s.hasPermission contract.permission = u.hasPermission contract.permission := by
      unfold Session.hasPermission
      rw [hs.permissions, hs.permissions']
    -- the checks look at kinds only, and these are the same
    have hunknown : vs.any Value.isUnknown = ws.any Value.isUnknown := by
      have hmap := map_congr hvs (Value.isUnknown_mapBodies L.essence)
      simpa [List.any_map] using congrArg (List.any · id) hmap
    have hkinds : vs.map Value.kind = ws.map Value.kind :=
      map_congr hvs (Value.kind_mapBodies L.essence)
    rw [← hheld, ← hunknown, ← hkinds]
    by_cases hdenied : (!s.hasPermission contract.permission) = true
    · rw [if_pos hdenied, if_pos hdenied]
      exact bind (deny contract) fun _ _ _ => same _
    · rw [if_neg hdenied, if_neg hdenied]
      by_cases hunfit :
          (vs.any Value.isUnknown || !(contract.check (vs.map Value.kind)).isEmpty) = true
      · rw [if_pos hunfit, if_pos hunfit]
        exact bind (recordedCall target hvs rfl _) fun _ _ _ => same _
      · rw [if_neg hunfit, if_neg hunfit]
        obtain ⟨hknown, hfit⟩ := Contract.kinds_eq_of_fit hunfit
        -- The contract leaves no room for a function, so the arguments are the same.
        obtain rfl : vs = ws :=
          Value.eq_of_map_mapBodies_eq hvs (Contract.kind_ne_function_of_fit hlookup hfit)
        by_cases hmeta : contract.isMeta = true
        · rw [if_pos hmeta, if_pos hmeta]
          refine bind (hserve target vs) fun v w hv => ?_
          exact bind (recordedCall target rfl hv _) fun _ _ _ => pure hv
        · rw [if_neg hmeta, if_neg hmeta]
          refine serveHost ⟨⟨contract, hlookup, by simpa using hmeta, ?_, hfit⟩, hknown⟩
          simpa [Session.hasPermission, hs.permissions] using hdenied

theorem callCapability (steps nesting : Nat) (target : String) {vs ws : List Value}
    (hvs : L.ValueLists vs ws) :
    L.Steps L.Values (Eval.callCapability self steps nesting target vs)
      (Eval.callCapability self' steps nesting target ws) := by
  induction nesting generalizing target vs ws with
  | zero => exact callChecked (fun _ _ => halt _) target hvs
  | succ nesting ih =>
    exact callChecked (serveMeta hself (fun target _ _ hvs => ih target hvs) steps) target hvs

/-! ## 5. Modules -/

omit hself in
theorem ask {call : HostCall}
    (hcall : ∀ {a b}, L.hosts a b → (Host.perform call a).1 = (Host.perform call b).1 ∧
      L.hosts (Host.perform call a).2 (Host.perform call b).2) :
    L.Steps (· = ·) (Eval.ask call : Eval σ _) (Eval.ask call : Eval τ _) := by
  intro t u ht
  obtain ⟨hanswer, hhost⟩ := hcall ht.session.host
  unfold Eval.ask
  generalize Host.perform call t.session.host = x at hanswer hhost ⊢
  generalize Host.perform call u.session.host = y at hanswer hhost ⊢
  obtain ⟨answer, a⟩ := x
  obtain ⟨_, b⟩ := y
  obtain rfl := hanswer
  have hafter : L.Activations { t with session := { t.session with host := a } }
      { u with session := { u.session with host := b } } :=
    ⟨{ ht.session with host := hhost }, ht.frames⟩
  cases answer with
  | given reply => exact .value rfl hafter
  | refused e => exact .value rfl hafter
  | stopped => exact .halted hafter

omit hself in
theorem resolveModule (path : String) :
    L.Steps (· = ·) (Eval.resolveModule path : Eval σ _) (Eval.resolveModule path : Eval τ _) := by
  unfold Eval.resolveModule
  refine bind getSession fun s u hs => ?_
  rw [hs.baseDir]
  refine bind (ask fun h => L.resolve h _) fun reply reply' hreply => ?_
  obtain rfl := hreply
  split <;> exact pure rfl

/-- How the runs of a module's program end. -/
inductive Outcomes : Outcome Value → Outcome Value → Prop where
  | value {v w} : L.Values v w → Outcomes (.value v) (.value w)
  | returned {v w} : Outcomes (.returned v) (.returned w)
  | halted {h} : Outcomes (.halted h) (.halted h)

theorem runModule (path : String) (program : Node) :
    L.Steps (fun r r' => Outcomes (L := L) r.1 r'.1 ∧ L.Envs r.2 r'.2)
      (Eval.runModule self path program) (Eval.runModule self' path program) := by
  intro t u ht
  have hends := hself (n := program) (m := program) rfl (ht.enterModule path)
  unfold Eval.runModule
  rw [ht.session.baseDir]
  generalize self program (t.enterModule path) = x at hends ⊢
  generalize self' program (u.enterModule path) = y at hends ⊢
  cases hends with
  | value hv hact => exact .value ⟨.value hv, hact.exports⟩ (hact.leaveModule path _)
  | returned _ hact => exact .value ⟨.returned, hact.exports⟩ (hact.leaveModule path _)
  | halted hact => exact .value ⟨.halted, hact.exports⟩ (hact.leaveModule path _)

/-- What an import comes to. -/
inductive Loaded : Except Node Exports → Except Node Exports → Prop where
  | ok {d e} : L.Envs d e → Loaded (.ok d) (.ok e)
  | error {n} : Loaded (.error n) (.error n)

omit hself in
theorem settleModule (path : String) {r r' : Outcome Value × Exports}
    (hr : Outcomes (L := L) r.1 r'.1 ∧ L.Envs r.2 r'.2) :
    L.Steps (Loaded (L := L)) (Eval.settleModule path r : Eval σ _)
      (Eval.settleModule path r' : Eval τ _) := by
  obtain ⟨o, d⟩ := r
  obtain ⟨o', e⟩ := r'
  obtain ⟨ho, hde⟩ := hr
  have hkeep : L.Steps (Loaded (L := L)) (Eval.keepExports path d : Eval σ _)
      (Eval.keepExports path e : Eval τ _) :=
    fun _ _ ht => .value (.ok hde) (ht.keepExports path hde)
  dsimp only at ho hde
  cases ho with
  | halted => exact halt _
  | returned => exact hkeep
  | @value v w hv =>
    -- an error node that the module ends with is the same on both sides
    obtain rfl | ⟨f, g, rfl, rfl⟩ := hv.eq_or_fn
    · cases v with
      | node n =>
        unfold Eval.settleModule
        dsimp only
        split
        · exact pure (.error (L := L))
        · exact hkeep
      | _ => exact hkeep
    · exact hkeep

omit hself in
/-- What is known of a module. -/
inductive Standings : Standing → Standing → Prop where
  | loaded {d e} : L.Envs d e → Standings (.loaded d) (.loaded e)
  | underWay : Standings .underWay .underWay
  | fresh : Standings .fresh .fresh

omit hself in
theorem standings {s : Session σ} {u : Session τ} (h : L.Sessions s u) (path : String) :
    Standings (L := L) (s.modules.standing path) (u.modules.standing path) := by
  have hfound : (s.modules.cache.find? path).map (Dict.map (Value.mapBodies L.essence)) =
      (u.modules.cache.find? path).map (Dict.map (Value.mapBodies L.essence)) := by
    rw [← Dict.find?_map, h.cache, Dict.find?_map]
  unfold Modules.standing
  rw [h.loading]
  generalize s.modules.cache.find? path = found at hfound ⊢
  generalize u.modules.cache.find? path = found' at hfound ⊢
  -- cached on both sides or on neither
  cases found <;> cases found' <;> simp only [Option.map_some, Option.map_none, reduceCtorEq,
    Option.some.injEq] at hfound
  · dsimp only
    split
    · exact .underWay
    · exact .fresh
  · exact .loaded hfound

omit hself in
theorem importAs {load : Node → Eval σ (Except Node Exports)}
    {load' : Node → Eval τ (Except Node Exports)}
    (hload : ∀ program, L.Steps (Loaded (L := L)) (load program) (load' program))
    (path importId : String) {a b : Standing} (hab : Standings (L := L) a b) :
    L.Steps (Loaded (L := L)) (Eval.importAs load path importId a)
      (Eval.importAs load' path importId b) := by
  cases hab with
  | loaded hde => exact pure (.ok hde)
  | underWay => exact halt _
  | fresh =>
    unfold Eval.importAs
    refine bind (ask fun h => L.read h path) fun reply reply' hreply => ?_
    obtain rfl := hreply
    split
    · exact pure .error
    · split
      · exact pure .error
      · exact hload _

theorem importModule (path importId : String) :
    L.Steps (Loaded (L := L)) (Eval.importModule self path importId)
      (Eval.importModule self' path importId) := by
  intro t u ht
  rw [Eval.importModule_eq, Eval.importModule_eq]
  refine importAs (fun program => ?_) path importId (standings ht.session path) ht
  exact bind (runModule hself path program) fun r r' hr => settleModule path hr

omit hself in
theorem bindExports (ns : String) {d e : Exports} (hde : L.Envs d e) :
    L.Steps (fun _ _ => True) (Eval.bindExports ns d : Eval σ _)
      (Eval.bindExports ns e : Eval τ _) := by
  refine fun t u ht => .value trivial (ht.mapEnv fun {d' e'} h => h.insertAll ?_)
  have hqualify (l : List (String × Value)) :
      (l.map fun b => (ns ++ "." ++ b.1, b.2)).map (fun b => (b.1, b.2.mapBodies L.essence)) =
        (l.map fun b => (b.1, b.2.mapBodies L.essence)).map fun b => (ns ++ "." ++ b.1, b.2) := by
    simp [Function.comp_def]
  exact (hqualify d.entries).trans
    ((congrArg (List.map _) hde.entries).trans (hqualify e.entries).symm)

omit hself in
theorem bindImport (ns : String) {r r' : Except Node Exports} (hr : Loaded (L := L) r r') :
    L.Steps L.Values (Eval.bindImport ns r : Eval σ _) (Eval.bindImport ns r' : Eval τ _) := by
  cases hr with
  | error => exact same _
  | ok hde => exact bind (bindExports _ hde) fun _ _ _ => same _

/-! ## 6. Forms -/

omit hself in
theorem evalBind {bound : Node → String → Eval σ Value} {bound' : Node → String → Eval τ Value}
    (hbound : ∀ {n m}, L.Nodes n m → ∀ name, L.Steps L.Values (bound n name) (bound' m name))
    {n m : Node} (hn : L.Nodes n m) (hform : n.form? = some .bind) :
    L.Steps L.Values (Eval.evalBind bound n) (Eval.evalBind bound' m) := by
  have hchildren := hn.children
  unfold Eval.evalBind
  rw [hn.name (.inl hform), hn.id]
  generalize n.children = ns at hchildren ⊢
  generalize m.children = ms at hchildren ⊢
  cases m.ident? "name" with
  | none => exact same _
  | some name =>
    refine bind getSession fun s u hs => ?_
    rw [hs.readOnly]
    split
    · exact halt _
    · cases hchildren with
      | nil => exact same _
      | cons hchild hrest =>
        cases hrest with
        | nil =>
          exact bind (hbound hchild name) fun v w hv => bind (bindName name hv) fun _ _ _ => same _
        | cons _ _ => exact same _

omit hself in
theorem evalVar {n m : Node} (hn : L.Nodes n m) (hform : n.form? = some .var) :
    L.Steps L.Values (Eval.evalVar n : Eval σ _) (Eval.evalVar m : Eval τ _) := by
  unfold Eval.evalVar
  rw [hn.name (.inr hform)]
  cases m.ident? "name" with
  | none => exact same _
  | some name => exact bind currentEnv fun d e hde => pure (hde.lookup name)

theorem evalCall {capability : String → List Value → Eval σ Value}
    {capability' : String → List Value → Eval τ Value}
    {closure : Closure Value → List Value → Eval σ Value}
    {closure' : Closure Value → List Value → Eval τ Value}
    (hcapability : ∀ target {vs ws}, L.ValueLists vs ws →
      L.Steps L.Values (capability target vs) (capability' target ws))
    (hclosure : ∀ {f g vs ws}, L.Values (.fn f) (.fn g) → L.ValueLists vs ws →
      L.Steps L.Values (closure f vs) (closure' g ws))
    {n m : Node} (hn : L.Nodes n m) (hform : n.form? = some .call) :
    L.Steps L.Values (Eval.evalCall self capability closure n)
      (Eval.evalCall self' capability' closure' m) := by
  unfold Eval.evalCall
  rw [hn.target hform]
  cases m.ident? "target" with
  | none => exact same _
  | some target =>
    dsimp only
    cases Contract.lookup? target with
    | some contract =>
      refine bind getSession fun s u hs => ?_
      have hheld : s.hasPermission contract.permission = u.hasPermission contract.permission := by
        unfold Session.hasPermission
        rw [hs.permissions, hs.permissions']
      rw [hheld]
      split
      · exact bind (operands hself hn.children) fun vs ws hvs => hcapability target hvs
      · exact bind (deny contract) fun _ _ _ => same _
    | none =>
      refine bind currentEnv fun d e hde => bind getSession fun s u hs => ?_
      have hfound : ((d.find? target).or (s.globals.find? target)).map (Value.mapBodies L.essence) =
          ((e.find? target).or (u.globals.find? target)).map (Value.mapBodies L.essence) := by
        rw [Option.map_or, Option.map_or, hde.find?, hs.globals.find?]
      -- the target is bound in both or in neither
      generalize (d.find? target).or (s.globals.find? target) = found at hfound ⊢
      generalize (e.find? target).or (u.globals.find? target) = found' at hfound ⊢
      cases found <;> cases found' <;> simp only [Option.map_some, Option.map_none, reduceCtorEq,
        Option.some.injEq] at hfound
      · exact same _
      · obtain rfl | ⟨f, g, rfl, rfl⟩ := Values.eq_or_fn hfound
        · split
          · exact bind (operands hself hn.children) fun vs ws hvs => hclosure rfl hvs
          · exact same _
        · exact bind (operands hself hn.children) fun vs ws hvs => hclosure hfound hvs

omit hself in
theorem choose {v w : Value} (hv : L.Values v w) {thenStep elseStep : Eval σ Value}
    {thenStep' elseStep' : Eval τ Value} (hthen : L.Steps L.Values thenStep thenStep')
    (helse : L.Steps L.Values elseStep elseStep') :
    L.Steps L.Values (Eval.choose thenStep elseStep v) (Eval.choose thenStep' elseStep' w) := by
  unfold Eval.choose
  obtain rfl | ⟨f, g, rfl, rfl⟩ := hv.eq_or_fn
  · split
    · exact hthen
    · exact helse
    · exact same _
  · exact same _

theorem evalBranch {n m : Node} (hn : L.Nodes n m) :
    L.Steps L.Values (Eval.evalBranch self n) (Eval.evalBranch self' m) := by
  have hchildren := hn.children
  unfold Eval.evalBranch
  generalize n.children = ns at hchildren ⊢
  generalize m.children = ms at hchildren ⊢
  rcases hchildren with _ | ⟨hcondition, _ | ⟨hthen, _ | ⟨helse, _ | ⟨_, _⟩⟩⟩⟩
  · exact same _
  · exact same _
  · exact bind (hself hcondition) fun v w hv => choose hv (hself hthen) (same _)
  · exact bind (hself hcondition) fun v w hv => choose hv (hself hthen) (hself helse)
  · exact same _

theorem evalLeave {n m : Node} (hn : L.Nodes n m) :
    L.Steps L.Values (Eval.evalLeave self n) (Eval.evalLeave self' m) := by
  have hchildren := hn.children
  unfold Eval.evalLeave
  generalize n.children = ns at hchildren ⊢
  generalize m.children = ms at hchildren ⊢
  cases hchildren with
  | nil => exact fun _ _ ht => .returned rfl ht
  | cons hchild _ => exact bind (hself hchild) fun v w hv _ _ ht => .returned hv ht

theorem evalImport {n m : Node} (hn : L.Nodes n m) :
    L.Steps L.Values (Eval.evalImport self n) (Eval.evalImport self' m) := by
  unfold Eval.evalImport
  rw [hn.text, hn.text, hn.id]
  cases m.text? "path" with
  | none => exact same _
  | some path =>
    refine bind (resolveModule path) fun resolved resolved' hresolved => ?_
    obtain rfl := hresolved
    exact bind (importModule hself resolved m.id) fun r r' hr => bindImport _ hr

omit hself in
theorem addExport (name : String) {v w : Value} (hv : L.Values v w) :
    L.Steps (fun _ _ => True) (Eval.addExport name v : Eval σ _) (Eval.addExport name w : Eval τ _) :=
  fun _ _ ht => .value trivial (ht.addExport name hv)

omit hself in
theorem evalExport {bound : Node → String → Eval σ Value} {bound' : Node → String → Eval τ Value}
    (hbound : ∀ {n m}, L.Nodes n m → ∀ name, L.Steps L.Values (bound n name) (bound' m name))
    {n m : Node} (hn : L.Nodes n m) :
    L.Steps L.Values (Eval.evalExport bound n) (Eval.evalExport bound' m) := by
  have hchildren := hn.children
  unfold Eval.evalExport
  rw [hn.text]
  generalize n.children = ns at hchildren ⊢
  generalize m.children = ms at hchildren ⊢
  cases m.text? "name" with
  | none => exact same _
  | some name =>
    cases hchildren with
    | nil =>
      exact bind currentEnv fun d e hde => bind (addExport name (hde.lookup name)) fun _ _ _ => same _
    | cons hchild hrest =>
      cases hrest with
      | nil =>
        exact bind (hbound hchild name) fun v w hv => bind (addExport name hv) fun _ _ _ => same _
      | cons _ _ => exact same _

theorem evalOperator (op : Operator) {n m : Node} (hn : L.Nodes n m) :
    L.Steps L.Values (Eval.evalOperator self op n) (Eval.evalOperator self' op m) := by
  unfold Eval.evalOperator
  rw [hn.children.length_eq]
  split
  · exact same _
  · refine bind (operands hself hn.children) fun vs ws hvs => pure (Values.of_eq ?_)
    rw [← Operator.apply_map_mapBodies L.essence, hvs, Operator.apply_map_mapBodies]

theorem evalForm (steps : Nat) {n m : Node} (hn : L.Nodes n m) :
    L.Steps L.Values (Eval.evalForm self steps n) (Eval.evalForm self' steps m) := by
  unfold Eval.evalForm
  rw [← hn.form]
  cases hform : n.form? with
  | none => exact same _
  | some form =>
    cases form with
    | program => exact sequence hself hn.children rfl
    | block => exact sequence hself hn.children rfl
    | bind => exact evalBind (bound hself) hn hform
    | var => exact evalVar hn hform
    | lit => exact pure (Values.of_eq (hn.literal hform))
    | call =>
      exact evalCall hself (callCapability hself steps steps) (callClosure hself) hn hform
    | fn => exact makeClosure hn none
    | branch => exact evalBranch hself hn
    | leave => exact evalLeave hself hn
    | importModule => exact evalImport hself hn
    | exportName => exact evalExport (bound hself) hn
    | operator op => exact evalOperator hself op hn

omit hself in
theorem entering {n m : Node} (hn : L.Nodes n m) {step : Eval σ Value} {step' : Eval τ Value}
    (hstep : L.Steps L.Values step step') :
    L.Steps L.Values (Eval.entering n step) (Eval.entering m step') := by
  have hdepth : L.Steps (fun _ _ => True) (Eval.checkDepth n : Eval σ _)
      (Eval.checkDepth m : Eval τ _) := by
    intro t u ht
    unfold Eval.checkDepth
    rw [ht.session.maxDepth, ht.session.depth, hn.id]
    dsimp only
    split
    · exact .halted ht
    · exact .value trivial ht
  unfold Eval.entering
  refine bind hdepth fun _ _ _ => bind (noteStep hn) fun _ _ _ => bind ?_ fun v w hv => known hn hv
  exact between hstep (fun ht => ht.deepen) fun ht => ht.surface

theorem evalWith (steps : Nat) {n m : Node} (hn : L.Nodes n m) :
    L.Steps L.Values (Eval.evalWith self steps n) (Eval.evalWith self' steps m) :=
  entering hn (evalForm hself steps hn)

end Nested

/-- Nodes that are alike evaluate alike. -/
theorem eval (fuel : Nat) : ∀ {n m : Node}, L.Nodes n m →
    L.Steps L.Values (Eval.eval fuel n : Eval σ _) (Eval.eval fuel m : Eval τ _) := by
  induction fuel with
  | zero => exact fun _ => halt _
  | succ fuel ih => exact fun hn => evalWith ih fuel hn

end Likeness

end Arbor
