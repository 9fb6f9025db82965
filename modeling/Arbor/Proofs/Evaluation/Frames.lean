import Arbor.Proofs.Capability.Contract
import Arbor.Proofs.Evaluation.Invariant
import Arbor.Proofs.Likeness.Values
import Mathlib.Logic.Relation

/-!
# What evaluation gives back

Evaluation leaves the frames outside the innermost one as they were, and outside of all calls only the
globals can change (`Eval.restores_eval`). It changes neither the limits of the session nor its
permissions, and the host only by asking it.

A capability other than `compiler.run` and `sys.vm_run` evaluates nothing. What such a call yields,
and what it makes of the host, depends on the host, the recorded events and the permissions alone
(`Eval.callCapability_agree`).
-/

namespace Arbor

variable {σ : Type} [Host σ]

/-! ## 1. What evaluation gives back -/

theorem Session.hasPermission_iff {σ : Type} {s : Session σ} {permission : String} :
    s.hasPermission permission = true ↔ permission ∈ s.permissions :=
  List.contains_iff_mem

namespace Activation

omit [Host σ] in
theorem env_mapEnv (t : Activation σ) (f : Env → Env) : (t.mapEnv f).env = f t.env := by
  obtain ⟨s, frames⟩ := t
  cases frames <;> rfl

omit [Host σ] in
theorem modules_mapEnv (t : Activation σ) (f : Env → Env) :
    (t.mapEnv f).session.modules = t.session.modules := by
  unfold mapEnv
  split <;> rfl

end Activation

/-- The second host is what calls make of the first one. -/
def HostReaches : σ → σ → Prop :=
  Relation.ReflTransGen fun a b => ∃ call : HostCall, (Host.perform call a).2 = b

/-- What is given back between two points: the outer frames, the globals when there are frames, the
limits and the permissions. The host was only asked. -/
structure Restores (t u : Activation σ) : Prop where
  outer : u.frames.tail = t.frames.tail
  framed : u.frames = [] ↔ t.frames = []
  globals : t.frames ≠ [] → u.session.globals = t.session.globals
  permissions : u.session.permissions = t.session.permissions
  readOnly : u.session.readOnly = t.session.readOnly
  strict : u.session.strict = t.session.strict
  maxDepth : u.session.maxDepth = t.session.maxDepth
  depth : u.session.depth = t.session.depth
  host : HostReaches t.session.host u.session.host

namespace Restores

theorem of_eq {t u : Activation σ} (hframes : u.frames = t.frames)
    (hglobals : u.session.globals = t.session.globals)
    (hpermissions : u.session.permissions = t.session.permissions)
    (hreadOnly : u.session.readOnly = t.session.readOnly)
    (hstrict : u.session.strict = t.session.strict)
    (hmaxDepth : u.session.maxDepth = t.session.maxDepth)
    (hdepth : u.session.depth = t.session.depth)
    (hhost : HostReaches t.session.host u.session.host) : Restores t u :=
  ⟨by rw [hframes], by rw [hframes], fun _ => hglobals, hpermissions, hreadOnly, hstrict, hmaxDepth,
    hdepth, hhost⟩

theorem refl (t : Activation σ) : Restores t t :=
  of_eq rfl rfl rfl rfl rfl rfl rfl .refl

theorem trans {t u v : Activation σ} (h : Restores t u) (h' : Restores u v) : Restores t v where
  outer := h'.outer.trans h.outer
  framed := h'.framed.trans h.framed
  globals ht := (h'.globals fun hu => ht (h.framed.mp hu)).trans (h.globals ht)
  permissions := h'.permissions.trans h.permissions
  readOnly := h'.readOnly.trans h.readOnly
  strict := h'.strict.trans h.strict
  maxDepth := h'.maxDepth.trans h.maxDepth
  depth := h'.depth.trans h.depth
  host := h.host.trans h'.host

theorem asked (t : Activation σ) (call : HostCall) : Restores t (Eval.ask call t).2 := by
  have hhost : HostReaches t.session.host (Host.perform call t.session.host).2 :=
    .single ⟨call, rfl⟩
  unfold Eval.ask
  split <;> next heq =>
    rw [heq] at hhost
    exact of_eq rfl rfl rfl rfl rfl rfl rfl hhost

theorem served (t : Activation σ) (target : String) (args : List Value) :
    Restores t (Eval.serveHost target args t).2 := by
  have hhost : HostReaches t.session.host
      (Dispatch.invoke t.session.host t.session.replay? target args).host := by
    unfold Dispatch.invoke
    split
    · exact .refl
    · exact .refl
    · split <;> exact .refl
    · next call value _ =>
      have hasked : HostReaches t.session.host (Host.perform call t.session.host).2 :=
        .single ⟨call, rfl⟩
      split <;> next heq =>
        rw [heq] at hasked
        exact hasked
  unfold Eval.serveHost
  dsimp only
  split <;> exact of_eq rfl rfl rfl rfl rfl rfl rfl hhost

end Restores

namespace Eval

theorem invariant_restores : Invariant (Restores : Activation σ → Activation σ → Prop) where
  refl := .refl
  trans := .trans
  note t n := .of_eq rfl rfl rfl rfl rfl rfl rfl .refl
  assign t f := by
    unfold Activation.mapEnv
    split
    -- outside of all calls the globals change, inside one only its own frame does
    · next hframes => exact ⟨rfl, Iff.rfl, fun h => absurd hframes h, rfl, rfl, rfl, rfl, rfl, .refl⟩
    · next hframes =>
      refine ⟨by rw [hframes]; rfl, ?_, fun _ => rfl, rfl, rfl, rfl, rfl, rfl, .refl⟩
      rw [hframes]
      simp
  serial t k := .of_eq rfl rfl rfl rfl rfl rfl rfl .refl
  record t f _ := .of_eq rfl rfl rfl rfl rfl rfl rfl .refl
  exported t name v := by
    unfold Activation.addExport
    split <;> exact .of_eq rfl rfl rfl rfl rfl rfl rfl .refl
  resolve t path := .asked t _
  read t path := .asked t _
  serve t target args _ := .served t target args
  nest := by
    rintro t u h
    -- one level down and one level up again
    have hdepth : u.session.depth - 1 = t.session.depth := by
      have := h.depth
      unfold Activation.deepen at this
      dsimp only at this
      omega
    exact ⟨h.outer, h.framed, h.globals, h.permissions, h.readOnly, h.strict, h.maxDepth, hdepth,
      h.host⟩
  isolate := by
    rintro t u h
    have hglobals := h.globals (List.cons_ne_nil _ _)
    exact .of_eq rfl hglobals h.permissions h.readOnly h.strict h.maxDepth h.depth h.host
  call := by
    rintro t u function env h
    have hglobals := h.globals (List.cons_ne_nil _ _)
    exact .of_eq h.outer hglobals h.permissions h.readOnly h.strict h.maxDepth h.depth h.host
  load := by
    rintro t u path - - h
    have hglobals := h.globals (List.cons_ne_nil _ _)
    refine ⟨.of_eq h.outer hglobals h.permissions h.readOnly h.strict h.maxDepth h.depth h.host,
      fun exports => ?_⟩
    exact .of_eq h.outer hglobals h.permissions h.readOnly h.strict h.maxDepth h.depth h.host

/-- Evaluation gives back all but the innermost bindings. -/
theorem restores_eval (fuel : Nat) (n : Node) (t : Activation σ) :
    Restores t (eval fuel n t).2 := invariant_restores.eval fuel n t

theorem eval_succ (fuel : Nat) (n : Node) :
    (eval (fuel + 1) n : Eval σ Value) = evalWith (eval fuel) fuel n := rfl

theorem evalWith_of_le {self : Node → Eval σ Value} {steps : Nat} {n : Node} {t : Activation σ}
    (hdepth : t.session.maxDepth ≤ t.session.depth) :
    evalWith self steps n t =
      (.halted (.fault (.depthExceeded t.session.maxDepth n.id)), t) := by
  unfold evalWith entering
  rw [bind_def]
  unfold checkDepth
  dsimp only
  rw [if_pos hdepth]

/-- A sequence that is as deep as the session allows ends at its first node. -/
theorem sequence_of_le {t : Activation σ} (hdepth : t.session.maxDepth ≤ t.session.depth) (fuel : Nat)
    (last : Value) (n : Node) (ns : List Node) :
    sequence (eval (fuel + 1)) last (n :: ns) t =
      (.halted (.fault (.depthExceeded t.session.maxDepth n.id)), t) := by
  rw [sequence, bind_def, eval_succ, evalWith_of_le hdepth]

omit [Host σ] in
/-- A closure that gets as many arguments as it has parameters evaluates its body, in a frame of its
own. -/
theorem callClosure_of_fit {self : Node → Eval σ Value} {f : Closure Value} {args : List Value}
    (hfit : f.params.length = args.length) {t u : Activation σ} {o : Outcome Value}
    (hrun : self f.body (t.enterCall (f.name?.getD "<fn>") (calleeEnv t.session.globals f args)) =
      (o, u)) :
    callClosure self f args t = catchReturn (fun _ => (o, u.leaveCall)) t := by
  have hcall : callClosure self f args t =
      catchReturn (between (·.enterCall (f.name?.getD "<fn>") (calleeEnv t.session.globals f args))
        (·.leaveCall) (self f.body)) t := by
    unfold callClosure
    rw [if_neg (by omega)]
    rfl
  rw [hcall]
  unfold catchReturn between
  rw [hrun]

omit [Host σ] in
theorem callClosure_of_ne {self : Node → Eval σ Value} {f : Closure Value} {args : List Value}
    (hne : f.params.length ≠ args.length) (t : Activation σ) :
    callClosure self f args t = (.value .unknown, t) := by
  unfold callClosure
  rw [if_pos hne]
  rfl

omit [Host σ] in
/-- Evaluators that evaluate its body in the same way call a closure in the same way. -/
theorem callClosure_congr {self self' : Node → Eval σ Value} {f : Closure Value} {args : List Value}
    {t : Activation σ}
    (hbody : self' f.body (t.enterCall (f.name?.getD "<fn>") (calleeEnv t.session.globals f args)) =
      self f.body (t.enterCall (f.name?.getD "<fn>") (calleeEnv t.session.globals f args))) :
    callClosure self' f args t = callClosure self f args t := by
  by_cases hfit : f.params.length = args.length
  · rw [callClosure_of_fit hfit hbody, callClosure_of_fit hfit rfl]
  · rw [callClosure_of_ne hfit, callClosure_of_ne hfit]

omit [Host σ] in
/-- Below the depth that the session allows, a node is entered for its step, one level down. -/
theorem entering_eq {n : Node} {step : Eval σ Value} {t : Activation σ}
    (hdepth : t.session.depth < t.session.maxDepth) :
    entering n step t = (nested step >>= known n) (t.noteStep n) := by
  unfold entering
  rw [bind_def]
  unfold checkDepth
  dsimp only
  rw [if_neg (by omega)]
  rfl

theorem evalWith_eq {self : Node → Eval σ Value} {steps : Nat} {n : Node} {t : Activation σ}
    (hdepth : t.session.depth < t.session.maxDepth) :
    evalWith self steps n t = (nested (evalForm self steps n) >>= known n) (t.noteStep n) :=
  entering_eq hdepth

/-- In a session that is not strict, an unknown value is no fault. -/
theorem evalWith_of_lt {self : Node → Eval σ Value} (hself : ∀ n, Keeps Restores (self n))
    {steps : Nat} {n : Node} {t : Activation σ} (hdepth : t.session.depth < t.session.maxDepth)
    (hstrict : t.session.strict = false) {o : Outcome Value} {u : Activation σ}
    (hform : evalForm self steps n (t.noteStep n).deepen = (o, u)) :
    evalWith self steps n t = (o, u.surface) := by
  have hrestores : Restores (t.noteStep n).deepen u :=
    (invariant_restores.evalForm hself steps n _).of_eq hform
  have hstrict' : u.session.strict = false := hrestores.strict.trans hstrict
  rw [evalWith_eq hdepth, bind_def]
  unfold nested between
  rw [hform]
  cases o with
  | value v =>
    unfold known
    dsimp only
    rw [show u.surface.session.strict = false from hstrict', Bool.and_false]
    rfl
  | returned v => rfl
  | halted e => rfl

end Eval

/-! ## 2. Capabilities that evaluate nothing -/

/-- What a capability call depends on is the same in the two sessions. -/
structure Session.Agree (s u : Session σ) : Prop where
  host : s.host = u.host
  replay? : s.replay? = u.replay?
  permissions : s.permissions = u.permissions

omit [Host σ] in
theorem Session.Agree.refl (s : Session σ) : s.Agree s := ⟨rfl, rfl, rfl⟩

omit [Host σ] in
theorem Session.Agree.trans {s s' s'' : Session σ} (h : s.Agree s') (h' : s'.Agree s'') :
    s.Agree s'' :=
  ⟨h.host.trans h'.host, h.replay?.trans h'.replay?, h.permissions.trans h'.permissions⟩

omit [Host σ] in
theorem Session.Agree.symm {s s' : Session σ} (h : s.Agree s') : s'.Agree s :=
  ⟨h.host.symm, h.replay?.symm, h.permissions.symm⟩

omit [Host σ] in
theorem Session.agree_mapEnv (t : Activation σ) (f : Env → Env) :
    t.session.Agree (t.mapEnv f).session := by
  unfold Activation.mapEnv
  split <;> exact ⟨rfl, rfl, rfl⟩

/-- What a call without the permission leaves: it is recorded, without its arguments. -/
def Activation.recordDenied (t : Activation σ) (contract : Contract) : Activation σ :=
  { t with session := t.session.recordCall contract.target [] .unknown .denied }

/-- The targets whose calls evaluate a program. -/
def runningTargets : List String := ["compiler.run", "sys.vm_run"]

namespace Eval

variable {α β : Type}

/-- The two ways a step goes from `t` and from a session that agrees: to the same value or end of the
run, and to sessions that agree. It binds nothing and makes no closure. If it is `ample`, no bound on
the evaluation is too small for it. -/
structure Answers (ample : Prop) (t : Activation σ) (x y : Outcome α × Activation σ) : Prop where
  outcome : x.1 = y.1
  agree : x.2.session.Agree y.2.session
  frames : x.2.frames = t.frames
  globals : x.2.session.globals = t.session.globals
  serial : x.2.session.nextSerial = t.session.nextSerial
  returned : ∀ v, x.1 ≠ .returned v
  fuel : ample → x.1 ≠ .halted .outOfFuel

/-- The steps answer alike in sessions that agree. -/
def AnswerAlike (ample : Prop) (step step' : Eval σ α) : Prop :=
  ∀ t u : Activation σ, t.session.Agree u.session → Answers ample t (step t) (step' u)

namespace AnswerAlike

variable {ample : Prop}

omit [Host σ] in
theorem pure (a : α) : AnswerAlike ample (Pure.pure a : Eval σ α) (Pure.pure a) :=
  fun _ _ h => ⟨rfl, h, rfl, rfl, rfl, nofun, nofun⟩

omit [Host σ] in
theorem bind {step step' : Eval σ α} {f g : α → Eval σ β} (hstep : AnswerAlike ample step step')
    (hf : ∀ a, AnswerAlike ample (f a) (g a)) : AnswerAlike ample (step >>= f) (step' >>= g) := by
  intro t u h
  obtain ⟨hvalue, hagree, hframes, hglobals, hserial, hreturn, hfuel⟩ := hstep t u h
  rw [bind_def, bind_def]
  rcases ht : step t with ⟨o, t'⟩
  rcases hu : step' u with ⟨o', u'⟩
  rw [ht, hu] at hvalue
  rw [ht] at hagree hframes hglobals hserial hreturn hfuel
  rw [hu] at hagree
  obtain rfl : o = o' := hvalue
  cases o with
  | value a =>
    have hrest := hf a t' u' hagree
    exact ⟨hrest.outcome, hrest.agree, hrest.frames.trans hframes, hrest.globals.trans hglobals,
      hrest.serial.trans hserial, hrest.returned, hrest.fuel⟩
  | returned v => exact absurd rfl (hreturn v)
  | halted e =>
    refine ⟨rfl, hagree, hframes, hglobals, hserial, nofun, fun hample he => ?_⟩
    cases he
    exact hfuel hample rfl

omit [Host σ] in
theorem session {f g : Session σ → Eval σ α}
    (hf : ∀ s u : Session σ, s.Agree u → AnswerAlike ample (f s) (g u)) :
    AnswerAlike ample (getSession >>= f) (getSession >>= g) :=
  fun t u h => hf t.session u.session h t u h

omit [Host σ] in
/-- What is recorded of a call is nothing that a later call depends on. -/
theorem recorded (target : String) (args args' : List Value) (v : Value) (phase : CallPhase) :
    AnswerAlike ample (modifySession fun s : Session σ => s.recordCall target args v phase)
      (modifySession fun s : Session σ => s.recordCall target args' v phase) :=
  fun _ _ h => ⟨rfl, ⟨h.host, h.replay?, h.permissions⟩, rfl, rfl, rfl, nofun, nofun⟩

theorem serveHost (target : String) (args : List Value) :
    AnswerAlike ample (Eval.serveHost target args : Eval σ Value) (Eval.serveHost target args) := by
  intro t u h
  unfold Eval.serveHost
  dsimp only
  rw [← h.host, ← h.replay?]
  cases (Dispatch.invoke t.session.host t.session.replay? target args).answer with
  | given v => exact ⟨rfl, ⟨rfl, rfl, h.permissions⟩, rfl, rfl, rfl, nofun, nofun⟩
  | refused e => exact ⟨rfl, ⟨rfl, rfl, h.permissions⟩, rfl, rfl, rfl, nofun, nofun⟩
  | stopped => exact ⟨rfl, ⟨rfl, rfl, h.permissions⟩, rfl, rfl, rfl, nofun, nofun⟩

omit [Host σ] in
theorem serveMeta {target : String} (htarget : target ∉ runningTargets)
    (self self' : Node → Eval σ Value) (call call' : String → List Value → Eval σ Value)
    (steps steps' : Nat) (args : List Value) :
    AnswerAlike ample (Eval.serveMeta self call steps target args)
      (Eval.serveMeta self' call' steps' target args) := by
  unfold Eval.serveMeta
  split
  · exact pure _
  · exact pure _
  · refine session fun s u h => ?_
    rw [h.permissions]
    exact pure _
  · exact pure _
  · exact absurd (by decide) htarget
  · exact absurd (by decide) htarget
  · exact pure _

/-- A capability looks at nothing that a function has captured: it takes no function. -/
theorem callChecked {target : String} {args args' : List Value}
    (hargs : args.map Value.uncaptured = args'.map Value.uncaptured)
    {serve serve' : String → List Value → Eval σ Value}
    (hserve : AnswerAlike ample (serve target args) (serve' target args)) :
    AnswerAlike ample (Eval.callChecked serve target args) (Eval.callChecked serve' target args') := by
  unfold Eval.callChecked
  split
  · exact pure _
  · next contract hlookup =>
    refine session fun s u h => ?_
    have hheld : s.hasPermission contract.permission = u.hasPermission contract.permission := by
      unfold Session.hasPermission
      rw [h.permissions]
    have hunknown : args.any Value.isUnknown = args'.any Value.isUnknown := by
      have hmap := Value.map_eq_of_map_mapClosure_eq hargs (Value.isUnknown_mapClosure _)
      simpa [List.any_map] using congrArg (List.any · id) hmap
    have hkinds : args.map Value.kind = args'.map Value.kind :=
      Value.map_eq_of_map_mapClosure_eq hargs (Value.kind_mapClosure _)
    rw [hheld, ← hunknown, ← hkinds]
    by_cases hdenied : (!u.hasPermission contract.permission) = true
    · rw [if_pos hdenied, if_pos hdenied]
      exact bind (recorded _ _ _ _ _) fun _ => pure _
    · rw [if_neg hdenied, if_neg hdenied]
      by_cases hunfit :
          (args.any Value.isUnknown || !(contract.check (args.map Value.kind)).isEmpty) = true
      · rw [if_pos hunfit, if_pos hunfit]
        exact bind (recorded _ _ _ _ _) fun _ => pure _
      · rw [if_neg hunfit, if_neg hunfit]
        obtain ⟨-, hfit⟩ := Contract.kinds_eq_of_fit hunfit
        -- arguments that fit are no functions, so they are the same on both sides
        obtain rfl : args = args' :=
          Value.eq_of_map_mapClosure_eq hargs (Contract.kind_ne_function_of_fit hlookup hfit)
        split
        · exact bind hserve fun v => bind (recorded _ _ _ _ _) fun _ => pure _
        · exact serveHost _ _

end AnswerAlike

/-- Calls of a capability that evaluates nothing do not depend on who evaluates. -/
theorem callCapability_agree {target : String} (htarget : target ∉ runningTargets)
    {args args' : List Value} (hargs : args.map Value.uncaptured = args'.map Value.uncaptured)
    (self self' : Node → Eval σ Value) (steps steps' : Nat) {nesting nesting' : Nat}
    (hnesting : nesting = 0 ↔ nesting' = 0) :
    AnswerAlike (nesting ≠ 0) (callCapability self steps nesting target args)
      (callCapability self' steps' nesting' target args') := by
  cases nesting with
  | zero =>
    obtain rfl : nesting' = 0 := hnesting.mp rfl
    exact .callChecked hargs fun _ _ h => ⟨rfl, h, rfl, rfl, rfl, nofun, fun hne => absurd rfl hne⟩
  | succ nesting =>
    obtain ⟨k, rfl⟩ : ∃ k, nesting' = k + 1 := Nat.exists_eq_succ_of_ne_zero (by omega)
    exact .callChecked hargs (.serveMeta htarget _ _ _ _ _ _ _)

/-- Without the permission nothing is made of the arguments, and the call is only recorded. -/
theorem callCapability_denied {target : String} {contract : Contract}
    (hlookup : Contract.lookup? target = some contract) (self : Node → Eval σ Value)
    (steps nesting : Nat) (args : List Value) {t : Activation σ}
    (hdenied : contract.permission ∉ t.session.permissions) :
    callCapability self steps nesting target args t = (.value .unknown, t.recordDenied contract) := by
  have hheld : (!t.session.hasPermission contract.permission) = true := by
    rw [Bool.not_eq_true', Bool.eq_false_iff]
    exact mt Session.hasPermission_iff.mp hdenied
  have hchecked (serve : String → List Value → Eval σ Value) :
      callChecked serve target args t = (.value .unknown, t.recordDenied contract) := by
    unfold callChecked
    rw [hlookup]
    show (if !t.session.hasPermission contract.permission then
      (deny contract >>= fun _ => pure .unknown : Eval σ Value) else _) t = _
    rw [if_pos hheld]
    rfl
  cases nesting with
  | zero => exact hchecked _
  | succ nesting => exact hchecked _

omit [Host σ] in
/-- Evaluation does not come to the arguments of such a call. -/
theorem evalCall_denied {self : Node → Eval σ Value} {capability : String → List Value → Eval σ Value}
    {closure : Closure Value → List Value → Eval σ Value} {n : Node} {target : String}
    {contract : Contract} (htarget : n.ident? "target" = some target)
    (hlookup : Contract.lookup? target = some contract) {t : Activation σ}
    (hdenied : contract.permission ∉ t.session.permissions) :
    evalCall self capability closure n t = (.value .unknown, t.recordDenied contract) := by
  unfold evalCall
  rw [htarget]
  dsimp only
  rw [hlookup]
  show (if t.session.hasPermission contract.permission then
    operands self n.children >>= capability target
      else deny contract >>= fun _ => pure .unknown : Eval σ Value) t = _
  rw [if_neg (mt Session.hasPermission_iff.mp hdenied)]
  rfl

/-- A call of the target evaluates no program: the capability does not, or the permission is missing. -/
def Idle (permissions : List String) (target : String) : Prop :=
  target ∉ runningTargets ∨
    ∃ contract, Contract.lookup? target = some contract ∧ contract.permission ∉ permissions

/-- Calls that evaluate no program are answered alike in sessions that agree. -/
theorem callCapability_agree_of_idle {target : String} {t u : Activation σ}
    (hidle : Idle t.session.permissions target) (h : t.session.Agree u.session)
    {args args' : List Value} (hargs : args.map Value.uncaptured = args'.map Value.uncaptured)
    (self self' : Node → Eval σ Value) (steps steps' : Nat) {nesting nesting' : Nat}
    (hnesting : nesting = 0 ↔ nesting' = 0) :
    Answers (nesting ≠ 0) t (callCapability self steps nesting target args t)
      (callCapability self' steps' nesting' target args' u) := by
  rcases hidle with hrunning | ⟨contract, hlookup, hdenied⟩
  · exact callCapability_agree hrunning hargs self self' steps steps' hnesting t u h
  · rw [callCapability_denied hlookup self steps nesting args hdenied,
      callCapability_denied hlookup self' steps' nesting' args' (h.permissions ▸ hdenied)]
    exact ⟨rfl, ⟨h.host, h.replay?, h.permissions⟩, rfl, rfl, rfl, nofun, nofun⟩

end Eval

end Arbor
