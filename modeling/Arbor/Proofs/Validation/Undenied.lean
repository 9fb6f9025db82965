import Arbor.Proofs.Compilation.Inert
import Arbor.Proofs.Compilation.SideBySide
import Arbor.Proofs.Validation.Coverage
import Arbor.Proofs.Validation.Soundness

/-!
# Valid programs are never denied a call

`Eval.guarded alarm` evaluates like `Eval.eval`, but where a call of a capability would be denied, or
would have a wrong number of arguments, it raises the alarm instead, which may be any step. A program
that is validated without a finding evaluates the same with every alarm, so it never comes to one
(`Eval.guarded_eq_eval`).

The reason is that all code that the program can get into is its own: as long as it imports nothing and
runs no other program, a closure that it has got hold of is one that a node of it has made
(`Value.Native`).
-/

namespace Arbor

variable {σ : Type}

/-! ## 1. Guarded evaluation -/

/-- Does the node call a capability without having the permission? -/
def Node.isDenied (n : Node) (s : Session σ) : Bool :=
  match (n.ident? "target").bind Contract.lookup? with
  | some contract => !s.hasPermission contract.permission
  | none => false

namespace Eval

section Guarded

variable (alarm : Eval σ Value)

/-- Calls a capability on values, with the alarm when the permission is missing or the number of the
arguments is wrong. -/
def guardedChecked [Host σ] (serve : String → List Value → Eval σ Value) (target : String)
    (args : List Value) : Eval σ Value := do
  let s ← getSession
  match Contract.lookup? target with
  | some contract =>
    if !s.hasPermission contract.permission || args.length != contract.arity then alarm
    else callChecked serve target args
  | none => callChecked serve target args

/-- Calls a capability on values, under guard also where bytecode calls one. -/
def guardedCapability [Host σ] (self : Node → Eval σ Value) (steps : Nat) :
    Nat → String → List Value → Eval σ Value
  | 0 => guardedChecked alarm fun _ _ => halt .outOfFuel
  | nesting + 1 =>
    guardedChecked alarm (serveMeta self (guardedCapability self steps nesting) steps)

/-- Evaluates a `Call`, with the alarm when it is denied. -/
def guardedCall [Host σ] (self : Node → Eval σ Value) (steps : Nat) (n : Node) : Eval σ Value := do
  let s ← getSession
  if n.isDenied s then alarm
  else evalCall self (guardedCapability alarm self steps steps) (callClosure self) n

/-- Evaluates a node by its form. -/
def guardedForm [Host σ] (self : Node → Eval σ Value) (steps : Nat) (n : Node) : Eval σ Value :=
  if n.form? = some .call then guardedCall alarm self steps n else evalForm self steps n

/-- Evaluates a node under guard. -/
def guarded [Host σ] : Nat → Node → Eval σ Value
  | 0, _ => halt .outOfFuel
  | fuel + 1, n => entering n (guardedForm alarm (guarded fuel) fuel n)

end Guarded

end Eval

/-! ## 2. Code and values of a program -/

/-- A node at which evaluation stays in the program's own code, and that may call what it calls. -/
structure Node.NativeHere (permissions : List String) (n : Node) : Prop where
  form : n.form? ≠ some .importModule
  call : n.form? = some .call → ∀ target, n.ident? "target" = some target →
    target ∉ runningTargets ∧ ∀ c, Contract.lookup? target = some c →
      c.permission ∈ permissions ∧ n.children.length = c.arity

/-- All nodes of the tree are of this sort. -/
def Node.Native (permissions : List String) (n : Node) : Prop :=
  ∀ m ∈ n.walk, m.NativeHere permissions

/-- All functions inside the value have bodies of this sort. -/
inductive Value.Native (permissions : List String) : Value → Prop
  | plain {v : Value} (h : v.kind ≠ .function) : Native permissions v
  | fn {f : Closure Value} (hbody : f.body.Native permissions)
      (hcaptured : ∀ b ∈ f.captured, Native permissions b.2) : Native permissions (.fn f)

/-- The values that are bound are of this sort. -/
def Env.Native (permissions : List String) (env : Env) : Prop :=
  ∀ b ∈ env.entries, b.2.Native permissions

/-- The permissions are held, and all that is bound is of this sort. -/
structure Activation.Native (permissions : List String) (t : Activation σ) : Prop where
  held : permissions ⊆ t.session.permissions
  globals : Env.Native permissions t.session.globals
  frames : ∀ env ∈ t.frames, Env.Native permissions env

variable {permissions : List String}

theorem Node.Native.child {n c : Node} (h : n.Native permissions) (hc : c ∈ n.children) :
    c.Native permissions :=
  fun m hm => h m (mem_walk_of_mem_children hc hm)

theorem Value.native_unknown : Value.unknown.Native permissions := .plain nofun

theorem Value.native_void : Value.void.Native permissions := .plain nofun

namespace Env.Native

theorem empty : Env.Native permissions ∅ := fun _ h => by cases h

variable {env : Env} (h : Env.Native permissions env)
include h

theorem insertAll {pairs : List (String × Value)} (hpairs : ∀ b ∈ pairs, b.2.Native permissions) :
    Env.Native permissions (env.insertAll pairs) := by
  intro b hb
  rcases Dict.mem_insertAll hb with hb | hb
  · exact h b hb
  · exact hpairs b hb

theorem insert {v : Value} (hv : v.Native permissions) (name : String) :
    Env.Native permissions (env.insert name v) := by
  have hpairs : ∀ b ∈ [(name, v)], b.2.Native permissions := by simpa using hv
  exact h.insertAll hpairs

theorem find? {name : String} {v : Value} (hv : env.find? name = some v) : v.Native permissions :=
  h _ (Dict.find?_eq_some_iff.mp hv)

theorem getD (name : String) : ((env.find? name).getD .unknown).Native permissions := by
  cases hv : env.find? name with
  | none => exact Value.native_unknown
  | some v => exact h.find? hv

end Env.Native

namespace Activation.Native

variable {t u : Activation σ} (h : t.Native permissions)
include h

theorem of_eq (hframes : u.frames = t.frames) (hglobals : u.session.globals = t.session.globals)
    (hpermissions : u.session.permissions = t.session.permissions) : u.Native permissions :=
  ⟨hpermissions ▸ h.held, hglobals ▸ h.globals, hframes ▸ h.frames⟩

theorem env : Env.Native permissions t.env := by
  unfold Activation.env
  split
  · exact h.globals
  · next hframes => exact h.frames _ (by simp [hframes])

theorem mapEnv {f : Env → Env} (hf : ∀ env, Env.Native permissions env → Env.Native permissions (f env)) :
    (t.mapEnv f).Native permissions := by
  unfold Activation.mapEnv
  split
  · exact ⟨h.held, hf _ h.globals, h.frames⟩
  · next frame outer hframes =>
    have hall := h.frames
    rw [hframes] at hall
    obtain ⟨hframe, houter⟩ := List.forall_mem_cons.mp hall
    exact ⟨h.held, h.globals, List.forall_mem_cons.mpr ⟨hf _ hframe, houter⟩⟩

end Activation.Native

/-! ## 3. Steps that raise no alarm -/

namespace Eval

variable {α β : Type}

/-- `Q` holds of the value of the outcome, if it has one, and what a `Return` carries is the
program's. -/
def Yields (permissions : List String) (Q : α → Prop) : Outcome α → Prop
  | .value a => Q a
  | .returned v => v.Native permissions
  | .halted _ => True

/-- In the program's own states the second step does the same as the first one, which leads to such a
state and yields what `Q` says. -/
def Calls (permissions : List String) (Q : α → Prop) (step step' : Eval σ α) : Prop :=
  ∀ t : Activation σ, t.Native permissions →
    step' t = step t ∧ (step t).2.Native permissions ∧ Yields permissions Q (step t).1

namespace Calls

variable {Q : α → Prop}

theorem pure {a : α} (h : Q a) : Calls permissions Q (Pure.pure a : Eval σ α) (Pure.pure a) :=
  fun _ ht => ⟨rfl, ht, h⟩

theorem halt (e : Halt) : Calls permissions Q (Eval.halt e : Eval σ α) (Eval.halt e) :=
  fun _ ht => ⟨rfl, ht, trivial⟩

theorem unwind {v : Value} (h : v.Native permissions) :
    Calls permissions Q (Eval.unwind v : Eval σ α) (Eval.unwind v) :=
  fun _ ht => ⟨rfl, ht, h⟩

theorem bind {step step' : Eval σ α} {f f' : α → Eval σ β} {Q' : β → Prop}
    (hstep : Calls permissions Q step step') (hf : ∀ a, Q a → Calls permissions Q' (f a) (f' a)) :
    Calls permissions Q' (step >>= f) (step' >>= f') := by
  intro t ht
  obtain ⟨hsame, hnative, hyields⟩ := hstep t ht
  rw [bind_def, bind_def, hsame]
  generalize step t = x at hnative hyields
  obtain ⟨o, u⟩ := x
  cases o with
  | value a => exact hf a hyields u hnative
  | returned v => exact ⟨rfl, hnative, hyields⟩
  | halted e => exact ⟨rfl, hnative, trivial⟩

theorem mono {step step' : Eval σ α} {Q' : α → Prop} (h : Calls permissions Q step step')
    (himp : ∀ a, Q a → Q' a) : Calls permissions Q' step step' := by
  intro t ht
  obtain ⟨hsame, hnative, hyields⟩ := h t ht
  refine ⟨hsame, hnative, ?_⟩
  generalize (step t).1 = o at hyields
  cases o with
  | value a => exact himp a hyields
  | returned v => exact hyields
  | halted e => trivial

/-- A change of the session that binds nothing. -/
theorem modify {f : Session σ → Session σ} (hglobals : ∀ s, (f s).globals = s.globals)
    (hpermissions : ∀ s, (f s).permissions = s.permissions) :
    Calls permissions (fun _ => True) (modifySession f) (modifySession f) :=
  fun t ht => ⟨rfl, ht.of_eq rfl (hglobals t.session) (hpermissions t.session), trivial⟩

theorem getSession : Calls permissions
    (fun s : Session σ => permissions ⊆ s.permissions ∧ Env.Native permissions s.globals)
    Eval.getSession Eval.getSession :=
  fun _ ht => ⟨rfl, ht, ht.held, ht.globals⟩

theorem currentEnv : Calls permissions (Env.Native permissions) (Eval.currentEnv : Eval σ Env)
    Eval.currentEnv :=
  fun _ ht => ⟨rfl, ht, ht.env⟩

theorem bindName (name : String) {v : Value} (hv : v.Native permissions) :
    Calls permissions (fun _ => True) (Eval.bindName name v : Eval σ Unit) (Eval.bindName name v) :=
  fun _ ht => ⟨rfl, ht.mapEnv fun _ henv => henv.insert hv name, trivial⟩

theorem addExport (name : String) (v : Value) :
    Calls permissions (fun _ => True) (Eval.addExport name v : Eval σ Unit) (Eval.addExport name v) := by
  intro t ht
  refine ⟨rfl, ?_, trivial⟩
  unfold Eval.addExport Activation.addExport
  dsimp only
  split
  · exact ht
  · exact ht.of_eq rfl rfl rfl

theorem noteStep (n : Node) :
    Calls permissions (fun _ => True) (Eval.noteStep n : Eval σ Unit) (Eval.noteStep n) :=
  fun _ ht => ⟨rfl, ht.of_eq rfl rfl rfl, trivial⟩

theorem known (n : Node) {v : Value} (hv : v.Native permissions) :
    Calls permissions (Value.Native permissions) (Eval.known n v : Eval σ Value) (Eval.known n v) := by
  intro t ht
  unfold Eval.known
  split
  · exact ⟨rfl, ht, trivial⟩
  · exact ⟨rfl, ht, hv⟩

theorem checkDepth (n : Node) :
    Calls permissions (fun _ => True) (Eval.checkDepth n : Eval σ Unit) (Eval.checkDepth n) := by
  intro t ht
  unfold Eval.checkDepth
  dsimp only
  split
  · exact ⟨rfl, ht, trivial⟩
  · exact ⟨rfl, ht, trivial⟩

theorem entering (n : Node) {step step' : Eval σ Value}
    (h : Calls permissions (Value.Native permissions) step step') :
    Calls permissions (Value.Native permissions) (Eval.entering n step) (Eval.entering n step') := by
  have hnested : Calls permissions (Value.Native permissions) (Eval.nested step)
      (Eval.nested step') := by
    intro t ht
    obtain ⟨hsame, hnative, hyields⟩ := h t.deepen (ht.of_eq rfl rfl rfl)
    unfold Eval.nested between
    rw [hsame]
    exact ⟨rfl, hnative.of_eq rfl rfl rfl, hyields⟩
  exact (checkDepth n).bind fun _ _ => (noteStep n).bind fun _ _ => hnested.bind fun v hv =>
    known n hv

theorem makeClosure {n : Node} (hn : n.Native permissions) (name? : Option String) :
    Calls permissions (Value.Native permissions) (Eval.makeClosure n name? : Eval σ Value)
      (Eval.makeClosure n name?) := by
  unfold Eval.makeClosure
  split
  · next params body _ hchildren =>
    split
    · refine currentEnv.bind fun env henv => Calls.bind (Q := fun _ => True) ?_ fun serial _ => ?_
      · exact fun _ ht => ⟨rfl, ht.of_eq rfl rfl rfl, trivial⟩
      · exact pure (.fn (hn.child (by simp [hchildren])) henv)
    · exact pure Value.native_unknown
  · exact pure Value.native_unknown

/-! ## 4. Calls -/

section Nested

variable {self self' : Node → Eval σ Value}
  (hself : ∀ n : Node, n.Native permissions →
    Calls permissions (Value.Native permissions) (self n) (self' n))
include hself

/-- A call starts with bindings of the program's own values. -/
theorem callClosure {f : Closure Value} (hf : (Value.fn f).Native permissions) {args : List Value}
    (hargs : ∀ v ∈ args, v.Native permissions) :
    Calls permissions (Value.Native permissions) (Eval.callClosure self f args)
      (Eval.callClosure self' f args) := by
  obtain ⟨hbody, hcaptured⟩ :
      f.body.Native permissions ∧ ∀ b ∈ f.captured, b.2.Native permissions := by
    cases hf with
    | plain h => exact absurd rfl h
    | fn hbody hcaptured => exact ⟨hbody, hcaptured⟩
  intro t ht
  by_cases hfit : f.params.length = args.length
  · have henv : Env.Native permissions (calleeEnv t.session.globals f args) := by
      have hparams : ∀ b ∈ f.params.zip args, b.2.Native permissions :=
        fun b hb => hargs b.2 (List.of_mem_zip hb).2
      unfold calleeEnv
      split
      · exact ((ht.globals.insert hf _).insertAll hcaptured).insertAll hparams
      · exact (ht.globals.insertAll hcaptured).insertAll hparams
    have hentered : (t.enterCall (f.name?.getD "<fn>")
        (calleeEnv t.session.globals f args)).Native permissions :=
      ⟨ht.held, ht.globals, List.forall_mem_cons.mpr ⟨henv, ht.frames⟩⟩
    obtain ⟨hsame, hnative, hyields⟩ := hself f.body hbody _ hentered
    rcases hrun : self f.body (t.enterCall (f.name?.getD "<fn>")
      (calleeEnv t.session.globals f args)) with ⟨o, u⟩
    rw [hrun] at hsame hnative hyields
    rw [callClosure_of_fit hfit hrun, callClosure_of_fit hfit hsame]
    have hleft : u.leaveCall.Native permissions :=
      ⟨hnative.held, hnative.globals, fun env henv => hnative.frames env (List.mem_of_mem_tail henv)⟩
    cases o with
    | value v => exact ⟨rfl, hleft, hyields⟩
    | returned v => exact ⟨rfl, hleft, hyields⟩
    | halted e => exact ⟨rfl, hleft, trivial⟩
  · rw [callClosure_of_ne hfit, callClosure_of_ne hfit]
    exact ⟨rfl, ht, Value.native_unknown⟩

theorem operands {ns : List Node} (hns : ∀ n ∈ ns, n.Native permissions) :
    Calls permissions (fun vs => vs.length = ns.length ∧ ∀ v ∈ vs, v.Native permissions)
      (Eval.operands self ns) (Eval.operands self' ns) := by
  induction ns with
  | nil => exact pure ⟨rfl, by simp⟩
  | cons n ns ih =>
    obtain ⟨hn, hns⟩ := List.forall_mem_cons.mp hns
    refine (hself n hn).bind fun v hv => (ih hns).bind fun vs hvs => pure ⟨?_, ?_⟩
    · simp [hvs.1]
    · exact List.forall_mem_cons.mpr ⟨hv, hvs.2⟩

theorem sequence {ns : List Node} (hns : ∀ n ∈ ns, n.Native permissions) {last : Value}
    (hlast : last.Native permissions) :
    Calls permissions (Value.Native permissions) (Eval.sequence self last ns)
      (Eval.sequence self' last ns) := by
  induction ns generalizing last with
  | nil => exact pure hlast
  | cons n ns ih =>
    obtain ⟨hn, hns⟩ := List.forall_mem_cons.mp hns
    refine (hself n hn).bind fun v hv => ?_
    split
    · exact pure hv
    · exact ih hns hv

theorem bound {n : Node} (hn : n.Native permissions) (name : String) :
    Calls permissions (Value.Native permissions) (Eval.bound self n name)
      (Eval.bound self' n name) := by
  unfold Eval.bound
  split
  · exact (noteStep n).bind fun _ _ => (makeClosure hn (some name)).bind fun v hv => known n hv
  · exact hself n hn

end Nested

/-- A capability that evaluates no program is answered in one way, whoever evaluates. -/
theorem serveMeta_congr {target : String} (htarget : target ∉ runningTargets)
    (self self' : Node → Eval σ Value) (call call' : String → List Value → Eval σ Value)
    (steps : Nat) (args : List Value) :
    serveMeta self call steps target args = serveMeta self' call' steps target args := by
  unfold serveMeta
  split <;> first | rfl | exact absurd (by decide) htarget

variable [Host σ]

theorem callChecked_congr {serve serve' : String → List Value → Eval σ Value} {target : String}
    {args : List Value} (h : serve target args = serve' target args) :
    callChecked serve target args = callChecked serve' target args := by
  unfold callChecked
  rw [h]

/-- With the permission and the right number of arguments the guard lets a call pass. -/
theorem guardedChecked_of_held {alarm : Eval σ Value} {target : String} {args : List Value}
    {contract : Contract} (hlookup : Contract.lookup? target = some contract)
    (hlength : args.length = contract.arity) {t : Activation σ}
    (hheld : contract.permission ∈ t.session.permissions)
    (serve : String → List Value → Eval σ Value) :
    guardedChecked alarm serve target args t = callChecked serve target args t := by
  have hpasses : (!t.session.hasPermission contract.permission ||
      args.length != contract.arity) = false := by
    unfold Session.hasPermission
    simpa [hlength] using hheld
  unfold guardedChecked
  rw [hlookup]
  show (if (!t.session.hasPermission contract.permission || args.length != contract.arity) = true
    then alarm else callChecked serve target args : Eval σ Value) t = _
  rw [hpasses]
  rfl

/-- A call that has its permission and the right number of arguments raises no alarm, and comes to no
function. -/
theorem callCapability {target : String} {args : List Value} {contract : Contract}
    (hlookup : Contract.lookup? target = some contract) (htarget : target ∉ runningTargets)
    (hheld : contract.permission ∈ permissions) (hlength : args.length = contract.arity)
    (alarm : Eval σ Value) {self : Node → Eval σ Value} (hkeeps : ∀ n, Keeps Restores (self n))
    (self' : Node → Eval σ Value) (steps nesting : Nat) :
    Calls permissions (Value.Native permissions) (Eval.callCapability self steps nesting target args)
      (guardedCapability alarm self' steps nesting target args) := by
  intro t ht
  have hargs : args.map Value.uncaptured = args.map Value.uncaptured := rfl
  have hanswers := callCapability_agree htarget hargs self self steps steps
    (Iff.rfl : nesting = 0 ↔ nesting = 0) t t (.refl _)
  have hrestores := invariant_restores.callCapability hkeeps steps nesting target args t
  refine ⟨?_, ht.of_eq hanswers.frames hanswers.globals hrestores.permissions, ?_⟩
  · have hpasses (serve : String → List Value → Eval σ Value) :
        guardedChecked alarm serve target args t = callChecked serve target args t :=
      guardedChecked_of_held hlookup hlength (ht.held hheld) serve
    cases nesting with
    | zero => exact hpasses _
    | succ nesting =>
      exact (hpasses _).trans
        (congrFun (callChecked_congr (serveMeta_congr htarget self' self _ _ steps args)) t)
  · have hkind (v : Value) (hv : (Eval.callCapability self steps nesting target args t).1 = .value v) :
        v.kind ≠ .function := Stage.callCapability_kind_ne (.inl htarget) steps nesting args hv
    have hreturned := hanswers.returned
    generalize (Eval.callCapability self steps nesting target args t).1 = o at hkind hreturned
    cases o with
    | value v => exact .plain (hkind v rfl)
    | returned v => exact absurd rfl (hreturned v)
    | halted e => trivial

/-! ## 5. Forms -/

section Forms

variable {self self' : Node → Eval σ Value}
  (hself : ∀ n : Node, n.Native permissions →
    Calls permissions (Value.Native permissions) (self n) (self' n))
  {n : Node} (hn : n.Native permissions)
include hself hn

theorem evalCall (hform : n.form? = some .call) (alarm : Eval σ Value)
    (hkeeps : ∀ n, Keeps Restores (self n)) (steps : Nat) :
    Calls permissions (Value.Native permissions)
      (Eval.evalCall self (Eval.callCapability self steps steps) (Eval.callClosure self) n)
      (guardedCall alarm self' steps n) := by
  have hcalls := (hn n (Node.mem_walk_self n)).call hform
  have hargs := operands hself fun c hc => hn.child hc
  -- the guard finds the permission before the call does
  have hevaluated : Calls permissions (Value.Native permissions)
      (Eval.evalCall self (Eval.callCapability self steps steps) (Eval.callClosure self) n)
      (Eval.evalCall self' (guardedCapability alarm self' steps steps) (Eval.callClosure self') n) := by
    unfold Eval.evalCall
    cases htarget : n.ident? "target" with
    | none => exact pure Value.native_unknown
    | some target =>
      obtain ⟨hrunning, hcontract⟩ := hcalls target htarget
      dsimp only
      cases hlookup : Contract.lookup? target with
      | some contract =>
        obtain ⟨hheld, harity⟩ := hcontract contract hlookup
        refine getSession.bind fun s hs => ?_
        have hpermission : s.hasPermission contract.permission = true :=
          Session.hasPermission_iff.mpr (hs.1 hheld)
        rw [if_pos hpermission, if_pos hpermission]
        exact hargs.bind fun vs hvs => callCapability hlookup hrunning hheld (by omega) alarm hkeeps
          self' steps steps
      | none =>
        refine currentEnv.bind fun env henv => getSession.bind fun s hs => ?_
        cases hfound : (env.find? target).or (s.globals.find? target) with
        | none => exact pure Value.native_unknown
        | some v =>
          have hv : v.Native permissions := by
            rcases Option.or_eq_some_iff.mp hfound with hv | ⟨-, hv⟩
            · exact henv.find? hv
            · exact hs.2.find? hv
          cases v with
          | fn f => exact hargs.bind fun vs hvs => callClosure hself hv hvs.2
          | _ => exact pure Value.native_unknown
  intro t ht
  have hallowed : n.isDenied t.session = false := by
    unfold Node.isDenied
    cases hfound : (n.ident? "target").bind Contract.lookup? with
    | none => rfl
    | some contract =>
      obtain ⟨target, htarget, hlookup⟩ := Option.bind_eq_some_iff.mp hfound
      have hheld := ht.held ((hcalls target htarget).2 contract hlookup).1
      unfold Session.hasPermission
      simpa using hheld
  obtain ⟨hsame, hrest⟩ := hevaluated t ht
  refine ⟨?_, hrest⟩
  rw [← hsame]
  show (if n.isDenied t.session = true then alarm else _ : Eval σ Value) t = _
  rw [hallowed]
  rfl

omit [Host σ] in
theorem evalBind : Calls permissions (Value.Native permissions)
    (Eval.evalBind (Eval.bound self) n) (Eval.evalBind (Eval.bound self') n) := by
  unfold Eval.evalBind
  split
  · exact pure Value.native_unknown
  · next name _ =>
    refine getSession.bind fun s _ => ?_
    split
    · exact halt _
    · split
      · next child hchildren =>
        exact (bound hself (hn.child (by simp [hchildren])) name).bind fun v hv =>
          (bindName name hv).bind fun _ _ => pure Value.native_void
      · exact pure Value.native_unknown

omit [Host σ] in
theorem evalBranch : Calls permissions (Value.Native permissions) (Eval.evalBranch self n)
    (Eval.evalBranch self' n) := by
  have hchild {c : Node} (hc : c ∈ n.children) := hself c (hn.child hc)
  have hchoose (v : Value) {step step' other other' : Eval σ Value}
      (hthen : Calls permissions (Value.Native permissions) step step')
      (helse : Calls permissions (Value.Native permissions) other other') :
      Calls permissions (Value.Native permissions) (choose step other v) (choose step' other' v) := by
    unfold choose
    split
    · exact hthen
    · exact helse
    · exact pure Value.native_unknown
  unfold Eval.evalBranch
  split
  · next hchildren =>
    exact (hchild (by simp [hchildren])).bind fun v _ =>
      hchoose v (hchild (by simp [hchildren])) (pure Value.native_void)
  · next hchildren =>
    exact (hchild (by simp [hchildren])).bind fun v _ =>
      hchoose v (hchild (by simp [hchildren])) (hchild (by simp [hchildren]))
  · exact pure Value.native_unknown

omit [Host σ] in
theorem evalLeave : Calls permissions (Value.Native permissions) (Eval.evalLeave self n)
    (Eval.evalLeave self' n) := by
  unfold Eval.evalLeave
  split
  · exact unwind Value.native_void
  · next hchildren =>
    exact (hself _ (hn.child (by simp [hchildren]))).bind fun v hv => unwind hv

omit [Host σ] in
theorem evalExport : Calls permissions (Value.Native permissions)
    (Eval.evalExport (Eval.bound self) n) (Eval.evalExport (Eval.bound self') n) := by
  unfold Eval.evalExport
  split
  · exact pure Value.native_unknown
  · next name _ =>
    split
    · exact currentEnv.bind fun env _ => (addExport name _).bind fun _ _ => pure Value.native_void
    · next child hchildren =>
      exact (bound hself (hn.child (by simp [hchildren])) name).bind fun v _ =>
        (addExport name v).bind fun _ _ => pure Value.native_void
    · exact pure Value.native_unknown

omit [Host σ] in
theorem evalOperator (op : Operator) : Calls permissions (Value.Native permissions)
    (Eval.evalOperator self op n) (Eval.evalOperator self' op n) := by
  unfold Eval.evalOperator
  split
  · exact pure Value.native_unknown
  · exact (operands hself fun c hc => hn.child hc).bind fun args _ =>
      pure (.plain (op.kind_apply_ne args))

theorem evalForm (alarm : Eval σ Value) (hkeeps : ∀ n, Keeps Restores (self n)) (steps : Nat) :
    Calls permissions (Value.Native permissions) (Eval.evalForm self steps n)
      (guardedForm alarm self' steps n) := by
  by_cases hcall : n.form? = some .call
  · unfold guardedForm Eval.evalForm
    rw [if_pos hcall, hcall]
    exact evalCall hself hn hcall alarm hkeeps steps
  unfold guardedForm
  rw [if_neg hcall]
  unfold Eval.evalForm
  split
  · exact sequence hself (fun c hc => hn.child hc) Value.native_void
  · exact sequence hself (fun c hc => hn.child hc) Value.native_void
  · exact evalBind hself hn
  · unfold evalVar
    split
    · exact pure Value.native_unknown
    · exact currentEnv.bind fun env henv => pure (henv.getD _)
  · exact pure (.plain n.kind_literal_ne)
  · next hform => exact absurd hform hcall
  · exact makeClosure hn none
  · exact evalBranch hself hn
  · exact evalLeave hself hn
  · next hform => exact absurd hform (hn n (Node.mem_walk_self n)).form
  · exact evalExport hself hn
  · exact evalOperator hself hn _
  · exact pure Value.native_unknown

end Forms

end Calls

variable [Host σ]

/-- Code of the program raises no alarm, at any depth. -/
theorem calls_eval (alarm : Eval σ Value) (fuel : Nat) : ∀ n : Node, n.Native permissions →
    Calls permissions (Value.Native permissions) (eval fuel n) (guarded alarm fuel n) := by
  induction fuel with
  | zero => exact fun _ _ => .halt _
  | succ fuel ih =>
    exact fun n hn => .entering n (.evalForm ih hn alarm (restores_eval fuel) fuel)

/-- A program that is validated without a finding is never denied a call of a capability, nor does it
make one with a wrong number of arguments, when it has the permissions it was validated for and starts
without bindings: evaluation comes to no alarm, wherever in the program the call is. -/
theorem guarded_eq_eval {root : Node} {env : TypeEnv} {structural : Bool}
    (hvalid : validate root env permissions structural = [])
    (himports : ∀ n ∈ root.walk, n.form? ≠ some .importModule)
    (hrunning : ∀ n ∈ root.walk, n.form? = some .call →
      ∀ target ∈ n.ident? "target", target ∉ runningTargets)
    (t : Activation σ) (hheld : permissions ⊆ t.session.permissions)
    (hglobals : t.session.globals = ∅) (hframes : ∀ frame ∈ t.frames, frame = ∅) (fuel : Nat)
    (alarm : Eval σ Value) : guarded alarm fuel root t = eval fuel root t := by
  have hnative : root.Native permissions := by
    intro n hn
    refine ⟨himports n hn, fun hform target htarget => ?_⟩
    refine ⟨hrunning n hn hform target htarget, fun c hlookup => ?_⟩
    exact (Flow.approved_of_validate hvalid n hn).call hform target c
      (Flow.text?_of_ident? htarget) hlookup
  have hstart : t.Native permissions := by
    refine ⟨hheld, hglobals ▸ Env.Native.empty, fun frame hframe => ?_⟩
    rw [hframes frame hframe]
    exact Env.Native.empty
  exact (calls_eval alarm fuel root hnative t hstart).1

open Arbor.Flow Arbor.Flow.Sample in
/-- A program with calls of a capability in a function and on both branches of an If. -/
def doubling : Node := program
  [assign "a" "double" (function "f" "n" [call "s" "math.add" [var "m" "n", var "n" "n"]]),
   branch "c" [lit "b" (.bool true), block "t" [call "g" "double" [lit "i" (.int 2)]],
     block "e" [call "h" "math.add" [lit "j" (.int 1), lit "k" (.int 1)]]]]

theorem guarded_eq_eval_doubling :
    validate doubling ∅ (Session.fresh "").permissions true = [] ∧
      ∀ alarm : Eval LocalHost Value,
        guarded alarm 9 doubling ⟨Session.fresh "", []⟩ = eval 9 doubling ⟨Session.fresh "", []⟩ := by
  have hvalid : validate doubling ∅ (Session.fresh "").permissions true = [] := by decide +kernel
  refine ⟨hvalid, fun alarm => ?_⟩
  exact guarded_eq_eval hvalid (by decide +kernel) (by decide +kernel) ⟨Session.fresh "", []⟩
    (List.Subset.refl _) rfl (by simp) 9 alarm

open Arbor.Flow Arbor.Flow.Sample in
/-- Without the permission there is an alarm. -/
example (alarm : Eval LocalHost Value) :
    guarded alarm 1 (call "g" "console.print" []) ⟨Session.fresh "", []⟩ =
      entering (call "g" "console.print" []) alarm ⟨Session.fresh "", []⟩ := rfl

end Eval

end Arbor
