import Arbor.Proofs.Evaluation.Frames
import Arbor.Proofs.Evaluation.Runs
import Arbor.Proofs.Validation.Scopes

/-!
# Who changes bindings

Calls of closures, programs of modules, nested programs and runs of the machine leave all frames and the
globals as they were (`SameBindings`). What is left are the nodes that are evaluated in a frame itself,
and of these only a `Let` and an `Import` bind anything: outside of the names that they bind, the code
of a scope changes no bindings (`Eval.find?_env_eval`). `Session.bindings_isolated` puts this together
for whole runs.
-/

namespace Arbor

variable {σ : Type}

/-! ## 1. Steps that leave all bindings -/

/-- All frames and the globals are the same. -/
structure SameBindings (t u : Activation σ) : Prop where
  frames : u.frames = t.frames
  globals : u.session.globals = t.session.globals

namespace SameBindings

theorem refl (t : Activation σ) : SameBindings t t := ⟨rfl, rfl⟩

theorem trans {t u v : Activation σ} (h : SameBindings t u) (h' : SameBindings u v) :
    SameBindings t v :=
  ⟨h'.frames.trans h.frames, h'.globals.trans h.globals⟩

theorem env {t u : Activation σ} (h : SameBindings t u) : u.env = t.env := by
  unfold Activation.env
  rw [h.frames, h.globals]

theorem mapEnv {t u : Activation σ} (h : SameBindings t u) (f : Env → Env) :
    SameBindings (t.mapEnv f) (u.mapEnv f) := by
  unfold Activation.mapEnv
  rw [h.frames]
  split
  · exact ⟨rfl, congrArg f h.globals⟩
  · exact ⟨rfl, h.globals⟩

variable [Host σ]

theorem asked (t : Activation σ) (call : HostCall) : SameBindings t (Eval.ask call t).2 := by
  unfold Eval.ask
  split <;> exact ⟨rfl, rfl⟩

theorem calm : Eval.Calm (SameBindings : Activation σ → Activation σ → Prop) where
  refl := refl
  trans := trans
  note t n := ⟨rfl, rfl⟩
  serial t k := ⟨rfl, rfl⟩
  record t f _ := ⟨rfl, rfl⟩
  exported t name v := by
    unfold Activation.addExport
    split <;> exact ⟨rfl, rfl⟩
  resolve t path := asked t _
  read t path := asked t _
  serve t target args _ := by
    unfold Eval.serveHost
    dsimp only
    split <;> exact ⟨rfl, rfl⟩

variable {t u : Activation σ}

/-- Once a call is left, only its own frame has changed, and that is gone. -/
theorem of_call {function : String} {env : Env} (h : Restores (t.enterCall function env) u) :
    SameBindings t u.leaveCall :=
  ⟨h.outer, h.globals (List.cons_ne_nil _ _)⟩

theorem of_isolate (h : Restores { t with frames := [∅] } u) :
    SameBindings t { u with frames := t.frames } :=
  ⟨rfl, h.globals (List.cons_ne_nil _ _)⟩

theorem of_load {path : String} (h : Restores (t.enterModule path) u) (baseDir : String) :
    SameBindings t (u.leaveModule path baseDir) :=
  ⟨h.outer, h.globals (List.cons_ne_nil _ _)⟩

end SameBindings

namespace Eval

section Nested

variable [Host σ] {self : Node → Eval σ Value} (hself : ∀ n, Keeps Restores (self n))
include hself

theorem sameBindings_callClosure (f : Closure Value) (args : List Value) :
    Keeps SameBindings (callClosure self f args) :=
  fun _ => SameBindings.calm.callClosure fun _ => .of_call (hself f.body _)

theorem sameBindings_runNested (n : Node) : Keeps SameBindings (runNested self n) :=
  fun _ => KeepsFrom.runNested (.of_isolate (hself n _))

theorem sameBindings_runModule (path : String) (program : Node) :
    Keeps SameBindings (runModule self path program) :=
  fun _ => SameBindings.of_load (hself program _) _

theorem sameBindings_callCapability (steps nesting : Nat) (target : String) (args : List Value) :
    Keeps SameBindings (callCapability self steps nesting target args) :=
  SameBindings.calm.callCapability (sameBindings_runNested hself) steps nesting target args

theorem sameBindings_runMachine (steps nesting : Nat) (p : BytecodeProgram) (entry : String)
    (args : List Value) :
    Keeps SameBindings (runMachine (callCapability self steps nesting) steps p entry args) :=
  SameBindings.calm.runMachine (sameBindings_callCapability hself steps nesting) steps p entry args

theorem sameBindings_runBytecode (steps nesting : Nat) (bytecode : Node) (entry : String)
    (args : Node) :
    Keeps SameBindings (runBytecode (callCapability self steps nesting) steps bytecode entry args) :=
  SameBindings.calm.runBytecode (sameBindings_callCapability hself steps nesting) steps bytecode entry
    args

/-- The module of an import changes no bindings, before its exports are bound. -/
theorem sameBindings_module (path : String) : Calm.KeepsModule SameBindings self path := by
  refine fun t program _ _ => KeepsFrom.runModule ⟨.of_load (hself program _) _, fun _ => ?_⟩
  obtain ⟨hframes, hglobals⟩ := SameBindings.of_load (hself program _) t.session.baseDir
  exact ⟨hframes, hglobals⟩

/-- A node that is no `Let` and no `Import` binds nothing: if the nodes below it leave all bindings, so
does the node. -/
theorem sameBindings_evalForm (steps : Nat) {n : Node} (hbind : n.form? ≠ some .bind)
    (himport : n.form? ≠ some .importModule)
    (hchildren : n.form? ≠ some .fn → ∀ c ∈ n.children, Keeps SameBindings (self c)) :
    Keeps SameBindings (evalForm self steps n) :=
  SameBindings.calm.evalForm steps hchildren (fun hform => absurd hform hbind)
    (sameBindings_callCapability hself steps steps) (sameBindings_callClosure hself)
    fun hform => absurd hform himport

end Nested

end Eval

/-! ## 2. The names that code binds -/

/-- The node binds the name where it is evaluated: a `Let` of the name, or an `Import` of a module into
whose namespace the name belongs. -/
def Node.Writes (n : Node) (x : String) : Prop :=
  n.form? = some .bind ∧ n.ident? "name" = some x ∨
    n.form? = some .importModule ∧
      ∃ path name, x = Eval.moduleNamespace path (n.text? "as") ++ "." ++ name

/-- The current binding of the name is the same. -/
def SameAt (x : String) (t u : Activation σ) : Prop := u.env.find? x = t.env.find? x

theorem SameBindings.at {t u : Activation σ} (h : SameBindings t u) (x : String) : SameAt x t u := by
  unfold SameAt
  rw [h.env]

namespace Eval

variable [Host σ]

theorem calm_sameAt (x : String) : Calm (SameAt x : Activation σ → Activation σ → Prop) where
  refl _ := rfl
  trans h h' := h'.trans h
  note t n := (SameBindings.calm.note t n).at x
  serial t k := (SameBindings.calm.serial t k).at x
  record t f hf := (SameBindings.calm.record t f hf).at x
  exported t name v := (SameBindings.calm.exported t name v).at x
  resolve t _ := (SameBindings.asked t _).at x
  read t _ := (SameBindings.asked t _).at x
  serve t target args h := (SameBindings.calm.serve t target args h).at x

omit [Host σ] in
theorem sameAt_bindName {x name : String} (hne : x ≠ name) (v : Value) :
    Keeps (SameAt x : Activation σ → Activation σ → Prop) (bindName name v) := by
  intro t
  show (t.mapEnv fun env => env.insert name v).env.find? x = t.env.find? x
  rw [Activation.env_mapEnv, Dict.find?_insert_of_ne _ hne]

omit [Host σ] in
theorem sameAt_bindExports {x ns : String} (hne : ∀ name, x ≠ ns ++ "." ++ name)
    (exports : Exports) :
    Keeps (SameAt x : Activation σ → Activation σ → Prop) (bindExports ns exports) := by
  intro t
  unfold KeepsFrom SameAt bindExports
  dsimp only
  rw [Activation.env_mapEnv]
  rcases Dict.find?_insertAll_cases t.env
    (exports.entries.map fun e => (ns ++ "." ++ e.1, e.2)) x with ⟨-, hfind⟩ | ⟨v, hv, -⟩
  · exact hfind
  · obtain ⟨e, -, heq⟩ := List.mem_map.mp hv
    exact absurd (congrArg Prod.fst heq).symm (hne e.1)

/-- Evaluating a node changes no current binding but those that the code of its scope writes. -/
theorem find?_env_eval (fuel : Nat) {n : Node} {x : String} (hfree : ∀ m ∈ n.ownCode, ¬m.Writes x)
    (t : Activation σ) : (eval fuel n t).2.env.find? x = t.env.find? x := by
  induction fuel generalizing n t with
  | zero => rfl
  | succ fuel ih =>
    have hcalm : Calm (SameAt x : Activation σ → Activation σ → Prop) := calm_sameAt x
    have hkeeps : ∀ m, Keeps Restores (eval fuel m : Eval σ Value) := restores_eval fuel
    have hself := hfree n n.mem_ownCode_self
    have hform : Keeps (SameAt x) (evalForm (eval fuel) fuel n : Eval σ Value) := by
      refine hcalm.evalForm fuel (fun hfn c hc => ?_) (fun hbind name hname v => ?_) ?_ ?_ ?_
      · -- the code of a child is code of the same scope
        have hin : n.isFn = false := by
          by_contra hfn'
          exact hfn (Node.form?_of_isFn (by simpa using hfn'))
        exact ih fun m hm => hfree m (Node.ownCode_subset hin hc hm)
      · refine sameAt_bindName (fun heq => hself (.inl ⟨hbind, ?_⟩)) v
        rw [hname, heq]
      · exact fun target args t => (sameBindings_callCapability hkeeps fuel fuel target args t).at x
      · exact fun f args t => (sameBindings_callClosure hkeeps f args t).at x
      · refine fun himport => hcalm.evalImport (fun path t program hidle hnew =>
          (sameBindings_module hkeeps path program hidle hnew).at x) fun path exports => ?_
        exact sameAt_bindExports (fun name heq => hself (.inr ⟨himport, path, name, heq⟩)) exports
    exact hcalm.entering (fun h => h) n hform t

end Eval

/-! ## 3. Whole runs -/

variable [Host σ]

/-- Globals and enclosing frames are isolated. A run in a frame of its own and a run of the machine
leave the globals. Wherever evaluation has come to, a call of a closure, the program of a module, a
nested program and a capability call, so also a nested run of the machine, leave the globals and all
frames. Evaluation in a frame leaves the globals and the frames outside of it; in the frame itself, or
in the globals without one, it binds only names of a `Let` or an `Import` that is code of the same
scope, and no other node binds anything by itself. -/
theorem Session.bindings_isolated (fuel : Nat) :
    (∀ (s : Session σ) (n : Node) (frame : Env),
      (s.evaluateInFrame fuel n frame).2.2.globals = s.globals) ∧
    (∀ (s : Session σ) (p : BytecodeProgram) (entry : String) (args : List Value),
      (s.runProgram fuel p entry args).2.globals = s.globals) ∧
    (∀ (s : Session σ) (bytecode : Node) (entry : String) (args : Node),
      (s.runBytecode fuel bytecode entry args).2.globals = s.globals) ∧
    (∀ (t : Activation σ) (f : Closure Value) (args : List Value),
      SameBindings t (Eval.callClosure (Eval.eval fuel) f args t).2) ∧
    (∀ (t : Activation σ) (path : String) (program : Node),
      SameBindings t (Eval.runModule (Eval.eval fuel) path program t).2) ∧
    (∀ (t : Activation σ) (n : Node), SameBindings t (Eval.runNested (Eval.eval fuel) n t).2) ∧
    (∀ (t : Activation σ) (nesting : Nat) (bytecode : Node) (entry : String) (args : Node),
      SameBindings t (Eval.runBytecode (Eval.callCapability (Eval.eval fuel) fuel nesting) fuel
        bytecode entry args t).2) ∧
    (∀ (t : Activation σ) (nesting : Nat) (target : String) (args : List Value),
      SameBindings t (Eval.callCapability (Eval.eval fuel) fuel nesting target args t).2) ∧
    (∀ (t : Activation σ) (n : Node),
      (Eval.eval fuel n t).2.frames.tail = t.frames.tail ∧
      ((Eval.eval fuel n t).2.frames = [] ↔ t.frames = []) ∧
      (t.frames ≠ [] → (Eval.eval fuel n t).2.session.globals = t.session.globals) ∧
      ∀ x, (∀ m ∈ n.ownCode, ¬m.Writes x) →
        (Eval.eval fuel n t).2.env.find? x = t.env.find? x) ∧
    ∀ (n : Node), n.form? ≠ some .bind → n.form? ≠ some .importModule →
      (n.form? ≠ some .fn → ∀ c ∈ n.children, Eval.Keeps SameBindings (Eval.eval fuel c : Eval σ _)) →
      ∀ t : Activation σ, SameBindings t (Eval.evalForm (Eval.eval fuel) fuel n t).2 := by
  have hkeeps : ∀ n, Eval.Keeps Restores (Eval.eval fuel n : Eval σ Value) := Eval.restores_eval fuel
  refine ⟨fun s n frame => ?_, fun s p entry args => ?_, fun s bytecode entry args => ?_, ?_, ?_, ?_,
    ?_, ?_, ?_, ?_⟩
  · exact (hkeeps n ⟨s, [frame]⟩).globals (List.cons_ne_nil _ _)
  · exact (Eval.sameBindings_runMachine hkeeps fuel fuel p entry args ⟨s, []⟩).globals
  · exact (Eval.sameBindings_runBytecode hkeeps fuel fuel bytecode entry args ⟨s, []⟩).globals
  · exact fun t f args => Eval.sameBindings_callClosure hkeeps f args t
  · exact fun t path program => Eval.sameBindings_runModule hkeeps path program t
  · exact fun t n => Eval.sameBindings_runNested hkeeps n t
  · exact fun t nesting bytecode entry args =>
      Eval.sameBindings_runBytecode hkeeps fuel nesting bytecode entry args t
  · exact fun t nesting target args =>
      Eval.sameBindings_callCapability hkeeps fuel nesting target args t
  · intro t n
    have hrestores := hkeeps n t
    exact ⟨hrestores.outer, hrestores.framed, hrestores.globals,
      fun x hfree => Eval.find?_env_eval fuel hfree t⟩
  · exact fun n hbind himport hchildren t =>
      Eval.sameBindings_evalForm hkeeps fuel hbind himport hchildren t

/-- A program with a function that binds a name in its body, and a call of it. -/
def innerLet : Node :=
  let name (text : String) : Attrs := attrs [("name", .identifier text)]
  let inner : Node :=
    { kind := "Let", id := "l", attrs := name "y"
      children := [{ kind := "Lit", id := "i", attrs := attrs [("value", .int 1)] }] }
  let function : Node :=
    { kind := "Fn", id := "f", attrs := attrs [("params", .string "")]
      children := [{ kind := "Block", id := "b", children := [inner] }] }
  { kind := "Program", id := "p"
    children :=
      [{ kind := "Let", id := "m", attrs := name "f", children := [function] },
       { kind := "Call", id := "c", attrs := attrs [("target", .identifier "f")] }] }

theorem Session.bindings_isolated_innerLet :
    (∀ m ∈ innerLet.ownCode, ¬m.Writes "y") ∧
      (Eval.eval 9 innerLet ⟨Session.fresh "", []⟩).2.env.find? "y" =
        (Session.fresh "").globals.find? "y" := by
  have hcode : ∀ m ∈ innerLet.ownCode,
      m.form? ≠ some .importModule ∧ m.ident? "name" ≠ some "y" := by decide +kernel
  have hfree : ∀ m ∈ innerLet.ownCode, ¬m.Writes "y" := by
    rintro m hm (⟨-, hname⟩ | ⟨himport, -⟩)
    · exact (hcode m hm).2 hname
    · exact (hcode m hm).1 himport
  obtain ⟨-, -, -, -, -, -, -, -, heval, -⟩ := Session.bindings_isolated (σ := LocalHost) 9
  exact ⟨hfree, (heval ⟨Session.fresh "", []⟩ innerLet).2.2.2 "y" hfree⟩

end Arbor
