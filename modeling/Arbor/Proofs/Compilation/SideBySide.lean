import Arbor.Proofs.Capability.Answers
import Arbor.Proofs.Compilation.Twins

/-!
# Two runs side by side

Two sessions evaluate the same node, and what is free in the node is bound to twins in both: then both
runs end alike, with twins for values (`Stage.correct_eval`). A `Stage` says what else the globals of
the two sessions have in common, and every node that compiles keeps it.
-/

namespace Arbor

open Compiler Eval

/-! ## 1. Nodes and stages -/

/-- The node compiles, and no call in it evaluates a program. -/
structure Runnable (functions permissions : List String) (n : Node) : Prop where
  compiles : ∃ start s code s', Compiles functions start n s code s'
  idle : ∀ m ∈ n.walk, m.form? = some .call → ∀ target ∈ m.ident? "target", Idle permissions target

theorem Compiler.CompilesAll.exists_compiles {functions : List String} {gap start : Nat}
    {ns : List Node} {s s' : Scope} {codes : List (List Instruction)}
    (h : CompilesAll functions gap start ns s codes s') :
    ∀ c ∈ ns, ∃ start s code s', Compiles functions start c s code s' := by
  induction ns generalizing start s codes with
  | nil => simp
  | cons n ns ih =>
    cases h with
    | cons hn hns =>
      intro c hc
      rcases List.mem_cons.mp hc with rfl | hc
      · exact ⟨_, _, _, _, hn⟩
      · exact ih hns c hc

theorem Node.kind_literal_ne (n : Node) : n.literal.kind ≠ .function := by
  unfold literal
  cases n.attr? "value" with
  | none => exact nofun
  | some a => cases a <;> exact nofun

theorem Runnable.child {functions permissions : List String} {n c : Node}
    (h : Runnable functions permissions n) (hc : c ∈ n.children)
    (hcode : ∃ start s code s', Compiles functions start c s code s') :
    Runnable functions permissions c :=
  ⟨hcode, fun m hm => h.idle m (Node.mem_walk_of_mem_children hc hm)⟩

/-- What two runs have in common between two definitions: `settled` names mean the same outside of all
frames, and `bindable` ones may be bound there. `Global` relates what the two sessions have bound to a
name. -/
structure Stage where
  functions : List String
  permissions : List String
  /-- The serial number that the first session gives next. -/
  serial : Nat
  settled : String → Prop
  bindable : String → Prop
  Global : String → Option Value → Option Value → Prop
  rel : ∀ {x : String} {o o' : Option Value}, settled x → Global x o o' →
    Option.Rel (Twins settled (Runnable functions permissions)) o o'
  assign : ∀ {x : String} {v w : Value}, bindable x →
    Twins settled (Runnable functions permissions) v w → Global x (some v) (some w)

namespace Stage

variable {σ α β γ δ : Type} (S : Stage)

/-- The values of the two runs are twins. -/
abbrev Values : Value → Value → Prop := Twins S.settled (Runnable S.functions S.permissions)

/-- The sessions of the two runs are at the same point, at the top level if `top` holds, and the names
are visible. -/
structure Close (top : Prop) (names : List String) (t u : Activation σ) : Prop where
  agree : t.session.Agree u.session
  permissions : t.session.permissions = S.permissions
  strict : t.session.strict = u.session.strict
  maxDepth : t.session.maxDepth = u.session.maxDepth
  depth : t.session.depth = u.session.depth
  readOnly : t.session.readOnly = []
  readOnly' : u.session.readOnly = []
  serial : t.session.nextSerial = S.serial
  frames : t.frames = [] ↔ top
  frames' : u.frames = [] ↔ top
  globals : ∀ x, S.Global x (t.session.globals.find? x) (u.session.globals.find? x)
  visible : ∀ x ∈ names, Visible S.settled (Runnable S.functions S.permissions) t.env u.env x

/-- A call finds twins under a visible name, or nothing. -/
theorem callee {d e : Env} {x : String} {o o' : Option Value}
    (hvisible : Visible S.settled (Runnable S.functions S.permissions) d e x)
    (hglobal : S.Global x o o') : Option.Rel S.Values ((d.find? x).or o) ((e.find? x).or o') := by
  obtain ⟨hrel, hsettled⟩ := hvisible
  generalize d.find? x = p at hrel hsettled ⊢
  generalize e.find? x = q at hrel ⊢
  cases hrel with
  | some htwins => exact .some htwins
  -- a name that is not bound here is settled
  | none => exact S.rel (hsettled rfl) hglobal

/-- The steps end in the same way: with values in the relation `r`, and then the names are visible. -/
inductive Ends (top : Prop) (names : List String) (r : α → β → Prop) :
    Outcome α × Activation σ → Outcome β × Activation σ → Prop where
  | value {a b t u} : r a b → S.Close top names t u → Ends top names r (.value a, t) (.value b, u)
  | returned {v w t u} : S.Values v w → S.Close top [] t u →
    Ends top names r (.returned v, t) (.returned w, u)
  | halted {e t u} : S.Close top [] t u → Ends top names r (.halted e, t) (.halted e, u)

/-- From where the names `before` are visible, the steps end in the same way, and then the names
`after` are. -/
def Steps (top : Prop) (before after : List String) (r : α → β → Prop) (step : Eval σ α)
    (step' : Eval σ β) : Prop :=
  ∀ ⦃t u⦄, S.Close top before t u → S.Ends top after r (step t) (step' u)

/-- The node can be evaluated at the stage: it is runnable, and at the top level it binds only names
that may be bound there. -/
structure Fits (top : Prop) (n : Node) : Prop where
  runnable : Runnable S.functions S.permissions n
  bindable : top → ∀ m ∈ n.walk, ∀ x ∈ m.binds, S.bindable x

/-- Where its free names are visible, both runs evaluate a node alike; then what it binds is, too. -/
def Correct (self : Node → Eval σ Value) : Prop :=
  ∀ {top : Prop} {names : List String} {n : Node}, S.Fits top n → n.free ⊆ names →
    S.Steps top names (n.binds ++ names) S.Values (self n) (self n)

variable {S} {top : Prop} {names names' : List String} {t t' u u' : Activation σ} {n : Node}

theorem Fits.child (h : S.Fits top n) {c : Node} (hc : c ∈ n.children)
    (hcode : ∃ start s code s', Compiles S.functions start c s code s') : S.Fits top c :=
  ⟨h.runnable.child hc hcode, fun htop m hm =>
    h.bindable htop m (Node.mem_walk_of_mem_children hc hm)⟩

namespace Close

theorem mono (h : S.Close top names t u) (hsubset : names' ⊆ names) : S.Close top names' t u :=
  { h with visible := fun x hx => h.visible x (hsubset hx) }

theorem noteStep (h : S.Close top names t u) (n : Node) :
    S.Close top names (t.noteStep n) (u.noteStep n) :=
  { h with agree := ⟨h.agree.host, h.agree.replay?, h.agree.permissions⟩ }

theorem recorded (h : S.Close top names t u) (target : String) (args : List Value) (v : Value)
    (phase : CallPhase) :
    S.Close top names { t with session := t.session.recordCall target args v phase }
      { u with session := u.session.recordCall target args v phase } :=
  { h with agree := ⟨h.agree.host, h.agree.replay?, h.agree.permissions⟩ }

theorem deepen (h : S.Close top names t u) : S.Close top names t.deepen u.deepen :=
  { h with
    agree := ⟨h.agree.host, h.agree.replay?, h.agree.permissions⟩
    depth := congrArg (· + 1) h.depth }

theorem surface (h : S.Close top names t u) : S.Close top names t.surface u.surface :=
  { h with
    agree := ⟨h.agree.host, h.agree.replay?, h.agree.permissions⟩
    depth := congrArg (· - 1) h.depth }

/-- Binding a name to twins makes it visible. -/
theorem assign (h : S.Close top names t u) {name : String} (hbindable : top → S.bindable name)
    {v w : Value} (hvw : S.Values v w) :
    S.Close top (name :: names) (t.mapEnv fun env => env.insert name v)
      (u.mapEnv fun env => env.insert name w) := by
  have hvisible : ∀ x ∈ name :: names, Visible S.settled (Runnable S.functions S.permissions)
      (t.mapEnv fun env => env.insert name v).env (u.mapEnv fun env => env.insert name w).env x := by
    intro x hx
    rw [Activation.env_mapEnv, Activation.env_mapEnv]
    refine Visible.insert hvw fun hne => h.visible x ?_
    exact (List.mem_cons.mp hx).resolve_left hne
  obtain ⟨s, frames⟩ := t
  obtain ⟨s', frames'⟩ := u
  cases frames with
  -- at the top level the globals change, and the name may be bound there
  | nil =>
    have htop : top := h.frames.mp rfl
    obtain rfl : frames' = [] := h.frames'.mpr htop
    refine { h with agree := ⟨h.agree.host, h.agree.replay?, h.agree.permissions⟩,
                    globals := fun x => ?_, visible := hvisible }
    show S.Global x ((s.globals.insert name v).find? x) ((s'.globals.insert name w).find? x)
    by_cases hx : x = name
    · rw [hx, Dict.find?_insert_self, Dict.find?_insert_self]
      exact S.assign (hbindable htop) hvw
    · rw [Dict.find?_insert_of_ne _ hx, Dict.find?_insert_of_ne _ hx]
      exact h.globals x
  | cons frame outer =>
    have htop : ¬top := fun htop => List.cons_ne_nil _ _ (h.frames.mpr htop)
    obtain ⟨frame', outer', rfl⟩ : ∃ frame' outer', frames' = frame' :: outer' :=
      List.exists_cons_of_ne_nil fun hnil => htop (h.frames'.mp hnil)
    have hne (frame : Env) (outer : List Env) : frame :: outer = [] ↔ top :=
      ⟨fun hnil => absurd hnil (List.cons_ne_nil _ _), fun htop' => absurd htop' htop⟩
    exact { h with frames := hne _ _, frames' := hne _ _, visible := hvisible }

/-- At the top level, what is settled is visible. -/
theorem settled (h : S.Close top [] t u) (htop : top) (hnames : ∀ x ∈ names, S.settled x) :
    S.Close top names t u := by
  have henv {a : Activation σ} (hframes : a.frames = []) : a.env = a.session.globals := by
    unfold Activation.env
    rw [hframes]
  refine { h with visible := fun x hx => ⟨?_, fun _ => hnames x hx⟩ }
  rw [henv (h.frames.mpr htop), henv (h.frames'.mpr htop)]
  exact S.rel (hnames x hx) (h.globals x)

/-- Sessions stay close at a stage that asks less of the globals. -/
theorem weaken {S' : Stage} (h : S.Close top [] t u) (hpermissions : S.permissions = S'.permissions)
    (hserial : S.serial = S'.serial) (hglobals : ∀ x o o', S.Global x o o' → S'.Global x o o') :
    S'.Close top [] t u :=
  { h with
    permissions := h.permissions.trans hpermissions
    serial := h.serial.trans hserial
    globals := fun x => hglobals x _ _ (h.globals x)
    visible := fun _ hx => absurd hx List.not_mem_nil }

/-- What gives the bindings back keeps two sessions close. -/
theorem after [Host σ] (h : S.Close top names t u) (ht : Restores t t') (hu : Restores u u')
    (hagree : t'.session.Agree u'.session) (hserial : t'.session.nextSerial = t.session.nextSerial)
    (hframes : t'.frames = t.frames) (hframes' : u'.frames = u.frames)
    (hglobals : t'.session.globals = t.session.globals)
    (hglobals' : u'.session.globals = u.session.globals) : S.Close top names t' u' := by
  have henv {a b : Activation σ} (hframes : b.frames = a.frames)
      (hglobals : b.session.globals = a.session.globals) : b.env = a.env := by
    unfold Activation.env
    rw [hframes, hglobals]
  refine ⟨hagree, ht.permissions.trans h.permissions, ?_, ?_, ?_, ht.readOnly.trans h.readOnly,
    hu.readOnly.trans h.readOnly', hserial.trans h.serial, hframes ▸ h.frames, hframes' ▸ h.frames',
    ?_, ?_⟩
  · rw [ht.strict, hu.strict, h.strict]
  · rw [ht.maxDepth, hu.maxDepth, h.maxDepth]
  · rw [ht.depth, hu.depth, h.depth]
  · rw [hglobals, hglobals']
    exact h.globals
  · rw [henv hframes hglobals, henv hframes' hglobals']
    exact h.visible

end Close

/-! ## 2. Sequencing -/

namespace Steps

variable {before mid after : List String} {r : α → β → Prop} {q : γ → δ → Prop}

theorem pure {a : α} {b : β} (h : r a b) :
    S.Steps top names names r (Pure.pure a : Eval σ α) (Pure.pure b : Eval σ β) :=
  fun _ _ ht => .value h ht

/-- What the steps see of the bindings. -/
theorem currentEnv : S.Steps top names names
    (fun d e => ∀ x ∈ names, Visible S.settled (Runnable S.functions S.permissions) d e x)
    (Eval.currentEnv : Eval σ Env) (Eval.currentEnv : Eval σ Env) :=
  fun _ _ ht => .value ht.visible ht

/-- What a call sees of the sessions. -/
theorem getSession : S.Steps top names names
    (fun s s' : Session σ => s'.permissions = s.permissions ∧
      ∀ x, S.Global x (s.globals.find? x) (s'.globals.find? x))
    Eval.getSession Eval.getSession :=
  fun _ _ ht => .value ⟨ht.agree.permissions.symm, ht.globals⟩ ht

theorem deny (contract : Contract) : S.Steps top names names (fun _ _ => True)
    (Eval.deny contract : Eval σ Unit) (Eval.deny contract : Eval σ Unit) :=
  fun _ _ ht => .value trivial (ht.recorded contract.target [] .unknown .denied)

/-- Both steps yield the value `v`, which is no function. -/
theorem same {v : Value} (h : v.kind ≠ .function) :
    S.Steps top names names S.Values (Pure.pure v : Eval σ Value) (Pure.pure v) := pure (.same h)

theorem unwind {v w : Value} (h : S.Values v w) :
    S.Steps top before after r (Eval.unwind v : Eval σ α) (Eval.unwind w : Eval σ β) :=
  fun _ _ ht => .returned h (ht.mono (List.nil_subset _))

theorem mono {step : Eval σ α} {step' : Eval σ β} (h : S.Steps top before after r step step')
    (hsubset : names ⊆ after) : S.Steps top before names r step step' := by
  intro t u ht
  have hends := h ht
  generalize step t = x at hends ⊢
  generalize step' u = y at hends ⊢
  cases hends with
  | value hr hclose => exact .value hr (hclose.mono hsubset)
  | returned hv hclose => exact .returned hv hclose
  | halted hclose => exact .halted hclose

theorem bind {step : Eval σ α} {step' : Eval σ β} {f : α → Eval σ γ} {f' : β → Eval σ δ}
    (hstep : S.Steps top before mid r step step')
    (hf : ∀ ⦃a b⦄, r a b → S.Steps top mid after q (f a) (f' b)) :
    S.Steps top before after q (step >>= f) (step' >>= f') := by
  intro t u ht
  have hends := hstep ht
  rw [bind_def, bind_def]
  generalize step t = x at hends ⊢
  generalize step' u = y at hends ⊢
  cases hends with
  | value hab hclose => exact hf hab hclose
  | returned hv hclose => exact .returned hv hclose
  | halted hclose => exact .halted hclose

theorem nested {step step' : Eval σ Value} (h : S.Steps top before after S.Values step step') :
    S.Steps top before after S.Values (Eval.nested step) (Eval.nested step') := by
  intro t u ht
  have hends := h ht.deepen
  unfold Eval.nested Eval.between
  generalize step t.deepen = x at hends ⊢
  generalize step' u.deepen = y at hends ⊢
  cases hends with
  | value hv hclose => exact .value hv hclose.surface
  | returned hv hclose => exact .returned hv hclose.surface
  | halted hclose => exact .halted hclose.surface

theorem known (n : Node) {v w : Value} (h : S.Values v w) :
    S.Steps top names names S.Values (Eval.known n v : Eval σ Value) (Eval.known n w) := by
  intro t u ht
  unfold Eval.known
  rw [h.isUnknown, ht.strict]
  split
  · exact .halted (ht.mono (List.nil_subset _))
  · exact .value h ht

/-- Both runs meet the limit on the depth at the same node. -/
theorem entering (n : Node) {step step' : Eval σ Value}
    (h : S.Steps top before after S.Values step step') :
    S.Steps top before after S.Values (Eval.entering n step) (Eval.entering n step') := by
  have hcheck : S.Steps top before before (fun _ _ => True) (checkDepth n : Eval σ Unit)
      (checkDepth n) := by
    intro t u ht
    unfold checkDepth
    dsimp only
    rw [ht.maxDepth, ht.depth]
    split
    · exact .halted (ht.mono (List.nil_subset _))
    · exact .value trivial ht
  have hnote : S.Steps top before before (fun _ _ => True) (noteStep n : Eval σ Unit) (noteStep n) :=
    fun _ _ ht => .value trivial (ht.noteStep n)
  exact hcheck.bind fun _ _ _ => hnote.bind fun _ _ _ => h.nested.bind fun _ _ hv => known n hv

end Steps

variable {self : Node → Eval σ Value} (hself : S.Correct self)
include hself

/-- Evaluating a node, whatever it binds. -/
theorem Correct.node (hfits : S.Fits top n) (hfree : n.free ⊆ names) :
    S.Steps top names names S.Values (self n) (self n) :=
  (hself hfits hfree).mono (List.subset_append_right _ _)

theorem steps_sequence {ns : List Node} (hfits : ∀ n ∈ ns, S.Fits top n)
    (hfree : Node.freeInStatements ns ⊆ names) {v w : Value} (hvw : S.Values v w) :
    S.Steps top names names S.Values (sequence self v ns) (sequence self w ns) := by
  induction ns generalizing names v w with
  | nil => exact .pure hvw
  | cons n ns ih =>
    rw [Node.freeInStatements, List.append_subset] at hfree
    -- what the statement binds is visible behind it
    have hrest : Node.freeInStatements ns ⊆ n.binds ++ names := by
      intro x hx
      by_cases hbinds : x ∈ n.binds
      · exact List.mem_append_left _ hbinds
      · exact List.mem_append_right _ (hfree.2 (List.mem_filter.mpr ⟨hx, by simpa using hbinds⟩))
    refine (hself (hfits n List.mem_cons_self) hfree.1).bind fun v w hvw => ?_
    refine Steps.mono ?_ (List.subset_append_right n.binds names)
    rw [hvw.isErr]
    split
    · exact .pure hvw
    · exact ih (fun m hm => hfits m (List.mem_cons_of_mem n hm)) hrest hvw

theorem steps_operands {ns : List Node} (hfits : ∀ n ∈ ns, S.Fits top n ∧ n.free ⊆ names) :
    S.Steps top names names (List.Forall₂ S.Values) (operands self ns) (operands self ns) := by
  induction ns with
  | nil => exact .pure .nil
  | cons n ns ih =>
    obtain ⟨hn, hfree⟩ := hfits n List.mem_cons_self
    refine (hself.node hn hfree).bind fun v w hvw => ?_
    refine (ih fun m hm => hfits m (List.mem_cons_of_mem n hm)).bind fun vs ws hvs => ?_
    exact .pure (.cons hvw hvs)

/-! ## 3. Forms -/

theorem steps_bind (hform : n.form? = some .bind) {name : String}
    (hname : n.ident? "name" = some name) {child : Node} (hchildren : n.children = [child])
    (hfits : S.Fits top n) (hcode : ∃ start s code s', Compiles S.functions start child s code s')
    (hfree : child.free ⊆ names) :
    S.Steps top names (name :: names) S.Values (evalBind (bound self) n) (evalBind (bound self) n) := by
  have hmem : child ∈ n.children := hchildren ▸ List.mem_cons_self
  have hbindable (htop : top) : S.bindable name := by
    refine hfits.bindable htop n (Node.mem_walk_self n) name ?_
    rw [Node.binds_bind hform hname]
    exact List.mem_cons_self
  have hstep {t : Activation σ} (hreadOnly : t.session.readOnly = []) :
      evalBind (bound self) n t =
        (self child >>= fun v => bindName name v >>= fun _ => pure Value.void) t := by
    obtain ⟨_, _, _, _, hcode⟩ := hcode
    unfold evalBind
    rw [hname, hchildren]
    show (if t.session.readOnly.contains name then fault (.readOnlyBinding name n.id) else
      bound self child name >>= fun v => bindName name v >>= fun _ => pure Value.void) t = _
    rw [hreadOnly]
    unfold bound
    -- what compiles is no `Fn`, so the child is evaluated like any node
    rw [hcode.isFn_eq_false]
    rfl
  have hbound : S.Steps top names (name :: names) S.Values
      (self child >>= fun v => bindName name v >>= fun _ => pure Value.void)
      (self child >>= fun v => bindName name v >>= fun _ => pure Value.void) := by
    refine (hself.node (hfits.child hmem hcode) hfree).bind fun v w hvw => ?_
    have hassign : S.Steps top names (name :: names) (fun _ _ => True) (bindName name v : Eval σ Unit)
        (bindName name w) := fun _ _ ht => .value trivial (ht.assign hbindable hvw)
    exact hassign.bind fun _ _ _ => .pure .void
  intro t u ht
  rw [hstep ht.readOnly, hstep ht.readOnly']
  exact hbound ht

omit hself in
theorem steps_var (hform : n.form? = some .var) (hfree : n.free ⊆ names) :
    S.Steps top names names S.Values (evalVar n : Eval σ Value) (evalVar n) := by
  intro t u ht
  unfold evalVar
  cases hname : n.ident? "name" with
  | none => exact .value .unknown ht
  | some name => exact .value (ht.visible name (hfree (Node.mem_free_var hform hname))).lookup ht

theorem steps_operator {op : Operator}
    (hfits : ∀ c ∈ n.children, S.Fits top c ∧ c.free ⊆ names) :
    S.Steps top names names S.Values (evalOperator self op n) (evalOperator self op n) := by
  unfold evalOperator
  split
  · exact .pure .unknown
  · refine (steps_operands hself hfits).bind fun args args' hargs => ?_
    rw [Operator.apply_congr (Twins.map_uncaptured hargs)]
    exact .same (op.kind_apply_ne args')

omit hself in
theorem steps_choose {thenStep elseStep : Eval σ Value} {v w : Value} (hvw : S.Values v w)
    (hthen : S.Steps top names names S.Values thenStep thenStep)
    (helse : S.Steps top names names S.Values elseStep elseStep) :
    S.Steps top names names S.Values (choose thenStep elseStep v) (choose thenStep elseStep w) := by
  cases hvw with
  | closure _ _ _ _ => exact .pure .unknown
  | same _ =>
    unfold choose
    split
    · exact hthen
    · exact helse
    · exact .pure .unknown

theorem steps_branch (hfits : ∀ c ∈ n.children, S.Fits top c ∧ c.free ⊆ names) :
    S.Steps top names names S.Values (evalBranch self n) (evalBranch self n) := by
  have hnode {c : Node} (hc : c ∈ n.children) : S.Steps top names names S.Values (self c) (self c) :=
    hself.node (hfits c hc).1 (hfits c hc).2
  unfold evalBranch
  split
  · next condition thenArm hchildren =>
    refine (hnode (by simp [hchildren])).bind fun v w hvw => ?_
    exact steps_choose hvw (hnode (by simp [hchildren])) (.pure .void)
  · next condition thenArm elseArm hchildren =>
    refine (hnode (by simp [hchildren])).bind fun v w hvw => ?_
    exact steps_choose hvw (hnode (by simp [hchildren])) (hnode (by simp [hchildren]))
  · exact .pure .unknown

/-! ## 4. Calls -/

omit hself in
theorem returns_of_notMem_runningTargets : ∀ c ∈ Contract.table, c.target ∉ runningTargets →
    c.returns ≠ .unknown ∧ c.returns ≠ .function := by decide

variable [Host σ]

omit hself in
/-- Only a program that is evaluated can come to a function. -/
theorem callCapability_kind_ne {target : String} {t : Activation σ}
    (hidle : Idle t.session.permissions target) (steps nesting : Nat) (args : List Value) {v : Value}
    (hv : (callCapability self steps nesting target args t).1 = .value v) : v.kind ≠ .function := by
  rcases hidle with hrunning | ⟨contract, hlookup, hdenied⟩
  · cases hlookup : Contract.lookup? target with
    | none =>
      have hunknown : callCapability self steps nesting target args t = (.value .unknown, t) := by
        cases nesting <;> unfold callCapability callChecked <;> rw [hlookup] <;> rfl
      rw [hunknown] at hv
      cases hv
      exact nofun
    | some contract =>
      obtain ⟨hmem, rfl⟩ := Contract.mem_table_of_lookup? hlookup
      obtain ⟨hknown, hfunction⟩ := returns_of_notMem_runningTargets contract hmem hrunning
      obtain hkind | hkind | hreturns | herr := callCapability_fits hlookup hv
      · exact hkind ▸ hfunction
      · exact hkind ▸ nofun
      · exact absurd hreturns hknown
      · cases v with
        | fn f => cases herr
        | _ => exact nofun
  · rw [callCapability_denied hlookup self steps nesting args hdenied] at hv
    cases hv
    exact nofun

variable (hkeeps : ∀ n, Keeps Restores (self n))
include hkeeps

theorem steps_callClosure {f g : Closure Value} (hfg : S.Values (.fn f) (.fn g))
    {args args' : List Value} (hargs : List.Forall₂ S.Values args args') :
    S.Steps top names names S.Values (callClosure self f args) (callClosure self g args') := by
  obtain ⟨hruns, hparams, hbody, hname⟩ := hfg.body
  intro t u ht
  by_cases hfit : f.params.length = args.length
  · have hfit' : g.params.length = args'.length := by rw [hparams, hfit, hargs.length_eq]
    let t₁ := t.enterCall (f.name?.getD "<fn>") (calleeEnv t.session.globals f args)
    let u₁ := u.enterCall (g.name?.getD "<fn>") (calleeEnv u.session.globals g args')
    have hne (frame : Env) (outer : List Env) : frame :: outer = [] ↔ False :=
      iff_false_intro (List.cons_ne_nil _ _)
    -- the body starts in a frame in which all that is free in it is visible
    have hclose : S.Close False f.body.free t₁ u₁ :=
      { ht with
        agree := ⟨ht.agree.host, ht.agree.replay?, ht.agree.permissions⟩
        frames := hne _ _
        frames' := hne _ _
        visible := fun x hx => hfg.visible_calleeEnv hargs hfit
          (fun y hy => S.rel hy (ht.globals y)) hx }
    have hends := hself.node ⟨hruns, fun htop => htop.elim⟩ (List.Subset.refl _) hclose
    -- however the body ends, both sessions have their frames and globals back
    have hleave {o o' : Outcome Value} {t₂ u₂ : Activation σ} (htrun : self f.body t₁ = (o, t₂))
        (hurun : self f.body u₁ = (o', u₂)) {kept : List String} (h₂ : S.Close False kept t₂ u₂) :
        S.Close top names t₂.leaveCall u₂.leaveCall := by
      have ht₂ : Restores t₁ t₂ := (hkeeps f.body t₁).of_eq htrun
      have hu₂ : Restores u₁ u₂ := (hkeeps f.body u₁).of_eq hurun
      exact ht.after (invariant_restores.call ht₂) (invariant_restores.call hu₂)
        ⟨h₂.agree.host, h₂.agree.replay?, h₂.agree.permissions⟩ (h₂.serial.trans ht.serial.symm)
        ht₂.outer hu₂.outer (ht₂.globals (List.cons_ne_nil _ _)) (hu₂.globals (List.cons_ne_nil _ _))
    rcases htrun : self f.body t₁ with ⟨o, t₂⟩
    rcases hurun : self f.body u₁ with ⟨o', u₂⟩
    have hurun' : self g.body u₁ = (o', u₂) := by rw [hbody, hurun]
    rw [callClosure_of_fit hfit htrun, callClosure_of_fit hfit' hurun']
    rw [htrun, hurun] at hends
    cases hends with
    | value hv h₂ => exact .value hv (hleave htrun hurun h₂)
    | returned hv h₂ => exact .value hv (hleave htrun hurun h₂)
    | halted h₂ => exact .halted ((hleave htrun hurun h₂).mono (List.nil_subset _))
  · have hfit' : g.params.length ≠ args'.length := by rwa [hparams, ← hargs.length_eq]
    rw [callClosure_of_ne hfit, callClosure_of_ne hfit']
    exact .value .unknown ht

omit hself in
/-- A capability that evaluates nothing is called alike, and comes to no function. -/
theorem steps_callCapability {target : String} (hidle : Idle S.permissions target) (steps : Nat)
    {args args' : List Value} (hargs : List.Forall₂ S.Values args args') :
    S.Steps top names names S.Values (callCapability self steps steps target args)
      (callCapability self steps steps target args') := by
  intro t u ht
  have hidle' : Idle t.session.permissions target := ht.permissions.symm ▸ hidle
  have hlists := Twins.map_uncaptured hargs
  have hanswers := callCapability_agree_of_idle hidle' ht.agree hlists self self steps steps
    (Iff.refl (steps = 0))
  have hback := callCapability_agree_of_idle (ht.agree.permissions ▸ hidle') ht.agree.symm hlists.symm
    self self steps steps (Iff.refl (steps = 0))
  have hclose : S.Close top names (callCapability self steps steps target args t).2
      (callCapability self steps steps target args' u).2 :=
    ht.after (invariant_restores.callCapability hkeeps steps steps target args t)
      (invariant_restores.callCapability hkeeps steps steps target args' u) hanswers.agree
      hanswers.serial hanswers.frames hback.frames hanswers.globals hback.globals
  have hkind {v : Value} (hv : (callCapability self steps steps target args t).1 = .value v) :
      v.kind ≠ .function := callCapability_kind_ne hidle' steps steps args hv
  have houtcome := hanswers.outcome
  have hreturned := hanswers.returned
  generalize callCapability self steps steps target args t = x at *
  generalize callCapability self steps steps target args' u = y at *
  obtain ⟨o, t'⟩ := x
  obtain ⟨o', u'⟩ := y
  obtain rfl : o = o' := houtcome
  cases o with
  | value v => exact .value (.same (hkind rfl)) hclose
  | returned v => exact absurd rfl (hreturned v)
  | halted e => exact .halted (hclose.mono (List.nil_subset _))

theorem steps_call (hform : n.form? = some .call) {target : String}
    (htarget : n.ident? "target" = some target) (hfits : S.Fits top n) (hfree : n.free ⊆ names)
    (hargs : ∀ c ∈ n.children, S.Fits top c ∧ c.free ⊆ names) (steps : Nat) :
    S.Steps top names names S.Values
      (evalCall self (callCapability self steps steps) (callClosure self) n)
      (evalCall self (callCapability self steps steps) (callClosure self) n) := by
  have hidle := hfits.runnable.idle n (Node.mem_walk_self n) hform target htarget
  have hoperands := steps_operands hself hargs
  unfold evalCall
  rw [htarget]
  dsimp only
  cases hlookup : Contract.lookup? target with
  | some contract =>
    refine Steps.getSession.bind fun s s' hs => ?_
    have hheld : s'.hasPermission contract.permission = s.hasPermission contract.permission := by
      unfold Session.hasPermission
      rw [hs.1]
    rw [hheld]
    split
    · exact hoperands.bind fun _ _ hvs => steps_callCapability hkeeps hidle steps hvs
    · exact (Steps.deny contract).bind fun _ _ _ => .pure .unknown
  | none =>
    refine Steps.currentEnv.bind fun d e hde => Steps.getSession.bind fun s s' hs => ?_
    have hvisible := hde target (hfree (Node.mem_free_call hform htarget hlookup))
    have hcallee := S.callee hvisible (hs.2 target)
    generalize (d.find? target).or (s.globals.find? target) = o at hcallee ⊢
    generalize (e.find? target).or (s'.globals.find? target) = o' at hcallee ⊢
    cases hcallee with
    | none => exact .pure .unknown
    | @some v w htwins =>
      cases htwins with
      | closure hruns hdomain hsettled hcaptured =>
        have hfg : S.Values _ _ := .closure hruns hdomain hsettled hcaptured
        exact hoperands.bind fun _ _ hvs => steps_callClosure hself hkeeps hfg hvs
      | same hkind =>
        cases v with
        | fn f => exact absurd rfl hkind
        | _ => exact .pure .unknown

/-! ## 5. All nodes -/

theorem steps_evalForm (hfits : S.Fits top n) (hfree : n.free ⊆ names) (steps : Nat) :
    S.Steps top names (n.binds ++ names) S.Values (evalForm self steps n) (evalForm self steps n) := by
  obtain ⟨start, s, code, s', hcode⟩ := hfits.runnable.compiles
  have hbinds {form : Form} (hform : n.form? = some form) (hne : form ≠ .bind) :
      n.binds ++ names = names := by
    rw [Node.binds_of_ne hform hne]
    rfl
  have hchild {form : Form} (hform : n.form? = some form)
      (hsimple : form ≠ .program ∧ form ≠ .block ∧ form ≠ .fn ∧ form ≠ .var ∧ form ≠ .lit) {c : Node}
      (hc : c ∈ n.children) (hcode : ∃ start s code s', Compiles S.functions start c s code s') :
      S.Fits top c ∧ c.free ⊆ names :=
    ⟨hfits.child hc hcode,
      List.Subset.trans (Node.free_subset_of_mem_children hform hsimple hc) hfree⟩
  have hliteral (hform : n.form? = some .lit) :
      S.Steps top names (n.binds ++ names) S.Values (pure n.literal : Eval σ Value)
        (pure n.literal) := by
    rw [hbinds hform (by decide)]
    exact .same n.kind_literal_ne
  -- a node that compiles has one of the forms of the compiler
  unfold evalForm
  cases hcode with
  | sequence hform hcodes =>
    have hstatements : ∀ c ∈ n.children, S.Fits top c :=
      fun c hc => hfits.child hc (hcodes.exists_compiles c hc)
    rw [Node.free_sequence hform] at hfree
    have hsequence := steps_sequence (v := .void) (w := .void) hself hstatements hfree .void
    rcases hform with hform | hform <;> rw [hform, hbinds hform (by decide)] <;> exact hsequence
  | @bind _ _ _ _ child _ _ hform hname hchildren hcode =>
    have hmem : child ∈ n.children := hchildren ▸ List.mem_cons_self
    obtain ⟨-, hfree'⟩ := hchild hform (by decide) hmem ⟨_, _, _, _, hcode⟩
    rw [hform, Node.binds_bind hform hname]
    exact steps_bind hself hform hname hchildren hfits ⟨_, _, _, _, hcode⟩ hfree'
  | var hform hname hslot =>
    rw [hform, hbinds hform (by decide)]
    exact steps_var hform hfree
  | text hform _ | int hform _ | bool hform _ =>
    rw [hform]
    exact hliteral hform
  | callSys hform htarget _ hcodes | call hform htarget _ _ hcodes =>
    rw [hform, hbinds hform (by decide)]
    exact steps_call hself hkeeps hform htarget hfits hfree
      (fun c hc => hchild hform (by decide) hc (hcodes.exists_compiles c hc)) steps
  | branch hform hchildren hcondition hthen =>
    rw [hform, hbinds hform (by decide)]
    refine steps_branch hself fun c hc => hchild hform (by decide) hc ?_
    rw [hchildren] at hc
    simp only [List.mem_cons, List.not_mem_nil, or_false] at hc
    rcases hc with rfl | rfl
    · exact ⟨_, _, _, _, hcondition⟩
    · exact ⟨_, _, _, _, hthen⟩
  | branchElse hform hchildren hcondition hthen helse =>
    rw [hform, hbinds hform (by decide)]
    refine steps_branch hself fun c hc => hchild hform (by decide) hc ?_
    rw [hchildren] at hc
    simp only [List.mem_cons, List.not_mem_nil, or_false] at hc
    rcases hc with rfl | rfl | rfl
    · exact ⟨_, _, _, _, hcondition⟩
    · exact ⟨_, _, _, _, hthen⟩
    · exact ⟨_, _, _, _, helse⟩
  | leaveVoid hform hnone =>
    rw [hform]
    unfold evalLeave
    rw [hnone]
    exact .unwind .void
  | leave hform hsome hcode =>
    obtain ⟨hfits', hfree'⟩ :=
      hchild hform (by decide) (hsome ▸ List.mem_cons_self) ⟨_, _, _, _, hcode⟩
    rw [hform]
    unfold evalLeave
    rw [hsome]
    exact (hself.node hfits' hfree').bind fun v w hvw => .unwind hvw
  | operator hform harity hcodes =>
    rw [hform, hbinds hform (by simp)]
    exact steps_operator hself fun c hc => hchild hform (by simp) hc (hcodes.exists_compiles c hc)

omit hself hkeeps in
/-- Where its free names are visible, two runs evaluate a node alike. -/
theorem correct_eval (S : Stage) (fuel : Nat) : S.Correct (eval fuel : Node → Eval σ Value) := by
  induction fuel with
  | zero => exact fun _ _ _ _ ht => .halted (ht.mono (List.nil_subset _))
  | succ fuel ih =>
    intro top names n hfits hfree
    exact .entering n (steps_evalForm ih (fun m => invariant_restores.eval fuel m) hfits hfree fuel)

end Stage

end Arbor
