import Arbor.Proofs.Evaluation.ImportOutcomes

/-!
# Where a binding comes from

A name that is bound differently behind an evaluation was bound by the code of its scope: by a `Let`,
which binds no read-only name, or by an `Import`, which binds what a module exports
(`Eval.traced_eval`). So only an `Import` can change a read-only global, and only one with a dot in its
name (`Session.readOnly_kept`).
-/

namespace Arbor

variable {σ : Type} [Host σ]

/-- Between the two sessions the import can bind the name to the value. Its path resolves to that of a
module that is known in the end, and the module exports the value under what follows the namespace in
the name. -/
def Node.Supplies (m : Node) (s u : Session σ) (x : String) (v : Value) : Prop :=
  m.form? = some .importModule ∧
    ∃ (path resolved name : String) (exports : Exports) (host : σ),
      m.text? "path" = some path ∧ HostReaches s.host host ∧
      (Eval.resolveModule path ⟨{ s with host }, []⟩).1 = .value resolved ∧
      u.modules.cache.find? resolved = some exports ∧ exports.find? name = some v ∧
      x = Eval.moduleNamespace resolved (m.text? "as") ++ "." ++ name

/-- A module that is known stays known, with the same exports. -/
theorem Node.Supplies.mono {m : Node} {s u w : Session σ} {x : String} {v : Value}
    (h : m.Supplies s u x v) (hu : u.Balanced w) : m.Supplies s w x v := by
  obtain ⟨hform, path, resolved, name, exports, host, hpath, hhost, hresolves, hcached, hrest⟩ := h
  exact ⟨hform, path, resolved, name, exports, host, hpath, hhost, hresolves,
    hu.cache _ _ hcached, hrest⟩

/-- The name has a current binding of which the code accounts for: the one that it had in the beginning,
that of a `Let`, if the name is not read-only, or that of an `Import`. -/
inductive Explained (s : Session σ) (old : Option Value) (code : List Node) (x : String)
    (t : Activation σ) : Prop
  | kept : t.env.find? x = old → Explained s old code x t
  | written (m : Node) : m ∈ code → m.form? = some .bind → m.ident? "name" = some x →
    x ∉ s.readOnly → Explained s old code x t
  | supplied (m : Node) (v : Value) : m ∈ code → m.Supplies s t.session x v →
    t.env.find? x = some v → Explained s old code x t

/-- A step that does not bind the name leaves what accounts for it. -/
theorem Explained.of_sameAt {s : Session σ} {old : Option Value} {code : List Node} {x : String}
    {t u : Activation σ} (h : Explained s old code x t) (hsession : t.session.Balanced u.session)
    (hsame : SameAt x t u) : Explained s old code x u := by
  cases h with
  | kept hold => exact .kept (hsame.trans hold)
  | written m hm hform hname hfree => exact .written m hm hform hname hfree
  | supplied m v hm hsupplies hfind => exact .supplied m v hm (hsupplies.mono hsession) (hsame.trans hfind)

/-- An activation that evaluation has come to from the session, in the same directory. -/
structure Traced (s : Session σ) (old : Option Value) (code : List Node) (x : String)
    (t : Activation σ) : Prop where
  readOnly : t.session.readOnly = s.readOnly
  baseDir : t.session.baseDir = s.baseDir
  host : HostReaches s.host t.session.host
  binding : Explained s old code x t

namespace Traced

variable {s : Session σ} {old : Option Value} {code : List Node} {x : String} {t u : Activation σ}

/-- What is given back between two points, whatever is bound there. -/
theorem of_binding (h : Traced s old code x t) (hrestores : Restores t u)
    (hsession : t.session.Balanced u.session) (hbinding : Explained s old code x u) :
    Traced s old code x u :=
  ⟨hrestores.readOnly.trans h.readOnly, hsession.baseDir.trans h.baseDir,
    h.host.trans hrestores.host, hbinding⟩

theorem of_sameAt (h : Traced s old code x t) (hrestores : Restores t u)
    (hsession : t.session.Balanced u.session) (hsame : SameAt x t u) : Traced s old code x u :=
  h.of_binding hrestores hsession (h.binding.of_sameAt hsession hsame)

theorem deepen (h : Traced s old code x t) : Traced s old code x t.deepen :=
  ⟨h.readOnly, h.baseDir, h.host, h.binding.of_sameAt { Session.Balanced.refl t.session with } rfl⟩

theorem surface (h : Traced s old code x t) : Traced s old code x t.surface :=
  ⟨h.readOnly, h.baseDir, h.host, h.binding.of_sameAt { Session.Balanced.refl t.session with } rfl⟩

end Traced

namespace Eval

variable (s : Session σ) (old : Option Value) (code : List Node) (x : String)

/-- A step keeps the origin of the name. -/
abbrev KeepsOrigin (t u : Activation σ) : Prop := Traced s old code x t → Traced s old code x u

variable {s old code x}

theorem calm_keepsOrigin : Calm (KeepsOrigin s old code x) where
  refl _ h := h
  trans h h' ht := h' (h ht)
  note t n h :=
    h.of_sameAt (invariant_restores.note t n) (invariant_balanced.note t n) ((calm_sameAt x).note t n)
  serial t k h :=
    h.of_sameAt (invariant_restores.serial t k) (invariant_balanced.serial t k)
      ((calm_sameAt x).serial t k)
  record t f hf h :=
    h.of_sameAt (invariant_restores.record t f hf) (invariant_balanced.record t f hf)
      ((calm_sameAt x).record t f hf)
  exported t name v h :=
    h.of_sameAt (invariant_restores.exported t name v) (invariant_balanced.exported t name v)
      ((calm_sameAt x).exported t name v)
  resolve t path h :=
    h.of_sameAt (invariant_restores.resolve t path) (invariant_balanced.resolve t path)
      ((calm_sameAt x).resolve t path)
  read t path h :=
    h.of_sameAt (invariant_restores.read t path) (invariant_balanced.read t path)
      ((calm_sameAt x).read t path)
  serve t target args hallowed h :=
    h.of_sameAt (invariant_restores.serve t target args hallowed)
      (invariant_balanced.serve t target args hallowed) ((calm_sameAt x).serve t target args hallowed)

/-- A step that restores and balances, and does not bind the name, keeps its origin. -/
theorem keepsOrigin_of_sameAt {α : Type} {step : Eval σ α} (hrestores : Keeps Restores step)
    (hbalanced : Keeps (fun t u : Activation σ => t.session.Balanced u.session) step)
    (hsame : Keeps (SameAt x) step) : Keeps (KeepsOrigin s old code x) step :=
  fun t h => h.of_sameAt (hrestores t) (hbalanced t) (hsame t)

theorem keepsOrigin_bindName {m : Node} (hm : m ∈ code) (hform : m.form? = some .bind) {name : String}
    (hname : m.ident? "name" = some name) (hheld : name = x → x ∉ s.readOnly) (v : Value) :
    Keeps (KeepsOrigin s old code x) (bindName name v) := by
  by_cases heq : name = x
  · subst heq
    exact fun t h => h.of_binding (invariant_restores.bindName name v t)
      (invariant_balanced.bindName name v t) (.written m hm hform hname (hheld rfl))
  · exact keepsOrigin_of_sameAt (invariant_restores.bindName name v)
      (invariant_balanced.bindName name v) (sameAt_bindName (Ne.symm heq) v)

/-! ## Imports -/

omit [Host σ] in
/-- Where the run of a module's program counts as a success, its exports are kept. -/
theorem settleModule_cached {path : String} {ran : Outcome Value × Exports} {t u : Activation σ}
    {exports : Exports} (h : settleModule path ran t = (.value (.ok exports), u)) :
    u.session.modules.cache.find? path = some exports := by
  obtain ⟨o, found⟩ := ran
  cases o with
  | value v =>
    cases v with
    | node n =>
      unfold settleModule at h
      dsimp only at h
      split at h
      · cases h
      · cases h
        exact Dict.find?_insert_self _ _ _
    | _ =>
      cases h
      exact Dict.find?_insert_self _ _ _
  | returned v =>
    cases h
    exact Dict.find?_insert_self _ _ _
  | halted e => cases h

/-- Once an import has come to exports, the session knows the module with them. -/
theorem importModule_cached {self : Node → Eval σ Value} {path importId : String} {t u : Activation σ}
    {exports : Exports} (h : importModule self path importId t = (.value (.ok exports), u)) :
    u.session.modules.cache.find? path = some exports := by
  rw [importModule_eq] at h
  cases hstanding : t.session.modules.standing path with
  | loaded known =>
    rw [hstanding] at h
    cases h
    unfold Modules.standing at hstanding
    split at hstanding
    · next hfind =>
      cases hstanding
      exact hfind
    · split at hstanding <;> cases hstanding
  | underWay =>
    rw [hstanding] at h
    cases h
  | fresh =>
    rw [hstanding, importAs_fresh_eq] at h
    split at h
    · cases h
    · split at h
      · cases h
      · exact settleModule_cached h
    · cases h
    · cases h

omit [Host σ] in
/-- Binding the exports of a module binds a name to one of them, or leaves it. -/
theorem bindExports_cases (ns : String) (exports : Exports) (x : String) (t : Activation σ) :
    SameAt x t (bindExports ns exports t).2 ∨ ∃ name v, x = ns ++ "." ++ name ∧
      exports.find? name = some v ∧ (bindExports ns exports t).2.env.find? x = some v := by
  unfold SameAt bindExports
  dsimp only
  rw [Activation.env_mapEnv]
  obtain ⟨-, hfind⟩ | ⟨v, hmem, hfind⟩ := t.env.find?_insertAll_cases
    (exports.entries.map fun e => (ns ++ "." ++ e.1, e.2)) x
  · exact .inl hfind
  · obtain ⟨⟨name, v'⟩, hentry, heq⟩ := List.mem_map.mp hmem
    cases heq
    exact .inr ⟨name, v', rfl, Dict.find?_eq_some_iff.mpr hentry, hfind⟩

omit [Host σ] in
/-- Each export is bound under its qualified name. -/
theorem find?_bindExports (ns : String) {exports : Exports} {name : String} {v : Value}
    (hexport : exports.find? name = some v) (t : Activation σ) :
    (bindExports ns exports t).2.env.find? (ns ++ "." ++ name) = some v := by
  have hmem : (ns ++ "." ++ name, v) ∈ exports.entries.map fun e => (ns ++ "." ++ e.1, e.2) :=
    List.mem_map_of_mem (f := fun e => (ns ++ "." ++ e.1, e.2)) (Dict.find?_eq_some_iff.mp hexport)
  unfold bindExports
  dsimp only
  rw [Activation.env_mapEnv]
  obtain ⟨hnot, -⟩ | ⟨w, hw, hfind⟩ := t.env.find?_insertAll_cases
    (exports.entries.map fun e => (ns ++ "." ++ e.1, e.2)) (ns ++ "." ++ name)
  · exact absurd (List.mem_map_of_mem (f := Prod.fst) hmem) hnot
  · obtain ⟨⟨name', w'⟩, hentry, heq⟩ := List.mem_map.mp hw
    obtain ⟨hname, rfl⟩ := Prod.mk.inj heq
    -- no two exports have one qualified name
    have hsame : name' = name := (String.append_right_inj (ns ++ ".")).mp hname
    rw [hsame, ← Dict.find?_eq_some_iff, hexport] at hentry
    rw [hfind, hentry]

theorem keepsOrigin_evalImport {fuel : Nat} {m : Node} (hm : m ∈ code)
    (hform : m.form? = some .importModule) :
    Keeps (KeepsOrigin s old code x) (evalImport (eval fuel) m) := by
  have hcalm : Calm (KeepsOrigin s old code x) := calm_keepsOrigin
  have hmodule (path : String) : Calm.KeepsModule (KeepsOrigin s old code x) (eval fuel) path :=
    fun t program hidle hnew h => h.of_sameAt
      (invariant_restores.keepsModule (restores_eval fuel) path program hidle hnew)
      (invariant_balanced.keepsModule (invariant_balanced.eval fuel) path program hidle hnew)
      ((sameBindings_module (restores_eval fuel) path program hidle hnew).at x)
  intro t ht
  unfold evalImport
  cases hpath : m.text? "path" with
  | none => exact ht
  | some path =>
    refine hcalm.bindFrom (hcalm.resolveModule path t) (fun resolved t₁ hresolves => ?_) ht
    refine hcalm.bindFrom (hcalm.importModule (hmodule resolved) m.id t₁) fun imported u himport => ?_
    cases imported with
    | error e => exact hcalm.pure _ u
    | ok exports =>
      refine hcalm.bindFrom (fun hu => ?_) fun _ w _ => hcalm.pure _ w
      have hrestores := invariant_restores.bindExports
        (moduleNamespace resolved (m.text? "as")) exports u
      have hbalanced := invariant_balanced.bindExports
        (moduleNamespace resolved (m.text? "as")) exports u
      obtain hsame | ⟨name, v, hx, hexport, hfind⟩ :=
        bindExports_cases (moduleNamespace resolved (m.text? "as")) exports x u
      · exact hu.of_sameAt hrestores hbalanced hsame
      · -- the path resolves as it does from the start, since the directory is the same
        have hstart : (resolveModule path ⟨{ s with host := t.session.host }, []⟩).1 =
            .value resolved := by
          have hcongr := resolveModule_fst_congr (t := t)
            (u := ⟨{ s with host := t.session.host }, []⟩) rfl ht.baseDir.symm path
          rw [hcongr, hresolves]
        have hcached := hbalanced.cache resolved exports (importModule_cached himport)
        refine hu.of_binding hrestores hbalanced (.supplied m v hm ?_ hfind)
        exact ⟨hform, path, resolved, name, exports, t.session.host, hpath, ht.host, hstart, hcached,
          hexport, hx⟩

/-! ## Nodes -/

/-- A `Let` of a read-only name is at fault before it evaluates anything. -/
theorem evalForm_of_readOnly {self : Node → Eval σ Value} {m : Node} {name : String} {t : Activation σ}
    (hform : m.form? = some .bind) (hname : m.ident? "name" = some name)
    (hheld : name ∈ t.session.readOnly) (steps : Nat) :
    evalForm self steps m t = (.halted (.fault (.readOnlyBinding name m.id)), t) := by
  unfold evalForm evalBind
  rw [hform, hname]
  dsimp only
  rw [bind_def]
  unfold getSession
  dsimp only
  rw [if_pos (List.contains_iff_mem.mpr hheld)]
  rfl

/-- Behind the evaluation of a node, the code of its scope accounts for every current binding. -/
theorem traced_eval (fuel : Nat) {n : Node} (hcode : n.ownCode ⊆ code) :
    Keeps (KeepsOrigin s old code x) (eval fuel n) := by
  have hcalm : Calm (KeepsOrigin s old code x) := calm_keepsOrigin
  induction fuel generalizing n with
  | zero => exact fun t h => h
  | succ fuel ih =>
    have hself : n ∈ code := hcode n.mem_ownCode_self
    have hkeeps : ∀ m, Keeps Restores (eval fuel m : Eval σ Value) := restores_eval fuel
    have hbalanced := invariant_balanced.eval (σ := σ) fuel
    have hform : Keeps (KeepsOrigin s old code x) (evalForm (eval fuel) fuel n : Eval σ Value) := by
      by_cases hheld : n.form? = some .bind ∧ n.ident? "name" = some x ∧ x ∈ s.readOnly
      · obtain ⟨hbind, hname, hheld⟩ := hheld
        intro t ht
        rw [evalForm_of_readOnly hbind hname (ht.readOnly ▸ hheld)]
        exact ht
      · refine hcalm.evalForm fuel (fun hfn c hc => ?_) (fun hbind name hname v => ?_) ?_ ?_
          (keepsOrigin_evalImport hself)
        · -- the code of a child is code of the same scope
          have hin : n.isFn = false := by
            by_contra hfn'
            exact hfn (Node.form?_of_isFn (by simpa using hfn'))
          exact ih fun m hm => hcode (Node.ownCode_subset hin hc hm)
        · refine keepsOrigin_bindName hself hbind hname (fun heq hread => hheld ?_) v
          exact ⟨hbind, heq ▸ hname, hread⟩
        · exact fun target args => keepsOrigin_of_sameAt
            (invariant_restores.callCapability hkeeps fuel fuel target args)
            (invariant_balanced.callCapability hbalanced fuel fuel target args)
            fun t => (sameBindings_callCapability hkeeps fuel fuel target args t).at x
        · exact fun f args => keepsOrigin_of_sameAt (invariant_restores.callClosure hkeeps f args)
            (invariant_balanced.callClosure hbalanced f args)
            fun t => (sameBindings_callClosure hkeeps f args t).at x
    exact hcalm.entering (fun h ht => (h ht.deepen).surface) n hform

end Eval

/-- A qualified name has a dot. -/
theorem Node.Supplies.dot_mem {m : Node} {s u : Session σ} {x : String} {v : Value}
    (h : m.Supplies s u x v) : '.' ∈ x.toList := by
  obtain ⟨-, path, resolved, name, exports, host, -, -, -, -, -, rfl⟩ := h
  simp

/-- Only an `Import` changes a read-only global. However the evaluation of a node against the globals
ends, and whatever it has bound, called, run and imported on the way: a read-only name is bound as it was
before, or to what a module exports for which there is an `Import` in the code of the scope. A name
without a dot is bound as it was before. -/
theorem Session.readOnly_kept (s : Session σ) (fuel : Nat) (n : Node) {x : String}
    (hx : x ∈ s.readOnly) :
    let u := (s.evaluate fuel n).2
    u.readOnly = s.readOnly ∧
      (u.globals.find? x = s.globals.find? x ∨
        ∃ m ∈ n.ownCode, ∃ v, m.Supplies s u x v ∧ u.globals.find? x = some v) ∧
      ('.' ∉ x.toList → u.globals.find? x = s.globals.find? x) := by
  intro u
  have hstart : Traced s (s.globals.find? x) n.ownCode x ⟨s, []⟩ := ⟨rfl, rfl, .refl, .kept rfl⟩
  have htraced := Eval.traced_eval fuel (fun _ hm => hm) ⟨s, []⟩ hstart
  -- without a frame the globals are the current bindings
  have hframes : (Eval.eval fuel n ⟨s, []⟩).2.frames = [] :=
    (Eval.restores_eval fuel n ⟨s, []⟩).framed.mpr rfl
  have henv : (Eval.eval fuel n ⟨s, []⟩).2.env = u.globals := by
    unfold Activation.env
    rw [hframes]
    rfl
  have hbinding : u.globals.find? x = s.globals.find? x ∨
      ∃ m ∈ n.ownCode, ∃ v, m.Supplies s u x v ∧ u.globals.find? x = some v := by
    cases htraced.binding with
    | kept hold => exact .inl (henv ▸ hold)
    | written m _ _ _ hfree => exact absurd hx hfree
    | supplied m v hm hsupplies hfind => exact .inr ⟨m, hm, v, hsupplies, henv ▸ hfind⟩
  refine ⟨htraced.readOnly, hbinding, fun hdot => ?_⟩
  obtain hsame | ⟨m, -, v, hsupplies, -⟩ := hbinding
  · exact hsame
  · exact absurd hsupplies.dot_mem hdot

/-- A session that has the module `m` within reach and two read-only names, of which `pi` is bound. -/
def guarding : Session LocalHost :=
  { Session.withFiles [("/m.aos", (exporting { kind := "Lit", id := "v" }).format)] with
    globals := .ofList [("pi", .int 3)]
    readOnly := ["pi", "m.x"] }

/-- A program that imports the module `m` and then binds `pi`. -/
def importAndRebind : Node where
  kind := "Program"
  id := "p"
  children :=
    [importM,
      { kind := "Let", id := "l", attrs := attrs [("name", .identifier "pi")]
        children := [{ kind := "Lit", id := "v", attrs := attrs [("value", .int 4)] }] }]

/-- The import has bound a read-only name, and the `Let` behind it has not. -/
theorem Session.readOnly_kept_rebinding :
    let done := guarding.evaluate 9 importAndRebind
    "pi" ∈ guarding.readOnly ∧ '.' ∉ "pi".toList ∧ done.1.toOption.isNone = true ∧
      (done.2.globals.find? "m.x").isSome = true ∧
      done.2.globals.find? "pi" = guarding.globals.find? "pi" := by
  intro done
  have hheld : "pi" ∈ guarding.readOnly := by decide
  obtain ⟨hfault, himported⟩ :
      done.1.toOption.isNone = true ∧ (done.2.globals.find? "m.x").isSome = true := by decide +kernel
  obtain ⟨-, -, hkept⟩ := Session.readOnly_kept guarding 9 importAndRebind hheld
  exact ⟨hheld, by decide, hfault, himported, hkept (by decide)⟩

/-- An import binds a read-only name. -/
theorem not_readOnly_kept :
    ¬∀ (s : Session LocalHost) (fuel : Nat) (n : Node) (x : String), x ∈ s.readOnly →
      (s.evaluate fuel n).2.globals.find? x = s.globals.find? x := by
  intro hall
  have hsame := congrArg Option.isSome (hall guarding 9 importAndRebind "m.x" (by decide))
  have hbound : ((guarding.evaluate 9 importAndRebind).2.globals.find? "m.x").isSome = true := by
    decide +kernel
  have hunbound : (guarding.globals.find? "m.x").isSome = false := by decide
  rw [hbound, hunbound] at hsame
  cases hsame

end Arbor
