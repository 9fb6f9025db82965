import Arbor.Proofs.Capability.Annotated
import Arbor.Proofs.Evaluation.Agreement
import Arbor.Proofs.Evaluation.Isolation

/-!
# The bindings that a scope starts with

The code of a scope, say the body of a closure in a call of it, binds names as it goes. `Eval.evalScope`
evaluates such code and notes the names. All others stay bound as they were at the start: nothing
changes if they are put back to that before every node of the code (`Eval.callClosure_evalScope`). So what
a node of the code finds bound is what the scope has started with, unless the code itself has bound the
name since.
-/

namespace Arbor

variable {σ : Type}

/-! ## 1. Evaluation that notes what it binds -/

/-- The activation over its host with notes beside it. -/
def Activation.annotated {ν : Type} (t : Activation σ) (notes : ν) : Activation (Annotated ν σ) :=
  ⟨t.session.annotated notes, t.frames⟩

/-- Puts the names of `start` back to what they are there, but for those that are noted because the code
of the scope has bound them. The names `fixed` are put back in any case. -/
def Activation.putBack (start : Env) (fixed : List String)
    (t : Activation (Annotated (List String) σ)) : Activation (Annotated (List String) σ) :=
  t.mapEnv fun env => env.insertAll (start.entries.filter fun e => e.1 ∈ fixed ∨ e.1 ∉ t.notes)

namespace Eval

/-- Evaluates a node whose value is about to be bound in the scope, and notes the name. -/
def boundNoting (self : Node → Eval (Annotated (List String) σ) Value) (n : Node) (name : String) :
    Eval (Annotated (List String) σ) Value := do
  let v ← bound self n name
  annotating (name :: ·)
  pure v

/-- The names that an import binds. -/
def importedNames (ns : String) : Except Node Exports → List String
  | .error _ => []
  | .ok exports => exports.entries.map fun e => ns ++ "." ++ e.1

/-- Ends an import in the scope, and notes the names that it binds. -/
def bindImportNoting (ns : String) (imported : Except Node Exports) :
    Eval (Annotated (List String) σ) Value := do
  annotating (importedNames ns imported ++ ·)
  bindImport ns imported

/-- Does `renew` before the step. -/
def renewing {α : Type} (renew : Activation σ → Activation σ) (step : Eval σ α) : Eval σ α :=
  fun t => step (renew t)

section Scoped

variable [Host σ]

/-- Evaluates an `Import` of the scope. -/
def importNoting (self : Node → Eval (Annotated (List String) σ) Value) (n : Node) :
    Eval (Annotated (List String) σ) Value :=
  match n.text? "path" with
  | none => pure .unknown
  | some path => do
    let resolved ← resolveModule path
    let imported ← importModule self resolved n.id
    bindImportNoting (moduleNamespace resolved (n.text? "as")) imported

/-- Evaluates a node of the scope's code by its form: the code below it by `self`, and what runs in
frames of its own by `outside`. -/
def scopeForm (self outside : Node → Eval (Annotated (List String) σ) Value) (steps : Nat)
    (n : Node) : Eval (Annotated (List String) σ) Value :=
  match n.form? with
  | some .bind => evalBind (boundNoting self) n
  -- the arguments are code of the scope, the function that is called is not
  | some .call => evalCall self (callCapability outside steps steps) (callClosure outside) n
  | some .importModule => importNoting outside n
  | _ => evalForm self steps n

/-- Evaluates a node of the scope's code, where `renew` is done before each of its nodes. -/
def evalScope (renew : Activation (Annotated (List String) σ) → Activation (Annotated (List String) σ)) :
    Nat → Node → Eval (Annotated (List String) σ) Value
  | 0, _ => halt .outOfFuel
  | fuel + 1, n =>
    entering n (renewing renew (scopeForm (evalScope renew fuel) (eval fuel) fuel n))

end Scoped

end Eval

/-! ## 2. The notes make no difference -/

namespace Likeness

variable [Host σ] {L : Likeness σ (Annotated (List String) σ)} (hnotes : L.IgnoresNotes)
include hnotes

section Nested

variable {self outside : Node → Eval σ Value}
  {self' outside' : Node → Eval (Annotated (List String) σ) Value}
  (hself : ∀ {n m}, L.Nodes n m → L.Steps L.Values (self n) (self' m))
  (houtside : ∀ {n m}, L.Nodes n m → L.Steps L.Values (outside n) (outside' m))

include hself in
theorem boundNoting {n m : Node} (hn : L.Nodes n m) (name : String) :
    L.Steps L.Values (Eval.bound self n name) (Eval.boundNoting self' m name) := by
  intro t u ht
  have hends := bound hself hn name ht
  unfold Eval.boundNoting
  rw [Eval.bind_def]
  generalize Eval.bound self n name t = x at hends ⊢
  generalize Eval.bound self' m name u = y at hends ⊢
  cases hends with
  | value hv hact => exact .value hv (hnotes.annotate hact _)
  | returned hv hact => exact .returned hv hact
  | halted hact => exact .halted hact

include houtside in
theorem importNoting {n m : Node} (hn : L.Nodes n m) :
    L.Steps L.Values (Eval.evalImport outside n) (Eval.importNoting outside' m) := by
  unfold Eval.evalImport Eval.importNoting
  rw [hn.text, hn.text, hn.id]
  cases m.text? "path" with
  | none => exact same _
  | some path =>
    refine bind (resolveModule path) fun resolved resolved' hresolved => ?_
    obtain rfl := hresolved
    exact bind (importModule houtside resolved m.id) fun r r' hr =>
      hnotes.annotating _ (bindImport _ hr)

end Nested

theorem scopeForm {self : Node → Eval σ Value}
    {self' outside' : Node → Eval (Annotated (List String) σ) Value}
    (hself : ∀ {n m}, L.Nodes n m → L.Steps L.Values (self n) (self' m))
    (houtside : ∀ {n m}, L.Nodes n m → L.Steps L.Values (self n) (outside' m)) (steps : Nat)
    {n m : Node} (hn : L.Nodes n m) :
    L.Steps L.Values (Eval.evalForm self steps n) (Eval.scopeForm self' outside' steps m) := by
  have hform : n.form? = m.form? := hn.form
  unfold Eval.scopeForm
  split
  · next hm =>
    unfold Eval.evalForm
    rw [hform, hm]
    exact evalBind (fun hn name => boundNoting hnotes hself hn name) hn (hform.trans hm)
  · next hm =>
    unfold Eval.evalForm
    rw [hform, hm]
    exact evalCall hself (callCapability houtside steps steps) (callClosure houtside) hn
      (hform.trans hm)
  · next hm =>
    unfold Eval.evalForm
    rw [hform, hm]
    exact importNoting hnotes houtside hn
  · exact evalForm hself steps hn

theorem evalScope (fuel : Nat) : ∀ {n m : Node}, L.Nodes n m →
    L.Steps L.Values (Eval.eval fuel n) (Eval.evalScope id fuel m) := by
  induction fuel with
  | zero => exact fun _ => halt _
  | succ fuel ih => exact fun hn => entering hn (scopeForm hnotes ih (eval fuel) fuel hn)

end Likeness

/-! ## 3. Putting back changes nothing -/

/-- The names that are not noted are bound as in `start`. None of the names `fixed` is noted. -/
structure Activation.Since (start : Env) (fixed : List String)
    (t : Activation (Annotated (List String) σ)) : Prop where
  unnoted : ∀ x ∈ fixed, x ∉ t.notes
  find? : ∀ x ∉ t.notes, t.env.find? x = start.find? x

namespace Activation

variable {start : Env} {fixed : List String} {t u : Activation (Annotated (List String) σ)}

theorem mapEnv_eq_self {t : Activation σ} {f : Env → Env} (h : f t.env = t.env) : t.mapEnv f = t := by
  obtain ⟨s, frames⟩ := t
  cases frames with
  | nil =>
    show (⟨{ s with globals := f s.globals }, []⟩ : Activation σ) = ⟨s, []⟩
    rw [show f s.globals = s.globals from h]
  | cons frame outer =>
    show (⟨s, f frame :: outer⟩ : Activation σ) = ⟨s, frame :: outer⟩
    rw [show f frame = frame from h]

theorem find?_putBack {x : String} {v : Value} (hstart : start.find? x = some v)
    (hx : x ∈ fixed ∨ x ∉ t.notes) : (t.putBack start fixed).env.find? x = some v := by
  have hentry : (x, v) ∈ start.entries.filter fun e => e.1 ∈ fixed ∨ e.1 ∉ t.notes :=
    List.mem_filter.mpr ⟨Dict.find?_eq_some_iff.mp hstart, by simpa using hx⟩
  unfold putBack
  rw [env_mapEnv]
  obtain ⟨hnot, -⟩ | ⟨w, hw, hfind⟩ := Dict.find?_insertAll_cases t.env
    (start.entries.filter fun e => e.1 ∈ fixed ∨ e.1 ∉ t.notes) x
  · exact absurd (List.mem_map_of_mem (f := Prod.fst) hentry) hnot
  · -- a name has one entry in `start`
    have hsame : start.find? x = some w := Dict.find?_eq_some_iff.mpr (List.mem_filter.mp hw).1
    rw [hfind, ← hsame, hstart]

namespace Since

theorem putBack_eq (h : t.Since start fixed) : t.putBack start fixed = t := by
  refine mapEnv_eq_self (Dict.ext_find? fun x => ?_)
  obtain ⟨-, hfind⟩ | ⟨v, hv, hfind⟩ := Dict.find?_insertAll_cases t.env
    (start.entries.filter fun e => e.1 ∈ fixed ∨ e.1 ∉ t.notes) x
  · exact hfind
  · obtain ⟨hentry, hx⟩ := List.mem_filter.mp hv
    have hunnoted : x ∉ t.notes := (of_decide_eq_true hx).elim (h.unnoted x) id
    rw [hfind, h.find? x hunnoted, Dict.find?_eq_some_iff.mpr hentry]

theorem of_same (h : t.Since start fixed) (hbindings : SameBindings t u) (hnotes : u.notes = t.notes) :
    u.Since start fixed := by
  refine ⟨fun x hx => hnotes ▸ h.unnoted x hx, fun x hx => ?_⟩
  rw [hbindings.env]
  exact h.find? x (hnotes ▸ hx)

/-- Names that are noted may be bound to anything. -/
theorem assign (h : t.Since start fixed) {names : List String} (hfree : ∀ x ∈ fixed, x ∉ names)
    {f : Env → Env} (hf : ∀ x ∉ names, (f t.env).find? x = t.env.find? x) :
    ((t.annotate (names ++ ·)).mapEnv f).Since start fixed := by
  have hnotes : ((t.annotate (names ++ ·)).mapEnv f).notes = names ++ t.notes := by
    unfold mapEnv
    split <;> rfl
  have henv : ((t.annotate (names ++ ·)).mapEnv f).env = f t.env := env_mapEnv _ f
  refine ⟨fun x hx => ?_, fun x hx => ?_⟩
  · rw [hnotes, List.mem_append, not_or]
    exact ⟨hfree x hx, h.unnoted x hx⟩
  · rw [hnotes, List.mem_append, not_or] at hx
    rw [henv, hf x hx.1]
    exact h.find? x hx.2

end Since

end Activation

namespace Eval

variable [Host σ]

/-- Plain evaluation takes no notes. -/
theorem invariant_notes {ν : Type} :
    Invariant fun t u : Activation (Annotated ν σ) => u.notes = t.notes where
  refl _ := rfl
  trans h h' := h'.trans h
  note _ _ := rfl
  serial _ _ := rfl
  record _ _ _ := rfl
  exported t name v := by
    unfold Activation.addExport
    split <;> rfl
  resolve t _ := Annotated.notes_ask _ t
  read t _ := Annotated.notes_ask _ t
  serve t target args _ := Annotated.notes_serveHost target args t
  assign t f := by
    unfold Activation.mapEnv
    split <;> rfl
  nest h := h
  isolate h := h
  call h := h
  load _ _ h := ⟨h, fun _ => h⟩

omit [Host σ] in
theorem bind_boundNoting {α : Type} (self : Node → Eval (Annotated (List String) σ) Value)
    (n : Node) (name : String) (f : Value → Eval (Annotated (List String) σ) α) :
    boundNoting self n name >>= f =
      bound self n name >>= fun v => annotating (name :: ·) >>= fun _ => f v := by
  funext t
  unfold boundNoting
  simp only [bind_def]
  -- an outcome other than a value goes by the notes on both sides
  rcases bound self n name t with ⟨o, u⟩
  cases o <;> rfl

section Agreement

variable {start : Env} {fixed : List String}

theorem calm_since : Calm fun t u : Activation (Annotated (List String) σ) =>
    t.Since start fixed → u.Since start fixed where
  refl _ h := h
  trans h h' ht := h' (h ht)
  note t n h := h.of_same (SameBindings.calm.note t n) rfl
  serial t k h := h.of_same (SameBindings.calm.serial t k) rfl
  record t f hf h := h.of_same (SameBindings.calm.record t f hf) rfl
  exported t name v h :=
    h.of_same (SameBindings.calm.exported t name v) (invariant_notes.exported t name v)
  resolve t _ h := h.of_same (SameBindings.asked t _) (Annotated.notes_ask _ t)
  read t _ h := h.of_same (SameBindings.asked t _) (Annotated.notes_ask _ t)
  serve t target args hallowed h :=
    h.of_same (SameBindings.calm.serve t target args hallowed) (Annotated.notes_serveHost target args t)

omit [Host σ] in
/-- What runs in frames of its own is the same, and leaves the bindings and the notes. -/
theorem agrees_of_keeps {α : Type} {step : Eval (Annotated (List String) σ) α}
    (hbindings : Keeps SameBindings step) (hnotes : Keeps (fun t u => u.notes = t.notes) step) :
    Agrees (Activation.Since start fixed) step step :=
  .of_keeps fun t ht => ht.of_same (hbindings t) (hnotes t)

variable {self self' : Node → Eval (Annotated (List String) σ) Value} {n : Node}

theorem agrees_evalBind
    (hchildren : ∀ c ∈ n.children, Agrees (Activation.Since start fixed) (self c) (self' c))
    (hfree : ∀ x ∈ fixed, n.ident? "name" ≠ some x) :
    Agrees (Activation.Since start fixed) (evalBind (boundNoting self) n)
      (evalBind (boundNoting self') n) := by
  unfold evalBind
  split
  · exact .pure _
  · next name hname =>
    refine Agrees.getSession.bind fun s => ?_
    split
    · exact .halt _
    · split
      · next child hc =>
        rw [hc, List.forall_mem_cons] at hchildren
        rw [bind_boundNoting, bind_boundNoting]
        refine (Agrees.bound calm_since hchildren.1 name).bind fun v => .of_keeps fun t ht => ?_
        -- by the time the name is bound, it is noted
        show ((t.annotate ([name] ++ ·)).mapEnv fun env => env.insert name v).Since start fixed
        refine ht.assign (fun x hx hmem => ?_) fun x hx => ?_
        · exact hfree x hx (List.mem_singleton.mp hmem ▸ hname)
        · exact Dict.find?_insert_of_ne _ (fun heq => hx (List.mem_singleton.mpr heq)) v
      · exact .pure _

omit [Host σ] in
theorem agrees_bindImportNoting {ns : String}
    (hfree : ∀ x ∈ fixed, ∀ name, x ≠ ns ++ "." ++ name) (imported : Except Node Exports) :
    Agrees (Activation.Since start fixed)
      (bindImportNoting ns imported : Eval (Annotated (List String) σ) Value)
      (bindImportNoting ns imported) := by
  refine .of_keeps fun t ht => ?_
  cases imported with
  | error e => exact ht.of_same (.refl t) rfl
  | ok exports =>
    show ((t.annotate (exports.entries.map (fun e => ns ++ "." ++ e.1) ++ ·)).mapEnv fun env =>
      env.insertAll (exports.entries.map fun e => (ns ++ "." ++ e.1, e.2))).Since start fixed
    refine ht.assign (fun x hx hmem => ?_) fun x hx => ?_
    · obtain ⟨e, -, heq⟩ := List.mem_map.mp hmem
      exact hfree x hx e.1 heq.symm
    · obtain ⟨-, hfind⟩ | ⟨v, hv, -⟩ := Dict.find?_insertAll_cases t.env
        (exports.entries.map fun e => (ns ++ "." ++ e.1, e.2)) x
      · exact hfind
      · obtain ⟨e, he, heq⟩ := List.mem_map.mp hv
        exact absurd (List.mem_map.mpr ⟨e, he, (Prod.mk.inj heq).1⟩) hx

theorem agrees_importNoting (fuel : Nat)
    (hfree : ∀ x ∈ fixed, ∀ path name, x ≠ moduleNamespace path (n.text? "as") ++ "." ++ name) :
    Agrees (Activation.Since start fixed)
      (importNoting (eval fuel) n : Eval (Annotated (List String) σ) Value)
      (importNoting (eval fuel) n) := by
  have hkeeps : ∀ n, Keeps Restores (eval fuel n : Eval (Annotated (List String) σ) Value) :=
    restores_eval fuel
  have hnotes : ∀ n, Keeps (fun t u => u.notes = t.notes)
      (eval fuel n : Eval (Annotated (List String) σ) Value) := invariant_notes.eval fuel
  unfold importNoting
  split
  · exact .pure _
  · next path _ =>
    refine .bind (.of_keeps (calm_since.resolveModule path)) fun resolved => ?_
    have himport : Agrees (Activation.Since start fixed) (importModule (eval fuel) resolved n.id)
        (importModule (eval fuel) resolved n.id) :=
      agrees_of_keeps (SameBindings.calm.importModule (sameBindings_module hkeeps resolved) n.id)
        (invariant_notes.importModule (invariant_notes.keepsModule hnotes resolved) n.id)
    exact himport.bind fun imported =>
      agrees_bindImportNoting (fun x hx => hfree x hx resolved) imported

theorem agrees_scopeForm (fuel : Nat)
    (hchildren : n.form? ≠ some .fn → ∀ c ∈ n.children,
      Agrees (Activation.Since start fixed) (self c) (self' c))
    (hfree : ∀ x ∈ fixed, ¬n.Writes x) :
    Agrees (Activation.Since start fixed)
      (scopeForm self (eval fuel) fuel n : Eval (Annotated (List String) σ) Value)
      (scopeForm self' (eval fuel) fuel n) := by
  have hkeeps : ∀ n, Keeps Restores (eval fuel n : Eval (Annotated (List String) σ) Value) :=
    restores_eval fuel
  have hnotes : ∀ n, Keeps (fun t u => u.notes = t.notes)
      (eval fuel n : Eval (Annotated (List String) σ) Value) := invariant_notes.eval fuel
  unfold scopeForm
  split
  · next hform =>
    refine agrees_evalBind (hchildren (by simp [hform])) fun x hx hname => ?_
    exact hfree x hx (.inl ⟨hform, hname⟩)
  · next hform =>
    refine Agrees.evalCallOf (hchildren (by simp [hform])) calm_since (fun target args => ?_)
      fun f args => ?_
    · exact agrees_of_keeps (sameBindings_callCapability hkeeps fuel fuel target args)
        (invariant_notes.callCapability hnotes fuel fuel target args)
    · exact agrees_of_keeps (sameBindings_callClosure hkeeps f args)
        (invariant_notes.callClosure hnotes f args)
  · next hform =>
    refine agrees_importNoting fuel fun x hx path name heq => ?_
    exact hfree x hx (.inr ⟨hform, path, name, heq⟩)
  · next hbind hcall himport =>
    exact .evalFormOf calm_since fuel hchildren (fun h => absurd h hbind) (fun h => absurd h hcall)
      fun h => absurd h himport

end Agreement

/-- Code of a scope that binds none of the names `fixed` evaluates the same when the names that it has
not bound are put back before each of its nodes. -/
theorem agrees_evalScope {start : Env} {fixed : List String} (fuel : Nat) {n : Node}
    (hfree : ∀ x ∈ fixed, ∀ m ∈ n.ownCode, ¬m.Writes x) :
    Agrees (Activation.Since start fixed)
      (evalScope id fuel n : Eval (Annotated (List String) σ) Value)
      (evalScope (Activation.putBack start fixed) fuel n) := by
  -- along the fuel; `Since` holds before each node, so that there is nothing to put back
  induction fuel generalizing n with
  | zero => exact .halt _
  | succ fuel ih =>
    have hform : Agrees (Activation.Since start fixed)
        (scopeForm (evalScope id fuel) (eval fuel) fuel n : Eval (Annotated (List String) σ) Value)
        (scopeForm (evalScope (Activation.putBack start fixed) fuel) (eval fuel) fuel n) := by
      refine agrees_scopeForm fuel (fun hfn c hc => ?_) fun x hx => hfree x hx n n.mem_ownCode_self
      -- the code of a child is code of the same scope
      have hin : n.isFn = false := by
        by_contra hfn'
        exact hfn (Node.form?_of_isFn (by simpa using hfn'))
      exact ih fun x hx m hm => hfree x hx m (Node.ownCode_subset hin hc hm)
    refine .enteringOf calm_since (fun ht => ht.of_same ⟨rfl, rfl⟩ rfl)
      (fun ht => ht.of_same ⟨rfl, rfl⟩ rfl) n fun t ht => ?_
    unfold renewing
    rw [ht.putBack_eq]
    exact hform t ht

/-- A call of a closure whose body binds none of the names `fixed` is the same when the names that its
code has not bound are put back before each node of it to what they are when the body starts. -/
theorem callClosure_evalScope (fuel : Nat) {f : Closure Value} {fixed : List String}
    (hfree : ∀ x ∈ fixed, ∀ m ∈ f.body.ownCode, ¬m.Writes x) (args : List Value)
    (t : Activation σ) :
    ∃ names, callClosure
        (evalScope (Activation.putBack (calleeEnv t.session.globals f args) fixed) fuel) f args
        (t.annotated []) =
      Prod.map id (·.annotated names) (callClosure (eval fuel) f args t) := by
  have hnotes : (Likeness.ofAnnotated (List String) t.session.permissions :
      Likeness σ _).IgnoresNotes := Likeness.ofAnnotated_ignoresNotes _
  obtain ⟨host, hhost, hrun⟩ := Likeness.step_withHost rfl rfl
    (Likeness.callClosure (Likeness.evalScope hnotes fuel) (f := f) (g := f) rfl
      (rfl : Likeness.ValueLists _ args args)) t ⟨t.session.host, []⟩ rfl rfl
  obtain ⟨host, notes⟩ := host
  obtain rfl : host = (callClosure (eval fuel) f args t).2.session.host := hhost
  refine ⟨notes, Eq.trans (callClosure_congr ?_) hrun⟩
  -- when the body starts, its code has bound nothing
  have hstart : ((t.annotated []).enterCall (f.name?.getD "<fn>")
      (calleeEnv t.session.globals f args)).Since (calleeEnv t.session.globals f args) fixed :=
    ⟨fun x _ => List.not_mem_nil, fun x _ => rfl⟩
  exact (agrees_evalScope fuel hfree _ hstart).1

/-! ## 4. What the code finds bound -/

section Laws

variable {start : Env} {fixed : List String} {m : Node} {x : String}
  {t : Activation (Annotated (List String) σ)}

omit [Host σ] in
theorem deepen_putBack (t : Activation (Annotated (List String) σ)) :
    t.deepen.putBack start fixed = (t.putBack start fixed).deepen := by
  obtain ⟨s, frames⟩ := t
  cases frames <;> rfl

/-- Below the depth that the session allows, a node of the code is evaluated where the names are put
back. -/
theorem evalScope_eq (fuel : Nat) (hdepth : t.session.depth < t.session.maxDepth) :
    evalScope (Activation.putBack start fixed) (fuel + 1) m t =
      (nested (scopeForm (evalScope (Activation.putBack start fixed) fuel) (eval fuel) fuel m) >>=
        known m) ((t.noteStep m).putBack start fixed) := by
  unfold evalScope
  rw [entering_eq hdepth, bind_def, bind_def]
  unfold nested between renewing
  rw [deepen_putBack]

/-- A variable has the value that its name had at the start, unless the code has bound the name. -/
theorem evalScope_var {v : Value} (fuel : Nat) (hform : m.form? = some .var)
    (hname : m.ident? "name" = some x) (hstart : start.find? x = some v)
    (hx : x ∈ fixed ∨ x ∉ t.notes) (hdepth : t.session.depth < t.session.maxDepth) :
    evalScope (Activation.putBack start fixed) (fuel + 1) m t =
      known m v ((t.noteStep m).putBack start fixed) := by
  have hfound : ((t.noteStep m).putBack start fixed).env.find? x = some v :=
    Activation.find?_putBack hstart hx
  have hread : scopeForm (evalScope (Activation.putBack start fixed) fuel) (eval fuel) fuel m
      ((t.noteStep m).putBack start fixed).deepen =
      (.value v, ((t.noteStep m).putBack start fixed).deepen) := by
    unfold scopeForm evalForm evalVar
    simp only [hform, hname]
    show (Outcome.value ((((t.noteStep m).putBack start fixed).env.find? x).getD .unknown), _) = _
    rw [hfound]
    rfl
  rw [evalScope_eq fuel hdepth, bind_def]
  unfold nested between
  rw [hread]
  rfl

/-- A call whose target was a closure at the start calls that closure, unless the code has bound the
name. -/
theorem evalScope_call {f : Closure Value} (fuel : Nat) (hform : m.form? = some .call)
    (htarget : m.ident? "target" = some x) (hlookup : Contract.lookup? x = none)
    (hstart : start.find? x = some (.fn f)) (hx : x ∈ fixed ∨ x ∉ t.notes)
    (hdepth : t.session.depth < t.session.maxDepth) :
    evalScope (Activation.putBack start fixed) (fuel + 1) m t =
      (nested (operands (evalScope (Activation.putBack start fixed) fuel) m.children >>=
        callClosure (eval fuel) f) >>= known m) ((t.noteStep m).putBack start fixed) := by
  have hfound : ((t.noteStep m).putBack start fixed).env.find? x = some (.fn f) :=
    Activation.find?_putBack hstart hx
  have hcall : scopeForm (evalScope (Activation.putBack start fixed) fuel) (eval fuel) fuel m
      ((t.noteStep m).putBack start fixed).deepen =
      (operands (evalScope (Activation.putBack start fixed) fuel) m.children >>=
        callClosure (eval fuel) f) ((t.noteStep m).putBack start fixed).deepen := by
    unfold scopeForm evalCall
    simp only [hform, htarget, hlookup]
    rw [bind_def]
    unfold currentEnv
    dsimp only
    rw [bind_def]
    unfold getSession
    dsimp only
    rw [show ((t.noteStep m).putBack start fixed).deepen.env.find? x = some (.fn f) from hfound]
    rfl
  rw [evalScope_eq fuel hdepth, bind_def, bind_def]
  unfold nested between
  rw [hcall]

end Laws

end Eval

end Arbor
