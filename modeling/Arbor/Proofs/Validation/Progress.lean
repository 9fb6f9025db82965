import Arbor.Proofs.Validation.Soundness
import Arbor.Proofs.Validation.StraightLine

/-!
# Valid straight-line programs come to known values

Most operators come to something whenever their operands are of the right kinds. In programs that use
only these, and no functions, the kinds that the flow pass computes leave nothing open: where it finds
nothing, the run ends with a known value, also in a strict session, and every node comes to a known
value of exactly its kind (`Flow.straightLine_known`).
-/

namespace Arbor

/-! ## 1. Steps that come to a value -/

namespace Eval

variable {σ α β : Type}

/-- From `t` the step comes to a value, of which `Q` holds, and of where it leads. -/
def Comes (t : Activation σ) (step : Eval σ α) (Q : α → Activation σ → Prop) : Prop :=
  ∃ a u, step t = (.value a, u) ∧ Q a u

namespace Comes

variable {t : Activation σ} {Q : α → Activation σ → Prop}

theorem pure {a : α} (h : Q a t) : Comes t (Pure.pure a) Q := ⟨a, t, rfl, h⟩

theorem bind {step : Eval σ α} {f : α → Eval σ β} {Q' : β → Activation σ → Prop}
    (hstep : Comes t step Q) (hf : ∀ a u, Q a u → Comes u (f a) Q') : Comes t (step >>= f) Q' := by
  obtain ⟨a, u, hrun, ha⟩ := hstep
  obtain ⟨b, w, hrest, hb⟩ := hf a u ha
  refine ⟨b, w, ?_, hb⟩
  rw [bind_def, hrun]
  exact hrest

/-- A step that is known to lead somewhere, and what comes behind it. -/
theorem after {step : Eval σ α} {f : α → Eval σ β} {a : α} {u : Activation σ}
    {Q : β → Activation σ → Prop} (hstep : step t = (.value a, u)) (hrest : Comes u (f a) Q) :
    Comes t (step >>= f) Q :=
  bind (Q := fun b w => b = a ∧ w = u) ⟨a, u, hstep, rfl, rfl⟩ fun b w h => by
    obtain ⟨rfl, rfl⟩ := h
    exact hrest

theorem mono {step : Eval σ α} {Q' : α → Activation σ → Prop} (h : Comes t step Q)
    (himp : ∀ a u, Q a u → Q' a u) : Comes t step Q' := by
  obtain ⟨a, u, hrun, ha⟩ := h
  exact ⟨a, u, hrun, himp a u ha⟩

end Comes

end Eval

namespace Flow

open Eval

/-! ## 2. Runs that are ready for a scope -/

/-- What a node came to is a known value, of the kind that the flow pass computes for the node. A
program has no kind of its own. -/
def Judged (root : Node) (permissions : List String) (n : Node) (v : Value) : Prop :=
  n.isProgram = false →
    ∃ k, kindOf? root permissions n = some k ∧ v.kind = k ∧ v.isUnknown = false

/-- The run is ready for code in the scope `Γ`, at a depth within the limit: the names of the scope are
bound to values of their kinds, no name is read-only, and what nodes came to so far is as judged. -/
structure Primed {σ : Type} (root : Node) (permissions : List String) (limit depth : Nat)
    (Γ : TypeEnv) (t : Activation (Watched σ)) : Prop where
  allowed : t.session.permissions = permissions
  writable : t.session.readOnly = []
  limited : t.session.maxDepth = limit
  nested : t.session.depth = depth
  bound : ∀ x k, Γ.find? x = some k → ∃ v, t.env.find? x = some v ∧ v.kind = k
  seen : ∀ p ∈ t.session.host.notes.seen, Judged root permissions p.1 p.2

section Steps

variable {σ : Type} {root : Node} {permissions : List String} {limit depth : Nat}
  {Γ : TypeEnv} {t : Activation (Watched σ)}

namespace Primed

theorem of_eq {u : Activation (Watched σ)} {depth' : Nat}
    (h : Primed root permissions limit depth Γ t)
    (hpermissions : u.session.permissions = t.session.permissions)
    (hreadOnly : u.session.readOnly = t.session.readOnly)
    (hlimit : u.session.maxDepth = t.session.maxDepth) (hdepth : u.session.depth = depth')
    (henv : u.env = t.env) (hnotes : u.session.host.notes = t.session.host.notes) :
    Primed root permissions limit depth' Γ u where
  allowed := hpermissions.trans h.allowed
  writable := hreadOnly.trans h.writable
  limited := hlimit.trans h.limited
  nested := hdepth
  bound := henv ▸ h.bound
  seen := hnotes ▸ h.seen

theorem mapEnv {x : String} {k : ValueKind} {v : Value}
    (h : Primed root permissions limit depth Γ t) (hv : v.kind = k) :
    Primed root permissions limit depth (Γ.insert x k) (t.mapEnv (·.insert x v)) := by
  have hsession : (t.mapEnv (·.insert x v)).session.permissions = t.session.permissions ∧
      (t.mapEnv (·.insert x v)).session.readOnly = t.session.readOnly ∧
      (t.mapEnv (·.insert x v)).session.maxDepth = t.session.maxDepth ∧
      (t.mapEnv (·.insert x v)).session.depth = t.session.depth ∧
      (t.mapEnv (·.insert x v)).session.host = t.session.host := by
    unfold Activation.mapEnv
    split <;> exact ⟨rfl, rfl, rfl, rfl, rfl⟩
  obtain ⟨hpermissions, hreadOnly, hlimit, hdepth, hhost⟩ := hsession
  refine ⟨hpermissions.trans h.allowed, hreadOnly.trans h.writable, hlimit.trans h.limited,
    hdepth.trans h.nested, fun y k' hy => ?_, hhost ▸ h.seen⟩
  rw [Activation.env_mapEnv]
  by_cases hyx : y = x
  · subst hyx
    rw [Dict.find?_insert_self] at hy ⊢
    exact ⟨v, rfl, hv.trans (Option.some.inj hy)⟩
  · rw [Dict.find?_insert_of_ne _ hyx] at hy ⊢
    exact h.bound y k' hy

theorem holds (h : Primed root permissions limit depth Γ t) {permission : String}
    (hpermission : permission ∈ permissions) : t.session.hasPermission permission = true :=
  Session.hasPermission_iff.mpr (h.allowed ▸ hpermission)

/-- Where nothing is known of any name, all scopes have been left behind. -/
theorem forget (h : Primed root permissions limit depth Γ t) :
    Primed root permissions limit depth ∅ t :=
  ⟨h.allowed, h.writable, h.limited, h.nested, fun _ _ hx => (by cases hx), h.seen⟩

end Primed

variable [Host σ]

omit [Host σ] in
theorem comes_entering {n : Node} {Γ' : TypeEnv} {R : Value → Prop}
    {step : Eval (Watched σ) Value} (hdepth : depth < limit)
    (hknown : ∀ v, R v → v.isUnknown = false) (ht : Primed root permissions limit depth Γ t)
    (hstep : ∀ u, Primed root permissions limit (depth + 1) Γ u →
      Comes u step fun v w => R v ∧ Primed root permissions limit (depth + 1) Γ' w) :
    Comes t (entering n step) fun v u => R v ∧ Primed root permissions limit depth Γ' u := by
  have hcheck : checkDepth n t = (.value (), t) := by
    unfold checkDepth
    dsimp only
    rw [if_neg (by rw [ht.limited, ht.nested]; omega)]
  have hnoted : Primed root permissions limit depth Γ (t.noteStep n) :=
    ht.of_eq rfl rfl rfl ht.nested rfl rfl
  -- the step itself is made one level deeper
  obtain ⟨v, w, hrun, hv, hw⟩ :=
    hstep (t.noteStep n).deepen (hnoted.of_eq rfl rfl rfl (congrArg (· + 1) hnoted.nested) rfl rfl)
  have hnested : Eval.nested step (t.noteStep n) = (.value v, w.surface) := by
    unfold Eval.nested between
    rw [hrun]
  -- a known value is not at fault in a strict session
  have hended : known n v w.surface = (.value v, w.surface) := by
    unfold known
    rw [hknown v hv]
    rfl
  exact .after hcheck <| .after rfl <| .after hnested ⟨v, w.surface, hended, hv,
    hw.of_eq rfl rfl rfl (congrArg (· - 1) hw.nested) rfl rfl⟩

/-- Where the bound on the run and the depth suffice for the height of a node, they suffice for those of
its children one level deeper. A node whose form then comes to a value that is as judged comes to that
value, and this is noted. -/
theorem comes_watch {n : Node} {Γ' : TypeEnv} {R : Value → Prop}
    (hknown : ∀ v, R v → v.isUnknown = false) (hjudged : ∀ v, R v → Judged root permissions n v)
    {fuel : Nat} (hfuel : n.height ≤ fuel) (hdepth : depth + n.height ≤ limit)
    (hform : ∀ ⦃rest⦄ ⦃u : Activation (Watched σ)⦄,
      (∀ c ∈ n.children, c.height ≤ rest ∧ depth + 1 + c.height ≤ limit) →
      Primed root permissions limit (depth + 1) Γ u →
      Comes u (watchForm (watch rest) true rest n) fun v w =>
        R v ∧ Primed root permissions limit (depth + 1) Γ' w)
    (ht : Primed root permissions limit depth Γ t) :
    Comes t (watch fuel true n) fun v u => R v ∧ Primed root permissions limit depth Γ' u := by
  have hheight := n.height_pos
  obtain ⟨rest, rfl⟩ : ∃ rest, fuel = rest + 1 := Nat.exists_eq_succ_of_ne_zero (by omega)
  have hbelow (c : Node) (hc : c ∈ n.children) :
      c.height ≤ rest ∧ depth + 1 + c.height ≤ limit := by
    have hlt := Node.height_lt hc
    omega
  show Comes t (watching n (entering n (watchForm (watch rest) true rest n))) _
  refine .bind (comes_entering (by omega) hknown ht fun u hu => hform hbelow hu) fun v u hv => ?_
  obtain ⟨hv, hu⟩ := hv
  exact ⟨v, _, rfl, hv, hu.allowed, hu.writable, hu.limited, hu.nested, hu.bound,
    List.forall_mem_cons.mpr ⟨hjudged v hv, hu.seen⟩⟩

/-- The sum of two numbers needs no host. -/
theorem comes_add (self : Node → Eval (Watched σ) Value) (steps nesting : Nat) {a b : Int32}
    (hmath : "math" ∈ permissions) (ht : Primed root permissions limit depth Γ t) :
    Comes t (callCapability self steps nesting "math.add" [.int a, .int b]) fun v u =>
      v.kind = .int ∧ Primed root permissions limit depth Γ u := by
  have hchecked (serve : String → List Value → Eval (Watched σ) Value) :
      callChecked serve "math.add" [.int a, .int b] t =
        (.value (.int (a + b)),
          ⟨t.session.recordCall "math.add" [.int a, .int b] (.int (a + b)) .ok, t.frames⟩) := by
    show (if !t.session.hasPermission "math" then
      (deny _ >>= fun _ => pure .unknown : Eval (Watched σ) Value) else _) t = _
    rw [ht.holds hmath]
    rfl
  -- how many machines may still run inside of each other makes no difference
  have hcall : callCapability self steps nesting "math.add" [.int a, .int b] t =
      (.value (.int (a + b)),
        ⟨t.session.recordCall "math.add" [.int a, .int b] (.int (a + b)) .ok, t.frames⟩) := by
    cases nesting with
    | zero => exact hchecked _
    | succ nesting => exact hchecked _
  exact ⟨_, _, hcall, rfl, ht.of_eq rfl rfl rfl ht.nested rfl rfl⟩

end Steps

/-! ## 3. Expressions -/

section Expressions

variable (σ : Type) [Host σ] (root : Node) (permissions : List String) (limit : Nat) (ctx : Context)

/-- A node that passes leaves the scope as it was and has a known kind. Where the bound on the run and
the depth suffice for it, it comes to a value of that kind, and the run is ready for the same scope
again. -/
def Delivers (n : Node) : Prop :=
  ∀ ⦃s k s'⦄, Passes (run root ∅ permissions).kinds (check ctx n) s k s' → Known s.env →
    s'.env = s.env ∧ k ≠ .unknown ∧
      ∀ ⦃fuel depth⦄ ⦃t : Activation (Watched σ)⦄, n.height ≤ fuel → depth + n.height ≤ limit →
        Primed root permissions limit depth s.env t →
        Comes t (watch fuel true n) fun v u =>
          v.kind = k ∧ Primed root permissions limit depth s.env u

/-- The same of the form of a node, whose children are entered at the depth. -/
def FormDelivers (n : Node) : Prop :=
  ∀ ⦃s k s'⦄,
    Passes (run root ∅ permissions).kinds (checkForm ctx n (checks ctx n.children)) s k s' →
    Known s.env → s'.env = s.env ∧ k ≠ .unknown ∧
      ∀ ⦃fuel depth⦄ ⦃t : Activation (Watched σ)⦄,
        (∀ c ∈ n.children, c.height ≤ fuel ∧ depth + c.height ≤ limit) →
        Primed root permissions limit depth s.env t →
        Comes t (watchForm (watch fuel) true fuel n) fun v u =>
          v.kind = k ∧ Primed root permissions limit depth s.env u

variable {σ root permissions limit ctx} {n : Node}

/-- A node whose form comes to a value of the kind that was kept for the node is as judged. -/
theorem comes_node {k : ValueKind} (hkept : kindOf? root permissions n = some k)
    (hkind : k ≠ .unknown) {Γ Γ' : TypeEnv} {fuel depth : Nat} {t : Activation (Watched σ)}
    (hfuel : n.height ≤ fuel) (hdepth : depth + n.height ≤ limit)
    (hform : ∀ ⦃rest⦄ ⦃u : Activation (Watched σ)⦄,
      (∀ c ∈ n.children, c.height ≤ rest ∧ depth + 1 + c.height ≤ limit) →
      Primed root permissions limit (depth + 1) Γ u →
      Comes u (watchForm (watch rest) true rest n) fun v w =>
        v.kind = k ∧ Primed root permissions limit (depth + 1) Γ' w)
    (ht : Primed root permissions limit depth Γ t) :
    Comes t (watch fuel true n) fun v u =>
      v.kind = k ∧ Primed root permissions limit depth Γ' u :=
  comes_watch (fun _ hv => Value.isUnknown_of_kind hv hkind)
    (fun _ hv _ => ⟨k, hkept, hv, Value.isUnknown_of_kind hv hkind⟩) hfuel hdepth hform ht

variable (hclean : (run root ∅ permissions).findings = #[])
include hclean

theorem Delivers.of_form (h : n.shapeIssues = [] → FormDelivers σ root permissions limit ctx n) :
    Delivers σ root permissions limit ctx n := by
  intro s k s' hpasses hknown
  rw [check_eq] at hpasses
  obtain ⟨hshape, hkept, u, u', hu, hu', hform⟩ :=
    hpasses.visit (.checkForm (tracked_checks ctx n.children) ctx n)
  rw [← hu] at hknown ⊢
  rw [← hu']
  obtain ⟨hscope, hkind, hcomes⟩ := h hshape hform hknown
  exact ⟨hscope, hkind, fun fuel depth t hfuel hdepth ht =>
    comes_node (kindOf?_of_mem hclean hkept) hkind hfuel hdepth
      (fun _ _ hbelow hw => hcomes hbelow hw) ht⟩

omit hclean

/-- The evaluation of a form is watched in a way of its own for a few forms only. -/
theorem watchForm_of_ne {form : Form} (hform : n.form? = some form)
    (hother : form ∉ [.bind, .call, .importModule, .exportName]) (fuel : Nat) :
    watchForm (watch fuel : Bool → Node → Eval (Watched σ) Value) true fuel n =
      evalForm (watch fuel true) fuel n := by
  unfold watchForm
  rw [hform]
  split <;> simp_all

theorem comes_operands {ns : List Node} (hns : ∀ c ∈ ns, Delivers σ root permissions limit ctx c)
    {s s' : State} {ks : List ValueKind}
    (h : Passes (run root ∅ permissions).kinds (checkAll (checks ctx ns)) s ks s')
    (hknown : Known s.env) :
    s'.env = s.env ∧ (∀ k ∈ ks, k ≠ .unknown) ∧
      ∀ ⦃fuel depth⦄ ⦃t : Activation (Watched σ)⦄,
        (∀ c ∈ ns, c.height ≤ fuel ∧ depth + c.height ≤ limit) →
        Primed root permissions limit depth s.env t →
        Comes t (operands (watch fuel true) ns) fun vs u =>
          vs.map Value.kind = ks ∧ Primed root permissions limit depth s.env u := by
  induction ns generalizing s ks with
  | nil =>
    obtain ⟨rfl, rfl⟩ := h.pure
    exact ⟨rfl, by simp, fun fuel depth t _ ht => .pure ⟨rfl, ht⟩⟩
  | cons n ns ih =>
    obtain ⟨hn, hns⟩ := List.forall_mem_cons.mp hns
    have htracked := tracked_checks ctx ns
    obtain ⟨k, u, hfirst, h⟩ := h.bind (tracked_check ctx n) fun _ =>
      .bind (.checkAll htracked) fun _ => .pure _
    obtain ⟨ks, w, hrest, h⟩ := h.bind (.checkAll htracked) fun _ => .pure _
    obtain ⟨rfl, rfl⟩ := h.pure
    obtain ⟨hscope, hk, hcomes⟩ := hn hfirst hknown
    obtain ⟨hscope', hks, hcomes'⟩ := ih hns hrest (hscope ▸ hknown)
    rw [hscope] at hscope' hcomes'
    refine ⟨hscope', List.forall_mem_cons.mpr ⟨hk, hks⟩, fun fuel depth t hroom ht => ?_⟩
    obtain ⟨hroom, hrooms⟩ := List.forall_mem_cons.mp hroom
    refine .bind (hcomes hroom.1 hroom.2 ht) fun v u hv => ?_
    refine .bind (hcomes' hrooms hv.2) fun vs u hvs => .pure ⟨?_, hvs.2⟩
    rw [List.map_cons, hv.1, hvs.1]

theorem FormDelivers.lit (hform : n.form? = some .lit) (hliteral : n.literal ≠ .unknown) :
    FormDelivers σ root permissions limit ctx n := by
  intro s k s' h _
  unfold checkForm at h
  rw [hform] at h
  obtain ⟨rfl, rfl⟩ := h.pure
  refine ⟨rfl, fun hkind => hliteral ?_, fun fuel depth t _ ht => ?_⟩
  · cases hvalue : n.literal with
    | unknown => rfl
    | _ =>
      rw [hvalue] at hkind
      cases hkind
  · rw [watchForm_of_ne hform (by decide)]
    unfold evalForm
    rw [hform]
    exact .pure ⟨rfl, ht⟩

theorem FormDelivers.var (hctx : ctx.namespaces = []) (hform : n.form? = some .var) {x : String}
    (hname : n.ident? "name" = some x) : FormDelivers σ root permissions limit ctx n := by
  intro s k s' h hknown
  unfold checkForm at h
  rw [hform] at h
  obtain ⟨rfl, hfind⟩ := h.varKind_bound hctx hname
  refine ⟨rfl, fun hkind => hknown x (hkind ▸ hfind), fun fuel depth t _ ht => ?_⟩
  obtain ⟨v, hv, hkind⟩ := ht.bound x k hfind
  rw [watchForm_of_ne hform (by decide)]
  unfold evalForm evalVar
  rw [hform, hname]
  refine ⟨v, t, ?_, hkind, ht⟩
  show (Outcome.value ((t.env.find? x).getD .unknown), t) = _
  rw [hv, Option.getD_some]

section Nested

variable (hchildren : ∀ c ∈ n.children, Delivers σ root permissions limit ctx c)
include hchildren

theorem FormDelivers.operator {op : Operator} (hform : n.form? = some (.operator op))
    (hop : op ∉ Operator.partialOperators) (hshape : n.shapeIssues = []) :
    FormDelivers σ root permissions limit ctx n := by
  intro s k s' h hknown
  have htracked := tracked_checks ctx n.children
  unfold checkForm at h
  rw [hform] at h
  obtain ⟨ks, u, hall, h⟩ := h.bind (.checkAll htracked) fun _ =>
    .bind (.reportAll n _) fun _ => .pure _
  obtain ⟨_, w, hreport, h⟩ := h.bind (.reportAll n _) fun _ => .pure _
  obtain ⟨rfl, rfl⟩ := h.pure
  obtain ⟨hissues, rfl⟩ := hreport.reportAll
  obtain ⟨hscope, hks, hcomes⟩ := comes_operands hchildren hall hknown
  refine ⟨hscope, by cases op <;> decide, fun fuel depth t hroom ht => ?_⟩
  -- the shape asks for as many children as the operator has operands
  obtain ⟨hleast, hmost⟩ := length_of_shape hform hshape
  have harity : n.children.length = op.arity := Nat.le_antisymm (hmost _ rfl) hleast
  rw [watchForm_of_ne hform (by cases op <;> decide)]
  unfold evalForm evalOperator
  rw [hform]
  dsimp only
  rw [if_neg (by omega)]
  refine .bind (hcomes hroom ht) fun vs u hvs => .pure ⟨?_, hvs.2⟩
  obtain ⟨rfl, -⟩ := hvs
  have hlength : vs.length = op.arity := by
    rw [← harity, ← List.length_map (f := Value.kind), (hall.checkAll htracked).1,
      ← List.length_map (f := Child.node), checks_node]
  refine kind_apply hop (fun v hv => hks _ (List.mem_map_of_mem hv)) hlength ?_
  unfold operatorIssues at hissues
  rwa [if_pos (by rw [List.length_map, hlength])] at hissues

theorem FormDelivers.call (hpermissions : ctx.permissions = permissions)
    (hform : n.form? = some .call) (htarget : n.ident? "target" = some "math.add") :
    FormDelivers σ root permissions limit ctx n := by
  intro s k s' h hknown
  have htracked := tracked_checks ctx n.children
  unfold checkForm at h
  rw [hform] at h
  obtain ⟨ks, u, hall, h⟩ := h.bind (.checkAll htracked) fun _ => .callKind ctx n _
  obtain ⟨rfl, hissues⟩ := h.callKind
  obtain ⟨hscope, hks, hcomes⟩ := comes_operands hchildren hall hknown
  rw [text?_of_ident? htarget, Option.getD_some] at hissues
  obtain ⟨hmath, rfl, rfl⟩ := kinds_of_add hissues hks
  refine ⟨hscope, by decide, fun fuel depth t hroom ht => ?_⟩
  unfold watchForm evalCall
  rw [hform, htarget]
  dsimp only
  rw [lookup_add]
  refine .after (show getSession t = (.value t.session, t) from rfl) ?_
  dsimp only
  rw [if_pos (ht.holds (hpermissions ▸ hmath))]
  refine .bind (hcomes hroom ht) fun vs w hvs => ?_
  obtain ⟨hkinds, hw⟩ := hvs
  obtain ⟨a, b, rfl⟩ : ∃ a b, vs = [a, b] := List.length_eq_two.mp <| by
    rw [← List.length_map (f := Value.kind), hkinds]
    rfl
  obtain ⟨ha, hb⟩ : a.kind = .int ∧ b.kind = .int := by simpa using hkinds
  obtain ⟨i, rfl⟩ := Value.int_of_kind ha
  obtain ⟨j, rfl⟩ := Value.int_of_kind hb
  exact comes_add (watch fuel false) fuel fuel (hpermissions ▸ hmath) hw

end Nested

/-- A block of one expression comes to what the expression comes to. -/
theorem FormDelivers.block {value : Node} (hform : n.form? = some .block)
    (hchildren : n.children = [value]) (hvalue : Delivers σ root permissions limit ctx value) :
    FormDelivers σ root permissions limit ctx n := by
  intro s k s' h hknown
  have htracked := tracked_checks ctx n.children
  unfold checkForm at h
  rw [hform] at h
  rw [hchildren] at h htracked
  obtain ⟨ks, u, hall, h⟩ := h.bind (.checkAll htracked) fun _ => .pure _
  obtain ⟨rfl, rfl⟩ := h.pure
  obtain ⟨k, u, hone, hall⟩ := hall.bind (tracked_check ctx value) fun _ =>
    .bind (.checkAll (tracked_checks ctx [])) fun _ => .pure _
  obtain ⟨_, w, hnone, hall⟩ := hall.bind (.checkAll (tracked_checks ctx [])) fun _ => .pure _
  obtain ⟨rfl, rfl⟩ := hnone.pure
  obtain ⟨rfl, rfl⟩ := hall.pure
  obtain ⟨hscope, hkind, hcomes⟩ := hvalue hone hknown
  refine ⟨hscope, hkind, fun fuel depth t hroom ht => ?_⟩
  obtain ⟨hfuel, hdepth⟩ := hroom value (by rw [hchildren]; exact List.mem_cons_self)
  rw [watchForm_of_ne hform (by decide)]
  unfold evalForm
  rw [hform, hchildren]
  refine .bind (hcomes hfuel hdepth ht) fun v u hv => ?_
  -- nothing is left that an error node could skip
  split
  · exact .pure hv
  · exact .pure hv

theorem FormDelivers.branch {condition thenArm elseArm : Node} (hform : n.form? = some .branch)
    (hchildren : n.children = [condition, thenArm, elseArm])
    (hcondition : Delivers σ root permissions limit ctx condition)
    (hthen : Delivers σ root permissions limit ctx thenArm)
    (helse : Delivers σ root permissions limit ctx elseArm) :
    FormDelivers σ root permissions limit ctx n := by
  intro s k s' h hknown
  unfold checkForm at h
  rw [hform, hchildren] at h
  obtain ⟨conditionKind, thenKind, elseKind, u, u', v, w, hfirst, hfits, hsecond, hthird, hu', hs',
    hjoin⟩ := h.branchElse (tracked_check ctx condition) (tracked_check ctx thenArm)
      (tracked_check ctx elseArm)
  -- the condition is a truth value, and the arms start in the scope behind it
  obtain ⟨hscope, hkind, hcomes⟩ := hcondition hfirst hknown
  obtain rfl := (ValueKind.fits_iff.mp hfits).resolve_right hkind
  have hknownThen : Known u.env := hscope ▸ hknown
  obtain ⟨-, hthenKind, hthenComes⟩ := hthen hsecond hknownThen
  obtain ⟨-, helseKind, helseComes⟩ := helse hthird (hu' ▸ hknownThen)
  obtain ⟨-, hkindThen, hkindElse⟩ := hjoin.branchKind_known hthenKind helseKind
  rw [hscope] at hthenComes
  rw [hu', hscope] at helseComes
  refine ⟨hs'.trans hscope, hkindThen ▸ hthenKind, fun fuel depth t hroom ht => ?_⟩
  rw [hchildren] at hroom
  obtain ⟨hconditionRoom, hroom⟩ := List.forall_mem_cons.mp hroom
  obtain ⟨hthenRoom, hroom⟩ := List.forall_mem_cons.mp hroom
  obtain ⟨helseRoom, -⟩ := List.forall_mem_cons.mp hroom
  rw [watchForm_of_ne hform (by decide)]
  unfold evalForm evalBranch
  rw [hform, hchildren]
  refine .bind (hcomes hconditionRoom.1 hconditionRoom.2 ht) fun value a hvalue => ?_
  obtain ⟨hbool, ha⟩ := hvalue
  obtain ⟨b, rfl⟩ := Value.bool_of_kind hbool
  -- whichever arm is evaluated comes to the kind of both
  cases b with
  | true => exact hkindThen ▸ hthenComes hthenRoom.1 hthenRoom.2 ha
  | false => exact hkindElse ▸ helseComes helseRoom.1 helseRoom.2 ha

include hclean in
/-- Every expression delivers. -/
theorem Delivers.of_expression (hctx : ctx.namespaces = [])
    (hpermissions : ctx.permissions = permissions) (hn : n.Expression) :
    Delivers σ root permissions limit ctx n := by
  have hblock {arm value : Node} (hform : arm.form? = some .block)
      (hchildren : arm.children = [value]) (hvalue : Delivers σ root permissions limit ctx value) :
      Delivers σ root permissions limit ctx arm :=
    .of_form hclean fun _ => .block hform hchildren hvalue
  induction hn with
  | lit hform hliteral => exact .of_form hclean fun _ => .lit hform hliteral
  | var hform hname => exact .of_form hclean fun _ => .var hctx hform hname
  | operator hform hop _ ih => exact .of_form hclean fun hshape => .operator ih hform hop hshape
  | call hform htarget _ ih => exact .of_form hclean fun _ => .call ih hpermissions hform htarget
  | branch hform hchildren _ hthen hthenValue _ helse helseValue _ ihCondition ihThen ihElse =>
    exact .of_form hclean fun _ => .branch hform hchildren ihCondition
      (hblock hthen hthenValue ihThen) (hblock helse helseValue ihElse)

end Expressions

/-! ## 4. Statements -/

/-- A name that is not bound to a function is bound to what the child comes to. -/
theorem comes_bind {σ : Type} [Host σ] {root : Node} {permissions : List String} {limit : Nat}
    {n child : Node} {x : String} (hform : n.form? = some .bind) (hname : n.ident? "name" = some x)
    (hchildren : n.children = [child]) (hfn : child.isFn = false) {Γ : TypeEnv} {kind : ValueKind}
    {fuel depth : Nat} {t : Activation (Watched σ)} (ht : Primed root permissions limit depth Γ t)
    (hchild : Comes t (watch fuel true child) fun v u =>
      v.kind = kind ∧ Primed root permissions limit depth Γ u) :
    Comes t (watchForm (watch fuel) true fuel n) fun v u =>
      v.kind = .void ∧ Primed root permissions limit depth (Γ.insert x kind) u := by
  -- only a function learns its name
  have hbound : watchBound (watch fuel) true child x =
      (watch fuel true child : Eval (Watched σ) Value) := by
    unfold watchBound Eval.bound
    rw [hfn]
    rfl
  unfold watchForm evalBind
  rw [hform, hname, hchildren]
  refine .after (show getSession t = (.value t.session, t) from rfl) ?_
  dsimp only
  rw [ht.writable, hbound, if_neg (by simp)]
  exact hchild.bind fun v u hv => .after rfl (.pure ⟨rfl, hv.2.mapEnv hv.1⟩)

section Programs

variable {σ : Type} [Host σ] {root : Node} {permissions : List String} {limit : Nat} {ctx : Context}
  (hclean : (run root ∅ permissions).findings = #[]) (hctx : ctx.namespaces = [])
  (hpermissions : ctx.permissions = permissions)
include hclean hctx hpermissions

/-- A statement that passes takes a scope to one in which all kinds are known again, and comes to a
known value where the bound on the run and the depth suffice. -/
theorem comes_statement {n : Node} (hn : n.Statement) {s s' : State} {k : ValueKind}
    (h : Passes (run root ∅ permissions).kinds (check ctx n) s k s') (hknown : Known s.env) :
    Known s'.env ∧ ∀ ⦃fuel depth⦄ ⦃t : Activation (Watched σ)⦄, n.height ≤ fuel →
      depth + n.height ≤ limit → Primed root permissions limit depth s.env t →
      Comes t (watch fuel true n) fun v u =>
        v.isUnknown = false ∧ Primed root permissions limit depth s'.env u := by
  cases hn with
  | expression hn =>
    have hdelivers : Delivers σ root permissions limit ctx n :=
      .of_expression hclean hctx hpermissions hn
    obtain ⟨hscope, hkind, hcomes⟩ := hdelivers h hknown
    rw [hscope]
    exact ⟨hknown, fun fuel depth t hfuel hdepth ht =>
      (hcomes hfuel hdepth ht).mono fun v u hv => ⟨Value.isUnknown_of_kind hv.1 hkind, hv.2⟩⟩
  | @bind child x hform hname hchildren hchild =>
    have hfn := isFn_of_expression hchild
    have hdelivers : Delivers σ root permissions limit ctx child :=
      .of_expression hclean hctx hpermissions hchild
    rw [check_eq] at h
    obtain ⟨-, hkept, u, u', hu, hu', h⟩ :=
      h.visit (.checkForm (tracked_checks ctx n.children) ctx n)
    rw [← hu] at hknown ⊢
    rw [← hu']
    obtain ⟨rfl, kind, a, b, ha, hvalue, hb⟩ := Passes.bind_plain hform hname hchildren hfn h
    obtain ⟨hscope, hkind, hcomes⟩ := hdelivers hvalue (ha ▸ hknown)
    rw [ha] at hscope hcomes
    rw [hb, hscope]
    refine ⟨hknown.insert hkind, fun fuel depth t hfuel hdepth ht => ?_⟩
    refine (comes_node (kindOf?_of_mem hclean hkept) (by decide) hfuel hdepth
      (fun rest w hbelow hw => ?_) ht).mono
      fun v u hv => ⟨Value.isUnknown_of_kind hv.1 (by decide), hv.2⟩
    obtain ⟨hchildFuel, hchildDepth⟩ := hbelow child (by rw [hchildren]; exact List.mem_cons_self)
    exact comes_bind hform hname hchildren hfn hw (hcomes hchildFuel hchildDepth hw)

/-- The same of statements one after the other, where what comes behind an error node is skipped. -/
theorem comes_sequence {ns : List Node} (hns : ∀ c ∈ ns, c.Statement) {s s' : State}
    {ks : List ValueKind} {last : Value}
    (h : Passes (run root ∅ permissions).kinds (checkAll (checks ctx ns)) s ks s')
    (hknown : Known s.env) (hlast : last.isUnknown = false) {fuel depth : Nat}
    (hroom : ∀ c ∈ ns, c.height ≤ fuel ∧ depth + c.height ≤ limit) {t : Activation (Watched σ)}
    (ht : Primed root permissions limit depth s.env t) :
    Comes t (sequence (watch fuel true) last ns) fun v u =>
      v.isUnknown = false ∧ Primed root permissions limit depth ∅ u := by
  induction ns generalizing s ks last t with
  | nil => exact .pure ⟨hlast, ht.forget⟩
  | cons n ns ih =>
    obtain ⟨hn, hns⟩ := List.forall_mem_cons.mp hns
    obtain ⟨hfirstRoom, hroom⟩ := List.forall_mem_cons.mp hroom
    have htracked := tracked_checks ctx ns
    obtain ⟨k, u, hfirst, h⟩ := h.bind (tracked_check ctx n) fun _ =>
      .bind (.checkAll htracked) fun _ => .pure _
    obtain ⟨ks, w, hrest, h⟩ := h.bind (.checkAll htracked) fun _ => .pure _
    obtain ⟨rfl, rfl⟩ := h.pure
    obtain ⟨hscope, hcomes⟩ := comes_statement (σ := σ) hclean hctx hpermissions hn hfirst hknown
    refine .bind (hcomes hfirstRoom.1 hfirstRoom.2 ht) fun v b hv => ?_
    split
    · -- behind an error node the names of the other statements are not bound
      exact .pure ⟨hv.1, hv.2.forget⟩
    · exact ih hns hrest hscope hv.1 hroom hv.2

end Programs

/-! ## 5. Programs -/

section StraightLine

variable {root : Node} {permissions : List String} {structural : Bool}
  (hroot : root.StraightLine) (hvalid : validate root ∅ permissions structural = [])
include hroot hvalid

variable {σ : Type} [Host σ]

/-- A run that is ready for the empty scope comes to a known value of the program. -/
theorem comes_program {limit depth : Nat} {t : Activation (Watched σ)}
    (ht : Primed root permissions limit depth ∅ t) {fuel : Nat} (hfuel : root.height ≤ fuel)
    (hdepth : depth + root.height ≤ limit) :
    Comes t (watch fuel true root) fun v u =>
      v.isUnknown = false ∧ Primed root permissions limit depth ∅ u := by
  obtain ⟨s, ks, s', hs, hall⟩ := statements_pass hroot hvalid
  have hprogram : root.isProgram = true := by
    rw [Node.isProgram_of_form? hroot.form]
    rfl
  have hknown : Known s.env := by
    rw [hs]
    exact fun _ hx => by cases hx
  -- the program itself is not judged
  refine comes_watch (fun _ hv => hv)
    (fun _ _ hother => absurd (hprogram.symm.trans hother) (by decide)) hfuel hdepth
    (fun rest u hroom hu => ?_) ht
  rw [watchForm_of_ne hroot.form (by decide)]
  unfold evalForm
  rw [hroot.form]
  exact comes_sequence (findings_of_validate hvalid) rfl rfl hroot.statements hall hknown rfl hroom
    (hs ▸ hu)

/-- Let the validator find nothing in a straight-line program, and watch a run of it with the same
permissions and without read-only names, where the depth and the bound are enough for the height of the
program. Watching makes no difference to the run, which ends with a known value, in a strict session as
in others, and every node in it but the program comes to a known value of exactly the kind that is
computed for the node. (The notes miss nothing: `Eval.mem_seen_watch`, `Eval.seen_suffix_watch`.) -/
theorem straightLine_known (t : Activation σ) (hpermissions : t.session.permissions = permissions)
    (hreadOnly : t.session.readOnly = [])
    (hdepth : t.session.depth + root.height ≤ t.session.maxDepth) {fuel : Nat}
    (hfuel : root.height ≤ fuel) :
    ∃ (v : Value) (w : Watched σ), (eval fuel root t).1 = .value v ∧ v.isUnknown = false ∧
      w.host = (eval fuel root t).2.session.host ∧
      watch fuel true root ⟨t.session.withHost { host := t.session.host }, t.frames⟩ =
        ((eval fuel root t).1,
          ⟨(eval fuel root t).2.session.withHost w, (eval fuel root t).2.frames⟩) ∧
      ∀ n u, (n, u) ∈ w.notes.seen → n.isProgram = false →
        ∃ k, kindOf? root permissions n = some k ∧ u.kind = k ∧ u.isUnknown = false := by
  have hprimed : Primed root permissions t.session.maxDepth t.session.depth ∅
      (⟨t.session.withHost { host := t.session.host }, t.frames⟩ : Activation (Watched σ)) :=
    ⟨hpermissions, hreadOnly, rfl, rfl, fun _ _ hx => (by cases hx), fun _ hp => (by cases hp)⟩
  obtain ⟨v, u, hended, hv, hu⟩ := comes_program hroot hvalid hprimed hfuel hdepth
  obtain ⟨w, hw, hwatch⟩ := watch_eq_eval fuel true root t { host := t.session.host } rfl
  obtain ⟨hvalue, rfl⟩ := Prod.mk.inj (hended.symm.trans hwatch)
  exact ⟨v, w, hvalue.symm, hv, hw.symm, hwatch, fun n x hseen => hu.seen (n, x) hseen⟩

end StraightLine

namespace Sample

/-- A straight-line program that adds two numbers and puts the sum into words. -/
def grading : Node := program
  [assign "a" "x" (call "b" "math.add" [lit "c" (.int 1), lit "d" (.int 2)]),
   assign "e" "y" (branch "f"
     [{ kind := "Eq", id := "g", children := [var "h" "x", lit "i" (.int 3)] },
      block "j" [{ kind := "ToString", id := "k", children := [var "l" "x"] }],
      block "m" [lit "n" (.string "other")]]),
   { kind := "StrConcat", id := "o", children := [var "q" "y", lit "r" (.string "!")] }]

theorem straightLine_grading : grading.StraightLine := by
  have hint (id : String) (i : Int32) : (lit id (.int i)).Expression := .lit rfl (by rintro ⟨⟩)
  have htext (id text : String) : (lit id (.string text)).Expression := .lit rfl (by rintro ⟨⟩)
  have hvar (id name : String) : (var id name).Expression := .var rfl rfl
  have hpair {a b : Node} (ha : a.Expression) (hb : b.Expression) : ∀ c ∈ [a, b], c.Expression := by
    simp [ha, hb]
  have hsum := hpair (hint "c" 1) (hint "d" 2)
  have hequal := hpair (hvar "h" "x") (hint "i" 3)
  have hwords : ∀ c ∈ [var "l" "x"], c.Expression := List.forall_mem_singleton.mpr (hvar "l" "x")
  have hjoined := hpair (hvar "q" "y") (htext "r" "!")
  refine ⟨rfl, List.forall_mem_cons.mpr ⟨.bind rfl rfl rfl (.call rfl rfl hsum),
    List.forall_mem_cons.mpr ⟨.bind rfl rfl rfl ?_, List.forall_mem_singleton.mpr (.expression ?_)⟩⟩⟩
  · exact .branch rfl rfl (.operator rfl (by decide) hequal) rfl rfl
      (.operator rfl (by decide) hwords) rfl rfl (htext "n" "other")
  · exact .operator rfl (by decide) hjoined

/-- A session in which unknown values end the run. -/
def strictSession : Session LocalHost := { Session.fresh "" with strict := true }

end Sample

open Sample in
theorem straightLine_known_grading :
    grading.StraightLine ∧ validate grading ∅ strictSession.permissions true = [] ∧
      ∃ (v : Value) (w : Watched LocalHost), (eval 6 grading ⟨strictSession, []⟩).1 = .value v ∧
        v.isUnknown = false ∧ w.host = (eval 6 grading ⟨strictSession, []⟩).2.session.host ∧
        watch 6 true grading ⟨strictSession.withHost { host := strictSession.host }, []⟩ =
          ((eval 6 grading ⟨strictSession, []⟩).1,
            ⟨(eval 6 grading ⟨strictSession, []⟩).2.session.withHost w,
              (eval 6 grading ⟨strictSession, []⟩).2.frames⟩) ∧
        ∀ n u, (n, u) ∈ w.notes.seen → n.isProgram = false →
          ∃ k, kindOf? grading strictSession.permissions n = some k ∧ u.kind = k ∧
            u.isUnknown = false := by
  have hvalid : validate grading ∅ strictSession.permissions true = [] := by decide +kernel
  exact ⟨straightLine_grading, hvalid, straightLine_known straightLine_grading hvalid
    ⟨strictSession, []⟩ rfl rfl (by decide) (by decide)⟩

end Flow

end Arbor
