import Arbor.Proofs.Node.Walk
import Arbor.Proofs.Validation.Coverage

/-!
# Straight-line programs

In these programs names are bound to the values of expressions, one after the other, and nothing is
called but the addition of numbers. The flow pass declares no function and imports no name in them. As
long as it finds nothing it knows the kind of every name that is in scope, and the kind of each
operator is the one that its operands come to (`Flow.kind_apply`).
-/

namespace Arbor

/-! ## 1. Straight-line programs -/

/-- The operators that may come to nothing although their operands are of the right kinds. -/
def Operator.partialOperators : List Operator :=
  [.attrKey, .attrValueKind, .attrValueString, .attrValueInt, .attrValueBool, .childAt]

namespace Node

/-- The expressions of straight-line programs: literals, variables, total operators, additions by
capability, and branches of one expression each. -/
inductive Expression : Node → Prop where
  | lit {n : Node} : n.form? = some .lit → n.literal ≠ .unknown → Expression n
  | var {n : Node} {x : String} : n.form? = some .var → n.ident? "name" = some x → Expression n
  | operator {n : Node} {op : Operator} : n.form? = some (.operator op) →
    op ∉ Operator.partialOperators → (∀ c ∈ n.children, Expression c) → Expression n
  | call {n : Node} : n.form? = some .call → n.ident? "target" = some "math.add" →
    (∀ c ∈ n.children, Expression c) → Expression n
  | branch {n condition thenArm elseArm thenValue elseValue : Node} : n.form? = some .branch →
    n.children = [condition, thenArm, elseArm] → Expression condition →
    thenArm.form? = some .block → thenArm.children = [thenValue] → Expression thenValue →
    elseArm.form? = some .block → elseArm.children = [elseValue] → Expression elseValue →
    Expression n

/-- The statements of straight-line programs: expressions, and names bound to them. -/
inductive Statement : Node → Prop where
  | bind {n child : Node} {x : String} : n.form? = some .bind → n.ident? "name" = some x →
    n.children = [child] → Expression child → Statement n
  | expression {n : Node} : Expression n → Statement n

/-- A program that consists of such statements. -/
structure StraightLine (root : Node) : Prop where
  form : root.form? = some .program
  statements : ∀ c ∈ root.children, c.Statement

end Node

namespace Flow

theorem isFn_of_expression {n : Node} (hn : n.Expression) : n.isFn = false := by
  have hother {form : Form} (hform : n.form? = some form) (hfn : form ≠ .fn) : n.isFn = false :=
    Bool.eq_false_iff.mpr fun h =>
      hfn (Option.some.inj (hform.symm.trans (Node.form?_of_isFn h)))
  cases hn with
  | lit hform | var hform | call hform | branch hform | operator hform =>
    exact hother hform (by simp)

/-- The node neither binds a name nor imports a module. -/
def BindsNothing (n : Node) : Prop := n.form? ≠ some .bind ∧ n.form? ≠ some .importModule

theorem BindsNothing.of_form {n : Node} {form : Form} (hform : n.form? = some form)
    (hbind : form ≠ .bind) (himport : form ≠ .importModule) : BindsNothing n := by
  unfold BindsNothing
  rw [hform]
  exact ⟨fun h => hbind (Option.some.inj h), fun h => himport (Option.some.inj h)⟩

/-- In an expression nothing is bound. -/
theorem bindsNothing_of_expression {n : Node} (hn : n.Expression)
    (hshape : ∀ m ∈ n.walk, m.shapeIssues = []) : ∀ m ∈ n.walk, BindsNothing m := by
  have hleaf {n : Node} {form : Form} (hform : n.form? = some form) (hself : BindsNothing n)
      (hmost : (Shape.ofForm form).maxChildren? = some 0)
      (hshape : ∀ m ∈ n.walk, m.shapeIssues = []) : ∀ m ∈ n.walk, BindsNothing m := by
    have hlength := (length_of_shape hform (hshape n n.mem_walk_self)).2 0 hmost
    refine Node.forall_mem_walk hself fun c hc => ?_
    rw [List.eq_nil_of_length_eq_zero (Nat.le_zero.mp hlength)] at hc
    cases hc
  have hblock {arm value : Node} (hform : arm.form? = some .block)
      (hchildren : arm.children = [value]) (hvalue : ∀ m ∈ value.walk, BindsNothing m) :
      ∀ m ∈ arm.walk, BindsNothing m :=
    Node.forall_mem_walk (.of_form hform (by decide) (by decide)) (by simpa [hchildren] using hvalue)
  induction hn with
  | lit hform => exact hleaf hform (.of_form hform (by decide) (by decide)) rfl hshape
  | var hform => exact hleaf hform (.of_form hform (by decide) (by decide)) rfl hshape
  | operator hform _ _ ih | call hform _ _ ih =>
    exact Node.forall_mem_walk (.of_form hform (by simp) (by simp))
      fun c hc => ih c hc (Node.forall_walk_of_mem_children hshape hc)
  | @branch n condition thenArm elseArm thenValue elseValue hform hchildren _ hthen hthenValue _ helse
      helseValue _ ihCondition ihThen ihElse =>
    have hall : ∀ c ∈ [condition, thenArm, elseArm], ∀ m ∈ c.walk, m.shapeIssues = [] :=
      fun c hc => Node.forall_walk_of_mem_children hshape (hchildren ▸ hc)
    simp only [List.forall_mem_cons] at hall
    obtain ⟨hcondition, hthenShape, helseShape, -⟩ := hall
    refine Node.forall_mem_walk (.of_form hform (by decide) (by decide)) ?_
    rw [hchildren]
    simp only [List.forall_mem_cons]
    have hthenBelow : ∀ m ∈ thenValue.walk, m.shapeIssues = [] :=
      Node.forall_walk_of_mem_children hthenShape (by simp [hthenValue])
    have helseBelow : ∀ m ∈ elseValue.walk, m.shapeIssues = [] :=
      Node.forall_walk_of_mem_children helseShape (by simp [helseValue])
    exact ⟨ihCondition hcondition, hblock hthen hthenValue (ihThen hthenBelow),
      hblock helse helseValue (ihElse helseBelow), by simp⟩

/-- In a straight-line program only names of values are bound, and nothing is imported. -/
theorem no_functions_of_straightLine {root : Node} (hroot : root.StraightLine)
    (hshape : ∀ m ∈ root.walk, m.shapeIssues = []) :
    ∀ m ∈ root.walk, declaredFunction? m = none ∧ importedNamespace? m = none := by
  have hnothing {m : Node} (h : BindsNothing m) :
      declaredFunction? m = none ∧ importedNamespace? m = none := by
    unfold declaredFunction? importedNamespace?
    exact ⟨if_neg h.1, if_neg h.2⟩
  refine Node.forall_mem_walk (hnothing (.of_form hroot.form (by decide) (by decide)))
    fun n hn => ?_
  have hshape := Node.forall_walk_of_mem_children hshape hn
  cases hroot.statements n hn with
  | expression hn => exact fun m hm => hnothing (bindsNothing_of_expression hn hshape m hm)
  | @bind child _ hform _ hchildren hchild =>
    have hbelow : ∀ m ∈ child.walk, m.shapeIssues = [] :=
      Node.forall_walk_of_mem_children hshape (by simp [hchildren])
    refine Node.forall_mem_walk ?_ ?_
    · unfold declaredFunction? importedNamespace?
      rw [hform, hchildren]
      dsimp only
      rw [isFn_of_expression hchild]
      exact ⟨rfl, rfl⟩
    · rw [hchildren, List.forall_mem_singleton]
      exact fun m hm => hnothing (bindsNothing_of_expression hchild hbelow m hm)

end Flow

/-! ## 2. Operators -/

namespace Flow

theorem eq_nil_unless {α : Type} {ok : Bool} {i : α} (h : (if ok then [] else [i]) = []) :
    ok = true := by
  cases ok with
  | true => rfl
  | false => cases h

/-- An operand whose kind is known, and fits, has the expected kind. -/
theorem kind_of_operandFits {args : List Value} (hknown : ∀ v ∈ args, v.kind ≠ .unknown) {index : Nat}
    {v : Value} (hv : args[index]? = some v) {expected : ValueKind}
    (hfits : operandFits (args.map Value.kind) index expected = true) : v.kind = expected := by
  unfold operandFits at hfits
  rw [List.getElem?_map, hv] at hfits
  exact (ValueKind.fits_iff.mp hfits).resolve_right (hknown v (List.mem_of_getElem? hv))

/-- Operands of known kinds, in which the flow pass finds nothing wrong, come to a value of the kind
that it computes. -/
theorem kind_apply {op : Operator} (hop : op ∉ Operator.partialOperators) {args : List Value}
    (hknown : ∀ v ∈ args, v.kind ≠ .unknown) (hlength : args.length = op.arity)
    (hissues : operandIssues op (args.map Value.kind) = []) :
    (op.apply args).kind = resultKind op := by
  have hkind {index : Nat} {v : Value} {expected : ValueKind} (hv : args[index]? = some v)
      (hfits : operandFits (args.map Value.kind) index expected = true) : v.kind = expected :=
    kind_of_operandFits hknown hv hfits
  cases op with
  | attrKey | attrValueKind | attrValueString | attrValueInt | attrValueBool | childAt =>
    exact absurd (by decide) hop
  | eq =>
    obtain ⟨a, b, rfl⟩ := List.length_eq_two.mp hlength
    have ha : a.isUnknown ≠ true := mt Value.kind_eq_unknown_iff.mpr (hknown a (by simp))
    have hb : b.isUnknown ≠ true := mt Value.kind_eq_unknown_iff.mpr (hknown b (by simp))
    show (Operator.equal a b).kind = .bool
    unfold Operator.equal
    rw [if_neg (by simp [ha, hb])]
    rfl
  | add =>
    obtain ⟨a, b, rfl⟩ := List.length_eq_two.mp hlength
    obtain ⟨hleft, hright⟩ := List.append_eq_nil_iff.mp hissues
    obtain ⟨i, rfl⟩ := Value.int_of_kind (hkind rfl (eq_nil_unless hleft))
    obtain ⟨j, rfl⟩ := Value.int_of_kind (hkind rfl (eq_nil_unless hright))
    rfl
  | strConcat =>
    obtain ⟨a, b, rfl⟩ := List.length_eq_two.mp hlength
    obtain ⟨hleft, hright⟩ := List.append_eq_nil_iff.mp hissues
    obtain ⟨r, rfl⟩ := Value.str_of_kind (hkind rfl (eq_nil_unless hleft))
    obtain ⟨s, rfl⟩ := Value.str_of_kind (hkind rfl (eq_nil_unless hright))
    rfl
  | toText =>
    obtain ⟨a, rfl⟩ := List.length_eq_one_iff.mp hlength
    obtain hfits | hfits := Bool.or_eq_true_iff.mp (eq_nil_unless hissues)
    · obtain ⟨i, rfl⟩ := Value.int_of_kind (hkind rfl hfits)
      rfl
    · obtain ⟨b, rfl⟩ := Value.bool_of_kind (hkind rfl hfits)
      rfl
  | strEscape | makeBlock =>
    obtain ⟨a, rfl⟩ := List.length_eq_one_iff.mp hlength
    obtain ⟨s, rfl⟩ := Value.str_of_kind (hkind rfl (eq_nil_unless hissues))
    rfl
  | nodeKind | nodeId | attrCount | childCount =>
    obtain ⟨a, rfl⟩ := List.length_eq_one_iff.mp hlength
    obtain ⟨n, rfl⟩ := Value.node_of_kind (hkind rfl (eq_nil_unless hissues))
    rfl
  | appendChild =>
    obtain ⟨a, b, rfl⟩ := List.length_eq_two.mp hlength
    obtain ⟨hleft, hright⟩ := Bool.and_eq_true_iff.mp (eq_nil_unless hissues)
    obtain ⟨m, rfl⟩ := Value.node_of_kind (hkind rfl hleft)
    obtain ⟨n, rfl⟩ := Value.node_of_kind (hkind rfl hright)
    rfl
  | makeLitString =>
    obtain ⟨a, b, rfl⟩ := List.length_eq_two.mp hlength
    have hall := List.all_eq_true.mp (eq_nil_unless hissues)
    obtain ⟨r, rfl⟩ := Value.str_of_kind (hkind rfl (hall 0 (by simp)))
    obtain ⟨s, rfl⟩ := Value.str_of_kind (hkind rfl (hall 1 (by simp)))
    rfl
  | makeErr =>
    obtain ⟨a, b, c, d, rfl⟩ := List.length_eq_four.mp hlength
    have hall := List.all_eq_true.mp (eq_nil_unless hissues)
    obtain ⟨r, rfl⟩ := Value.str_of_kind (hkind rfl (hall 0 (by simp)))
    obtain ⟨s, rfl⟩ := Value.str_of_kind (hkind rfl (hall 1 (by simp)))
    obtain ⟨u, rfl⟩ := Value.str_of_kind (hkind rfl (hall 2 (by simp)))
    obtain ⟨w, rfl⟩ := Value.str_of_kind (hkind rfl (hall 3 (by simp)))
    rfl

/-- No other operators than these come to nothing: an index may be out of range. -/
theorem mem_partialOperators_iff {op : Operator} : op ∈ Operator.partialOperators ↔
    ∃ args : List Value, (∀ v ∈ args, v.kind ≠ .unknown) ∧ args.length = op.arity ∧
      operandIssues op (args.map Value.kind) = [] ∧ (op.apply args).kind = .unknown := by
  constructor
  · intro hop
    -- nothing is at the index of a node without attributes and children
    refine ⟨[.node default, .int 0], by simp [Value.kind], ?_⟩
    simp only [Operator.partialOperators, List.mem_cons, List.not_mem_nil, or_false] at hop
    rcases hop with rfl | rfl | rfl | rfl | rfl | rfl <;> exact ⟨rfl, rfl, rfl⟩
  · rintro ⟨args, hknown, hlength, hissues, hunknown⟩
    by_contra hop
    have hkind := (kind_apply hop hknown hlength hissues).symm.trans hunknown
    cases op <;> cases hkind

/-! ## 3. What the flow pass knows -/

/-- The scope says of every name in it what its kind is. -/
def Known (Γ : TypeEnv) : Prop := ∀ x, Γ.find? x ≠ some .unknown

theorem Known.insert {Γ : TypeEnv} (h : Known Γ) {k : ValueKind} (hk : k ≠ .unknown) {x : String} :
    Known (Γ.insert x k) := by
  intro y
  by_cases hyx : y = x
  · rw [hyx, Dict.find?_insert_self]
    exact fun hkind => hk (Option.some.inj hkind)
  · rw [Dict.find?_insert_of_ne _ hyx]
    exact h y

section Pass

variable {final : List (String × ValueKind)} {s s' : State} {k : ValueKind} {ctx : Context}
  {n : Node}

theorem check_eq (ctx : Context) (n : Node) :
    check ctx n = visit n (checkForm ctx n (checks ctx n.children)) := by
  cases n
  rfl

/-- Without imports, a variable that passes is in scope. -/
theorem Passes.varKind_bound (hctx : ctx.namespaces = []) {x : String}
    (hname : n.ident? "name" = some x) (h : Passes final (Flow.varKind ctx n) s k s') :
    s' = s ∧ s.env.find? x = some k := by
  have himports : ctx.imports x = false := by
    unfold Context.imports
    rw [hctx]
    split <;> rfl
  unfold Flow.varKind at h
  rw [hname] at h
  obtain ⟨_, u, hget, h⟩ := h.bind .get fun s => by
    cases s.env.find? x with
    | some kind => exact .pure kind
    | none => exact .bind (.reportIf _ _ _) fun _ => .pure _
  cases hget.eq
  cases hfind : s.env.find? x with
  | some kind =>
    rw [hfind] at h
    obtain ⟨rfl, rfl⟩ := h.pure
    exact ⟨rfl, rfl⟩
  | none =>
    -- a name that is not in scope is reported
    rw [hfind, himports] at h
    obtain ⟨_, _, hreport, -⟩ := h.bind (.reportIf _ _ _) fun _ => .pure _
    cases hreport.reportIf.1

theorem Passes.branchKind_known {thenKind elseKind : ValueKind} (hthen : thenKind ≠ .unknown)
    (helse : elseKind ≠ .unknown) (h : Passes final (Flow.branchKind n thenKind elseKind) s k s') :
    s' = s ∧ k = thenKind ∧ k = elseKind := by
  have hneither : ¬(decide (thenKind = .unknown) || decide (elseKind = .unknown)) = true := by
    simp [hthen, helse]
  unfold Flow.branchKind at h
  by_cases heq : thenKind = elseKind
  · rw [if_pos heq] at h
    obtain ⟨rfl, rfl⟩ := h.pure
    exact ⟨rfl, rfl, heq⟩
  · rw [if_neg heq, if_neg hneither] at h
    obtain ⟨_, _, hreport, -⟩ := h.bind (.report n _) fun _ => .pure _
    exact hreport.report.elim

/-- A call without an issue has arguments that fit the contract of its target, and its kind is what
the contract names. -/
theorem check_of_callIssues {env : TypeEnv} {target : String} {args : List ValueKind}
    (h : callIssues ctx env target args = ([], k)) {c : Contract}
    (hlookup : Contract.lookup? target = some c) : c.check args = [] ∧ k = c.returns := by
  unfold callIssues at h
  split at h
  · cases h
  · rw [hlookup] at h
    obtain ⟨-, hcheck⟩ := List.append_eq_nil_iff.mp (congrArg Prod.fst h)
    exact ⟨List.map_eq_nil_iff.mp hcheck, (congrArg Prod.snd h).symm⟩

theorem lookup_add : Contract.lookup? "math.add" =
    some ⟨"math.add", "math", "VAL031", [⟨.int, "VAL032"⟩, ⟨.int, "VAL033"⟩], .int⟩ := rfl

/-- Known arguments of an addition that passes are two numbers. -/
theorem kinds_of_add {env : TypeEnv} {args : List ValueKind}
    (h : callIssues ctx env "math.add" args = ([], k)) (hknown : ∀ k ∈ args, k ≠ .unknown) :
    "math" ∈ ctx.permissions ∧ args = [.int, .int] ∧ k = .int := by
  obtain ⟨hcheck, hkind⟩ := check_of_callIssues h lookup_add
  refine ⟨(permitted_of_callIssues h lookup_add).1, ?_, hkind⟩
  have hfits := Contract.check_eq_nil_iff.mp hcheck
  cases hfits with
  | @cons a _ _ _ ha hrest =>
    cases hrest with
    | @cons b _ _ _ hb hrest =>
      cases hrest
      rw [(ValueKind.fits_iff.mp ha).resolve_right (hknown a (by simp)),
        (ValueKind.fits_iff.mp hb).resolve_right (hknown b (by simp))]

end Pass

/-- A name that is bound to no function is in scope behind the value only. -/
theorem Passes.bind_plain {final : List (String × ValueKind)} {ctx : Context} {n child : Node}
    {x : String} (hform : n.form? = some .bind) (hname : n.ident? "name" = some x)
    (hchildren : n.children = [child]) (hfn : child.isFn = false) {s s' : State} {k : ValueKind}
    (h : Passes final (Flow.checkForm ctx n (checks ctx n.children)) s k s') :
    k = .void ∧ ∃ kind a b, a.env = s.env ∧ Passes final (check ctx child) a kind b ∧
      s'.env = b.env.insert x kind := by
  have htracked := tracked_check ctx child
  unfold Flow.checkForm Flow.checkBind at h
  rw [hform, hname, hchildren] at h
  obtain ⟨_, a, hdeclare, h⟩ := h.bind (.declare x child) fun _ =>
    .bind htracked fun _ => .bind (.bindName _ _) fun _ => .pure _
  obtain ⟨kind, b, hvalue, h⟩ := h.bind htracked fun _ => .bind (.bindName _ _) fun _ => .pure _
  obtain ⟨_, c, hbind, h⟩ := h.bind (.bindName _ _) fun _ => .pure _
  obtain ⟨rfl, rfl⟩ := h.pure
  refine ⟨rfl, kind, a, b, ?_, hvalue, ?_⟩
  · rw [hdeclare.declare, hfn]
    rfl
  · cases hbind.eq
    rfl

/-- The statements of the program pass from the empty scope on, without any imports. -/
theorem statements_pass {root : Node} {permissions : List String} {structural : Bool}
    (hroot : root.StraightLine) (hvalid : validate root ∅ permissions structural = []) :
    ∃ s ks s', s.env = ∅ ∧ Passes (run root ∅ permissions).kinds
    (checkAll (checks ⟨[], permissions⟩ root.children)) s ks s' := by
  have hnone := no_functions_of_straightLine hroot fun m hm => (approved_of_validate hvalid m hm).shape
  have hdeclared : predeclare root ∅ = ∅ := by
    unfold predeclare
    rw [List.filterMap_eq_nil_iff.mpr fun m hm => (hnone m hm).1]
    rfl
  have hrun : run root ∅ permissions = (check ⟨[], permissions⟩ root ⟨∅, [], #[], []⟩).2 := by
    unfold run
    rw [List.filterMap_eq_nil_iff.mpr fun m hm => (hnone m hm).2, hdeclared]
  have hpasses : Passes (run root ∅ permissions).kinds (check ⟨[], permissions⟩ root)
      ⟨∅, [], #[], []⟩ _ (run root ∅ permissions) :=
    ⟨Prod.ext rfl hrun.symm, findings_of_validate hvalid, List.suffix_refl _⟩
  rw [check_eq] at hpasses
  have htracked := tracked_checks ⟨[], permissions⟩ root.children
  obtain ⟨-, -, s, _, hs, -, hform⟩ := hpasses.visit (.checkForm htracked _ root)
  unfold checkForm at hform
  rw [hroot.form] at hform
  obtain ⟨ks, s', hall, -⟩ := hform.bind (.checkAll htracked) fun _ => .pure _
  exact ⟨s, ks, s', hs, hall⟩

end Flow

end Arbor
