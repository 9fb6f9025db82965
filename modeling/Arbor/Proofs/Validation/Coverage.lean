import Arbor.Proofs.Compilation.Source
import Arbor.Proofs.Validation.Derivation

/-!
# What a validation without findings has looked at

The flow pass goes to the children of a node by the node's form, and to no child that the form has no
place for. Where it finds nothing there are no such children, so it has visited every node of the tree
(`Flow.approved_of_validate`): all are well-formed by themselves, and every call of a capability has
the permission that it needs and as many arguments as the contract asks for.
-/

namespace Arbor.Flow

variable {permissions : List String}

/-- What the visit of a node has found in order: the shape, and for a call of a capability the
permission and the number of the arguments. -/
structure Approved (permissions : List String) (n : Node) : Prop where
  shape : n.shapeIssues = []
  call : n.form? = some .call → ∀ target c, n.text? "target" = some target →
    Contract.lookup? target = some c → c.permission ∈ permissions ∧ n.children.length = c.arity

/-- A call without an issue has the permission and the number of arguments that the contract of its
target asks for. -/
theorem permitted_of_callIssues {ctx : Context} {env : TypeEnv} {target : String}
    {args : List ValueKind} {k : ValueKind} (h : callIssues ctx env target args = ([], k))
    {c : Contract} (hlookup : Contract.lookup? target = some c) :
    c.permission ∈ ctx.permissions ∧ args.length = c.arity := by
  unfold callIssues at h
  split at h
  · cases h
  · rw [hlookup] at h
    obtain ⟨hpermission, hcheck⟩ := List.append_eq_nil_iff.mp (congrArg Prod.fst h)
    constructor
    · by_contra hmissing
      rw [if_neg (by simpa using hmissing)] at hpermission
      cases hpermission
    · exact (Contract.check_eq_nil_iff.mp (List.map_eq_nil_iff.mp hcheck)).length_eq

/-- From some state on, the step comes to its end without a finding. -/
def Passed {α : Type} (final : List (String × ValueKind)) (step : Check α) : Prop :=
  ∃ s a s', Passes final step s a s'

section Forms

variable {final : List (String × ValueKind)} {n : Node} {children : List Child} {s s' : State}
  {k : ValueKind} (htracked : ∀ c ∈ children, Tracked c.check)
include htracked

theorem Passes.checkAll {ks : List ValueKind} (h : Passes final (Flow.checkAll children) s ks s') :
    ks.length = children.length ∧ ∀ c ∈ children, Passed final c.check := by
  induction children generalizing s ks with
  | nil =>
    obtain ⟨rfl, rfl⟩ := h.pure
    exact ⟨rfl, by simp⟩
  | cons c cs ih =>
    obtain ⟨hc, hcs⟩ := List.forall_mem_cons.mp htracked
    obtain ⟨kind, u, hkind, h⟩ := h.bind hc fun _ => .bind (.checkAll hcs) fun _ => .pure _
    obtain ⟨kinds, v, hkinds, h⟩ := h.bind (.checkAll hcs) fun _ => .pure _
    obtain ⟨rfl, rfl⟩ := h.pure
    obtain ⟨hlength, hall⟩ := ih hcs hkinds
    exact ⟨by simp [hlength], List.forall_mem_cons.mpr ⟨⟨_, _, _, hkind⟩, hall⟩⟩

variable (hnodes : n.children = children.map Child.node) (hshape : n.shapeIssues = [])
include hnodes hshape

theorem Passes.checkBind (hform : n.form? = some .bind)
    (h : Passes final (Flow.checkBind n children) s k s') :
    ∀ c ∈ children, Passed final c.check := by
  obtain ⟨child, rfl⟩ := exists_eq_singleton hnodes hshape hform rfl rfl
  have hchild := htracked child (by simp)
  unfold Flow.checkBind at h
  dsimp only at h
  rw [List.forall_mem_singleton]
  split at h
  · obtain ⟨_, u, -, h⟩ := h.bind (.declare _ _) fun _ =>
      .bind hchild fun _ => .bind (.bindName _ _) fun _ => .pure _
    obtain ⟨_, v, hpasses, -⟩ := h.bind hchild fun _ => .bind (.bindName _ _) fun _ => .pure _
    exact ⟨_, _, _, hpasses⟩
  · obtain ⟨_, v, hpasses, -⟩ := h.bind hchild fun _ => .pure _
    exact ⟨_, _, _, hpasses⟩

theorem Passes.checkFn (hform : n.form? = some .fn)
    (h : Passes final (Flow.checkFn n children) s k s') : ∀ c ∈ children, Passed final c.check := by
  obtain ⟨body, rfl⟩ := exists_eq_singleton hnodes hshape hform rfl rfl
  have hbody := htracked body (by simp)
  have hinner : Tracked (do bindParams n; body.check) := .bind (.bindParams n) fun _ => hbody
  unfold Flow.checkFn at h
  dsimp only at h
  rw [List.forall_mem_singleton]
  have h := h.unreported (.bind (.inCopy hinner) fun _ => .pure _)
  obtain ⟨_, _, hcopy, -⟩ := h.bind (.inCopy hinner) fun _ => .pure _
  obtain ⟨-, _, hcopied⟩ := hcopy.inCopy hinner
  obtain ⟨_, _, -, hpasses⟩ := hcopied.bind (.bindParams n) fun _ => hbody
  exact ⟨_, _, _, hpasses⟩

theorem Passes.checkBranch (hform : n.form? = some .branch)
    (h : Passes final (Flow.checkBranch n children) s k s') :
    ∀ c ∈ children, Passed final c.check := by
  have hmin := (length_of_shape hform hshape).1
  unfold Flow.checkBranch at h
  split at h
  · rw [hnodes] at hmin
    exact absurd hmin (Nat.not_succ_le_zero 1)
  · rw [hnodes] at hmin
    exact absurd hmin (Nat.lt_irrefl 1)
  · next condition thenArm =>
    obtain ⟨-, _, _, _, _, hfirst, hsecond, -⟩ :=
      h.branchThen (htracked condition (by simp)) (htracked thenArm (by simp))
    simpa using ⟨⟨_, _, _, hfirst⟩, _, _, _, hsecond⟩
  · next condition thenArm elseArm rest =>
    obtain rfl := eq_nil_of_full [condition, thenArm, elseArm] hform hshape rfl hnodes
    obtain ⟨_, _, _, _, _, _, _, hfirst, -, hsecond, hthird, -⟩ :=
      h.branchElse (htracked condition (by simp)) (htracked thenArm (by simp))
        (htracked elseArm (by simp))
    simpa using ⟨⟨_, _, _, hfirst⟩, ⟨_, _, _, hsecond⟩, _, _, _, hthird⟩

theorem Passes.checkLeave (hform : n.form? = some .leave)
    (h : Passes final (Flow.checkLeave children) s k s') : ∀ c ∈ children, Passed final c.check := by
  unfold Flow.checkLeave at h
  split at h
  · simp
  · next child rest =>
    obtain rfl := eq_nil_of_full [child] hform hshape rfl hnodes
    exact List.forall_mem_singleton.mpr ⟨_, _, _, h⟩

theorem Passes.checkExport (hform : n.form? = some .exportName)
    (h : Passes final (Flow.checkExport n children) s k s') :
    ∀ c ∈ children, Passed final c.check := by
  unfold Flow.checkExport at h
  split at h
  · next child rest =>
    obtain rfl := eq_nil_of_full [child] hform hshape rfl hnodes
    obtain ⟨_, _, hpasses, -⟩ := h.bind (htracked child (by simp)) fun _ => .pure _
    exact List.forall_mem_singleton.mpr ⟨_, _, _, hpasses⟩
  · simp

/-- The children of a node that has as many as its form allows are all visited. -/
theorem Passes.checkForm {ctx : Context} (h : Passes final (Flow.checkForm ctx n children) s k s') :
    Approved ctx.permissions n ∧ ∀ c ∈ children, Passed final c.check := by
  have hother (hcall : n.form? ≠ some .call) : Approved ctx.permissions n :=
    ⟨hshape, fun hform => absurd hform hcall⟩
  -- forms that have no children
  have hleaf {form : Form} (hform : n.form? = some form)
      (hmax : (Shape.ofForm form).maxChildren? = some 0) : ∀ c ∈ children, Passed final c.check := by
    obtain rfl := eq_nil_of_full [] hform hshape hmax hnodes
    simp
  unfold Flow.checkForm at h
  split at h
  · next hform =>
    unfold Node.shapeIssues at hshape
    rw [hform] at hshape
    cases hshape
  · next hform =>
    obtain ⟨_, _, hall, -⟩ := h.bind (.checkAll htracked) fun _ => .pure _
    exact ⟨hother (by simp [hform]), (hall.checkAll htracked).2⟩
  · next hform =>
    obtain ⟨_, _, hall, -⟩ := h.bind (.checkAll htracked) fun _ => .pure _
    exact ⟨hother (by simp [hform]), (hall.checkAll htracked).2⟩
  · next hform => exact ⟨hother (by simp [hform]), h.checkBind htracked hnodes hshape hform⟩
  · next hform => exact ⟨hother (by simp [hform]), hleaf hform rfl⟩
  · next hform => exact ⟨hother (by simp [hform]), hleaf hform rfl⟩
  · next hform =>
    obtain ⟨_, _, hall, h⟩ := h.bind (.checkAll htracked) fun _ => .callKind ctx n _
    obtain ⟨hlength, hpassed⟩ := hall.checkAll htracked
    refine ⟨⟨hshape, fun _ target c htarget hlookup => ?_⟩, hpassed⟩
    have hissues := h.callKind.2
    rw [htarget, Option.getD_some] at hissues
    obtain ⟨hheld, harity⟩ := permitted_of_callIssues hissues hlookup
    exact ⟨hheld, by rw [hnodes, List.length_map, ← hlength, harity]⟩
  · next hform => exact ⟨hother (by simp [hform]), h.checkFn htracked hnodes hshape hform⟩
  · next hform => exact ⟨hother (by simp [hform]), h.checkBranch htracked hnodes hshape hform⟩
  · next hform => exact ⟨hother (by simp [hform]), h.checkLeave htracked hnodes hshape hform⟩
  · next hform => exact ⟨hother (by simp [hform]), hleaf hform rfl⟩
  · next hform => exact ⟨hother (by simp [hform]), h.checkExport htracked hnodes hshape hform⟩
  · next hform =>
    obtain ⟨_, _, hall, -⟩ := h.bind (.checkAll htracked) fun _ =>
      .bind (.reportAll n _) fun _ => .pure _
    exact ⟨hother (by simp [hform]), (hall.checkAll htracked).2⟩

end Forms

mutual

/-- Where a check passes, it has approved of every node of the tree. -/
theorem Passed.approved {final : List (String × ValueKind)} {ctx : Context} :
    ∀ {n : Node}, Passed final (check ctx n) → ∀ m ∈ n.walk, Approved ctx.permissions m
  | ⟨kind, id, attrs, children, span⟩, ⟨s, k, s', h⟩ => by
    have htracked := tracked_checks ctx children
    obtain ⟨hshape, -, u, u', -, -, h⟩ := h.visit (.checkForm htracked ctx _)
    obtain ⟨hself, hpassed⟩ := h.checkForm htracked (checks_node ctx children).symm hshape
    rw [Node.walk]
    exact List.forall_mem_cons.mpr ⟨hself, Passed.approved_list hpassed⟩

theorem Passed.approved_list {final : List (String × ValueKind)} {ctx : Context} :
    ∀ {ns : List Node}, (∀ c ∈ checks ctx ns, Passed final c.check) →
      ∀ m ∈ Node.walkList ns, Approved ctx.permissions m
  | [], _ => by simp [Node.walkList]
  | n :: ns, h => by
    obtain ⟨hn, hns⟩ := List.forall_mem_cons.mp h
    rw [Node.walkList]
    exact List.forall_mem_append.mpr ⟨Passed.approved hn, Passed.approved_list hns⟩

end

/-- A program that is validated without a finding has passed the flow pass, with the structural pass in
front of it or not. -/
theorem findings_of_validate {root : Node} {env : TypeEnv} {structural : Bool}
    (h : validate root env permissions structural = []) : (run root env permissions).findings = #[] := by
  unfold validate at h
  generalize (if structural then structuralReport root else []) = broken at h
  cases broken with
  | nil => exact Array.toList_eq_nil_iff.mp h
  | cons d ds => cases h

/-- A validation without findings has approved of every node of the program. -/
theorem approved_of_validate {root : Node} {env : TypeEnv} {structural : Bool}
    (h : validate root env permissions structural = []) :
    ∀ m ∈ root.walk, Approved permissions m := by
  have hpassed : Passed (run root env permissions).kinds
      (check ⟨root.walk.filterMap importedNamespace?, permissions⟩ root) :=
    ⟨_, _, _, rfl, findings_of_validate h, List.suffix_refl _⟩
  exact hpassed.approved

end Arbor.Flow
