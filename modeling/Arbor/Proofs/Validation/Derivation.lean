import Arbor.Proofs.Form
import Arbor.Proofs.Validation.Tracking
import Arbor.Proofs.Validation.Typing

/-!
# Derivations of valid programs

Code that passes without a finding has a derivation by the typing rules (`Flow.Typed.of_passes`), form
by form and by induction on the tree, and so has a whole program that is orderly
(`Flow.typed_program`).
-/

namespace Arbor.Flow

open Text

variable {root : Node} {permissions : List String}

/-! ## 1. Code in its scope -/

/-- Where code stands: in a scope with the view, in the line of its statements or off it. -/
structure Placed (root : Node) (permissions : List String) (V : View) (scope : Node) (inLine : Bool)
    (n : Node) : Prop where
  inScope : Scope root permissions V scope
  own : n.ownCode ⊆ scope.ownCode
  off : n.offLine inLine ⊆ scope.offLine true

namespace Placed

variable {V : View} {scope n c : Node} {inLine : Bool}

theorem program : Placed root permissions (programView root permissions) root true root :=
  ⟨.program, List.Subset.refl _, List.Subset.refl _⟩

theorem child (h : Placed root permissions V scope inLine n) (hfn : n.isFn = false)
    (hc : c ∈ n.children) : Placed root permissions V scope (inLine && n.isSequence) c :=
  ⟨h.inScope, List.Subset.trans (Node.ownCode_subset hfn hc) h.own,
    List.Subset.trans (Node.offLine_subset inLine hfn hc) h.off⟩

theorem mem (h : Placed root permissions V scope inLine n) : n ∈ scope.ownCode :=
  h.own n.mem_ownCode_self

theorem body (h : Placed root permissions V scope inLine n) (hform : n.form? = some .fn)
    {body : Node} (hbody : n.children = [body]) :
    Placed root permissions (bodyView root permissions V n body) body true body :=
  ⟨.body h.inScope h.mem hform hbody, List.Subset.refl _, List.Subset.refl _⟩

theorem binds (h : Placed root permissions V scope inLine n) {x : String} {k : ValueKind}
    (hx : (x, k) ∈ bindings root permissions n) : V.Binds x k := h.inScope.binds h.mem hx

variable (horderly : Orderly root permissions)
include horderly

theorem settled (h : Placed root permissions V scope inLine n) (hform : n.form? = some .bind)
    {x : String} (hname : n.ident? "name" = some x) (hoff : inLine = false) : V.Settled x := by
  subst hoff
  refine (horderly V scope h.inScope).names x (List.mem_append_left _ ?_)
  refine List.mem_filterMap.mpr ⟨n, h.off n.mem_offLine_self, ?_⟩
  unfold Node.boundName?
  rw [if_pos hform, hname]

theorem learns (h : Placed root permissions V scope inLine n) {x : String}
    (hx : n.learnedName? = some x) : V.Learns x :=
  ⟨h.binds (mem_bindings_learned hx), (horderly V scope h.inScope).names x
    (List.mem_append_right _ (List.mem_filterMap.mpr ⟨n, h.mem, hx⟩))⟩

theorem imported (h : Placed root permissions V scope inLine n)
    (hform : n.form? = some .importModule) {x : String} (hx : (namespace? x).isSome = true) :
    V.Binds x .unknown ∧ V.Settled x := by
  have himports : scope.imports = true :=
    List.any_eq_true.mpr ⟨n, h.mem, decide_eq_true hform⟩
  exact View.settled_of_imports (h.inScope.imports himports)
    ((horderly V scope h.inScope).imports himports) hx

theorem values (h : Placed root permissions V scope inLine n) (hform : n.form? = some .bind)
    (hc : c ∈ n.children) : c.passesOn = false :=
  (horderly V scope h.inScope).values n h.mem hform c hc

end Placed

/-! ## 2. From the pass to the rules -/

/-- A node that is well-formed by itself has as many children as its form asks for. -/
theorem length_of_shape {n : Node} {form : Form} (hform : n.form? = some form)
    (hshape : n.shapeIssues = []) : (Shape.ofForm form).minChildren ≤ n.children.length ∧
      ∀ max, (Shape.ofForm form).maxChildren? = some max → n.children.length ≤ max := by
  unfold Node.shapeIssues at hshape
  rw [hform] at hshape
  obtain ⟨-, hcount⟩ := List.append_eq_nil_iff.mp hshape
  split at hcount
  · next hadmits =>
    obtain ⟨hmin, hmax⟩ := Bool.and_eq_true_iff.mp hadmits
    refine ⟨of_decide_eq_true hmin, fun max heq => ?_⟩
    rw [heq] at hmax
    exact of_decide_eq_true hmax
  · cases hcount

/-- A node that has the most children its form allows has no further ones. -/
theorem eq_nil_of_full (before : List Child) {rest : List Child} {n : Node} {form : Form}
    (hform : n.form? = some form) (hshape : n.shapeIssues = [])
    (hmax : (Shape.ofForm form).maxChildren? = some before.length)
    (hnodes : n.children = (before ++ rest).map Child.node) : rest = [] := by
  have hmost := (length_of_shape hform hshape).2 _ hmax
  rw [hnodes, List.length_map, List.length_append] at hmost
  exact List.length_eq_zero_iff.mp (by omega)

theorem shapeIssues_of_structuralReport (h : structuralReport root = []) :
    ∀ n ∈ root.walk, n.shapeIssues = [] :=
  fun n hn => List.map_eq_nil_iff.mp (List.flatMap_eq_nil_iff.mp h n hn)

mutual

/-- Every node of a well-formed program is code of some scope. -/
theorem Scope.of_mem_walk : ∀ {m n : Node} {V : View} {scope : Node},
    Scope root permissions V scope → m.ownCode ⊆ scope.ownCode →
    (∀ a ∈ m.walk, a.shapeIssues = []) → n ∈ m.walk →
    ∃ V' scope', Scope root permissions V' scope' ∧ n ∈ scope'.ownCode
  | ⟨kind, id, attrs, children, span⟩, n, V, scope, hscope, hown, hshape, hn => by
    have hself := hown (Node.mem_ownCode_self _)
    have hnode := hshape ⟨kind, id, attrs, children, span⟩
      (by rw [Node.walk]; exact List.mem_cons_self)
    have hbelow : ∀ a ∈ Node.walkList children, a.shapeIssues = [] := fun a ha =>
      hshape a (by rw [Node.walk]; exact List.mem_cons_of_mem _ ha)
    rw [Node.walk] at hn
    obtain rfl | hn := List.mem_cons.mp hn
    · exact ⟨V, scope, hscope, hself⟩
    · cases hfn : Node.isFn ⟨kind, id, attrs, children, span⟩ with
      | false =>
        exact Scope.of_mem_walkList hscope
          (fun c hc => List.Subset.trans (Node.ownCode_subset hfn hc) hown) hbelow hn
      | true =>
        have hform := Node.form?_of_isFn hfn
        obtain ⟨hleast, hmost⟩ := length_of_shape hform hnode
        obtain ⟨body, hbody⟩ := List.length_eq_one_iff.mp (Nat.le_antisymm (hmost 1 rfl) hleast)
        -- below a function the scope is that of its body
        refine Scope.of_mem_walkList (.body hscope hself hform hbody) (fun c hc => ?_) hbelow hn
        have heq : c ∈ [body] := hbody ▸ hc
        rw [List.mem_singleton.mp heq]
        exact List.Subset.refl _

theorem Scope.of_mem_walkList : ∀ {ms : List Node} {n : Node} {V : View} {scope : Node},
    Scope root permissions V scope → (∀ m ∈ ms, m.ownCode ⊆ scope.ownCode) →
    (∀ a ∈ Node.walkList ms, a.shapeIssues = []) → n ∈ Node.walkList ms →
    ∃ V' scope', Scope root permissions V' scope' ∧ n ∈ scope'.ownCode
  | [], _, _, _, _, _, _, hn => by cases hn
  | m :: ms, n, V, scope, hscope, hown, hshape, hn => by
    obtain ⟨hm, hms⟩ := List.forall_mem_cons.mp hown
    obtain ⟨hfirst, hrest⟩ := List.forall_mem_append.mp hshape
    obtain hn | hn := List.mem_append.mp hn
    · exact Scope.of_mem_walk hscope hm hfirst hn
    · exact Scope.of_mem_walkList hscope hms hrest hn

end

/-- An orderly program binds no name of a function to anything else. -/
theorem Orderly.functions (horderly : Orderly root permissions) (hshape : structuralReport root = []) :
    ∀ x ∈ root.walk.filterMap declaredFunction?, (programView root permissions).Settled x := by
  intro x hx
  obtain ⟨n, hn, hdeclared⟩ := List.mem_filterMap.mp hx
  obtain ⟨V, scope, hscope, hmem⟩ := Scope.of_mem_walk .program (List.Subset.refl root.ownCode)
    (shapeIssues_of_structuralReport hshape) hn
  have hlearned : n.learnedName? = some x := by
    unfold declaredFunction? at hdeclared
    split at hdeclared
    · next hform =>
      split at hdeclared
      · next child hchildren =>
        split at hdeclared
        · next hfn => exact (Node.learnedName?_bind hform hchildren hfn).trans hdeclared
        · cases hdeclared
      · cases hdeclared
    · cases hdeclared
  have hsettled := (horderly V scope hscope).names x
    (List.mem_append_right _ (List.mem_filterMap.mpr ⟨n, hmem, hlearned⟩))
  exact fun k k' hk hk' => hsettled k k' (hscope.programView_le hk) (hscope.programView_le hk')

theorem lookup_of_mem {l : List (String × ValueKind)} (hl : (l.map Prod.fst).Nodup) {id : String}
    {k : ValueKind} (h : (id, k) ∈ l) : l.lookup id = some k := by
  induction l with
  | nil => cases h
  | cons e l ih =>
    obtain ⟨he, hl⟩ := List.nodup_cons.mp hl
    obtain rfl | h := List.mem_cons.mp h
    · exact List.lookup_cons_self
    · have hne : (id == e.1) = false :=
        beq_false_of_ne fun heq => he (heq ▸ List.mem_map_of_mem (f := Prod.fst) h)
      rw [List.lookup_cons, hne]
      exact ih hl h

/-- A pass that finds nothing keeps one kind for each id. -/
theorem kindOf?_of_mem (hclean : (run root ∅ permissions).findings = #[]) {n : Node} {k : ValueKind}
    (h : (n.id, k) ∈ (run root ∅ permissions).kinds) : kindOf? root permissions n = some k := by
  obtain ⟨new, hnew, hnodup, -⟩ := (tracked_check _ root _).kinds hclean
  have hkinds : (run root ∅ permissions).kinds = new := hnew.trans (List.append_nil new)
  unfold kindOf?
  rw [hkinds] at h ⊢
  exact lookup_of_mem hnodup h

theorem text?_of_ident? {n : Node} {key text : String} (h : n.ident? key = some text) :
    n.text? key = some text := by
  unfold Node.ident? at h
  unfold Node.text?
  obtain ⟨value, hvalue, htext⟩ := Option.bind_eq_some_iff.mp h
  rw [hvalue, Option.bind_some]
  cases value <;> cases htext
  rfl

/-- Where a call gives no issue, its kind is what the contract of its target names. -/
theorem kind_of_callIssues {ctx : Context} {env : TypeEnv} {n : Node} {args : List ValueKind}
    {k : ValueKind} (h : callIssues ctx env ((n.text? "target").getD "") args = ([], k))
    {target : String} (htarget : n.ident? "target" = some target) :
    k = ((Contract.lookup? target).map Contract.returns).getD .unknown := by
  rw [text?_of_ident? htarget, Option.getD_some] at h
  unfold callIssues at h
  split at h
  · cases h
  · cases hlookup : Contract.lookup? target with
    | some contract =>
      rw [hlookup] at h
      exact (congrArg Prod.snd h).symm
    | none =>
      rw [hlookup] at h
      dsimp only at h
      split at h
      · exact (congrArg Prod.snd h).symm
      · split at h <;> exact (congrArg Prod.snd h).symm

/-- Whenever the child passes without a finding, the rules give it the kind it passes with. -/
def Child.Derives (root : Node) (permissions : List String) (c : Child) : Prop :=
  ∀ ⦃V scope inLine s k s'⦄, Placed root permissions V scope inLine c.node →
    Passes (run root ∅ permissions).kinds c.check s k s' →
    Typed root permissions V inLine s.env c.node k s'.env

section Forms

variable {V : View} {scope : Node} {inLine : Bool} {s s' : State} {n : Node} {k : ValueKind}
  {children : List Child}
  (htracked : ∀ c ∈ children, Tracked c.check)
  (hderives : ∀ c ∈ children, c.Derives root permissions)
include htracked hderives

theorem TypedAll.of_passes {ks : List ValueKind}
    (hplaced : ∀ c ∈ children, Placed root permissions V scope inLine c.node)
    (h : Passes (run root ∅ permissions).kinds (checkAll children) s ks s') :
    TypedAll root permissions V inLine s.env (children.map Child.node) ks s'.env := by
  induction children generalizing s ks with
  | nil =>
    obtain ⟨rfl, rfl⟩ := h.pure
    exact .nil
  | cons c cs ih =>
    obtain ⟨hc, hcs⟩ := List.forall_mem_cons.mp htracked
    obtain ⟨hfirst, hrest⟩ := List.forall_mem_cons.mp hderives
    obtain ⟨hat, hats⟩ := List.forall_mem_cons.mp hplaced
    obtain ⟨kind, u, hkind, h⟩ := h.bind hc fun _ => .bind (.checkAll hcs) fun _ => .pure _
    obtain ⟨kinds, v, hkinds, h⟩ := h.bind (.checkAll hcs) fun _ => .pure _
    obtain ⟨rfl, rfl⟩ := h.pure
    exact .cons (hfirst hat hkind) (ih hcs hrest hats hkinds)

variable (horderly : Orderly root permissions)
  (hplaced : Placed root permissions V scope inLine n)
  (hnodes : n.children = children.map Child.node) (hshape : n.shapeIssues = [])

omit htracked hderives in
include hplaced hnodes in
/-- The children of a sequence are in the line if it is. -/
theorem Placed.statements {form : Form} (hform : n.form? = some form)
    (hsequence : form = .program ∨ form = .block) :
    ∀ c ∈ children, Placed root permissions V scope inLine c.node := by
  intro c hc
  have hfn : n.isFn = false := by
    rw [Node.isFn_of_form? hform]
    obtain rfl | rfl := hsequence <;> decide
  have hin : n.isSequence = true := by
    unfold Node.isSequence
    rw [Node.isProgram_of_form? hform, Node.isBlock_of_form? hform]
    obtain rfl | rfl := hsequence <;> decide
  have hchild := hplaced.child hfn (hnodes ▸ List.mem_map_of_mem hc)
  rwa [hin, Bool.and_true] at hchild

omit htracked hderives in
include hplaced hnodes in
/-- The children of other nodes are off the line. -/
theorem Placed.parts {form : Form} (hform : n.form? = some form)
    (hother : form.kind ∉ [Form.program.kind, Form.block.kind, Form.fn.kind]) :
    ∀ c ∈ children, Placed root permissions V scope false c.node := by
  intro c hc
  simp only [List.mem_cons, List.not_mem_nil, or_false, not_or] at hother
  obtain ⟨hprogram, hblock, hfn⟩ := hother
  have hout : n.isSequence = false := by
    unfold Node.isSequence
    rw [Node.isProgram_of_form? hform, Node.isBlock_of_form? hform, beq_false_of_ne hprogram,
      beq_false_of_ne hblock]
    rfl
  have hchild := hplaced.child ((Node.isFn_of_form? hform).trans (beq_false_of_ne hfn))
    (hnodes ▸ List.mem_map_of_mem hc)
  rwa [hout, Bool.and_false] at hchild

omit htracked hderives in
include hnodes hshape in
theorem exists_eq_singleton {form : Form} (hform : n.form? = some form)
    (hmin : (Shape.ofForm form).minChildren = 1) (hmax : (Shape.ofForm form).maxChildren? = some 1) :
    ∃ c, children = [c] := by
  obtain ⟨hleast, hmost⟩ := length_of_shape hform hshape
  have hlength := hmost 1 hmax
  rw [hmin] at hleast
  rw [hnodes, List.length_map] at hleast hlength
  exact List.length_eq_one_iff.mp (Nat.le_antisymm hlength hleast)

include hplaced hnodes hshape

include horderly in
theorem TypedForm.of_checkBind (hform : n.form? = some .bind)
    (h : Passes (run root ∅ permissions).kinds (checkBind n children) s k s') :
    TypedForm root permissions V inLine s.env n k s'.env := by
  obtain ⟨child, rfl⟩ := exists_eq_singleton hnodes hshape hform rfl rfl
  have hmem : child ∈ [child] := List.mem_cons_self
  have hat := hplaced.parts hnodes hform (by decide) child hmem
  have hchild := htracked child hmem
  unfold checkBind at h
  dsimp only at h
  split at h
  · next name hname =>
    obtain ⟨_, u, hdeclare, h⟩ := h.bind (.declare name child.node) fun _ =>
      .bind hchild fun _ => .bind (.bindName _ _) fun _ => .pure _
    obtain ⟨kind, v, hkind, h⟩ := h.bind hchild fun _ => .bind (.bindName _ _) fun _ => .pure _
    obtain ⟨_, w, hbind, h⟩ := h.bind (.bindName _ _) fun _ => .pure _
    cases hbind.eq
    obtain ⟨rfl, rfl⟩ := h.pure
    have htyped := hderives child hmem hat hkind
    have hlearns (hfn : child.node.isFn = true) : V.Learns name :=
      hplaced.learns horderly ((Node.learnedName?_bind hform hnodes hfn).trans hname)
    refine .bind hform hnodes hname ?_ htyped (hplaced.values horderly hform ?_) ?_ hlearns ?_
    -- before the child is checked, the scope is changed at most by the name of a function
    · rw [hdeclare.declare]
      split
      · next hfn => exact .insert (hlearns hfn).1 (hlearns hfn).2
      · exact .refl V _
    · rw [hnodes]
      exact List.mem_cons_self
    · cases htyped with
      | mk hkindOf _ => exact hplaced.binds (mem_bindings_bind hform hname hnodes hkindOf)
    · exact hplaced.settled horderly hform hname
  · next hname =>
    obtain ⟨kind, v, hkind, h⟩ := h.bind hchild fun _ => .pure _
    obtain ⟨rfl, rfl⟩ := h.pure
    exact .bindNothing hform hnodes hname (hderives child hmem hat hkind)

theorem TypedForm.of_checkFn (hform : n.form? = some .fn)
    (h : Passes (run root ∅ permissions).kinds (checkFn n children) s k s') :
    TypedForm root permissions V inLine s.env n k s'.env := by
  obtain ⟨body, rfl⟩ := exists_eq_singleton hnodes hshape hform rfl rfl
  have hmem : body ∈ [body] := List.mem_cons_self
  have hbody := htracked body hmem
  have hinner : Tracked (do bindParams n; body.check) := .bind (.bindParams n) fun _ => hbody
  unfold checkFn at h
  dsimp only at h
  have h := h.unreported (.bind (.inCopy hinner) fun _ => .pure _)
  obtain ⟨kind, v, hcopy, h⟩ := h.bind (.inCopy hinner) fun _ => .pure _
  obtain ⟨rfl, rfl⟩ := h.pure
  obtain ⟨henv, w, hcopied⟩ := hcopy.inCopy hinner
  obtain ⟨_, w', hparams, hkind⟩ := hcopied.bind (.bindParams n) fun _ => hbody
  cases hparams.eq
  rw [henv]
  exact .fn hform hnodes (hderives body hmem (hplaced.body hform hnodes) hkind)

theorem TypedForm.of_checkBranch (hform : n.form? = some .branch)
    (h : Passes (run root ∅ permissions).kinds (checkBranch n children) s k s') :
    TypedForm root permissions V inLine s.env n k s'.env := by
  have hmin := (length_of_shape hform hshape).1
  have hat := hplaced.parts hnodes hform (by decide)
  unfold checkBranch at h
  split at h
  · rw [hnodes] at hmin
    exact absurd hmin (Nat.not_succ_le_zero 1)
  · rw [hnodes] at hmin
    exact absurd hmin (Nat.lt_irrefl 1)
  · next condition thenArm =>
    obtain ⟨rfl, _, _, u, v, hfirst, hsecond, hscope⟩ :=
      h.branchThen (htracked condition (by simp)) (htracked thenArm (by simp))
    rw [hscope]
    exact .branch hform hnodes (hderives _ (by simp) (hat _ (by simp)) hfirst)
      (hderives _ (by simp) (hat _ (by simp)) hsecond)
  · next condition thenArm elseArm rest =>
    obtain rfl := eq_nil_of_full [condition, thenArm, elseArm] hform hshape rfl hnodes
    obtain ⟨_, _, _, u, u', v, w, hfirst, -, hsecond, hthird, hu', hs', hjoin⟩ :=
      h.branchElse (htracked condition (by simp)) (htracked thenArm (by simp))
        (htracked elseArm (by simp))
    have htyped := hderives _ (by simp) (hat elseArm (by simp)) hthird
    rw [hu'] at htyped
    rw [hs']
    exact .branchElse hform hnodes (hderives _ (by simp) (hat _ (by simp)) hfirst)
      (hderives _ (by simp) (hat _ (by simp)) hsecond) htyped hjoin.branchKind.2

theorem TypedForm.of_checkLeave (hform : n.form? = some .leave)
    (h : Passes (run root ∅ permissions).kinds (checkLeave children) s k s') :
    TypedForm root permissions V inLine s.env n k s'.env := by
  have hat := hplaced.parts hnodes hform (by decide)
  unfold checkLeave at h
  split at h
  · obtain ⟨rfl, rfl⟩ := h.pure
    exact .leaveNothing hform hnodes
  · next child rest =>
    obtain rfl := eq_nil_of_full [child] hform hshape rfl hnodes
    have hmem : child ∈ [child] := List.mem_cons_self
    exact .leave hform hnodes (hderives child hmem (hat child hmem) h)

include horderly in
theorem TypedForm.of_checkExport (hform : n.form? = some .exportName)
    (h : Passes (run root ∅ permissions).kinds (checkExport n children) s k s') :
    TypedForm root permissions V inLine s.env n k s'.env := by
  have hat := hplaced.parts hnodes hform (by decide)
  unfold checkExport at h
  split at h
  · next child rest =>
    obtain rfl := eq_nil_of_full [child] hform hshape rfl hnodes
    have hmem : child ∈ [child] := List.mem_cons_self
    obtain ⟨kind, u, hkind, h⟩ := h.bind (htracked child hmem) fun _ => .pure _
    obtain ⟨rfl, rfl⟩ := h.pure
    refine .exportChild hform hnodes (hderives child hmem (hat child hmem) hkind) fun x hx hfn => ?_
    exact hplaced.learns horderly ((Node.learnedName?_export hform hnodes hfn).trans hx)
  · split at h
    · obtain ⟨_, u, hget, h⟩ := h.bind .get fun _ => .bind (.reportIf _ _ _) fun _ => .pure _
      obtain ⟨rfl, rfl⟩ := (h.unreported (.pure _)).pure
      cases hget.eq
      exact .exportBound hform hnodes
    · obtain ⟨rfl, rfl⟩ := h.pure
      exact .exportBound hform hnodes

include horderly in
theorem TypedForm.of_passes {ctx : Context}
    (h : Passes (run root ∅ permissions).kinds (checkForm ctx n children) s k s') :
    TypedForm root permissions V inLine s.env n k s'.env := by
  unfold checkForm at h
  split at h
  · next hform =>
    unfold Node.shapeIssues at hshape
    rw [hform] at hshape
    cases hshape
  · next hform =>
    have hat := hplaced.statements hnodes hform (.inl rfl)
    obtain ⟨kinds, u, hall, h⟩ := h.bind (.checkAll htracked) fun _ => .pure _
    obtain ⟨rfl, rfl⟩ := h.pure
    have htyped := TypedAll.of_passes htracked hderives hat hall
    exact .program hform (hnodes ▸ htyped)
  · next hform =>
    have hat := hplaced.statements hnodes hform (.inr rfl)
    obtain ⟨kinds, u, hall, h⟩ := h.bind (.checkAll htracked) fun _ => .pure _
    obtain ⟨rfl, rfl⟩ := h.pure
    have htyped := TypedAll.of_passes htracked hderives hat hall
    exact .block hform (hnodes ▸ htyped)
  · next hform => exact .of_checkBind htracked hderives horderly hplaced hnodes hshape hform h
  · next hform =>
    obtain ⟨rfl, rfl⟩ := h.varKind
    exact .var hform
  · next hform =>
    obtain ⟨rfl, rfl⟩ := h.pure
    exact .lit hform
  · next hform =>
    have hat := hplaced.parts hnodes hform (by decide)
    obtain ⟨kinds, u, hall, h⟩ := h.bind (.checkAll htracked) fun _ => .callKind ctx n _
    obtain ⟨rfl, hissues⟩ := h.callKind
    have htyped := TypedAll.of_passes htracked hderives hat hall
    exact .call hform (hnodes ▸ htyped)
      fun target htarget => kind_of_callIssues hissues htarget
  · next hform => exact .of_checkFn htracked hderives hplaced hnodes hshape hform h
  · next hform => exact .of_checkBranch htracked hderives hplaced hnodes hshape hform h
  · next hform => exact .of_checkLeave htracked hderives hplaced hnodes hshape hform h
  · next hform =>
    obtain ⟨rfl, rfl⟩ := h.pure
    exact .importModule hform fun x hx => hplaced.imported horderly hform hx
  · next hform => exact .of_checkExport htracked hderives horderly hplaced hnodes hshape hform h
  · next op hform =>
    have hat := hplaced.parts hnodes hform (by cases op <;> decide)
    obtain ⟨kinds, u, hall, h⟩ := h.bind (.checkAll htracked) fun _ =>
      .bind (.reportAll n _) fun _ => .pure _
    obtain ⟨_, v, hreport, h⟩ := h.bind (.reportAll n _) fun _ => .pure _
    obtain ⟨rfl, rfl⟩ := h.pure
    obtain ⟨-, rfl⟩ := hreport.reportAll
    have htyped := TypedAll.of_passes htracked hderives hat hall
    exact .operator hform (hnodes ▸ htyped)

end Forms

theorem checks_node (ctx : Context) (ns : List Node) : (checks ctx ns).map Child.node = ns := by
  induction ns with
  | nil => rfl
  | cons n ns ih => exact congrArg (n :: ·) ih

mutual

/-- What passes without a finding has a derivation, in an orderly program. -/
theorem Typed.of_passes (horderly : Orderly root permissions)
    (hclean : (run root ∅ permissions).findings = #[]) (ctx : Context) :
    ∀ n : Node, Child.Derives root permissions ⟨n, check ctx n⟩
  | ⟨kind, id, attrs, children, span⟩ => by
    intro V scope inLine s k s' hplaced h
    have htracked := tracked_checks ctx children
    have hderives := Typed.of_passes_all horderly hclean ctx children
    obtain ⟨hshape, hmem, u, u', hu, hu', h⟩ := h.visit (.checkForm htracked ctx _)
    have hform := TypedForm.of_passes htracked hderives horderly hplaced
      (checks_node ctx children).symm hshape h
    rw [hu, hu'] at hform
    exact .mk (kindOf?_of_mem hclean hmem) hform

theorem Typed.of_passes_all (horderly : Orderly root permissions)
    (hclean : (run root ∅ permissions).findings = #[]) (ctx : Context) :
    ∀ ns : List Node, ∀ c ∈ checks ctx ns, c.Derives root permissions
  | [] => fun _ hc => absurd hc List.not_mem_nil
  | n :: ns => List.forall_mem_cons.mpr
    ⟨Typed.of_passes horderly hclean ctx n, Typed.of_passes_all horderly hclean ctx ns⟩

end

/-- A program in which the pass finds nothing has a derivation, if it is orderly. -/
theorem typed_program (horderly : Orderly root permissions)
    (hclean : (run root ∅ permissions).findings = #[]) :
    ∃ k Γ, Typed root permissions (programView root permissions) true (predeclare root ∅) root k Γ :=
  ⟨_, _, Typed.of_passes horderly hclean _ root .program
    ⟨rfl, hclean, List.suffix_refl _⟩⟩

end Arbor.Flow
