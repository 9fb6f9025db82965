import Arbor.Proofs.Form
import Arbor.Validation.Flow

/-!
# Scopes and what is bound in them

The program and every function body are scopes: code that binds names in one frame. The flow pass
follows the bindings of a scope statement by statement. A run need not: it leaves statements out behind
an error node, it keeps what the branch of an `If` has bound, and a function that is called sees the
names of its own scope and the globals as they are by then.

This module says what is in view in a scope, and which names a run may bind in another way than the
flow pass does: the `Stray` ones. A scope is `Tidy` when each of these has one kind in all that is in
view.
-/

namespace Arbor

open Text

/-! ## 1. The code of a scope -/

namespace Node

/-- Is the node a sequence of statements? -/
def isSequence (n : Node) : Bool := n.isProgram || n.isBlock

mutual

/-- The nodes of the code that runs in one scope: those of the tree, but for the bodies of its
functions. -/
def ownCode : Node → List Node
  | ⟨kind, id, attrs, children, span⟩ =>
    let n : Node := ⟨kind, id, attrs, children, span⟩
    n :: if n.isFn then [] else ownCodeAll children

def ownCodeAll : List Node → List Node
  | [] => []
  | c :: cs => ownCode c ++ ownCodeAll cs

end

mutual

/-- Of the code that runs in one scope, what is not in the line of its statements. The tree itself is
when `inLine` says so, and with a sequence in the line are its statements. -/
def offLine (inLine : Bool) : Node → List Node
  | ⟨kind, id, attrs, children, span⟩ =>
    let n : Node := ⟨kind, id, attrs, children, span⟩
    (if inLine then [] else [n]) ++ if n.isFn then [] else offLineAll (inLine && n.isSequence) children

def offLineAll (inLine : Bool) : List Node → List Node
  | [] => []
  | c :: cs => offLine inLine c ++ offLineAll inLine cs

end

theorem ownCodeAll_eq (ns : List Node) : ownCodeAll ns = ns.flatMap ownCode := by
  induction ns with
  | nil => rfl
  | cons n ns ih => rw [ownCodeAll, ih, List.flatMap_cons]

theorem ownCode_eq (n : Node) :
    n.ownCode = n :: if n.isFn then [] else n.children.flatMap ownCode := by
  cases n
  rw [ownCode, ownCodeAll_eq]

theorem offLineAll_eq (inLine : Bool) (ns : List Node) :
    offLineAll inLine ns = ns.flatMap (offLine inLine) := by
  induction ns with
  | nil => rfl
  | cons n ns ih => rw [offLineAll, ih, List.flatMap_cons]

theorem offLine_eq (inLine : Bool) (n : Node) :
    n.offLine inLine = (if inLine then [] else [n]) ++
      if n.isFn then [] else n.children.flatMap (offLine (inLine && n.isSequence)) := by
  cases n
  rw [offLine, offLineAll_eq]

theorem mem_ownCode_self (n : Node) : n ∈ n.ownCode := by
  rw [ownCode_eq]
  exact List.mem_cons_self

theorem mem_offLine_self (n : Node) : n ∈ n.offLine false := by
  rw [offLine_eq]
  exact List.mem_append_left _ List.mem_cons_self

theorem ownCode_subset {n c : Node} (hfn : n.isFn = false) (hc : c ∈ n.children) :
    c.ownCode ⊆ n.ownCode := by
  intro m hm
  rw [ownCode_eq n, hfn]
  exact List.mem_cons_of_mem _ (List.mem_flatMap.mpr ⟨c, hc, hm⟩)

theorem offLine_subset {n c : Node} (inLine : Bool) (hfn : n.isFn = false) (hc : c ∈ n.children) :
    c.offLine (inLine && n.isSequence) ⊆ n.offLine inLine := by
  intro m hm
  rw [offLine_eq inLine n, hfn]
  exact List.mem_append_right _ (List.mem_flatMap.mpr ⟨c, hc, hm⟩)

mutual

/-- Does the node pass on the value of a nested program, or of an `If` that has no else? The flow pass
computes no kind for these values. -/
def passesOn : Node → Bool
  | ⟨kind, _, _, children, _⟩ =>
    match Form.ofKind? kind, children with
    | some .program, _ => true
    | some .block, children => lastPassesOn false children
    | some .branch, _ :: thenArm :: elseArm :: _ => passesOn thenArm || passesOn elseArm
    | some .branch, _ => true
    | _, _ => false

/-- Does the last of the nodes, or what is before them if there is none? -/
def lastPassesOn (before : Bool) : List Node → Bool
  | [] => before
  | c :: cs => lastPassesOn (passesOn c) cs

end

theorem passesOn_program {n : Node} (h : n.form? = some .program) : n.passesOn = true := by
  cases n
  unfold passesOn
  rw [show Form.ofKind? _ = _ from h]

theorem passesOn_block {n : Node} (h : n.form? = some .block) :
    n.passesOn = lastPassesOn false n.children := by
  cases n
  unfold passesOn
  rw [show Form.ofKind? _ = _ from h]

theorem passesOn_branch {n condition thenArm : Node} (h : n.form? = some .branch)
    (hchildren : n.children = [condition, thenArm]) : n.passesOn = true := by
  cases n
  subst hchildren
  unfold passesOn
  rw [show Form.ofKind? _ = _ from h]

theorem passesOn_branchElse {n condition thenArm elseArm : Node} (h : n.form? = some .branch)
    (hchildren : n.children = [condition, thenArm, elseArm]) :
    n.passesOn = (thenArm.passesOn || elseArm.passesOn) := by
  cases n
  subst hchildren
  conv => lhs; unfold passesOn
  rw [show Form.ofKind? _ = _ from h]

/-- The name that a function learns from the node around it. -/
def learnedName? (n : Node) : Option String :=
  match n.children with
  | [child] =>
    if !child.isFn then none
    else match n.form? with
      | some .bind => n.ident? "name"
      | some .exportName => n.text? "name"
      | _ => none
  | _ => none

theorem learnedName?_bind {n child : Node} (hform : n.form? = some .bind)
    (hchildren : n.children = [child]) (hfn : child.isFn = true) :
    n.learnedName? = n.ident? "name" := by
  unfold learnedName?
  rw [hchildren]
  dsimp only
  rw [hfn, hform]
  rfl

theorem learnedName?_export {n child : Node} (hform : n.form? = some .exportName)
    (hchildren : n.children = [child]) (hfn : child.isFn = true) :
    n.learnedName? = n.text? "name" := by
  unfold learnedName?
  rw [hchildren]
  dsimp only
  rw [hfn, hform]
  rfl

/-- The name that a `Let` binds. -/
def boundName? (n : Node) : Option String :=
  if n.form? = some .bind then n.ident? "name" else none

/-- Does the code of the scope import anything? -/
def imports (scope : Node) : Bool := scope.ownCode.any (·.form? = some .importModule)

/-- The names that a run may bind in another way than the flow pass, or at another time: what the scope
binds out of the line of its statements, and what it binds functions to. -/
def strayNames (scope : Node) : List String :=
  (scope.offLine true).filterMap boundName? ++ scope.ownCode.filterMap learnedName?

end Node

/-! ## 2. What is in view -/

/-- What is in view of a scope: names with the kinds that they are bound with, and whether there are
imports, which may bind any qualified name to anything. -/
structure View where
  bound : List (String × ValueKind)
  imports : Bool

namespace View

/-- Something in view binds the name with the kind. -/
def Binds (V : View) (x : String) (k : ValueKind) : Prop :=
  (x, k) ∈ V.bound ∨ V.imports = true ∧ (namespace? x).isSome = true ∧ k = .unknown

/-- Everything in view that binds the name binds it with the kind. -/
def Steady (V : View) (x : String) (k : ValueKind) : Prop := ∀ k', V.Binds x k' → k' = k

/-- Everything in view that binds the name binds it with one kind. -/
def Settled (V : View) (x : String) : Prop := ∀ k k', V.Binds x k → V.Binds x k' → k = k'

/-- The name may be bound to a function that learns it. -/
def Learns (V : View) (x : String) : Prop := V.Binds x .function ∧ V.Settled x

variable {V : View} {x : String} {k : ValueKind}

theorem Settled.steady (h : V.Settled x) (hk : V.Binds x k) : V.Steady x k :=
  fun k' hk' => h k' k hk' hk

/-- With imports in view, a qualified name is settled if it is bound to something unknown only. -/
theorem settled_of_imports (himports : V.imports = true)
    (hbound : ∀ e ∈ V.bound, (namespace? e.1).isSome = true → e.2 = .unknown)
    (hx : (namespace? x).isSome = true) : V.Binds x .unknown ∧ V.Settled x := by
  have hunknown (k : ValueKind) (hk : V.Binds x k) : k = .unknown := by
    obtain hmem | ⟨-, -, rfl⟩ := hk
    · exact hbound _ hmem hx
    · rfl
  exact ⟨.inr ⟨himports, hx, rfl⟩, fun k k' hk hk' => (hunknown k hk).trans (hunknown k' hk').symm⟩

instance : Decidable (V.Settled x) :=
  decidable_of_iff ((∀ e ∈ V.bound, ∀ e' ∈ V.bound, e.1 = x → e'.1 = x → e.2 = e'.2) ∧
      (V.imports = true → (namespace? x).isSome = true → ∀ e ∈ V.bound, e.1 = x → e.2 = .unknown)) (by
    constructor
    · rintro ⟨hsame, hunknown⟩ k k' (hk | ⟨himports, hx, rfl⟩) (hk' | ⟨himports', hx', rfl⟩)
      · exact hsame _ hk _ hk' rfl rfl
      · exact hunknown himports' hx' _ hk rfl
      · exact (hunknown himports hx _ hk' rfl).symm
      · rfl
    · intro h
      refine ⟨?_, ?_⟩
      · rintro ⟨y, k⟩ hk ⟨z, k'⟩ hk' rfl rfl
        exact h k k' (.inl hk) (.inl hk')
      · rintro himports hx ⟨y, k⟩ hk rfl
        exact h k .unknown (.inl hk) (.inr ⟨himports, hx, rfl⟩))

end View

namespace Flow

section Scopes

variable (root : Node) (permissions : List String)

/-- The kind that the flow pass computes for a node of a program, by the id of the node. -/
def kindOf? (n : Node) : Option ValueKind := (run root ∅ permissions).kinds.lookup n.id

/-- The names that a node of a scope binds, with their kinds: that of a `Let`, and that which a function
learns, in its body. -/
def bindings (n : Node) : List (String × ValueKind) :=
  (match n.boundName?, n.children with
    | some x, [child] => (kindOf? root permissions child).toList.map (x, ·)
    | _, _ => []) ++
  n.learnedName?.toList.map (·, .function)

/-- What is in view in the program: what it binds, and the names of all functions. -/
def programView : View where
  bound := (root.walk.filterMap declaredFunction?).map (·, ValueKind.function) ++
    root.ownCode.flatMap (bindings root permissions)
  imports := root.imports

/-- What is in view in the body of a function whose own scope has the view `V`. -/
def bodyView (V : View) (f body : Node) : View where
  bound := V.bound ++ (splitNames ((f.text? "params").getD "")).map (·, ValueKind.unknown) ++
    body.ownCode.flatMap (bindings root permissions)
  imports := V.imports || body.imports

/-- The scopes of a program, each with what is in view there. -/
inductive Scope : View → Node → Prop where
  | program : Scope (programView root permissions) root
  | body {V : View} {scope f body : Node} : Scope V scope → f ∈ scope.ownCode →
      f.form? = some .fn → f.children = [body] → Scope (bodyView root permissions V f body) body

end Scopes

/-- The scope binds only values for which the flow pass computes a kind, each stray name has one kind
in view, and what an import may bind is bound to nothing known. -/
structure Tidy (V : View) (scope : Node) : Prop where
  values : ∀ n ∈ scope.ownCode, n.form? = some .bind → ∀ c ∈ n.children, c.passesOn = false
  names : ∀ x ∈ scope.strayNames, V.Settled x
  imports : scope.imports = true → ∀ e ∈ V.bound, (namespace? e.1).isSome = true → e.2 = .unknown

instance {V : View} {scope : Node} : Decidable (Tidy V scope) :=
  decidable_of_iff (_ ∧ _ ∧ _) ⟨fun ⟨hvalues, hnames, himports⟩ => ⟨hvalues, hnames, himports⟩,
    fun ⟨hvalues, hnames, himports⟩ => ⟨hvalues, hnames, himports⟩⟩

/-- All scopes of the program are tidy. -/
def Orderly (root : Node) (permissions : List String) : Prop :=
  ∀ V scope, Scope root permissions V scope → Tidy V scope

variable {root : Node} {permissions : List String}

theorem mem_bindings_bind {n child : Node} {x : String} {k : ValueKind}
    (hform : n.form? = some .bind) (hname : n.ident? "name" = some x) (hchildren : n.children = [child])
    (hk : kindOf? root permissions child = some k) : (x, k) ∈ bindings root permissions n := by
  refine List.mem_append_left _ ?_
  unfold Node.boundName?
  rw [if_pos hform, hname, hchildren]
  dsimp only
  rw [hk]
  exact List.mem_cons_self

theorem mem_bindings_learned {n : Node} {x : String} (hx : n.learnedName? = some x) :
    (x, .function) ∈ bindings root permissions n := by
  refine List.mem_append_right _ ?_
  rw [hx]
  exact List.mem_cons_self

/-- What is in view around a function is in view in its body. -/
theorem binds_bodyView {V : View} (f body : Node) {x : String} {k : ValueKind} (h : V.Binds x k) :
    (bodyView root permissions V f body).Binds x k := by
  obtain hmem | ⟨himports, hx, hk⟩ := h
  · exact .inl (List.mem_append_left _ (List.mem_append_left _ hmem))
  · exact .inr ⟨Bool.or_eq_true_iff.mpr (.inl himports), hx, hk⟩

/-- A parameter may be anything. -/
theorem binds_param {V : View} {f : Node} (body : Node) {x : String}
    (hx : x ∈ splitNames ((f.text? "params").getD "")) :
    (bodyView root permissions V f body).Binds x .unknown :=
  .inl (List.mem_append_left _ (List.mem_append_right _ (List.mem_map_of_mem hx)))

namespace Scope

variable {V : View} {scope : Node}

theorem programView_le (h : Scope root permissions V scope) {x : String} {k : ValueKind}
    (hx : (programView root permissions).Binds x k) : V.Binds x k := by
  induction h with
  | program => exact hx
  | body _ _ _ _ ih => exact binds_bodyView _ _ ih

theorem binds (h : Scope root permissions V scope) {n : Node} (hn : n ∈ scope.ownCode) {x : String}
    {k : ValueKind} (hx : (x, k) ∈ bindings root permissions n) : V.Binds x k := by
  have hmem := List.mem_flatMap.mpr ⟨n, hn, hx⟩
  cases h with
  | program => exact .inl (List.mem_append_right _ hmem)
  | body _ _ _ _ => exact .inl (List.mem_append_right _ hmem)

theorem imports (h : Scope root permissions V scope) (himports : scope.imports = true) :
    V.imports = true := by
  cases h with
  | program => exact himports
  | body _ _ _ _ => exact Bool.or_eq_true_iff.mpr (.inr himports)

end Scope

/-! ## 3. All scopes of a program -/

section All

variable (root : Node) (permissions : List String)

mutual

/-- The scopes of the functions in the code, and of those in their bodies. -/
def bodiesIn (V : View) : Node → List (View × Node)
  | ⟨kind, id, attrs, children, span⟩ =>
    let n : Node := ⟨kind, id, attrs, children, span⟩
    if n.isFn then
      match children with
      | [body] =>
        let inner := bodyView root permissions V n body
        (inner, body) :: bodiesIn inner body
      | _ => []
    else bodiesInAll V children

def bodiesInAll (V : View) : List Node → List (View × Node)
  | [] => []
  | c :: cs => bodiesIn V c ++ bodiesInAll V cs

end

/-- The scopes of the program. -/
def scopes : List (View × Node) :=
  (programView root permissions, root) :: bodiesIn root permissions (programView root permissions) root

end All

mutual

/-- The body of a function is among the scopes in the code of the function, and so are those in it. -/
theorem bodiesIn_of_mem {V : View} {f body : Node} (hform : f.form? = some .fn)
    (hchildren : f.children = [body]) : ∀ {n : Node}, f ∈ n.ownCode →
    (bodyView root permissions V f body, body) :: bodiesIn root permissions
      (bodyView root permissions V f body) body ⊆ bodiesIn root permissions V n
  | ⟨kind, id, attrs, children, span⟩, hf => by
    rw [Node.ownCode] at hf
    obtain rfl | hf := List.mem_cons.mp hf
    · subst hchildren
      have hfn := (Node.isFn_of_form? hform).trans (by decide : _ = true)
      rw [bodiesIn, if_pos hfn]
      exact List.Subset.refl _
    · split at hf
      · cases hf
      · next hfn =>
        conv => rhs; unfold bodiesIn
        rw [if_neg hfn]
        exact bodiesInAll_of_mem hform hchildren hf

theorem bodiesInAll_of_mem {V : View} {f body : Node} (hform : f.form? = some .fn)
    (hchildren : f.children = [body]) : ∀ {ns : List Node}, f ∈ Node.ownCodeAll ns →
    (bodyView root permissions V f body, body) :: bodiesIn root permissions
      (bodyView root permissions V f body) body ⊆ bodiesInAll root permissions V ns
  | [], hf => by cases hf
  | n :: ns, hf => by
    rw [bodiesInAll]
    obtain hf | hf := List.mem_append.mp hf
    · exact List.Subset.trans (bodiesIn_of_mem hform hchildren hf) (List.subset_append_left _ _)
    · exact List.Subset.trans (bodiesInAll_of_mem hform hchildren hf) (List.subset_append_right _ _)

end

theorem Scope.mem_scopes {V : View} {scope : Node} (h : Scope root permissions V scope) :
    (V, scope) :: bodiesIn root permissions V scope ⊆ scopes root permissions := by
  induction h with
  | program => exact List.Subset.refl _
  | body _ hf hform hchildren ih =>
    exact List.Subset.trans (bodiesIn_of_mem hform hchildren hf)
      (List.Subset.trans (List.subset_cons_self _ _) ih)

/-- Whether a program is orderly can be read off its scopes. -/
theorem orderly_of_scopes (h : ∀ p ∈ scopes root permissions, Tidy p.1 p.2) :
    Orderly root permissions :=
  fun _ _ hscope => h _ (hscope.mem_scopes List.mem_cons_self)

end Flow

end Arbor
