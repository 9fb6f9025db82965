import Arbor.Proofs.Validation.Scopes

/-!
# Typing rules

What the flow pass does at a program in which it finds nothing, as rules: how the kind of a node comes
from the kinds below it, and how the scope goes from one to the next. The rules also say what a run of
an orderly program relies on about the names that each node binds.

Main fact: off the line of a scope's statements, only names that are settled change in the scope
(`Flow.Typed.drift`).
-/

namespace Arbor.Flow

open Text

/-- From `Γ` to `Γ'` only names that are settled in view have changed. -/
def Drift (V : View) (Γ Γ' : TypeEnv) : Prop :=
  ∀ x, Γ'.find? x = Γ.find? x ∨ ∃ k, Γ'.find? x = some k ∧ V.Binds x k ∧ V.Settled x

namespace Drift

variable {V : View} {Γ Γ' Γ'' : TypeEnv}

theorem refl (V : View) (Γ : TypeEnv) : Drift V Γ Γ := fun _ => .inl rfl

theorem trans (h : Drift V Γ Γ') (h' : Drift V Γ' Γ'') : Drift V Γ Γ'' := by
  intro x
  obtain heq | hsettled := h' x
  · rw [heq]
    exact h x
  · exact .inr hsettled

theorem insert {x : String} {k : ValueKind} (hk : V.Binds x k) (hsettled : V.Settled x) :
    Drift V Γ (Γ.insert x k) := by
  intro y
  by_cases hne : y = x
  · subst hne
    exact .inr ⟨k, Γ.find?_insert_self y k, hk, hsettled⟩
  · exact .inl (Γ.find?_insert_of_ne hne k)

end Drift

/-- The scope behind the parameters of a function. -/
def paramScope (Γ : TypeEnv) (params : List String) : TypeEnv :=
  Γ.insertAll (params.map (·, ValueKind.unknown))

/-! ## 1. The rules -/

section Rules

variable (root : Node) (permissions : List String)

mutual

/-- In view of `V` the node has the kind `k`, and takes the scope `Γ` to `Γ'`. -/
inductive Typed : View → Bool → TypeEnv → Node → ValueKind → TypeEnv → Prop where
  | mk {V : View} {inLine : Bool} {Γ Γ' : TypeEnv} {n : Node} {k : ValueKind} :
    kindOf? root permissions n = some k → TypedForm V inLine Γ n k Γ' → Typed V inLine Γ n k Γ'

/-- The rule for each form. -/
inductive TypedForm : View → Bool → TypeEnv → Node → ValueKind → TypeEnv → Prop where
  | program {V : View} {inLine : Bool} {Γ Γ' : TypeEnv} {n : Node} {ks : List ValueKind} :
    n.form? = some .program → TypedAll V inLine Γ n.children ks Γ' →
    TypedForm V inLine Γ n .void Γ'
  | block {V : View} {inLine : Bool} {Γ Γ' : TypeEnv} {n : Node} {ks : List ValueKind} :
    n.form? = some .block → TypedAll V inLine Γ n.children ks Γ' →
    TypedForm V inLine Γ n (ks.getLast?.getD .void) Γ'
  | bind {V : View} {inLine : Bool} {Γ Γ₀ Γ₁ : TypeEnv} {n child : Node} {x : String}
      {k : ValueKind} :
    n.form? = some .bind → n.children = [child] → n.ident? "name" = some x →
    Drift V Γ Γ₀ → Typed V false Γ₀ child k Γ₁ → child.passesOn = false →
    V.Binds x k → (child.isFn = true → V.Learns x) → (inLine = false → V.Settled x) →
    TypedForm V inLine Γ n .void (Γ₁.insert x k)
  | bindNothing {V : View} {inLine : Bool} {Γ Γ' : TypeEnv} {n child : Node} {k : ValueKind} :
    n.form? = some .bind → n.children = [child] → n.ident? "name" = none →
    Typed V false Γ child k Γ' → TypedForm V inLine Γ n .void Γ'
  | var {V : View} {inLine : Bool} {Γ : TypeEnv} {n : Node} : n.form? = some .var →
    TypedForm V inLine Γ n (((n.ident? "name").bind Γ.find?).getD .unknown) Γ
  | lit {V : View} {inLine : Bool} {Γ : TypeEnv} {n : Node} : n.form? = some .lit →
    TypedForm V inLine Γ n n.literal.kind Γ
  | call {V : View} {inLine : Bool} {Γ Γ' : TypeEnv} {n : Node} {ks : List ValueKind}
      {k : ValueKind} :
    n.form? = some .call → TypedAll V false Γ n.children ks Γ' →
    (∀ target, n.ident? "target" = some target →
      k = ((Contract.lookup? target).map Contract.returns).getD .unknown) →
    TypedForm V inLine Γ n k Γ'
  | fn {V : View} {inLine : Bool} {Γ Γ' : TypeEnv} {n body : Node} {k : ValueKind} :
    n.form? = some .fn → n.children = [body] →
    Typed (bodyView root permissions V n body) true
      (paramScope Γ (splitNames ((n.text? "params").getD ""))) body k Γ' →
    TypedForm V inLine Γ n .function Γ
  | branch {V : View} {inLine : Bool} {Γ Γ₁ Γ₂ : TypeEnv} {n condition thenArm : Node}
      {k thenKind : ValueKind} :
    n.form? = some .branch → n.children = [condition, thenArm] →
    Typed V false Γ condition k Γ₁ → Typed V false Γ₁ thenArm thenKind Γ₂ →
    TypedForm V inLine Γ n .void Γ₁
  | branchElse {V : View} {inLine : Bool} {Γ Γ₁ Γ₂ Γ₃ : TypeEnv} {n condition thenArm elseArm : Node}
      {k k' thenKind elseKind : ValueKind} :
    n.form? = some .branch → n.children = [condition, thenArm, elseArm] →
    Typed V false Γ condition k Γ₁ → Typed V false Γ₁ thenArm thenKind Γ₂ →
    Typed V false Γ₁ elseArm elseKind Γ₃ → k' = .unknown ∨ k' = thenKind ∧ k' = elseKind →
    TypedForm V inLine Γ n k' Γ₁
  | leaveNothing {V : View} {inLine : Bool} {Γ : TypeEnv} {n : Node} : n.form? = some .leave →
    n.children = [] → TypedForm V inLine Γ n .void Γ
  | leave {V : View} {inLine : Bool} {Γ Γ' : TypeEnv} {n child : Node} {k : ValueKind} :
    n.form? = some .leave → n.children = [child] → Typed V false Γ child k Γ' →
    TypedForm V inLine Γ n k Γ'
  | importModule {V : View} {inLine : Bool} {Γ : TypeEnv} {n : Node} :
    n.form? = some .importModule →
    (∀ x, (namespace? x).isSome = true → V.Binds x .unknown ∧ V.Settled x) →
    TypedForm V inLine Γ n .void Γ
  | exportBound {V : View} {inLine : Bool} {Γ : TypeEnv} {n : Node} : n.form? = some .exportName →
    n.children = [] → TypedForm V inLine Γ n .void Γ
  | exportChild {V : View} {inLine : Bool} {Γ Γ' : TypeEnv} {n child : Node} {k : ValueKind} :
    n.form? = some .exportName → n.children = [child] → Typed V false Γ child k Γ' →
    (∀ x, n.text? "name" = some x → child.isFn = true → V.Learns x) →
    TypedForm V inLine Γ n .void Γ'
  | operator {V : View} {inLine : Bool} {Γ Γ' : TypeEnv} {n : Node} {op : Operator}
      {ks : List ValueKind} :
    n.form? = some (.operator op) → TypedAll V false Γ n.children ks Γ' →
    TypedForm V inLine Γ n (resultKind op) Γ'

/-- Nodes in order have the kinds `ks`. -/
inductive TypedAll : View → Bool → TypeEnv → List Node → List ValueKind → TypeEnv → Prop where
  | nil {V : View} {inLine : Bool} {Γ : TypeEnv} : TypedAll V inLine Γ [] [] Γ
  | cons {V : View} {inLine : Bool} {Γ Γ' Γ'' : TypeEnv} {n : Node} {ns : List Node} {k : ValueKind}
      {ks : List ValueKind} :
    Typed V inLine Γ n k Γ' → TypedAll V inLine Γ' ns ks Γ'' →
    TypedAll V inLine Γ (n :: ns) (k :: ks) Γ''

end

end Rules

variable {root : Node} {permissions : List String}

mutual

/-- Off the line, a node only changes names that are settled. -/
theorem Typed.drift {V : View} {inLine : Bool} {Γ Γ' : TypeEnv} {n : Node} {k : ValueKind} :
    Typed root permissions V inLine Γ n k Γ' → inLine = false → Drift V Γ Γ'
  | .mk _ hform, hoff => hform.drift hoff

theorem TypedForm.drift {V : View} {inLine : Bool} {Γ Γ' : TypeEnv} {n : Node} {k : ValueKind} :
    TypedForm root permissions V inLine Γ n k Γ' → inLine = false → Drift V Γ Γ'
  | .program _ hall, hoff => hall.drift hoff
  | .block _ hall, hoff => hall.drift hoff
  | .bind _ _ _ hstart hchild _ hk _ hsettled, hoff =>
    (hstart.trans (hchild.drift rfl)).trans (.insert hk (hsettled hoff))
  | .bindNothing _ _ _ hchild, _ => hchild.drift rfl
  | .var _, _ => .refl _ _
  | .lit _, _ => .refl _ _
  | .call _ hall _, _ => hall.drift rfl
  | .fn _ _ _, _ => .refl _ _
  | .branch _ _ hcondition _, _ => hcondition.drift rfl
  | .branchElse _ _ hcondition _ _ _, _ => hcondition.drift rfl
  | .leaveNothing _ _, _ => .refl _ _
  | .leave _ _ hchild, _ => hchild.drift rfl
  | .importModule _ _, _ => .refl _ _
  | .exportBound _ _, _ => .refl _ _
  | .exportChild _ _ hchild _, _ => hchild.drift rfl
  | .operator _ hall, _ => hall.drift rfl

theorem TypedAll.drift {V : View} {inLine : Bool} {Γ Γ' : TypeEnv} {ns : List Node}
    {ks : List ValueKind} :
    TypedAll root permissions V inLine Γ ns ks Γ' → inLine = false → Drift V Γ Γ'
  | .nil, _ => .refl _ _
  | .cons hn hns, hoff => (hn.drift hoff).trans (hns.drift hoff)

end

/-- There is one rule for functions. -/
theorem TypedForm.function {V : View} {inLine : Bool} {Γ Γ' : TypeEnv} {n : Node} {k : ValueKind}
    (hform : n.form? = some .fn) (h : TypedForm root permissions V inLine Γ n k Γ') :
    k = .function ∧ Γ' = Γ ∧ ∃ body k' Γ'', n.children = [body] ∧
      Typed root permissions (bodyView root permissions V n body) true
        (paramScope Γ (splitNames ((n.text? "params").getD ""))) body k' Γ'' := by
  cases h
  case fn Γ'' body k' _ hchildren hbody => exact ⟨rfl, rfl, body, k', Γ'', hchildren, hbody⟩
  all_goals
    have hother := hform.symm.trans ‹n.form? = _›
    cases hother

end Arbor.Flow
