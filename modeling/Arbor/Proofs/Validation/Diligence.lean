import Arbor.Proofs.Evaluation.Frames
import Arbor.Proofs.Evaluation.Runs
import Arbor.Proofs.Validation.Coverage

/-!
# What evaluation heeds of a valid program

The shape that validation asks for has a name in every `Let` and a target in every `Call`, but does
not say in which form. Evaluation takes identifiers only. Where a valid program has identifiers there,
each `Let` binds its name and each call of a capability hands its arguments over; every other `Let`
and `Call` evaluates to nothing, its children included (`Flow.heeded_of_validate`).
-/

namespace Arbor

variable {σ : Type} [Host σ]

namespace Eval

/-! ## 1. Nodes that are heeded, and nodes that are skipped -/

/-- A `Let` that was entered in `t` has evaluated its child and bound its name in the current bindings,
and nothing has happened since then in `u`. -/
def HasBound (fuel : Nat) (n : Node) (t u : Activation σ) : Prop :=
  ∃ x child w t', n.text? "name" = some x ∧ n.children = [child] ∧
    bound (eval fuel) child x (t.noteStep n).deepen = (.value w, t') ∧
    u = (t'.mapEnv (·.insert x w)).surface ∧ u.env.find? x = some w

/-- A `Call` that was entered, and has evaluated its arguments by now, goes on with the call of the
capability on them. -/
def handOver (fuel : Nat) (n : Node) (target : String) (args : List Value) : Eval σ Value := do
  let v ← between id (·.surface) (callCapability (eval fuel) fuel fuel target args)
  known n v

section Nodes

variable {fuel : Nat} {n : Node} {t : Activation σ}

theorem hasBound_of_eval {x : String} {child : Node} (hform : n.form? = some .bind)
    (hname : n.ident? "name" = some x) (hchild : n.children = [child]) {v : Value}
    {u : Activation σ} (h : eval (fuel + 1) n t = (.value v, u)) : HasBound fuel n t u := by
  rw [eval_succ] at h
  by_cases hdepth : t.session.maxDepth ≤ t.session.depth
  · -- at the limit of the depth there is no value
    rw [evalWith_of_le hdepth] at h
    cases h
  · rw [evalWith_eq (by omega), bind_def] at h
    have hbind : evalForm (eval fuel) fuel n (t.noteStep n).deepen =
        (if (t.noteStep n).deepen.session.readOnly.contains x then
          fault (.readOnlyBinding x n.id)
        else do
          let v ← bound (eval fuel) child x
          bindName x v
          pure .void : Eval σ Value) (t.noteStep n).deepen := by
      unfold evalForm evalBind
      rw [hform, hname, hchild]
      rfl
    unfold nested between at h
    dsimp only at h
    rw [hbind] at h
    by_cases hheld : (t.noteStep n).deepen.session.readOnly.contains x = true
    · -- nor is there one where the name is read-only
      rw [if_pos hheld] at h
      cases h
    · rw [if_neg hheld, bind_def] at h
      rcases hrun : bound (eval fuel) child x (t.noteStep n).deepen with ⟨o, t'⟩
      rw [hrun] at h
      -- the child must have come to a value, and this is what is bound
      cases o with
      | returned v => cases h
      | halted e => cases h
      | value w =>
        obtain ⟨-, rfl⟩ : Outcome.value Value.void = .value v ∧
          (t'.mapEnv (·.insert x w)).surface = u := Prod.mk.inj h
        refine ⟨x, child, w, t', Flow.text?_of_ident? hname, hchild, hrun, rfl, ?_⟩
        show (t'.mapEnv (·.insert x w)).env.find? x = some w
        rw [Activation.env_mapEnv, Dict.find?_insert_self]

theorem eval_handOver {target : String} {c : Contract} (hform : n.form? = some .call)
    (htarget : n.ident? "target" = some target) (hlookup : Contract.lookup? target = some c)
    (hheld : c.permission ∈ t.session.permissions)
    (hdepth : t.session.depth < t.session.maxDepth) {args : List Value} {t' : Activation σ}
    (hargs : operands (eval fuel) n.children (t.noteStep n).deepen = (.value args, t')) :
    eval (fuel + 1) n t = handOver fuel n target args t' := by
  have hcall : evalForm (eval fuel) fuel n (t.noteStep n).deepen =
      callCapability (eval fuel) fuel fuel target args t' := by
    have hheld : (t.noteStep n).deepen.session.hasPermission c.permission = true :=
      Session.hasPermission_iff.mpr hheld
    unfold evalForm evalCall
    rw [hform, htarget]
    dsimp only
    rw [hlookup]
    show (if (t.noteStep n).deepen.session.hasPermission c.permission then
      operands (eval fuel) n.children >>= callCapability (eval fuel) fuel fuel target
        else deny c >>= fun _ => pure .unknown : Eval σ Value) (t.noteStep n).deepen = _
    rw [if_pos hheld, bind_def, hargs]
  rw [eval_succ, evalWith_eq hdepth]
  unfold handOver nested
  rw [bind_def, bind_def]
  unfold between
  rw [hcall]
  rfl

/-- A form that comes to nothing by itself leaves only the note that its node was entered. -/
theorem eval_skipped (hskipped : evalForm (eval fuel) fuel n = (pure .unknown : Eval σ Value))
    (hdepth : t.session.depth < t.session.maxDepth) :
    eval (fuel + 1) n t = known n .unknown (t.noteStep n) := by
  rw [eval_succ, evalWith_eq hdepth, hskipped]
  rfl

end Nodes

end Eval

/-! ## 2. Valid programs -/

namespace Flow

open Eval

/-- In every run with the permissions that a program was validated under, its `Let` nodes bind their
names and its calls of capabilities hand over their arguments, as long as the name or the target is an
identifier. A `Let` or `Call` in which it is not is valid just as well, and is skipped. (No evaluation
changes the permissions: `Eval.restores_eval`.) -/
theorem heeded_of_validate {root : Node} {permissions : List String}
    (hvalid : validate root ∅ permissions true = []) {n : Node} (hn : n ∈ root.walk) (fuel : Nat)
    {t : Activation σ} (hpermissions : t.session.permissions = permissions) :
    (n.form? = some .bind → (n.ident? "name").isSome = true → ∀ v u,
        eval (fuel + 1) n t = (.value v, u) → HasBound fuel n t u) ∧
      (n.form? = some .call → ∀ target c, n.ident? "target" = some target →
        Contract.lookup? target = some c → t.session.depth < t.session.maxDepth → ∀ args t',
        operands (eval fuel) n.children (t.noteStep n).deepen = (.value args, t') →
        eval (fuel + 1) n t = handOver fuel n target args t') ∧
      (n.form? = some .bind ∧ n.ident? "name" = none ∨
          n.form? = some .call ∧ n.ident? "target" = none →
        t.session.depth < t.session.maxDepth →
        eval (fuel + 1) n t = known n .unknown (t.noteStep n)) := by
  have happroved := approved_of_validate hvalid n hn
  refine ⟨fun hform hname v u h => ?_, fun hform target c htarget hlookup hdepth args t' hargs => ?_,
    fun hskipped hdepth => eval_skipped ?_ hdepth⟩
  · obtain ⟨x, hx⟩ := Option.isSome_iff_exists.mp hname
    obtain ⟨hleast, hmost⟩ := length_of_shape hform happroved.shape
    obtain ⟨child, hchild⟩ := List.length_eq_one_iff.mp (Nat.le_antisymm (hmost 1 rfl) hleast)
    exact hasBound_of_eval hform hx hchild h
  · have hheld := (happroved.call hform target c (text?_of_ident? htarget) hlookup).1
    exact eval_handOver hform htarget hlookup (hpermissions ▸ hheld) hdepth hargs
  · unfold evalForm
    obtain ⟨hform, hname⟩ | ⟨hform, htarget⟩ := hskipped
    · rw [hform]
      dsimp only
      unfold evalBind
      rw [hname]
    · rw [hform]
      dsimp only
      unfold evalCall
      rw [htarget]

/-- A number. -/
def number (id : String) (i : Int32) : Node where
  kind := "Lit"
  id := id
  attrs := attrs [("value", .int i)]

/-- Binds a name to a number. -/
def letNumber (name : AttrValue) : Node where
  kind := "Let"
  id := "l"
  attrs := attrs [("name", name)]
  children := [number "i" 1]

/-- Adds two numbers. -/
def addNumbers (target : AttrValue) : Node where
  kind := "Call"
  id := "c"
  attrs := attrs [("target", target)]
  children := [number "a" 1, number "b" 2]

/-- Binds a name and adds two numbers. -/
def letAndAdd (name target : AttrValue) : Node where
  kind := "Program"
  id := "p"
  children := [letNumber name, addNumbers target]

/-- Where a run comes to the nodes of a program. -/
def within (root : Node) : Activation LocalHost := (Activation.noteStep ⟨.fresh "", []⟩ root).deepen

theorem heeded_of_validate_letAndAdd :
    let root := letAndAdd (.identifier "x") (.identifier "math.add")
    let binding := letNumber (.identifier "x")
    let sum := addNumbers (.identifier "math.add")
    let arguments := operands (eval 1) [number "a" 1, number "b" 2] ((within root).noteStep sum).deepen
    validate root ∅ ["math"] true = [] ∧ (eval 2 binding (within root)).1 = .value .void ∧
      HasBound 1 binding (within root) (eval 2 binding (within root)).2 ∧
      arguments.1 = .value [.int 1, .int 2] ∧
      eval 2 sum (within root) = handOver 1 sum "math.add" [.int 1, .int 2] arguments.2 := by
  intro root binding sum arguments
  have hvalid : validate root ∅ ["math"] true = [] := rfl
  have hbinding := (heeded_of_validate hvalid (n := binding) (by decide) 1 (t := within root) rfl).1
  have hsum := (heeded_of_validate hvalid (n := sum) (by decide) 1 (t := within root) rfl).2.1
  exact ⟨hvalid, rfl, hbinding rfl rfl .void _ rfl, rfl,
    hsum rfl "math.add" _ rfl rfl (by decide) [.int 1, .int 2] _ rfl⟩

/-- A valid program may have nodes that are skipped: a `Let` that binds nothing, and a call that does
not hand its arguments over. -/
theorem not_heeded_of_validate :
    (¬∀ (root : Node) (permissions : List String), validate root ∅ permissions true = [] →
      ∀ n ∈ root.walk, n.form? = some .bind → ∀ (fuel : Nat) (t : Activation LocalHost),
      t.session.permissions = permissions → ∀ v u, eval (fuel + 1) n t = (.value v, u) →
      HasBound fuel n t u) ∧
    ¬∀ (root : Node) (permissions : List String), validate root ∅ permissions true = [] →
      ∀ n ∈ root.walk, n.form? = some .call → ∀ target c, n.text? "target" = some target →
      Contract.lookup? target = some c → ∀ (fuel : Nat) (t : Activation LocalHost),
      t.session.permissions = permissions → t.session.depth < t.session.maxDepth → ∀ args t',
      operands (eval fuel) n.children (t.noteStep n).deepen = (.value args, t') →
      eval (fuel + 1) n t = handOver fuel n target args t' := by
  let root := letAndAdd (.string "x") (.string "math.add")
  have hvalid : validate root ∅ ["math"] true = [] := rfl
  constructor
  · intro h
    obtain ⟨x, -, w, -, -, -, -, -, hfind⟩ := h root ["math"] hvalid (letNumber (.string "x"))
      (by decide) rfl 1 (within root) rfl .unknown _ rfl
    cases hfind
  · intro h
    have hsame := h root ["math"] hvalid (addNumbers (.string "math.add")) (by decide) rfl "math.add"
      _ rfl rfl 1 (within root) rfl (by decide) [.int 1, .int 2] _ rfl
    have hvalue := congrArg Prod.fst hsame
    cases hvalue

end Flow

end Arbor
