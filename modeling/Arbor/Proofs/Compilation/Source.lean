import Arbor.Node.Search
import Arbor.Proofs.Capability.Boundary
import Arbor.Proofs.Compilation.Code
import Arbor.Proofs.Evaluation.Frames
import Arbor.Proofs.Node.Walk

/-!
# Programs whose bytecode is faithful

Evaluation and the machine agree about a program when its functions come first under names of their
own, and its variables are bound where they are read: in bytecode a variable is a slot of its
function, whatever sequence it was bound in. `Faithful` lists what is asked of a program.
-/

namespace Arbor

open Text

namespace Node

/-! ## 1. Scopes -/

/-- The name that the node binds for the statements behind it. -/
def binds (n : Node) : List String :=
  if n.form? = some .bind then (n.ident? "name").toList else []

theorem binds_of_ne {n : Node} {form : Form} (hform : n.form? = some form) (hne : form ≠ .bind) :
    n.binds = [] := by
  unfold binds
  rw [hform, if_neg (by simpa using hne)]

theorem binds_bind {n : Node} (hform : n.form? = some .bind) {name : String}
    (hname : n.ident? "name" = some name) : n.binds = [name] := by
  unfold binds
  rw [if_pos hform, hname]
  rfl

mutual

/-- Does every variable in the tree have a name that is bound where it stands: by a `Let` that is an
earlier statement of the same sequence or of one around it, or as a parameter? -/
def isScoped (bound : List String) : Node → Bool
  | ⟨kind, id, attrs, children, span⟩ =>
    let n : Node := ⟨kind, id, attrs, children, span⟩
    match n.form? with
    | some .program | some .block => areStatements bound children
    | some .fn => areScoped (splitNames ((n.text? "params").getD "") ++ bound) children
    | some .var => (n.ident? "name").all bound.contains && areScoped bound children
    | _ => areScoped bound children

/-- Is each statement of a sequence scoped behind the ones before it? -/
def areStatements (bound : List String) : List Node → Bool
  | [] => true
  | n :: ns => isScoped bound n && areStatements (n.binds ++ bound) ns

/-- Are the trees scoped, all with the same names bound? -/
def areScoped (bound : List String) : List Node → Bool
  | [] => true
  | n :: ns => isScoped bound n && areScoped bound ns

end

/-- Every variable in the tree has a name that is bound where it stands. -/
def Scoped (bound : List String) (n : Node) : Prop := n.isScoped bound = true

instance (bound : List String) (n : Node) : Decidable (n.Scoped bound) :=
  inferInstanceAs (Decidable (_ = true))

/-- Every variable in the statements of a sequence has a name that is bound where it stands. -/
def ScopedStatements (bound : List String) (ns : List Node) : Prop := areStatements bound ns = true

instance (bound : List String) (ns : List Node) : Decidable (ScopedStatements bound ns) :=
  inferInstanceAs (Decidable (_ = true))

theorem scopedStatements_cons {bound : List String} {n : Node} {ns : List Node} :
    ScopedStatements bound (n :: ns) ↔ n.Scoped bound ∧ ScopedStatements (n.binds ++ bound) ns := by
  unfold ScopedStatements
  rw [areStatements, Bool.and_eq_true]
  rfl

theorem scoped_of_areScoped {bound : List String} {ns : List Node} (h : areScoped bound ns = true) :
    ∀ n ∈ ns, n.Scoped bound := by
  induction ns with
  | nil => simp
  | cons n ns ih =>
    rw [areScoped, Bool.and_eq_true] at h
    intro m hm
    rcases List.mem_cons.mp hm with rfl | hm
    · exact h.1
    · exact ih h.2 m hm

namespace Scoped

variable {bound : List String} {n : Node} (h : n.Scoped bound)
include h

theorem statements (hform : n.form? = some .program ∨ n.form? = some .block) :
    ScopedStatements bound n.children := by
  obtain ⟨kind, id, attrs, children, span⟩ := n
  unfold Scoped at h
  rw [isScoped] at h
  rcases hform with hform | hform <;> rw [hform] at h <;> exact h

theorem function (hform : n.form? = some .fn) :
    ∀ c ∈ n.children, c.Scoped (splitNames ((n.text? "params").getD "") ++ bound) := by
  obtain ⟨kind, id, attrs, children, span⟩ := n
  unfold Scoped at h
  rw [isScoped, hform] at h
  exact scoped_of_areScoped h

theorem var (hform : n.form? = some .var) {name : String} (hname : n.ident? "name" = some name) :
    name ∈ bound := by
  obtain ⟨kind, id, attrs, children, span⟩ := n
  unfold Scoped at h
  rw [isScoped, hform] at h
  dsimp only at h
  rw [hname, Bool.and_eq_true] at h
  simpa using h.1

theorem children {form : Form} (hform : n.form? = some form)
    (hsimple : form ≠ .program ∧ form ≠ .block ∧ form ≠ .fn) :
    ∀ c ∈ n.children, c.Scoped bound := by
  obtain ⟨kind, id, attrs, children, span⟩ := n
  unfold Scoped at h
  rw [isScoped, hform] at h
  refine scoped_of_areScoped ?_
  cases form with
  | program => exact absurd rfl hsimple.1
  | block => exact absurd rfl hsimple.2.1
  | fn => exact absurd rfl hsimple.2.2
  | var =>
    rw [Bool.and_eq_true] at h
    exact h.2
  | _ => exact h

end Scoped

/-! ## 2. What may be bound and called -/

/-- The node binds nothing, leaves nothing and calls no function. The capabilities it calls ask nothing
of the host: the permission is missing, or is none for the host and no program is evaluated. -/
structure InertHere (permissions : List String) (n : Node) : Prop where
  bind : n.form? ≠ some .bind
  leave : n.form? ≠ some .leave
  call : n.form? = some .call → ∀ target ∈ n.ident? "target", (Contract.lookup? target).isSome ∧
    ∀ c ∈ Contract.lookup? target,
      c.permission ∉ permissions ∨ target ∉ runningTargets ∧ c.permission ∉ hostPermissions

instance (permissions : List String) (n : Node) : Decidable (n.InertHere permissions) :=
  decidable_of_iff (n.form? ≠ some .bind ∧ n.form? ≠ some .leave ∧
    (n.form? = some .call → ∀ target ∈ n.ident? "target", (Contract.lookup? target).isSome ∧
      ∀ c ∈ Contract.lookup? target,
        c.permission ∉ permissions ∨ target ∉ runningTargets ∧ c.permission ∉ hostPermissions))
    ⟨fun h => ⟨h.1, h.2.1, h.2.2⟩, fun h => ⟨h.bind, h.leave, h.call⟩⟩

/-- This holds of all nodes of the tree. -/
def Inert (permissions : List String) (n : Node) : Prop := ∀ m ∈ n.walk, m.InertHere permissions

instance (permissions : List String) (n : Node) : Decidable (n.Inert permissions) :=
  inferInstanceAs (Decidable (∀ m ∈ n.walk, _))

/-- If the node is a call of a capability, then its permission is held and no program is evaluated, or
it is missing and the arguments are inert. -/
def CallsAlike (permissions : List String) (n : Node) : Prop :=
  n.form? = some .call → ∀ target ∈ n.ident? "target", ∀ c ∈ Contract.lookup? target,
    target ∉ runningTargets ∧ c.permission ∈ permissions ∨
      c.permission ∉ permissions ∧ ∀ arg ∈ n.children, arg.Inert permissions

instance (permissions : List String) (n : Node) : Decidable (n.CallsAlike permissions) :=
  inferInstanceAs (Decidable (_ → _))

/-- The tree calls a function by this name, which is not the name of a capability. -/
def Calls (n : Node) (name : String) : Prop :=
  Contract.lookup? name = none ∧
    ∃ m ∈ n.walk, m.form? = some .call ∧ m.ident? "target" = some name

instance (n : Node) (name : String) : Decidable (n.Calls name) :=
  inferInstanceAs (Decidable (_ ∧ _))

/-- The node binds no name that is kept, and of the functions it calls only those whose names are. -/
structure PlainHere (functions : List String) (kept : String → Prop) (permissions : List String)
    (n : Node) : Prop where
  bind : ∀ name ∈ n.binds, ¬kept name
  callee : n.form? = some .call → ∀ target ∈ n.ident? "target", Contract.lookup? target = none →
    target ∈ functions → kept target
  capability : n.CallsAlike permissions

/-- This holds of all nodes of the tree. -/
def Plain (functions : List String) (kept : String → Prop) (permissions : List String) (n : Node) :
    Prop :=
  ∀ m ∈ n.walk, m.PlainHere functions kept permissions

theorem Inert.here {permissions : List String} {n : Node} (h : n.Inert permissions) :
    n.InertHere permissions := h n (mem_walk_self n)

theorem Inert.children {permissions : List String} {n : Node} (h : n.Inert permissions) :
    ∀ c ∈ n.children, c.Inert permissions :=
  fun _ hc m hm => h m (mem_walk_of_mem_children hc hm)

section Plain

variable {functions permissions : List String} {kept : String → Prop} {n : Node}
  (h : n.Plain functions kept permissions)
include h

theorem Plain.here : n.PlainHere functions kept permissions := h n (mem_walk_self n)

theorem Plain.children : ∀ c ∈ n.children, c.Plain functions kept permissions :=
  fun _ hc m hm => h m (mem_walk_of_mem_children hc hm)

end Plain

end Node

/-! ## 3. Slots -/

namespace Compiler

open Node

variable {functions : List String} {x : String}

mutual

/-- A slot is made only for a name that is bound in the tree. -/
theorem Compiles.mem_locals {start : Nat} {n : Node} {s s' : Scope} {code : List Instruction} :
    Compiles functions start n s code s' → x ∈ s'.locals →
    x ∈ s.locals ∨ ∃ m ∈ n.walk, x ∈ m.binds
  | .sequence _ h, hx | .callSys _ _ _ h, hx | .call _ _ _ _ h, hx | .operator _ _ h, hx =>
    (h.mem_locals hx).imp_right fun ⟨c, hc, m, hm, hbinds⟩ =>
      ⟨m, mem_walk_of_mem_children hc hm, hbinds⟩
  -- the slot of a `Let` is made behind those of its child
  | .bind hform hname hchildren h, hx => by
    rcases Scope.mem_resolve hx with hx | rfl
    · refine (h.mem_locals hx).imp_right fun ⟨m, hm, hbinds⟩ => ?_
      exact ⟨m, mem_walk_of_mem_children (by rw [hchildren]; exact List.mem_cons_self) hm, hbinds⟩
    · exact .inr ⟨n, mem_walk_self n, by rw [binds_bind hform hname]; exact List.mem_cons_self⟩
  | .text _ _, hx => .inl (by rwa [Scope.locals_constant] at hx)
  | .var _ _ _, hx | .int _ _, hx | .bool _ _, hx | .leaveVoid _ _, hx => .inl hx
  | .branch _ hchildren h h', hx => by
    rcases h'.mem_locals hx with hx | ⟨m, hm, hbinds⟩
    · refine (h.mem_locals hx).imp_right fun ⟨m, hm, hbinds⟩ => ?_
      exact ⟨m, mem_walk_of_mem_children (by simp [hchildren]) hm, hbinds⟩
    · exact .inr ⟨m, mem_walk_of_mem_children (by simp [hchildren]) hm, hbinds⟩
  | .branchElse _ hchildren h h' h'', hx => by
    rcases h''.mem_locals hx with hx | ⟨m, hm, hbinds⟩
    · rcases h'.mem_locals hx with hx | ⟨m, hm, hbinds⟩
      · refine (h.mem_locals hx).imp_right fun ⟨m, hm, hbinds⟩ => ?_
        exact ⟨m, mem_walk_of_mem_children (by simp [hchildren]) hm, hbinds⟩
      · exact .inr ⟨m, mem_walk_of_mem_children (by simp [hchildren]) hm, hbinds⟩
    · exact .inr ⟨m, mem_walk_of_mem_children (by simp [hchildren]) hm, hbinds⟩
  | .leave _ hchildren h, hx => by
    refine (h.mem_locals hx).imp_right fun ⟨m, hm, hbinds⟩ => ?_
    exact ⟨m, mem_walk_of_mem_children (by simp [hchildren]) hm, hbinds⟩

theorem CompilesAll.mem_locals {gap start : Nat} {ns : List Node} {s s' : Scope}
    {codes : List (List Instruction)} : CompilesAll functions gap start ns s codes s' →
    x ∈ s'.locals → x ∈ s.locals ∨ ∃ c ∈ ns, ∃ m ∈ c.walk, x ∈ m.binds
  | .nil, hx => .inl hx
  | .cons h h', hx => by
    rcases h'.mem_locals hx with hx | ⟨c, hc, hm⟩
    · exact (h.mem_locals hx).imp_right fun hm => ⟨_, List.mem_cons_self, hm⟩
    · exact .inr ⟨c, List.mem_cons_of_mem _ hc, hm⟩

end

end Compiler

/-! ## 4. Programs -/

/-- The names and the functions of the definitions of a program. -/
def definitions (root : Node) : List (String × Node) :=
  root.children.filterMap Compiler.definition?

/-- What is asked of a program, of its bytecode and of the permissions it runs with. -/
structure Faithful (permissions : List String) (root : Node) (p : BytecodeProgram) : Prop where
  compiled : compile root = .ok p
  /-- No operand of the bytecode saturates. -/
  small : p.constants.length < 2147483648 ∧
    ∀ f ∈ p.functions.toList, f.code.size < 2147483648 ∧ f.slotCount < 2147483648
  arguments : ∀ m ∈ root.walk, m.form? = some .call → m.children.length < 2147483648
  definitionsFirst : ∃ defs statements, root.children = defs ++ statements ∧
    (∀ n ∈ defs, (Compiler.definition? n).isSome) ∧
    ∀ n ∈ statements, Compiler.definition? n = none
  distinct : ((definitions root).map Prod.fst).Nodup
  params : ∀ d ∈ definitions root, ∃ text ∈ d.2.text? "params",
    (splitNames text).Nodup ∧ ∀ x ∈ splitNames text, x ∉ (definitions root).map Prod.fst
  /-- Nothing in a definition binds the name of a function. -/
  bindings : ∀ d ∈ definitions root, ∀ m ∈ d.2.walk, ∀ name ∈ m.binds,
    name ∉ (definitions root).map Prod.fst
  /-- Nothing in the other statements does. -/
  mainBindings : ∀ n ∈ root.children, Compiler.definition? n = none → ∀ m ∈ n.walk,
    ∀ name ∈ m.binds, name ∉ (definitions root).map Prod.fst
  inScope : root.Scoped []
  /-- The capabilities that are called evaluate nothing, and their permissions are held. -/
  calls : ∀ m ∈ root.walk, m.form? = some .call → ∀ target ∈ m.ident? "target",
    ∀ c ∈ Contract.lookup? target, target ∉ runningTargets ∧ c.permission ∈ permissions

/-- The parameters of the function of a definition. -/
def paramsOf (d : String × Node) : List String := splitNames ((d.2.text? "params").getD "")

/-- The names of a program mean the same to evaluation and to its bytecode, and so do its calls with the
permissions it runs with. -/
structure Concordant (permissions : List String) (root : Node) (p : BytecodeProgram) : Prop where
  compiled : compile root = .ok p
  /-- No operand of the bytecode saturates. -/
  small : p.constants.length < 2147483648 ∧
    ∀ f ∈ p.functions.toList, f.code.size < 2147483648 ∧ f.slotCount < 2147483648
  definitionsFirst : ∃ defs statements, root.children = defs ++ statements ∧
    (∀ n ∈ defs, (Compiler.definition? n).isSome) ∧
    ∀ n ∈ statements, Compiler.definition? n = none
  distinct : ((definitions root).map Prod.fst).Nodup
  /-- Each definition makes a closure. -/
  params : ∀ d ∈ definitions root, (d.2.text? "params").isSome
  /-- A function that a definition calls has a name which is bound to nothing else in it. -/
  unshadowed : ∀ d ∈ definitions root, ∀ name ∈ (definitions root).map Prod.fst, d.2.Calls name →
    name ∉ paramsOf d ∧ ∀ m ∈ d.2.walk, name ∉ m.binds
  /-- The other statements bind no name of a function that is called anywhere. -/
  mainUnshadowed : ∀ name ∈ (definitions root).map Prod.fst, root.Calls name →
    ∀ n ∈ root.children, Compiler.definition? n = none → ∀ m ∈ n.walk, name ∉ m.binds
  /-- A variable of a definition is a parameter that occurs once, or is bound where it stands. Names
  that are no variables of it may be in scope, too. -/
  inScope : ∀ d ∈ definitions root, ∀ body ∈ d.2.children, ∃ bound, body.Scoped bound ∧
    ∀ x ∈ bound, (x ∈ paramsOf d ∨ ∃ m ∈ body.walk, x ∈ m.binds) → (paramsOf d).count x = 1
  /-- A variable of the other statements is bound where it stands. -/
  mainInScope : ∃ bound,
    Node.ScopedStatements bound (root.children.filter fun n => (Compiler.definition? n).isNone) ∧
    ∀ x ∈ bound, ∀ n ∈ root.children, Compiler.definition? n = none → ∀ m ∈ n.walk, x ∉ m.binds
  calls : ∀ m ∈ root.walk, m.CallsAlike permissions

end Arbor
