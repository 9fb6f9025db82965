import Arbor.Proofs.Capability.Contract
import Arbor.Proofs.Node.Walk
import Arbor.Proofs.Text.Names
import Arbor.Proofs.Validation.Derivation
import Arbor.Proofs.Validation.Vagueness

/-!
# The pass as a traversal

The flow pass goes from a node to the children that its form has a place for, and to each of them once
(`Flow.visited`). In a tree of well-formed nodes these are all nodes, in pre-order
(`Flow.visited_eq_walk`). What each step of the pass does in itself is listed in `Flow.Traversal`, as
rules for a relation between two passes over one tree that differ in their permissions at most.
`Flow.Traversal.check` draws the conclusion for both passes as a whole.
-/

namespace Arbor

open Text

/-- The node is a call of a capability that needs the permission. -/
def Node.Needs (n : Node) (permission : String) : Prop :=
  n.form? = some .call ∧ ∃ target c, n.text? "target" = some target ∧
    Contract.lookup? target = some c ∧ c.permission = permission

namespace Flow

/-! ## 1. What there is to report about a node -/

/-- What the pass reports about a node because of what is below it, of what is in scope, and of what the
tree imports. That leaves its shape, its id and missing permissions. -/
inductive Raises (ctx : Context) (n : Node) : Issue → Prop
  | unbound {name : String} : n.form? = some .var → n.ident? "name" = some name →
    ctx.imports name = false → Raises ctx n (.unknownVariable name)
  | exported {name : String} : n.form? = some .exportName → n.text? "name" = some name →
    Raises ctx n (.unknownVariable name)
  | body : n.form? = some .fn → Raises ctx n .bodyNotBlock
  | branch {i : Issue} : n.form? = some .branch →
    i ∈ [.conditionKind, .thenNotBlock, .elseNotBlock, .branchKinds] → Raises ctx n i
  | operand {op : Operator} {kinds : List ValueKind} {i : Issue} : n.form? = some (.operator op) →
    i ∈ operatorIssues op kinds → Raises ctx n i
  | noTarget : n.form? = some .call → Raises ctx n .noTarget
  | contract {target : String} {c : Contract} {kinds : List ValueKind} {v : Violation} :
    n.form? = some .call → Contract.lookup? target = some c → v ∈ c.check kinds →
    Raises ctx n (.contract v)
  | target {target : String} : n.form? = some .call → n.text? "target" = some target →
    ctx.imports target = false → Raises ctx n (.unknownTarget target)

/-- What is wrong with a call that reaches no capability does not depend on the permissions. -/
theorem callIssues_of_plain (ctx : Context) (Q : List String) {env : TypeEnv} {target : String}
    (hplain : Contract.lookup? target = none) (args : List ValueKind) :
    callIssues { ctx with permissions := Q } env target args = callIssues ctx env target args := by
  unfold callIssues
  rw [hplain]
  rfl

theorem raises_of_plain {ctx : Context} {n : Node} (hform : n.form? = some .call)
    (hplain : Contract.lookup? ((n.text? "target").getD "") = none) {env : TypeEnv}
    {args : List ValueKind} :
    ∀ i ∈ (callIssues ctx env ((n.text? "target").getD "") args).1, Raises ctx n i := by
  intro i hi
  unfold callIssues at hi
  by_cases hblank : isBlankText ((n.text? "target").getD "") = true
  · rw [if_pos hblank] at hi
    rw [List.mem_singleton.mp hi]
    exact .noTarget hform
  · rw [if_neg hblank, hplain] at hi
    dsimp only at hi
    split at hi
    · cases hi
    · cases htarget : n.text? "target" with
      | none =>
        rw [htarget] at hblank
        exact absurd rfl hblank
      | some target =>
        rw [htarget, Option.getD_some] at hi
        cases himports : ctx.imports target with
        | true =>
          rw [himports] at hi
          cases hi
        | false =>
          rw [himports] at hi
          rw [List.mem_singleton.mp hi]
          exact .target hform htarget himports

/-- The target of a capability is no blank text. -/
theorem not_isBlankText_of_lookup {target : String} {c : Contract}
    (hlookup : Contract.lookup? target = some c) : isBlankText target = false := by
  obtain ⟨hmem, rfl⟩ := Contract.mem_table_of_lookup? hlookup
  refine not_isBlankText_of_dot (List.count_pos_iff.mp ?_)
  rw [Contract.count_dot_target c hmem]
  exact Nat.one_pos

/-- What is wrong with the call of a capability: a missing permission, and the arguments. -/
theorem callIssues_of_lookup {ctx : Context} {env : TypeEnv} {target : String} {c : Contract}
    (hlookup : Contract.lookup? target = some c) (args : List ValueKind) :
    callIssues ctx env target args =
      ((if ctx.permissions.contains c.permission then [] else [.denied c.permission]) ++
        (c.check args).map .contract, c.returns) := by
  unfold callIssues
  rw [not_isBlankText_of_lookup hlookup, hlookup]
  rfl

theorem callKind_eq (ctx : Context) (n : Node) (args : List ValueKind) :
    callKind ctx n args = (do
      let s ← get
      reportAll n (callIssues ctx s.env ((n.text? "target").getD "") args).1
      pure (callIssues ctx s.env ((n.text? "target").getD "") args).2) := rfl

/-- A call of a capability reports the missing permission first, if it is missing. -/
theorem reportAll_call (n : Node) (ctx : Context) (c : Contract) (vs : List Issue) :
    reportAll n ((if ctx.permissions.contains c.permission then [] else [.denied c.permission]) ++ vs) =
      (do
        reportIf (!ctx.permissions.contains c.permission) n (.denied c.permission)
        reportAll n vs) := by
  cases ctx.permissions.contains c.permission <;> rfl

/-! ## 2. The nodes that are visited -/

/-- The children that the pass goes on to, by the form of their parent. -/
def inspected {α : Type} (form? : Option Form) (children : List α) : List α :=
  match form? with
  | some .program | some .block | some .call | some (.operator _) => children
  | some .bind | some .fn => if children.length = 1 then children else []
  | some .branch => children.take 3
  | some .leave | some .exportName => children.take 1
  | some .var | some .lit | some .importModule | none => []

theorem inspected_map {α β : Type} (form? : Option Form) (f : α → β) (children : List α) :
    inspected form? (children.map f) = (inspected form? children).map f := by
  unfold inspected
  split
  · rfl
  · rfl
  · rfl
  · rfl
  · rw [List.length_map]
    split <;> rfl
  · rw [List.length_map]
    split <;> rfl
  · exact List.map_take.symm
  · exact List.map_take.symm
  · exact List.map_take.symm
  · rfl
  · rfl
  · rfl
  · rfl

/-- The pass goes on to all the children of a well-formed node. -/
theorem inspected_of_shape {n : Node} (hshape : n.shapeIssues = []) :
    inspected n.form? n.children = n.children := by
  cases hform : n.form? with
  | none =>
    unfold Node.shapeIssues at hshape
    rw [hform] at hshape
    cases hshape
  | some form =>
    obtain ⟨hleast, hmost⟩ := length_of_shape hform hshape
    cases form with
    | program | block | call | operator op => rfl
    | bind | fn => exact if_pos (Nat.le_antisymm (hmost 1 rfl) hleast)
    | branch => exact List.take_of_length_le (hmost 3 rfl)
    | leave | exportName => exact List.take_of_length_le (hmost 1 rfl)
    | var | lit | importModule =>
      have hnone : n.children = [] := List.length_eq_zero_iff.mp (Nat.le_zero.mp (hmost 0 rfl))
      rw [hnone]
      rfl

mutual

/-- The nodes that the pass visits, each before those below it. -/
def visited : Node → List Node
  | ⟨kind, id, attrs, children, span⟩ =>
    let n : Node := ⟨kind, id, attrs, children, span⟩
    n :: (inspected n.form? (visitedEach children)).flatten

/-- The same for each of the nodes. -/
def visitedEach : List Node → List (List Node)
  | [] => []
  | c :: cs => visited c :: visitedEach cs

end

theorem visitedEach_eq (ns : List Node) : visitedEach ns = ns.map visited := by
  induction ns with
  | nil => rfl
  | cons n ns ih => rw [visitedEach, ih, List.map_cons]

theorem visited_eq (n : Node) :
    visited n = n :: (inspected n.form? n.children).flatMap visited := by
  cases n
  rw [visited, visitedEach_eq, inspected_map, List.flatMap_def]

mutual

/-- In a tree of well-formed nodes the pass visits every node once, in pre-order. -/
theorem visited_eq_walk : ∀ {n : Node}, (∀ m ∈ n.walk, m.shapeIssues = []) → visited n = n.walk
  | ⟨kind, id, attrs, children, span⟩, h => by
    have hself := h _ (Node.mem_walk_self _)
    rw [visited_eq, inspected_of_shape hself, Node.walk]
    rw [Node.walk] at h
    exact congrArg _ (flatMap_visited (List.forall_mem_cons.mp h).2)

theorem flatMap_visited : ∀ {ns : List Node}, (∀ m ∈ Node.walkList ns, m.shapeIssues = []) →
    ns.flatMap visited = Node.walkList ns
  | [], _ => rfl
  | n :: ns, h => by
    rw [Node.walkList] at h ⊢
    obtain ⟨hn, hns⟩ := List.forall_mem_append.mp h
    rw [List.flatMap_cons, visited_eq_walk hn, flatMap_visited hns]

end

/-! ## 3. The pass with marks -/

/-- Visits a node like `visit`, and keeps its kind under the mark. -/
def visitAs (mark : Node → String) (n : Node) (form : Check ValueKind) : Check ValueKind := do
  noteId n
  reportAll n n.shapeIssues
  let kind ← form
  keep (mark n) kind

mutual

/-- The pass, keeping the kind of a node under a mark of the node. -/
def checkAs (ctx : Context) (mark : Node → String) : Node → Check ValueKind
  | ⟨kind, id, attrs, children, span⟩ =>
    let n : Node := ⟨kind, id, attrs, children, span⟩
    visitAs mark n (checkForm ctx n (checksAs ctx mark children))

/-- The nodes, each with its check. -/
def checksAs (ctx : Context) (mark : Node → String) : List Node → List Child
  | [] => []
  | c :: cs => ⟨c, checkAs ctx mark c⟩ :: checksAs ctx mark cs

end

mutual

/-- The pass itself keeps kinds under the ids of the nodes. -/
theorem checkAs_id (ctx : Context) : ∀ n, checkAs ctx Node.id n = check ctx n
  | ⟨kind, id, attrs, children, span⟩ => by
    rw [checkAs, check, checksAs_id ctx children]
    rfl

theorem checksAs_id (ctx : Context) : ∀ ns, checksAs ctx Node.id ns = checks ctx ns
  | [] => rfl
  | n :: ns => by rw [checksAs, checks, checkAs_id ctx n, checksAs_id ctx ns]

end

theorem checksAs_eq (ctx : Context) (mark : Node → String) (ns : List Node) :
    checksAs ctx mark ns = ns.map fun c => ⟨c, checkAs ctx mark c⟩ := by
  induction ns with
  | nil => rfl
  | cons n ns ih => rw [checksAs, ih, List.map_cons]

/-! ## 4. Two passes over one tree -/

/-- Rules for a relation between two steps of passes over one tree. The list has the nodes that both
visit. The passes have the same namespaces, the permissions of `ctx` and the permissions `Q`, and keep
kinds under marks of their own. -/
structure Traversal (ctx : Context) (Q : List String) (mark mark' : Node → String)
    (nodes : List Node) (A : (α : Type) → List Node → Check α → Check α → Prop) : Prop where
  pure {α : Type} (a : α) : A α [] (Pure.pure a) (Pure.pure a)
  bind {α β : Type} {ns ms : List Node} {step step' : Check α} {f f' : α → Check β} : A α ns step step' →
    (∀ a, A β ms (f a) (f' a)) → A β (ns ++ ms) (step >>= f) (step' >>= f')
  get {α : Type} {ns : List Node} {f f' : State → Check α} :
    (∀ s s' : State, s'.env = s.env → A α ns (f s) (f' s')) →
    A α ns (MonadState.get >>= f) (MonadState.get >>= f')
  scope (f : TypeEnv → TypeEnv) : A Unit [] (modify fun s => { s with env := f s.env })
    (modify fun s => { s with env := f s.env })
  report {n : Node} {i : Issue} : n ∈ nodes → Raises ctx n i →
    A Unit [] (Flow.report n i) (Flow.report n i)
  denial {n : Node} {p : String} : n ∈ nodes → n.Needs p →
    A Unit [] (Flow.reportIf (!ctx.permissions.contains p) n (.denied p))
      (Flow.reportIf (!Q.contains p) n (.denied p))
  visit {n : Node} {ns : List Node} {form form' : Check ValueKind} : n ∈ nodes →
    A ValueKind ns form form' →
    A ValueKind (n :: ns) (visitAs mark n form) (visitAs mark' n form')

variable {ctx : Context} {Q : List String} {mark mark' : Node → String} {nodes : List Node}
  {A : (α : Type) → List Node → Check α → Check α → Prop}

namespace Traversal

variable {α β : Type} (h : Traversal ctx Q mark mark' nodes A)
include h

/-! ### Steps that visit no node -/

theorem before {ns : List Node} {step step' : Check α} {f f' : α → Check β}
    (hstep : A α [] step step') (hf : ∀ a, A β ns (f a) (f' a)) :
    A β ns (step >>= f) (step' >>= f') := h.bind hstep hf

theorem after {ns : List Node} {step step' : Check α} {f f' : α → Check β}
    (hstep : A α ns step step') (hf : ∀ a, A β [] (f a) (f' a)) :
    A β ns (step >>= f) (step' >>= f') := by
  have hboth := h.bind hstep hf
  rwa [List.append_nil] at hboth

theorem inCopy {ns : List Node} {step step' : Check α} (hstep : A α ns step step') :
    A α ns (Flow.inCopy step) (Flow.inCopy step') := by
  refine h.get fun s s' henv => h.after hstep fun a => ?_
  rw [henv]
  exact h.before (h.scope fun _ => s.env) fun _ => h.pure a

theorem bindName (name : String) (kind : ValueKind) :
    A Unit [] (Flow.bind name kind) (Flow.bind name kind) :=
  h.scope fun env => env.insert name kind

theorem declare (name : String) (child : Node) :
    A Unit [] (Flow.declare name child) (Flow.declare name child) := by
  unfold Flow.declare
  split
  · exact h.bindName _ _
  · exact h.pure ()

theorem bindParams (n : Node) : A Unit [] (Flow.bindParams n) (Flow.bindParams n) :=
  h.scope fun env => env.insertAll _

section Node

variable {n : Node} (hn : n ∈ nodes)
include hn

theorem reportAll {is : List Issue} (his : ∀ i ∈ is, Raises ctx n i) :
    A Unit [] (Flow.reportAll n is) (Flow.reportAll n is) := by
  induction is with
  | nil => exact h.pure ()
  | cons i is ih =>
    obtain ⟨hi, his⟩ := List.forall_mem_cons.mp his
    exact h.before (h.report hn hi) fun _ => ih his

theorem reportIf {condition : Bool} {i : Issue} (hi : condition = true → Raises ctx n i) :
    A Unit [] (Flow.reportIf condition n i) (Flow.reportIf condition n i) := by
  cases condition with
  | false => exact h.pure ()
  | true => exact h.report hn (hi rfl)

theorem varKind (hform : n.form? = some .var) :
    A ValueKind [] (Flow.varKind ctx n) (Flow.varKind { ctx with permissions := Q } n) := by
  unfold Flow.varKind
  cases hname : n.ident? "name" with
  | none => exact h.pure _
  | some name =>
    refine h.get fun s s' henv => ?_
    rw [henv]
    cases s.env.find? name with
    | some kind => exact h.pure kind
    | none =>
      -- what is imported does not depend on the permissions
      have himports : Context.imports { ctx with permissions := Q } name = ctx.imports name := rfl
      rw [himports]
      exact h.before (h.reportIf hn fun hnot => .unbound hform hname (by simpa using hnot)) fun _ =>
        h.pure _

theorem callKind (hform : n.form? = some .call) (args : List ValueKind) :
    A ValueKind [] (Flow.callKind ctx n args)
      (Flow.callKind { ctx with permissions := Q } n args) := by
  rw [callKind_eq, callKind_eq]
  refine h.get fun s s' henv => ?_
  rw [henv]
  cases hlookup : Contract.lookup? ((n.text? "target").getD "") with
  | none =>
    rw [callIssues_of_plain ctx Q hlookup]
    exact h.before (h.reportAll hn (raises_of_plain hform hlookup)) fun _ => h.pure _
  | some c =>
    rw [callIssues_of_lookup hlookup, callIssues_of_lookup hlookup, reportAll_call, reportAll_call]
    have hneeds : n.Needs c.permission := by
      refine ⟨hform, (n.text? "target").getD "", c, ?_, hlookup, rfl⟩
      cases htarget : n.text? "target" with
      | some target => rfl
      | none =>
        rw [htarget] at hlookup
        exact absurd (not_isBlankText_of_lookup hlookup) (by decide)
    have harguments : ∀ i ∈ (c.check args).map Issue.contract, Raises ctx n i := by
      intro i hi
      obtain ⟨v, hv, rfl⟩ := List.mem_map.mp hi
      exact .contract hform hlookup hv
    exact h.before (h.before (h.denial hn hneeds) fun _ => h.reportAll hn harguments) fun _ =>
      h.pure _

end Node

/-! ### Steps that go on to the children -/

section Children

variable {step step' : Node → Check ValueKind} {cs : List Node}
  (hstep : ∀ c ∈ cs, A ValueKind (visited c) (step c) (step' c))
include hstep

theorem checkAll : A (List ValueKind) (cs.flatMap visited)
    (Flow.checkAll (cs.map fun c => ⟨c, step c⟩)) (Flow.checkAll (cs.map fun c => ⟨c, step' c⟩)) := by
  induction cs with
  | nil => exact h.pure []
  | cons c cs ih =>
    obtain ⟨hc, hcs⟩ := List.forall_mem_cons.mp hstep
    exact h.bind hc fun kind => h.after (ih hcs) fun kinds => h.pure (kind :: kinds)

theorem checkBind (n : Node) : A ValueKind ((inspected (some .bind) cs).flatMap visited)
    (Flow.checkBind n (cs.map fun c => ⟨c, step c⟩))
    (Flow.checkBind n (cs.map fun c => ⟨c, step' c⟩)) := by
  -- without exactly one child the name is bound, and nothing else happens
  have hnone : A ValueKind [] (Flow.checkBind n []) (Flow.checkBind n []) := by
    unfold Flow.checkBind
    dsimp only
    cases n.ident? "name" with
    | some name => exact h.before (h.bindName name .unknown) fun _ => h.pure _
    | none => exact h.pure _
  match cs, hstep with
  | [], _ => exact hnone
  | [c], hstep =>
    have hc := hstep c List.mem_cons_self
    unfold Flow.checkBind
    rw [List.map_singleton, List.map_singleton]
    show A ValueKind (visited c ++ []) _ _
    dsimp only
    cases n.ident? "name" with
    | some name =>
      exact h.before (h.declare name c) fun _ => h.bind hc fun kind =>
        h.before (h.bindName name kind) fun _ => h.pure _
    | none => exact h.bind hc fun _ => h.pure _
  | _ :: _ :: _, _ => exact hnone

section Node

variable {n : Node} (hn : n ∈ nodes)
include hn

theorem checkFn (hform : n.form? = some .fn) :
    A ValueKind ((inspected (some .fn) cs).flatMap visited)
      (Flow.checkFn n (cs.map fun c => ⟨c, step c⟩))
      (Flow.checkFn n (cs.map fun c => ⟨c, step' c⟩)) := by
  match cs, hstep with
  | [], _ => exact h.pure _
  | [body], hstep =>
    have hbody := hstep body List.mem_cons_self
    show A ValueKind (visited body ++ []) _ _
    refine h.before (h.reportIf hn fun _ => .body hform) fun _ => ?_
    exact h.bind (h.inCopy (h.before (h.bindParams n) fun _ => hbody)) fun _ => h.pure _
  | _ :: _ :: _, _ => exact h.pure _

theorem checkBranch (hform : n.form? = some .branch) :
    A ValueKind ((inspected (some .branch) cs).flatMap visited)
      (Flow.checkBranch n (cs.map fun c => ⟨c, step c⟩))
      (Flow.checkBranch n (cs.map fun c => ⟨c, step' c⟩)) := by
  have hreport {condition : Bool} {i : Issue}
      (hi : i ∈ [.conditionKind, .thenNotBlock, .elseNotBlock, .branchKinds]) :
      A Unit [] (Flow.reportIf condition n i) (Flow.reportIf condition n i) :=
    h.reportIf hn fun _ => .branch hform hi
  match cs, hstep with
  | [], _ => exact h.pure _
  | [condition], hstep =>
    have hcondition := hstep condition (by simp)
    show A ValueKind (visited condition ++ []) _ _
    exact h.bind hcondition fun _ => h.before (hreport (by simp)) fun _ => h.pure _
  | [condition, thenArm], hstep =>
    have hcondition := hstep condition (by simp)
    have hthen := hstep thenArm (by simp)
    show A ValueKind (visited condition ++ (visited thenArm ++ [])) _ _
    exact h.bind hcondition fun _ => h.before (hreport (by simp)) fun _ =>
      h.before (hreport (by simp)) fun _ => h.bind (h.inCopy hthen) fun _ => h.pure _
  | condition :: thenArm :: elseArm :: rest, hstep =>
    have hcondition := hstep condition (by simp)
    have hthen := hstep thenArm (by simp)
    have helse := hstep elseArm (by simp)
    show A ValueKind (visited condition ++ (visited thenArm ++ (visited elseArm ++ []))) _ _
    refine h.bind hcondition fun _ => h.before (hreport (by simp)) fun _ =>
      h.before (hreport (by simp)) fun _ => h.before (hreport (by simp)) fun _ =>
      h.bind (h.inCopy hthen) fun thenKind => h.bind (h.inCopy helse) fun elseKind => ?_
    rw [branchKind_eq]
    exact h.before (hreport (by simp)) fun _ => h.pure _

theorem checkExport (hform : n.form? = some .exportName) :
    A ValueKind ((inspected (some .exportName) cs).flatMap visited)
      (Flow.checkExport n (cs.map fun c => ⟨c, step c⟩))
      (Flow.checkExport n (cs.map fun c => ⟨c, step' c⟩)) := by
  match cs, hstep with
  | [], _ =>
    unfold Flow.checkExport
    rw [List.map_nil, List.map_nil]
    cases hname : n.text? "name" with
    | none => exact h.pure _
    | some name =>
      refine h.get fun s s' henv => ?_
      rw [henv]
      exact h.before (h.reportIf hn fun _ => .exported hform hname) fun _ => h.pure _
  | c :: rest, hstep =>
    show A ValueKind (visited c ++ []) _ _
    exact h.bind (hstep c List.mem_cons_self) fun _ => h.pure _

end Node

theorem checkLeave : A ValueKind ((inspected (some .leave) cs).flatMap visited)
    (Flow.checkLeave (cs.map fun c => ⟨c, step c⟩))
    (Flow.checkLeave (cs.map fun c => ⟨c, step' c⟩)) := by
  match cs, hstep with
  | [], _ => exact h.pure _
  | c :: rest, hstep =>
    have hc := hstep c List.mem_cons_self
    show A ValueKind (visited c ++ []) _ _
    rwa [List.append_nil]

theorem checkForm {n : Node} (hn : n ∈ nodes) :
    A ValueKind ((inspected n.form? cs).flatMap visited)
      (Flow.checkForm ctx n (cs.map fun c => ⟨c, step c⟩))
      (Flow.checkForm { ctx with permissions := Q } n (cs.map fun c => ⟨c, step' c⟩)) := by
  have hall := h.checkAll hstep
  unfold Flow.checkForm
  cases hform : n.form? with
  | none => exact h.pure _
  | some form =>
    cases form with
    | program => exact h.after hall fun _ => h.pure _
    | block => exact h.after hall fun _ => h.pure _
    | bind => exact h.checkBind hstep n
    | var => exact h.varKind hn hform
    | lit => exact h.pure _
    | call => exact h.after hall fun kinds => h.callKind hn hform kinds
    | fn => exact h.checkFn hstep hn hform
    | branch => exact h.checkBranch hstep hn hform
    | leave => exact h.checkLeave hstep
    | importModule => exact h.pure _
    | exportName => exact h.checkExport hstep hn hform
    | operator op =>
      refine h.after hall fun kinds => h.before (h.reportAll hn ?_) fun _ => h.pure _
      exact fun i hi => .operand hform hi

end Children

end Traversal

/-! ### The passes -/

mutual

/-- Side by side, the two passes visit the same nodes. -/
theorem Traversal.check (h : Traversal ctx Q mark mark' nodes A) : ∀ {n : Node}, n.walk ⊆ nodes →
    A ValueKind (visited n) (checkAs ctx mark n) (checkAs { ctx with permissions := Q } mark' n)
  | ⟨kind, id, attrs, children, span⟩, hnodes => by
    have hself := hnodes (Node.mem_walk_self _)
    rw [Node.walk] at hnodes
    rw [visited_eq, checkAs, checkAs, checksAs_eq, checksAs_eq]
    exact h.visit hself (h.checkForm (h.checks (List.cons_subset.mp hnodes).2) hself)

theorem Traversal.checks (h : Traversal ctx Q mark mark' nodes A) : ∀ {ns : List Node},
    Node.walkList ns ⊆ nodes → ∀ c ∈ ns, A ValueKind (visited c) (checkAs ctx mark c)
      (checkAs { ctx with permissions := Q } mark' c)
  | [], _ => fun c hc => absurd hc List.not_mem_nil
  | n :: ns, hnodes => by
    rw [Node.walkList] at hnodes
    obtain ⟨hn, hns⟩ := List.append_subset.mp hnodes
    exact List.forall_mem_cons.mpr ⟨h.check hn, h.checks hns⟩

end

end Flow

end Arbor
