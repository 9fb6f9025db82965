import Arbor.Capability.Table
import Arbor.Path
import Arbor.Text.Names
import Arbor.Validation.Shape

/-!
# The flow pass

Computes a kind for every expression while it follows the bindings the way evaluation does: a `Let`
binds in the scope it stands in, a `Block` shares that scope, and function bodies and branches have a
copy of it. Capability calls are checked against their contracts and the permissions.

The pass also keeps the kind it computed for each node, by the node's id.
-/

namespace Arbor

open Text

/-- The kinds of the names in scope. -/
abbrev TypeEnv := Dict ValueKind

namespace Flow

/-- What does not change during the pass: the namespaces that imports bind, and the permissions. -/
structure Context where
  namespaces : List String
  permissions : List String

/-- Is the name that of a member of an imported namespace? -/
def Context.imports (ctx : Context) (name : String) : Bool :=
  match namespace? name with
  | some ns => ctx.namespaces.contains ns
  | none => false

/-- What the pass has so far: the scope, the ids seen, the findings in order and the computed kinds,
last one first. -/
structure State where
  env : TypeEnv
  seen : List String
  findings : Array Diagnostic
  kinds : List (String × ValueKind)

/-- A step of the pass. -/
abbrev Check := StateM State

/-- Reports an issue about a node. -/
def report (n : Node) (i : Issue) : Check Unit :=
  modify fun s => { s with findings := s.findings.push (i.report n) }

/-- Reports issues about a node, in order. -/
def reportAll (n : Node) : List Issue → Check Unit
  | [] => pure ()
  | i :: is => do
    report n i
    reportAll n is

/-- Reports the issue if the condition holds. -/
def reportIf (condition : Bool) (n : Node) (i : Issue) : Check Unit :=
  if condition then report n i else pure ()

/-- Binds a name in the scope. -/
def bind (name : String) (kind : ValueKind) : Check Unit :=
  modify fun s => { s with env := s.env.insert name kind }

/-- Runs a step in a copy of the scope: what it binds is gone afterwards. -/
def inCopy {α : Type} (step : Check α) : Check α := do
  let s ← get
  let a ← step
  modify fun t => { t with env := s.env }
  pure a

/-- Does the operand at the index, if there is one, fit the kind? -/
def operandFits (kinds : List ValueKind) (index : Nat) (expected : ValueKind) : Bool :=
  match kinds[index]? with
  | some kind => kind.fits expected
  | none => true

/-- The kind of an operator's result. -/
def resultKind : Operator → ValueKind
  | .eq => .bool
  | .add => .int
  | .toText | .strConcat | .strEscape => .string
  | .nodeKind | .nodeId => .string
  | .attrCount | .childCount => .int
  | .attrKey | .attrValueKind | .attrValueString => .string
  | .attrValueInt => .int
  | .attrValueBool => .bool
  | .childAt => .node
  | .makeBlock | .appendChild | .makeErr | .makeLitString => .node

/-- The code under which a wrong operand of an indexed access is reported. -/
def accessCode : Operator → String
  | .attrValueInt => "VAL063"
  | .attrValueBool => "VAL064"
  | .childAt => "VAL065"
  | _ => "VAL062"

/-- What is wrong with the kinds of an operator's operands, when their number is right. -/
def operandIssues (op : Operator) (kinds : List ValueKind) : List Issue :=
  let fits := operandFits kinds
  let require (ok : Bool) (code message : String) : List Issue :=
    if ok then [] else [.operand code message]
  match op with
  | .eq =>
    match kinds with
    | [left, right] =>
      require (left == right || left == .unknown || right == .unknown) "VAL051"
        "Eq operands must have same type."
    | _ => []
  | .add =>
    require (fits 0 .int) "VAL052" "Add left operand must be int." ++
      require (fits 1 .int) "VAL053" "Add right operand must be int."
  | .toText => require (fits 0 .int || fits 0 .bool) "VAL054" "ToString expects int or bool."
  | .strConcat =>
    require (fits 0 .string) "VAL055" "StrConcat left operand must be string." ++
      require (fits 1 .string) "VAL056" "StrConcat right operand must be string."
  | .strEscape => require (fits 0 .string) "VAL057" "StrEscape expects string."
  | .nodeKind | .nodeId => require (fits 0 .node) "VAL060" (op.kind ++ " expects node.")
  | .attrCount | .childCount => require (fits 0 .node) "VAL061" (op.kind ++ " expects node.")
  | .attrKey | .attrValueKind | .attrValueString | .attrValueInt | .attrValueBool | .childAt =>
    require (fits 0 .node) (accessCode op) (op.kind ++ " expects node as first child.") ++
      require (fits 1 .int) (accessCode op) (op.kind ++ " expects int index as second child.")
  | .makeBlock => require (fits 0 .string) "VAL066" "MakeBlock expects string id."
  | .appendChild =>
    require (fits 0 .node && fits 1 .node) "VAL067" "AppendChild expects two nodes."
  | .makeErr =>
    require ([0, 1, 2, 3].all (fits · .string)) "VAL068" "MakeErr expects four strings."
  | .makeLitString =>
    require ([0, 1].all (fits · .string)) "VAL069" "MakeLitString expects two strings."

/-- What is wrong with an operator's operands. A wrong number of them is a matter of the shape. -/
def operatorIssues (op : Operator) (kinds : List ValueKind) : List Issue :=
  if kinds.length = op.arity then operandIssues op kinds else []

/-- What is wrong with a call, and the kind of its result. -/
def callIssues (ctx : Context) (env : TypeEnv) (target : String) (args : List ValueKind) :
    List Issue × ValueKind :=
  if isBlankText target then ([.noTarget], .unknown)
  else match Contract.lookup? target with
    | some contract =>
      let permission :=
        if ctx.permissions.contains contract.permission then [] else [.denied contract.permission]
      (permission ++ (contract.check args).map .contract, contract.returns)
    | none =>
      if (namespace? target).isNone && env.find? target == some .function then ([], .unknown)
      else if ctx.imports target then ([], .unknown)
      else ([.unknownTarget target], .unknown)

/-- The kind of a branch from the kinds of its arms. -/
def branchKind (n : Node) (thenKind elseKind : ValueKind) : Check ValueKind :=
  if thenKind = elseKind then pure thenKind
  else if thenKind = .unknown || elseKind = .unknown then pure .unknown
  else do
    report n .branchKinds
    pure .unknown

/-- The kind of a variable: unknown, with a report, when nothing of that name is in scope. -/
def varKind (ctx : Context) (n : Node) : Check ValueKind := do
  match n.ident? "name" with
  | none => pure .unknown
  | some name =>
    match (← get).env.find? name with
    | some kind => pure kind
    | none =>
      reportIf (!ctx.imports name) n (.unknownVariable name)
      pure .unknown

/-- Checks a call whose arguments have the kinds. -/
def callKind (ctx : Context) (n : Node) (args : List ValueKind) : Check ValueKind := do
  let (issues, result) := callIssues ctx (← get).env ((n.text? "target").getD "") args
  reportAll n issues
  pure result

/-- Binds the name of a function, so that its body can call it. -/
def declare (name : String) (child : Node) : Check Unit :=
  if child.isFn then bind name .function else pure ()

/-- Binds the parameters of a function. -/
def bindParams (n : Node) : Check Unit :=
  modify fun s => { s with
    env := s.env.insertAll
      ((splitNames ((n.text? "params").getD "")).map (·, ValueKind.unknown)) }

/-- Keeps the kind computed for a node. -/
def keep (id : String) (kind : ValueKind) : Check ValueKind := do
  modify fun s => { s with kinds := (id, kind) :: s.kinds }
  pure kind

/-- Notes the id of a node, and reports it when it was noted before. -/
def noteId (n : Node) : Check Unit := do
  let s ← get
  if s.seen.contains n.id then report n (.duplicateId n.id)
  else set { s with seen := n.id :: s.seen }

/-- Visits a node: notes its id, reports what is wrong with its shape, and keeps the kind that the
step computes for its form. -/
def visit (n : Node) (form : Check ValueKind) : Check ValueKind := do
  noteId n
  reportAll n n.shapeIssues
  let kind ← form
  keep n.id kind

/-- A child of a node, with the step that checks it. -/
structure Child where
  node : Node
  check : Check ValueKind

/-- The kinds of the children, checked in order. -/
def checkAll : List Child → Check (List ValueKind)
  | [] => pure []
  | c :: cs => do
    let kind ← c.check
    let kinds ← checkAll cs
    pure (kind :: kinds)

def checkBind (n : Node) : List Child → Check ValueKind
  | [child] =>
    match n.ident? "name" with
    | some name => do
      declare name child.node
      let kind ← child.check
      bind name kind
      pure .void
    | none => do
      let _ ← child.check
      pure .void
  | _ =>
    match n.ident? "name" with
    | some name => do
      bind name .unknown
      pure .void
    | none => pure .void

def checkFn (n : Node) : List Child → Check ValueKind
  | [body] => do
    reportIf (!body.node.isBlock) n .bodyNotBlock
    let _ ← inCopy do
      bindParams n
      body.check
    pure .function
  | _ => pure .function

def checkBranch (n : Node) : List Child → Check ValueKind
  | [] => pure .void
  | [condition] => do
    let conditionKind ← condition.check
    reportIf (!conditionKind.fits .bool) n .conditionKind
    pure .void
  | [condition, thenArm] => do
    let conditionKind ← condition.check
    reportIf (!conditionKind.fits .bool) n .conditionKind
    reportIf (!thenArm.node.isBlock) n .thenNotBlock
    let _ ← inCopy thenArm.check
    pure .void
  | condition :: thenArm :: elseArm :: _ => do
    let conditionKind ← condition.check
    reportIf (!conditionKind.fits .bool) n .conditionKind
    reportIf (!thenArm.node.isBlock) n .thenNotBlock
    reportIf (!elseArm.node.isBlock) n .elseNotBlock
    let thenKind ← inCopy thenArm.check
    let elseKind ← inCopy elseArm.check
    branchKind n thenKind elseKind

def checkLeave : List Child → Check ValueKind
  | [] => pure .void
  | child :: _ => child.check

def checkExport (n : Node) : List Child → Check ValueKind
  | child :: _ => do
    let _ ← child.check
    pure .void
  | [] =>
    match n.text? "name" with
    | some name => do
      let s ← get
      reportIf (!s.env.contains name) n (.unknownVariable name)
      pure .void
    | none => pure .void

/-- The kind of a node from its form and its children. -/
def checkForm (ctx : Context) (n : Node) (children : List Child) : Check ValueKind :=
  match n.form? with
  | none => pure .unknown
  | some .program => do
    let _ ← checkAll children
    pure .void
  | some .block => do
    let kinds ← checkAll children
    pure (kinds.getLast?.getD .void)
  | some .bind => checkBind n children
  | some .var => varKind ctx n
  | some .lit => pure n.literal.kind
  | some .call => do
    let kinds ← checkAll children
    callKind ctx n kinds
  | some .fn => checkFn n children
  | some .branch => checkBranch n children
  | some .leave => checkLeave children
  | some .importModule => pure .void
  | some .exportName => checkExport n children
  | some (.operator op) => do
    let kinds ← checkAll children
    reportAll n (operatorIssues op kinds)
    pure (resultKind op)

mutual

/-- The kind of a node. -/
def check (ctx : Context) : Node → Check ValueKind
  | ⟨kind, id, attrs, children, span⟩ =>
    let n : Node := ⟨kind, id, attrs, children, span⟩
    visit n (checkForm ctx n (checks ctx children))

/-- The nodes, each with its check. -/
def checks (ctx : Context) : List Node → List Child
  | [] => []
  | c :: cs => ⟨c, check ctx c⟩ :: checks ctx cs

end

/-- The name that a `Let` with a function binds, if the node is one. -/
def declaredFunction? (n : Node) : Option String :=
  if n.form? = some .bind then
    match n.children with
    | [child] => if child.isFn then n.ident? "name" else none
    | _ => none
  else none

/-- The namespace that an import binds, if the node is one. -/
def importedNamespace? (n : Node) : Option String :=
  if n.form? = some .importModule then
    (n.text? "path").map fun path => (n.text? "as").getD (Path.stem path)
  else none

/-- The scope before the pass: every function that is bound anywhere in the tree can be called
everywhere. -/
def predeclare (root : Node) (env : TypeEnv) : TypeEnv :=
  env.insertAll ((root.walk.filterMap declaredFunction?).map (·, ValueKind.function))

/-- What the pass has at its end. -/
def run (root : Node) (env : TypeEnv) (permissions : List String) : State :=
  let ctx : Context := ⟨root.walk.filterMap importedNamespace?, permissions⟩
  (check ctx root ⟨predeclare root env, [], #[], []⟩).2

end Flow

/-- Validates a tree: the structural pass, when asked for, and the flow pass unless the structural
one found something. `env` holds the kinds of names that are bound before. -/
def validate (root : Node) (env : TypeEnv) (permissions : List String) (structural : Bool) :
    List Diagnostic :=
  let broken := if structural then structuralReport root else []
  if broken.isEmpty then (Flow.run root env permissions).findings.toList else broken

end Arbor
