import Arbor.Diagnostic
import Arbor.Node.Search

/-!
# Patches

Structural edits of a tree, addressed by node ids. A patch document's children are its operations:

    Op#p1(kind=replaceNode id=lit1) { Lit#lit1(value=2) }
    Op#p2(kind=deleteNode id=stmt3)
    Op#p3(kind=insertChild parentId=blk1 slot=statements index=0) { .. }

Operations apply in order, each to the tree that the ones before it have left. One that fails is
reported, and the others still apply.
-/

namespace Arbor

namespace Patch

/-- Why an operation fails. -/
inductive Failure where
  | noKind
  | replaceNeedsId
  | replaceNeedsOneChild
  | deleteNeedsId
  | notFound (id : String)
  | rootDeleted (id : String)
  | insertNeedsParentId
  | insertNeedsSlot
  | insertNeedsIndex
  | insertNeedsOneChild
  | parentNotFound (id : String)
  | slotNotValid (slot kind : String)
  | indexOutOfRange
  | unknownOp (kind : String)

namespace Failure

def code : Failure → String
  | noKind => "PAT001"
  | replaceNeedsId => "PAT002"
  | replaceNeedsOneChild => "PAT003"
  | deleteNeedsId => "PAT004"
  | notFound _ => "PAT005"
  | rootDeleted _ => "PAT006"
  | insertNeedsParentId => "PAT007"
  | insertNeedsSlot => "PAT008"
  | insertNeedsIndex => "PAT009"
  | insertNeedsOneChild => "PAT010"
  | parentNotFound _ => "PAT011"
  | slotNotValid .. => "PAT012"
  | indexOutOfRange => "PAT013"
  | unknownOp _ => "PAT999"

def message : Failure → String
  | noKind => "Patch op missing kind."
  | replaceNeedsId => "replaceNode requires id."
  | replaceNeedsOneChild => "replaceNode requires one child node."
  | deleteNeedsId => "deleteNode requires id."
  | notFound id => "Node '" ++ id ++ "' not found."
  | rootDeleted _ => "Cannot delete root node."
  | insertNeedsParentId => "insertChild requires parentId."
  | insertNeedsSlot => "insertChild requires slot."
  | insertNeedsIndex => "insertChild requires index."
  | insertNeedsOneChild => "insertChild requires one child node."
  | parentNotFound id => "Parent '" ++ id ++ "' not found."
  | slotNotValid slot kind => "Slot '" ++ slot ++ "' not valid for " ++ kind ++ "."
  | indexOutOfRange => "Insert index out of range."
  | unknownOp kind => "Unknown patch op '" ++ kind ++ "'."

/-- The report of a failed operation. It is about the operation, except where the addressed node is
at fault: then it names that node's id and has the root's span. -/
def report (f : Failure) (root op : Node) : Diagnostic :=
  match f with
  | notFound id | rootDeleted id => ⟨f.code, f.message, some id, some root.span⟩
  | _ => .atNode f.code f.message op

end Failure

/-- What is there, or the failure that its absence is. -/
def need {α : Type} (f : Failure) : Option α → Except Failure α
  | some a => .ok a
  | none => .error f

/-- The only child of an operation, or the failure that another number of children is. -/
def onlyChild (f : Failure) (op : Node) : Except Failure Node :=
  match op.children with
  | [child] => .ok child
  | _ => .error f

/-- What an operation asks for. -/
inductive Request where
  | replace (id : String) (replacement : Node)
  | delete (id : String)
  | insert (parentId slot : String) (index : Int32) (child : Node)

/-- Reads what an operation asks for. -/
def request (op : Node) : Except Failure Request :=
  match op.ident? "kind" with
  | none => .error .noKind
  | some "replaceNode" => do
    let id ← need .replaceNeedsId (op.ident? "id")
    let replacement ← onlyChild .replaceNeedsOneChild op
    pure (.replace id replacement)
  | some "deleteNode" => do
    let id ← need .deleteNeedsId (op.ident? "id")
    pure (.delete id)
  | some "insertChild" => do
    let parentId ← need .insertNeedsParentId (op.ident? "parentId")
    let slot ← need .insertNeedsSlot (op.ident? "slot")
    let index ← need .insertNeedsIndex (op.int? "index")
    let child ← onlyChild .insertNeedsOneChild op
    pure (.insert parentId slot index child)
  | some other => .error (.unknownOp other)

/-- An edit of a tree in place. When it fails, what it has changed so far stays changed. -/
abbrev Edit := ExceptT Failure (StateM Node)

namespace Edit

variable {α : Type}

/-- What the edit of a tree comes to, and the tree that it leaves. -/
def on (e : Edit α) (root : Node) : Except Failure α × Node := (e.run.run root).run

theorem on_get (f : Node → Edit α) (root : Node) : on (get >>= f) root = on (f root) root := rfl

theorem on_set (root' root : Node) : on (set root') root = (.ok (), root') := rfl

theorem on_throw (f : Failure) (root : Node) : on (throw f : Edit α) root = (.error f, root) := rfl

end Edit

/-- Replaces the node of the id. -/
def replace (id : String) (replacement : Node) : Edit Unit := do
  let root ← get
  if root.id = id then set replacement
  else match root.updateParent? id fun children index => children.set index replacement with
    | some root' => set root'
    | none => throw (.notFound id)

/-- Removes the node of the id. -/
def delete (id : String) : Edit Unit := do
  let root ← get
  if root.id = id then throw (.rootDeleted id)
  else match root.updateParent? id fun children index => children.eraseIdx index with
    | some root' => set root'
    | none => throw (.notFound id)

/-- Do nodes of the kind keep their children in the slot? -/
def slotAllowed (kind slot : String) : Bool :=
  (kind == "Program" && slot == "declarations") || (kind == "Block" && slot == "statements") ||
    (kind == "Call" && slot == "args")

/-- Puts one more child at an index of the node with the id. -/
def insert (parentId slot : String) (index : Int32) (child : Node) : Edit Unit := do
  let root ← get
  match root.find? parentId with
  | none => throw (.parentNotFound parentId)
  | some parent =>
    if !slotAllowed parent.kind slot then throw (.slotNotValid slot parent.kind)
    else if index < 0 || parent.children.length < index.toInt.toNat then throw .indexOutOfRange
    else
      let extend (n : Node) : Node :=
        { n with children := n.children.insertIdx index.toInt.toNat child }
      match root.update? parentId extend with
      | some root' => set root'
      | none => throw (.parentNotFound parentId)

/-- Does what an operation asks for. -/
def fulfil : Request → Edit Unit
  | .replace id replacement => replace id replacement
  | .delete id => delete id
  | .insert parentId slot index child => insert parentId slot index child

/-- One operation. -/
def applyOp (op : Node) : Edit Unit := do
  let r ← liftExcept (request op)
  fulfil r

end Patch

/-- The tree after a list of operations, and the reports of those that failed. -/
def applyPatch (root : Node) : List Node → Node × List Diagnostic
  | [] => (root, [])
  | op :: ops =>
    match (Patch.applyOp op).on root with
    | (.ok (), root') => applyPatch root' ops
    | (.error f, root') =>
      let (root'', reports) := applyPatch root' ops
      (root'', f.report root op :: reports)

/-- The tree after the operations of a patch document, and the reports of those that failed. -/
def applyPatchDocument (root patch : Node) : Node × List Diagnostic := applyPatch root patch.children

end Arbor
