import Arbor.Node

/-!
# Finding nodes by id

Two ways to address a node below a root. `find?` and `update?` take the first node with an id in
pre-order. `parent?` and `updateParent?` take the parent of a node with the id, and look at all
children of a node before they look below any of them.
-/

namespace Arbor.Node

mutual

/-- The nodes of the tree in pre-order. -/
def walk : Node → List Node
  | ⟨k, i, a, cs, s⟩ => ⟨k, i, a, cs, s⟩ :: walkList cs

/-- The nodes of the trees in pre-order. -/
def walkList : List Node → List Node
  | [] => []
  | c :: cs => walk c ++ walkList cs

end

mutual

/-- The first node with the id, in pre-order. -/
def find? (id : String) : Node → Option Node
  | ⟨k, i, a, cs, s⟩ => if i = id then some ⟨k, i, a, cs, s⟩ else findList? id cs

/-- The first node with the id among the trees, in pre-order. -/
def findList? (id : String) : List Node → Option Node
  | [] => none
  | c :: cs => (find? id c).or (findList? id cs)

end

mutual

/-- The tree with its first node of the id, in pre-order, changed; none when no node has the id. -/
def update? (id : String) (change : Node → Node) : Node → Option Node
  | ⟨k, i, a, cs, s⟩ =>
    if i = id then some (change ⟨k, i, a, cs, s⟩)
    else (updateList? id change cs).map fun cs' => ⟨k, i, a, cs', s⟩

/-- The trees with the first node of the id among them changed. -/
def updateList? (id : String) (change : Node → Node) : List Node → Option (List Node)
  | [] => none
  | c :: cs =>
    match update? id change c with
    | some c' => some (c' :: cs)
    | none => (updateList? id change cs).map (c :: ·)

end

/-- The index of the first child with the id. -/
def childIndex? (n : Node) (id : String) : Option Nat := n.children.findIdx? (·.id == id)

mutual

/-- The parent of a node with the id, and that node's index among its children. A node is the parent
when one of its own children has the id; else the children are searched in order. -/
def parent? (id : String) : Node → Option (Node × Nat)
  | ⟨k, i, a, cs, s⟩ =>
    match cs.findIdx? (·.id == id) with
    | some index => some (⟨k, i, a, cs, s⟩, index)
    | none => parentList? id cs

/-- The first parent found in the trees, in order. -/
def parentList? (id : String) : List Node → Option (Node × Nat)
  | [] => none
  | c :: cs => (parent? id c).or (parentList? id cs)

end

mutual

/-- The tree with the children of the parent that `parent?` finds changed, given the index there. -/
def updateParent? (id : String) (change : List Node → Nat → List Node) : Node → Option Node
  | ⟨k, i, a, cs, s⟩ =>
    match cs.findIdx? (·.id == id) with
    | some index => some ⟨k, i, a, change cs index, s⟩
    | none => (updateParentList? id change cs).map fun cs' => ⟨k, i, a, cs', s⟩

/-- The trees with the first parent found among them changed. -/
def updateParentList? (id : String) (change : List Node → Nat → List Node) :
    List Node → Option (List Node)
  | [] => none
  | c :: cs =>
    match updateParent? id change c with
    | some c' => some (c' :: cs)
    | none => (updateParentList? id change cs).map (c :: ·)

end

end Arbor.Node
