import Arbor.Proofs.Node.Walk

/-!
# Places in a tree

A place in a tree is the way to it from the root: at each node on the way, the gap between the children
before and the children behind. A tree is what stands at a place together with all that is around it.
In pre-order the nodes of the one are a segment of the nodes of the other (`Place.outline_put`).
-/

namespace Arbor

/-! ## 1. Gaps and places -/

/-- A node with a gap among its children. -/
@[ext]
structure Gap where
  kind : String
  id : String
  attrs : Attrs
  before : List Node
  after : List Node
  span : Span

/-- The node with trees in the gap. -/
def Gap.fill (g : Gap) (ns : List Node) : Node :=
  ⟨g.kind, g.id, g.attrs, g.before ++ ns ++ g.after, g.span⟩

theorem Gap.children_fill (g : Gap) (n : Node) : (g.fill [n]).children = g.before ++ n :: g.after := by
  rw [fill, List.append_assoc, List.singleton_append]

/-- The gap of a node between some of its children and others. -/
def Node.gap (n : Node) (before after : List Node) : Gap :=
  ⟨n.kind, n.id, n.attrs, before, after, n.span⟩

theorem Node.fill_gap {n : Node} {before ns after : List Node}
    (h : n.children = before ++ ns ++ after) : (n.gap before after).fill ns = n := by
  cases n
  cases h
  rfl

theorem Node.fill_gap_cons {n c : Node} {before after : List Node}
    (h : n.children = before ++ c :: after) : (n.gap before after).fill [c] = n :=
  fill_gap (by rw [h, List.append_assoc, List.singleton_append])

/-- A place in a tree: the gap at the root, the gap at the child that stands in it, and so on. -/
abbrev Place := List Gap

namespace Place

/-- The tree with a node at the place. -/
def put : Place → Node → Node
  | [], n => n
  | g :: p, n => g.fill [put p n]

theorem put_append (p q : Place) (n : Node) : put (p ++ q) n = put p (put q n) := by
  induction p with
  | nil => rfl
  | cons g p ih => rw [List.cons_append, put, put, ih]

theorem put_concat (p : Place) (g : Gap) (n : Node) : put (p ++ [g]) n = put p (g.fill [n]) :=
  put_append p [g] n

theorem mem_walk_put (p : Place) (n : Node) : n ∈ (put p n).walk := by
  induction p with
  | nil => exact n.mem_walk_self
  | cons g p ih =>
    refine Node.mem_walk_of_mem_children ?_ ih
    rw [put, g.children_fill]
    exact List.mem_append_right _ List.mem_cons_self

/-- A node of a tree stands at a place in it. -/
theorem exists_put_of_mem_walk {root n : Node} (h : n ∈ root.walk) : ∃ p, root = put p n := by
  induction root using Node.induction_on with
  | node root ih =>
    obtain rfl | ⟨c, hc, hn⟩ := Node.eq_or_exists_of_mem_walk h
    · exact ⟨[], rfl⟩
    · obtain ⟨p, rfl⟩ := ih c hc hn
      obtain ⟨before, after, hchildren⟩ := List.append_of_mem hc
      exact ⟨root.gap before after :: p, (Node.fill_gap_cons hchildren).symm⟩

end Place

/-! ## 2. Outlines -/

namespace Node

theorem walkList_append (ns ms : List Node) : walkList (ns ++ ms) = walkList ns ++ walkList ms := by
  induction ns with
  | nil => rfl
  | cons n ns ih => rw [List.cons_append, walkList, walkList, ih, List.append_assoc]

theorem walkList_singleton (n : Node) : walkList [n] = n.walk := by
  rw [walkList, walkList, List.append_nil]

/-- The node without its children. -/
def alone (n : Node) : Node := { n with children := [] }

/-- The nodes of the tree in pre-order, each by itself. -/
def outline (n : Node) : List Node := n.walk.map alone

/-- The nodes of the trees in pre-order, each by itself. -/
def outlines (ns : List Node) : List Node := (walkList ns).map alone

theorem ids_outline (n : Node) : n.outline.map Node.id = n.walk.map Node.id := by
  rw [outline, List.map_map]
  rfl

theorem outlines_nil : outlines [] = [] := rfl

theorem outlines_append (ns ms : List Node) : outlines (ns ++ ms) = outlines ns ++ outlines ms := by
  rw [outlines, walkList_append, List.map_append]
  rfl

theorem outlines_singleton (n : Node) : outlines [n] = n.outline := by
  rw [outlines, walkList_singleton]
  rfl

end Node

open Node

/-- The node of the gap by itself. -/
def Gap.alone (g : Gap) : Node := (g.fill []).alone

theorem Gap.outline_fill (g : Gap) (ns : List Node) :
    (g.fill ns).outline = g.alone :: (outlines g.before ++ outlines ns ++ outlines g.after) := by
  rw [← outlines_append, ← outlines_append]
  rfl

namespace Place

/-- What is before the place in pre-order, each node by itself. -/
def before : Place → List Node
  | [] => []
  | g :: p => g.alone :: (outlines g.before ++ before p)

/-- What is behind the place in pre-order, each node by itself. -/
def after : Place → List Node
  | [] => []
  | g :: p => after p ++ outlines g.after

/-- The nodes of the tree at a place are a segment of the nodes of the whole tree. -/
theorem outline_put (p : Place) (n : Node) : (put p n).outline = before p ++ n.outline ++ after p := by
  induction p with
  | nil => rw [put, before, after, List.nil_append, List.append_nil]
  | cons g p ih =>
    rw [put, g.outline_fill, outlines_singleton, ih, before, after]
    simp only [List.append_assoc, List.cons_append]

theorem before_append (p q : Place) : before (p ++ q) = before p ++ before q := by
  induction p with
  | nil => rfl
  | cons g p ih => rw [List.cons_append, before, before, ih, List.cons_append, List.append_assoc]

theorem after_append (p q : Place) : after (p ++ q) = after q ++ after p := by
  induction p with
  | nil => rw [List.nil_append, after, List.append_nil]
  | cons g p ih => rw [List.cons_append, after, after, ih, List.append_assoc]

/-- The trees in a gap of the tree are a segment as well. -/
theorem outline_put_fill (p : Place) (g : Gap) (ns : List Node) :
    (put p (g.fill ns)).outline = before (p ++ [g]) ++ outlines ns ++ after (p ++ [g]) := by
  rw [outline_put, g.outline_fill, before_append, after_append, before, before, after, after]
  simp only [List.append_assoc, List.cons_append, List.nil_append, List.append_nil]

theorem alone_mem_after {p : Place} {g : Gap} {c : Node} (hg : g ∈ p) (hc : c ∈ g.after) :
    c.alone ∈ after p := by
  obtain ⟨p, q, rfl⟩ := List.append_of_mem hg
  have hmem : c.alone ∈ outlines g.after :=
    List.mem_map_of_mem (mem_walkList hc c.mem_walk_self)
  rw [after_append, after]
  exact List.mem_append_left _ (List.mem_append_right _ hmem)

/-- In a tree with distinct ids no other node has the id of the node at a place. -/
theorem ne_of_nodup {p : Place} {n : Node} (h : ((put p n).walk.map Node.id).Nodup) :
    (∀ a ∈ before p, a.id ≠ n.id) ∧ ∀ a ∈ after p, a.id ≠ n.id := by
  have hn : n.id ∈ n.outline.map Node.id := by
    rw [ids_outline]
    exact List.mem_map_of_mem n.mem_walk_self
  rw [← ids_outline, outline_put, List.map_append, List.map_append, List.nodup_append,
    List.nodup_append] at h
  obtain ⟨⟨-, -, hbefore⟩, -, hafter⟩ := h
  exact ⟨fun a ha => hbefore a.id (List.mem_map_of_mem ha) n.id hn,
    fun a ha => (hafter n.id (List.mem_append_right _ hn) a.id (List.mem_map_of_mem ha)).symm⟩

end Place

end Arbor
