import Arbor.Proofs.Node.Places

/-!
# Where searches for an id end

The two searches of a tree for an id end at different places. The one for a node takes the first node in
pre-order (`Node.find?_put`, `Node.update?_put`). The one for a parent looks at all children of a node
before it looks below any of them, so it takes the place that `ChildrenFirst` describes
(`Node.parent?_put`, `Node.updateParent?_put`). Both places exist whenever the id occurs below the root,
and the second one is the first one unless a node beside an ancestor of the first node, and behind that
ancestor, has the id (`childrenFirst_iff`).
-/

namespace Arbor

open Node Place

/-! ## 1. The first element of a list -/

section Lists

variable {α : Type} {P : α → Prop}

theorem exists_first_of_mem [DecidablePred P] {l : List α} (h : ∃ a ∈ l, P a) :
    ∃ as a bs, l = as ++ a :: bs ∧ P a ∧ ∀ b ∈ as, ¬P b := by
  obtain ⟨a, hfind⟩ : ∃ a, l.find? (fun a => decide (P a)) = some a := by
    rw [← Option.isSome_iff_exists, List.find?_isSome]
    simpa using h
  obtain ⟨ha, as, bs, hl, has⟩ := List.find?_eq_some_iff_append.mp hfind
  exact ⟨as, a, bs, hl, by simpa using ha, by simpa using has⟩

theorem append_cons_inj_of_first {as as' bs bs' : List α} {a a' : α}
    (h : as ++ a :: bs = as' ++ a' :: bs') (has : ∀ b ∈ as, ¬P b) (ha : P a)
    (has' : ∀ b ∈ as', ¬P b) (ha' : P a') : as = as' ∧ a = a' ∧ bs = bs' := by
  induction as generalizing as' with
  | nil =>
    cases as' with
    | nil => simpa using h
    | cons b as' =>
      cases h
      exact absurd ha (has' _ List.mem_cons_self)
  | cons b as ih =>
    cases as' with
    | nil =>
      cases h
      exact absurd ha' (has _ List.mem_cons_self)
    | cons b' as' =>
      obtain ⟨rfl, hrest⟩ := List.cons_eq_cons.mp h
      obtain ⟨has, hbehind⟩ := ih hrest (fun x hx => has x (List.mem_cons_of_mem _ hx))
        fun x hx => has' x (List.mem_cons_of_mem _ hx)
      exact ⟨congrArg _ has, hbehind⟩

/-- The list with its first element that `f` changes changed; none when it changes none of them. -/
def changeFirst? (f : α → Option α) : List α → Option (List α)
  | [] => none
  | a :: as =>
    match f a with
    | some a' => some (a' :: as)
    | none => (changeFirst? f as).map (a :: ·)

theorem changeFirst?_eq_none {f : α → Option α} {l : List α} (h : ∀ a ∈ l, f a = none) :
    changeFirst? f l = none := by
  induction l with
  | nil => rfl
  | cons a l ih =>
    rw [changeFirst?, h a List.mem_cons_self, ih fun b hb => h b (List.mem_cons_of_mem _ hb)]
    rfl

theorem changeFirst?_append {f : α → Option α} {as bs : List α} {a a' : α}
    (has : ∀ b ∈ as, f b = none) (ha : f a = some a') :
    changeFirst? f (as ++ a :: bs) = some (as ++ a' :: bs) := by
  induction as with
  | nil => rw [List.nil_append, changeFirst?, ha, List.nil_append]
  | cons b as ih =>
    rw [List.cons_append, changeFirst?, has b List.mem_cons_self,
      ih fun x hx => has x (List.mem_cons_of_mem _ hx)]
    rfl

end Lists

/-! ## 2. Searches one node at a time -/

namespace Node

variable {id : String} {change : Node → Node} {edit : List Node → Nat → List Node}

theorem findList?_eq (cs : List Node) : findList? id cs = cs.findSome? (find? id) := by
  induction cs with
  | nil => rfl
  | cons c cs ih =>
    rw [findList?, List.findSome?_cons, ih]
    cases find? id c <;> rfl

theorem updateList?_eq (cs : List Node) :
    updateList? id change cs = changeFirst? (update? id change) cs := by
  induction cs with
  | nil => rfl
  | cons c cs ih =>
    rw [updateList?, changeFirst?, ih]
    cases update? id change c <;> rfl

theorem parentList?_eq (cs : List Node) : parentList? id cs = cs.findSome? (parent? id) := by
  induction cs with
  | nil => rfl
  | cons c cs ih =>
    rw [parentList?, List.findSome?_cons, ih]
    cases parent? id c <;> rfl

theorem updateParentList?_eq (cs : List Node) :
    updateParentList? id edit cs = changeFirst? (updateParent? id edit) cs := by
  induction cs with
  | nil => rfl
  | cons c cs ih =>
    rw [updateParentList?, changeFirst?, ih]
    cases updateParent? id edit c <;> rfl

theorem find?_eq (n : Node) :
    find? id n = if n.id = id then some n else n.children.findSome? (find? id) := by
  cases n
  rw [find?, findList?_eq]

theorem update?_eq (n : Node) :
    update? id change n =
      if n.id = id then some (change n)
      else (changeFirst? (update? id change) n.children).map fun cs => { n with children := cs } := by
  cases n
  rw [update?, updateList?_eq]

theorem parent?_eq (n : Node) :
    parent? id n =
      match n.children.findIdx? (·.id == id) with
      | some index => some (n, index)
      | none => n.children.findSome? (parent? id) := by
  obtain ⟨_, _, _, cs, _⟩ := n
  cases hindex : cs.findIdx? (·.id == id) with
  | some index => simp only [parent?, hindex]
  | none => simp only [parent?, hindex, parentList?_eq]

theorem updateParent?_eq (n : Node) :
    updateParent? id edit n =
      match n.children.findIdx? (·.id == id) with
      | some index => some { n with children := edit n.children index }
      | none =>
        (changeFirst? (updateParent? id edit) n.children).map fun cs => { n with children := cs } := by
  obtain ⟨_, _, _, cs, _⟩ := n
  cases hindex : cs.findIdx? (·.id == id) with
  | some index => simp only [updateParent?, hindex]
  | none => simp only [updateParent?, hindex, updateParentList?_eq]

/-! ## 3. Trees without the id -/

theorem find?_eq_none {n : Node} (h : ∀ m ∈ n.walk, m.id ≠ id) : find? id n = none := by
  induction n using induction_on with
  | node n ih =>
    rw [find?_eq, if_neg (h n n.mem_walk_self), List.findSome?_eq_none_iff]
    exact fun c hc => ih c hc (forall_walk_of_mem_children h hc)

theorem update?_eq_none {n : Node} (h : ∀ m ∈ n.walk, m.id ≠ id) : update? id change n = none := by
  induction n using induction_on with
  | node n ih =>
    rw [update?_eq, if_neg (h n n.mem_walk_self),
      changeFirst?_eq_none fun c hc => ih c hc (forall_walk_of_mem_children h hc)]
    rfl

theorem findIdx?_id_eq_none {cs : List Node} (h : ∀ c ∈ cs, c.id ≠ id) :
    cs.findIdx? (·.id == id) = none :=
  List.findIdx?_eq_none_iff.mpr fun c hc => beq_false_of_ne (h c hc)

theorem parent?_eq_none {n : Node} (h : ∀ m ∈ n.walk, m.id ≠ id) : parent? id n = none := by
  induction n using induction_on with
  | node n ih =>
    have hbelow {c : Node} (hc : c ∈ n.children) : ∀ m ∈ c.walk, m.id ≠ id :=
      forall_walk_of_mem_children h hc
    rw [parent?_eq, findIdx?_id_eq_none fun c hc => hbelow hc c c.mem_walk_self]
    exact List.findSome?_eq_none_iff.mpr fun c hc => ih c hc (hbelow hc)

theorem updateParent?_eq_none {n : Node} (h : ∀ m ∈ n.walk, m.id ≠ id) :
    updateParent? id edit n = none := by
  induction n using induction_on with
  | node n ih =>
    have hbelow {c : Node} (hc : c ∈ n.children) : ∀ m ∈ c.walk, m.id ≠ id :=
      forall_walk_of_mem_children h hc
    rw [updateParent?_eq, findIdx?_id_eq_none fun c hc => hbelow hc c c.mem_walk_self]
    dsimp only
    rw [changeFirst?_eq_none fun c hc => ih c hc (hbelow hc)]
    rfl

/-! ## 4. The first node in pre-order -/

theorem forall_before_cons {g : Gap} {p : Place} :
    (∀ a ∈ before (g :: p), a.id ≠ id) ↔
      g.id ≠ id ∧ (∀ m ∈ walkList g.before, m.id ≠ id) ∧ ∀ a ∈ before p, a.id ≠ id := by
  rw [before, List.forall_mem_cons, List.forall_mem_append, outlines, List.forall_mem_map]
  rfl

theorem forall_before {p : Place} :
    (∀ a ∈ before p, a.id ≠ id) ↔ ∀ g ∈ p, g.id ≠ id ∧ ∀ m ∈ walkList g.before, m.id ≠ id := by
  induction p with
  | nil => exact ⟨fun _ => List.forall_mem_nil _, fun _ => List.forall_mem_nil _⟩
  | cons g p ih => rw [forall_before_cons, List.forall_mem_cons, ih, and_assoc]

theorem find?_put {p : Place} {n : Node} (hfirst : ∀ a ∈ before p, a.id ≠ id) (hn : n.id = id) :
    find? id (put p n) = some n := by
  -- down the way: the search passes the node of each gap and the trees before the gap
  induction p with
  | nil => rw [put, find?_eq, if_pos hn]
  | cons g p ih =>
    obtain ⟨hg, hbefore, hrest⟩ := forall_before_cons.mp hfirst
    have hleft : g.before.findSome? (find? id) = none :=
      List.findSome?_eq_none_iff.mpr fun c hc => find?_eq_none fun m hm => hbefore m (mem_walkList hc hm)
    rw [put, find?_eq, if_neg (show (g.fill _).id ≠ id from hg), g.children_fill,
      List.findSome?_append, hleft, List.findSome?_cons, ih hrest]
    rfl

theorem update?_put {p : Place} {n : Node} (hfirst : ∀ a ∈ before p, a.id ≠ id) (hn : n.id = id) :
    update? id change (put p n) = some (put p (change n)) := by
  induction p with
  | nil => rw [put, update?_eq, if_pos hn, put]
  | cons g p ih =>
    obtain ⟨hg, hbefore, hrest⟩ := forall_before_cons.mp hfirst
    rw [put, update?_eq, if_neg (show (g.fill _).id ≠ id from hg), g.children_fill,
      changeFirst?_append
        (fun c hc => update?_eq_none fun m hm => hbefore m (mem_walkList hc hm)) (ih hrest),
      ← g.children_fill]
    rfl

/-- An id that occurs in the tree has a first node in pre-order. -/
theorem exists_first {root : Node} (h : ∃ m ∈ root.walk, m.id = id) :
    ∃ p n, root = put p n ∧ n.id = id ∧ ∀ a ∈ before p, a.id ≠ id := by
  induction root using induction_on with
  | node root ih =>
    by_cases hroot : root.id = id
    · exact ⟨[], root, rfl, hroot, List.forall_mem_nil _⟩
    · obtain ⟨m, hm, hid⟩ := h
      obtain rfl | ⟨c, hc, hm⟩ := eq_or_exists_of_mem_walk hm
      · exact absurd hid hroot
      -- the first child below which the id occurs
      obtain ⟨l, c, r, hchildren, hoccurs, hleft⟩ :=
        exists_first_of_mem (P := fun c : Node => ∃ m ∈ c.walk, m.id = id) ⟨c, hc, m, hm, hid⟩
      obtain ⟨p, n, hput, hn, hfirst⟩ := ih c (by rw [hchildren]; simp) hoccurs
      refine ⟨root.gap l r :: p, n, ?_, hn, forall_before_cons.mpr ⟨hroot, fun m hm hid => ?_, hfirst⟩⟩
      · rw [put, ← hput, fill_gap_cons hchildren]
      · obtain ⟨b, hb, hm⟩ := exists_of_mem_walkList hm
        exact hleft b hb ⟨m, hm, hid⟩

end Node

/-! ## 5. The first node of a search that looks at all children first -/

/-- The gap under the place is where a search for the id ends that looks at all children of a node before
it looks below any of them: no child before the gap has the id, and on the way there is no node with it,
neither below a child before the way nor among the children behind. -/
structure ChildrenFirst (id : String) (p : Place) (g : Gap) : Prop where
  above : ∀ h ∈ p ++ [g], h.id ≠ id
  passed : ∀ h ∈ p, ∀ m ∈ walkList h.before, m.id ≠ id
  behind : ∀ h ∈ p, ∀ c ∈ h.after, c.id ≠ id
  beside : ∀ c ∈ g.before, c.id ≠ id

/-- The node at the place under the gaps has an id that no gap has. -/
theorem id_put_of_above {id : String} {p : Place} {g : Gap} (h : ∀ h ∈ p ++ [g], h.id ≠ id)
    (ns : List Node) : (put p (g.fill ns)).id ≠ id := by
  cases p with
  | nil => exact h g List.mem_cons_self
  | cons h' p => exact h h' List.mem_cons_self

namespace ChildrenFirst

variable {id : String} {p : Place} {g h : Gap} {n : Node}

theorem tail (hfirst : ChildrenFirst id (h :: p) g) : ChildrenFirst id p g where
  above a ha := hfirst.above a (List.mem_cons_of_mem _ ha)
  passed a ha := hfirst.passed a (List.mem_cons_of_mem _ ha)
  behind a ha := hfirst.behind a (List.mem_cons_of_mem _ ha)
  beside := hfirst.beside

theorem forall_passed (hfirst : ChildrenFirst id (h :: p) g) {c : Node} (hc : c ∈ h.before) :
    ∀ m ∈ c.walk, m.id ≠ id :=
  fun m hm => hfirst.passed h List.mem_cons_self m (mem_walkList hc hm)

/-- On the way no child of a node has the id. -/
theorem findIdx?_children (hfirst : ChildrenFirst id (h :: p) g) :
    (put (h :: p) (g.fill [n])).children.findIdx? (·.id == id) = none := by
  refine findIdx?_id_eq_none fun c hc => ?_
  rw [put, h.children_fill, List.mem_append, List.mem_cons] at hc
  obtain hc | rfl | hc := hc
  · exact hfirst.forall_passed hc c c.mem_walk_self
  · exact id_put_of_above hfirst.tail.above [n]
  · exact hfirst.behind h List.mem_cons_self c hc

/-- At the end of the way the node in the gap is the first child with the id. -/
theorem findIdx?_gap (hfirst : ChildrenFirst id p g) (hn : n.id = id) :
    (g.fill [n]).children.findIdx? (·.id == id) = some g.before.length := by
  rw [g.children_fill, List.findIdx?_append, findIdx?_id_eq_none hfirst.beside, List.findIdx?_cons,
    if_pos (beq_iff_eq.mpr hn)]
  simp

/-- A way that goes on below the root does not end in a gap of the root. -/
theorem put_ne_fill {q : Place} {g' : Gap} {m : Node} (hway : ChildrenFirst id (h :: p) g)
    (hgap : ChildrenFirst id q g') (hm : m.id = id) : put (h :: p) (g.fill [n]) ≠ g'.fill [m] := by
  intro heq
  have hindex := hgap.findIdx?_gap hm
  rw [← heq, hway.findIdx?_children] at hindex
  cases hindex

end ChildrenFirst

namespace Node

variable {id : String} {edit : List Node → Nat → List Node} {p : Place} {g : Gap} {n : Node}

theorem parent?_put (hfirst : ChildrenFirst id p g) (hn : n.id = id) :
    parent? id (put p (g.fill [n])) = some (g.fill [n], g.before.length) := by
  induction p with
  | nil => rw [put, parent?_eq, hfirst.findIdx?_gap hn]
  | cons h p ih =>
    have hleft : h.before.findSome? (parent? id) = none :=
      List.findSome?_eq_none_iff.mpr fun c hc => parent?_eq_none (hfirst.forall_passed hc)
    rw [parent?_eq, hfirst.findIdx?_children]
    dsimp only
    rw [put, h.children_fill, List.findSome?_append, hleft, List.findSome?_cons, ih hfirst.tail]
    rfl

theorem updateParent?_put (hfirst : ChildrenFirst id p g) (hn : n.id = id) :
    updateParent? id edit (put p (g.fill [n])) =
      some (put p { g.fill [n] with children := edit (g.fill [n]).children g.before.length }) := by
  induction p with
  | nil => rw [put, updateParent?_eq, hfirst.findIdx?_gap hn, put]
  | cons h p ih =>
    rw [updateParent?_eq, hfirst.findIdx?_children]
    dsimp only
    rw [put, h.children_fill,
      changeFirst?_append (fun c hc => updateParent?_eq_none (hfirst.forall_passed hc))
        (ih hfirst.tail),
      ← h.children_fill]
    rfl

end Node

/-- An id that occurs, and not at the root, has such a place. -/
theorem exists_childrenFirst {id : String} {root : Node} (hroot : root.id ≠ id)
    (h : ∃ m ∈ root.walk, m.id = id) :
    ∃ p g n, root = put p (g.fill [n]) ∧ n.id = id ∧ ChildrenFirst id p g := by
  induction root using induction_on with
  | node root ih =>
    -- the search ends at the root when a child has the id, and else goes on below one of them
    by_cases hchild : ∃ c ∈ root.children, c.id = id
    · obtain ⟨l, c, r, hchildren, hc, hleft⟩ := exists_first_of_mem hchild
      have hgap : root = (root.gap l r).fill [c] := (fill_gap_cons hchildren).symm
      exact ⟨[], root.gap l r, c, hgap, hc, List.forall_mem_singleton.mpr hroot,
        List.forall_mem_nil _, List.forall_mem_nil _, hleft⟩
    · have hnone : ∀ c ∈ root.children, c.id ≠ id := fun c hc hid => hchild ⟨c, hc, hid⟩
      obtain ⟨m, hm, hid⟩ := h
      -- the root has another id, so the id occurs below it
      obtain rfl | ⟨c, hc, hm⟩ := eq_or_exists_of_mem_walk hm
      · exact absurd hid hroot
      obtain ⟨l, c, r, hchildren, hbelow, hleft⟩ :=
        exists_first_of_mem (P := fun c : Node => ∃ m ∈ c.walk, m.id = id) ⟨c, hc, m, hm, hid⟩
      have hc : c ∈ root.children := by
        rw [hchildren]
        exact List.mem_append_right _ List.mem_cons_self
      obtain ⟨p, g, n, hput, hn, hfirst⟩ := ih c hc (hnone c hc) hbelow
      have hgap : root = put (root.gap l r :: p) (g.fill [n]) := by
        rw [put, ← hput, fill_gap_cons hchildren]
      refine ⟨root.gap l r :: p, g, n, hgap, hn, List.forall_mem_cons.mpr ⟨hroot, hfirst.above⟩,
        List.forall_mem_cons.mpr ⟨fun m hm hid => ?_, hfirst.passed⟩,
        List.forall_mem_cons.mpr ⟨fun b hb => hnone b ?_, hfirst.behind⟩, hfirst.beside⟩
      · obtain ⟨b, hb, hm⟩ := exists_of_mem_walkList hm
        exact hleft b hb ⟨m, hm, hid⟩
      · rw [hchildren]
        exact List.mem_append_right _ (List.mem_cons_of_mem _ hb)

/-- The gap before the first child with a property is determined by the node. -/
theorem Gap.eq_of_fill_eq {g h : Gap} {n m : Node} (heq : g.fill [n] = h.fill [m])
    {P : Node → Prop} (hg : ∀ c ∈ g.before, ¬P c) (hn : P n) (hh : ∀ c ∈ h.before, ¬P c) (hm : P m) :
    g = h ∧ n = m := by
  obtain ⟨hkind, hid, hattrs, -, hspan⟩ := Node.mk.inj heq
  have hchildren := congrArg Node.children heq
  rw [g.children_fill, h.children_fill] at hchildren
  obtain ⟨hbefore, hnode, hafter⟩ := append_cons_inj_of_first hchildren hg hn hh hm
  exact ⟨Gap.ext hkind hid hattrs hbefore hafter hspan, hnode⟩

/-- A tree has one such place only. -/
theorem ChildrenFirst.unique {id : String} {p q : Place} {g h : Gap} {n m : Node}
    (hp : ChildrenFirst id p g) (hn : n.id = id) (hq : ChildrenFirst id q h) (hm : m.id = id)
    (heq : put p (g.fill [n]) = put q (h.fill [m])) : p = q ∧ g = h ∧ n = m := by
  induction p generalizing q with
  | nil =>
    cases q with
    | nil => exact ⟨rfl, Gap.eq_of_fill_eq heq hp.beside hn hq.beside hm⟩
    | cons b q => exact absurd heq.symm (hq.put_ne_fill hp hn)
  | cons a p ih =>
    cases q with
    | nil => exact absurd heq (hp.put_ne_fill hq hm)
    | cons b q =>
      -- both ways go to the first child of the root below which the id occurs
      have hoccurs {p : Place} {g : Gap} {n : Node} (hn : n.id = id) :
          ∃ x ∈ (put p (g.fill [n])).walk, x.id = id := by
        rw [← put_concat]
        exact ⟨n, mem_walk_put _ n, hn⟩
      obtain ⟨rfl, hbelow⟩ := Gap.eq_of_fill_eq (P := fun c => ∃ x ∈ c.walk, x.id = id) heq
        (fun c hc ⟨x, hx, hid⟩ => hp.forall_passed hc x hx hid) (hoccurs hn)
        (fun c hc ⟨x, hx, hid⟩ => hq.forall_passed hc x hx hid) (hoccurs hm)
      obtain ⟨rfl, hend⟩ := ih hp.tail hq.tail hbelow
      exact ⟨rfl, hend⟩

/-- The first node in pre-order is the one that a search finds that looks at all children first, unless
a node behind an ancestor of it has the id. -/
theorem childrenFirst_iff {id : String} {p : Place} {g : Gap}
    (hfirst : ∀ a ∈ before (p ++ [g]), a.id ≠ id) :
    ChildrenFirst id p g ↔ ∀ h ∈ p, ∀ c ∈ h.after, c.id ≠ id := by
  refine ⟨ChildrenFirst.behind, fun hbehind => ?_⟩
  have hway := forall_before.mp hfirst
  have hgap := (hway g (List.mem_append_right _ List.mem_cons_self)).2
  exact ⟨fun h hh => (hway h hh).1, fun h hh => (hway h (List.mem_append_left _ hh)).2, hbehind,
    fun c hc => hgap c (mem_walkList hc c.mem_walk_self)⟩

end Arbor
