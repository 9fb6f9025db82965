import Arbor.Proofs.Patch.Edits

/-!
# Which node an operation takes

Several nodes of a tree may have the id that an operation names. An insertion then takes the first of
them in pre-order for the parent, as a search for a node does. A replacement or a removal looks for a
parent instead, and looks at all children of a node before it looks below any of them. It takes another
node than the first one where a node beside an ancestor of the first one, and behind that ancestor, has
the id as well (`applyPatch_targets`).
-/

namespace Arbor

open Node Place Patch

/-- The first node in pre-order is the one that a search takes that looks at all children first, just
when no node has the id that stands beside an ancestor of it and behind that ancestor. -/
theorem eq_childrenFirst_iff {id : String} {p q : Place} {g h : Gap} {n m : Node}
    (hfirst : ∀ a ∈ before (p ++ [g]), a.id ≠ id) (hn : n.id = id) (hq : ChildrenFirst id q h)
    (hm : m.id = id) (heq : put p (g.fill [n]) = put q (h.fill [m])) :
    (q = p ∧ h = g ∧ m = n) ↔ ∀ a ∈ p, ∀ c ∈ a.after, c.id ≠ id := by
  rw [← childrenFirst_iff hfirst]
  constructor
  · rintro ⟨rfl, rfl, -⟩
    exact hq
  · intro hp
    exact hq.unique hm hp hn heq.symm

/-- An id that occurs below the root has a first node in pre-order. That is the node that a search
finds, and the one that an insertion takes for the parent. When it is the root, a replacement takes it
as well, and a removal is refused. When it stands in a gap, the node that a replacement and a removal
take is the one of a search that looks at all children first. It is the same node just when no node has
the id that stands beside an ancestor of the first one and behind that ancestor. -/
theorem applyPatch_targets {root : Node} {id : String}
    (hbelow : ∃ m ∈ walkList root.children, m.id = id) :
    ∃ p n, root = put p n ∧ n.id = id ∧ (∀ a ∈ before p, a.id ≠ id) ∧ root.find? id = some n ∧
      (∀ op slot index child, Asks op (.insert id slot index child) → Accepts n slot index →
        applyPatch root [op] =
          (put p { n with children := n.children.insertIdx index.toInt.toNat child }, [])) ∧
      (p = [] →
        (∀ op r, Asks op (.replace id r) → applyPatch root [op] = (r, [])) ∧
        ∀ op, Asks op (.delete id) →
          applyPatch root [op] = (root, [Failure.report (.rootDeleted id) root op])) ∧
      ∀ p' g, p = p' ++ [g] → ∃ q h m, root = put q (h.fill [m]) ∧ m.id = id ∧
        ChildrenFirst id q h ∧ root.parent? id = some (h.fill [m], h.before.length) ∧
        (∀ op r, Asks op (.replace id r) → applyPatch root [op] = (put q (h.fill [r]), [])) ∧
        (∀ op, Asks op (.delete id) → applyPatch root [op] = (put q (h.fill []), [])) ∧
        ((q = p' ∧ h = g ∧ m = n) ↔ ∀ a ∈ p', ∀ c ∈ a.after, c.id ≠ id) := by
  have hoccurs : ∃ m ∈ root.walk, m.id = id := by
    obtain ⟨m, hm, hid⟩ := hbelow
    obtain ⟨c, hc, hm⟩ := exists_of_mem_walkList hm
    exact ⟨m, mem_walk_of_mem_children hc hm, hid⟩
  obtain ⟨p, n, rfl, hn, hfirst⟩ := exists_first hoccurs
  refine ⟨p, n, rfl, hn, hfirst, find?_put hfirst hn, ?_, ?_, ?_⟩
  · exact fun op slot index child hasks haccepts =>
      hasks.succeeds (insert_put hfirst hn haccepts)
  · rintro rfl
    exact ⟨fun op r hasks => hasks.succeeds (replace_root hn r),
      fun op hasks => hasks.fails (delete_root hn)⟩
  · rintro p' g rfl
    -- the root is before the node in pre-order, so it has another id
    have hroot : (put (p' ++ [g]) n).id ≠ id := by
      rw [put_concat]
      exact id_put_of_above (fun a ha => (forall_before.mp hfirst a ha).1) [n]
    obtain ⟨q, h, m, hput, hm, hq⟩ := exists_childrenFirst hroot hoccurs
    refine ⟨q, h, m, hput, hm, hq, ?_, fun op r hasks => ?_, fun op hasks => ?_, ?_⟩
    · rw [hput]
      exact parent?_put hq hm
    · rw [hput]
      exact hasks.succeeds (replace_put hq hm r)
    · rw [hput]
      exact hasks.succeeds (delete_put hq hm)
    · rw [put_concat] at hput
      exact eq_childrenFirst_iff hfirst hn hq hm hput

/-- A literal whose id others have as well. -/
def sharedLit (value : Int32) : Node :=
  { kind := "Lit", id := "dup", attrs := attrs [("value", .int value)] }

/-- A block without statements, to which one can be added. -/
def blockGap : Gap := ⟨"Block", "b", ∅, [], [], .nowhere⟩

/-- The place of the first child of a program that has a literal for its second one. -/
def aheadOfLit : Place := [⟨"Program", "p", ∅, [], [sharedLit 2], .nowhere⟩]

/-- Removes a node of the literals' id. -/
def removeShared : Node :=
  { kind := "Op", id := "d",
    attrs := attrs [("kind", .identifier "deleteNode"), ("id", .identifier "dup")] }

theorem asks_removeShared : Asks removeShared (.delete "dup") := .delete (by decide) (by decide)

theorem applyPatch_targets_shared :
    (∃ m ∈ walkList (put aheadOfLit (blockGap.fill [sharedLit 1])).children, m.id = "dup") ∧
      ∃ (q : Place) (h : Gap) (m : Node), ChildrenFirst "dup" q h ∧ m.id = "dup" ∧
        put aheadOfLit (blockGap.fill [sharedLit 1]) = put q (h.fill [m]) ∧
        applyPatch (put aheadOfLit (blockGap.fill [sharedLit 1])) [removeShared] =
          (put q (h.fill []), []) := by
  have hbelow : ∃ m ∈ walkList (put aheadOfLit (blockGap.fill [sharedLit 1])).children,
      m.id = "dup" :=
    ⟨sharedLit 2, mem_walkList (List.mem_cons_of_mem _ List.mem_cons_self) (mem_walk_self _), rfl⟩
  refine ⟨hbelow, ?_⟩
  obtain ⟨p, n, hput, hn, -, -, -, -, hgap⟩ := applyPatch_targets hbelow
  obtain rfl | ⟨p', g, rfl⟩ := p.eq_nil_or_concat
  · rw [← show _ = n from hput] at hn
    exact absurd hn (by decide)
  · obtain ⟨q, h, m, hroot, hm, hq, -, -, hdelete, -⟩ := hgap p' g List.concat_eq_append
    exact ⟨q, h, m, hq, hm, hroot, hdelete removeShared asks_removeShared⟩

/-- Replacements and removals do not take the first node in pre-order throughout. In a program with a
literal behind a block that has a literal of the same id, a removal takes the one behind the block. -/
theorem not_applyPatch_takes_first :
    ¬ ∀ (op : Node) (id : String) (p : Place) (g : Gap) (n : Node), n.id = id →
      (∀ a ∈ before (p ++ [g]), a.id ≠ id) →
      (∀ r, Asks op (.replace id r) →
        applyPatch (put p (g.fill [n])) [op] = (put p (g.fill [r]), [])) ∧
      (Asks op (.delete id) → applyPatch (put p (g.fill [n])) [op] = (put p (g.fill []), [])) := by
  intro h
  have hfirst : ∀ a ∈ before (aheadOfLit ++ [blockGap]), a.id ≠ "dup" := by decide
  obtain ⟨-, hdelete⟩ := h removeShared "dup" aheadOfLit blockGap (sharedLit 1) rfl hfirst
  -- the program keeps its two children then, but only the block is left to it
  have hchildren := congrArg (fun done => done.1.children.length)
    (hdelete asks_removeShared)
  revert hchildren
  decide

end Arbor
