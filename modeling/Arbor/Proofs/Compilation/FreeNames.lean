import Arbor.Proofs.Compilation.Source

/-!
# Free names

The names that evaluation of a node looks up in the bindings it starts with: its variables and the
functions it calls, less what it has bound itself by then. A definition depends on the names that are
free in its function, and on what these depend on in turn.
-/

namespace Arbor

open Text

namespace Node

mutual

/-- The names that the node looks up without having bound them. -/
def free : Node → List String
  | ⟨kind, id, attrs, children, span⟩ =>
    let n : Node := ⟨kind, id, attrs, children, span⟩
    match n.form? with
    | some .program | some .block => freeInStatements children
    | some .fn => (freeInAll children).filter (· ∉ splitNames ((n.text? "params").getD ""))
    | some .var => (n.ident? "name").toList
    | some .lit => []
    | some .call =>
      (n.ident? "target").toList.filter (fun x => (Contract.lookup? x).isNone) ++ freeInAll children
    | _ => freeInAll children

/-- The names that a sequence of statements looks up without a statement before having bound them. -/
def freeInStatements : List Node → List String
  | [] => []
  | n :: ns => free n ++ (freeInStatements ns).filter (· ∉ n.binds)

/-- The names that any of the nodes looks up. -/
def freeInAll : List Node → List String
  | [] => []
  | n :: ns => free n ++ freeInAll ns

end

variable {n : Node}

theorem free_sequence (hform : n.form? = some .program ∨ n.form? = some .block) :
    n.free = freeInStatements n.children := by
  obtain ⟨kind, id, attrs, children, span⟩ := n
  rw [free]
  rcases hform with hform | hform <;> rw [hform]

theorem free_fn (hform : n.form? = some .fn) :
    n.free = (freeInAll n.children).filter (· ∉ splitNames ((n.text? "params").getD "")) := by
  obtain ⟨kind, id, attrs, children, span⟩ := n
  rw [free, hform]

theorem free_var (hform : n.form? = some .var) : n.free = (n.ident? "name").toList := by
  obtain ⟨kind, id, attrs, children, span⟩ := n
  rw [free, hform]

theorem free_call (hform : n.form? = some .call) :
    n.free = (n.ident? "target").toList.filter (fun x => (Contract.lookup? x).isNone) ++
      freeInAll n.children := by
  obtain ⟨kind, id, attrs, children, span⟩ := n
  rw [free, hform]

theorem mem_free_var (hform : n.form? = some .var) {name : String}
    (hname : n.ident? "name" = some name) : name ∈ n.free := by
  rw [free_var hform, hname]
  exact List.mem_cons_self

theorem mem_free_call (hform : n.form? = some .call) {target : String}
    (htarget : n.ident? "target" = some target) (hlookup : Contract.lookup? target = none) :
    target ∈ n.free := by
  rw [free_call hform, htarget]
  refine List.mem_append_left _ (List.mem_filter.mpr ⟨List.mem_cons_self, ?_⟩)
  rw [hlookup]
  rfl

theorem free_subset_freeInAll {c : Node} {ns : List Node} (hc : c ∈ ns) :
    c.free ⊆ freeInAll ns := by
  induction ns with
  | nil => cases hc
  | cons n ns ih =>
    rw [freeInAll]
    rcases List.mem_cons.mp hc with rfl | hc
    · exact List.subset_append_left _ _
    · exact List.Subset.trans (ih hc) (List.subset_append_right _ _)

/-- Outside of sequences and functions, what is free in a child is free. -/
theorem free_subset_of_mem_children {form : Form} (hform : n.form? = some form)
    (hsimple : form ≠ .program ∧ form ≠ .block ∧ form ≠ .fn ∧ form ≠ .var ∧ form ≠ .lit) {c : Node}
    (hc : c ∈ n.children) : c.free ⊆ n.free := by
  have hall := free_subset_freeInAll hc
  by_cases hcall : form = .call
  · subst hcall
    rw [free_call hform]
    exact List.Subset.trans hall (List.subset_append_right _ _)
  · have hfree : n.free = freeInAll n.children := by
      obtain ⟨kind, id, attrs, children, span⟩ := n
      rw [free, hform]
      cases form <;> simp_all
    rw [hfree]
    exact hall

end Node

/-! ## Dependence -/

/-- A definition of the first name has the second one free in its function. -/
def Uses (root : Node) (x y : String) : Prop := ∃ d ∈ definitions root, d.1 = x ∧ y ∈ d.2.free

/-- What the first name means depends on what the second one does. -/
def Reaches (root : Node) : String → String → Prop := Relation.ReflTransGen (Uses root)

end Arbor
