import Arbor.Node.Search

/-!
# The nodes of a tree

A tree consists of its root and of the trees below it. Its height is how many nodes are nested in each
other at most.
-/

namespace Arbor.Node

/-! ## 1. Which nodes there are -/

theorem mem_walkList {c m : Node} {cs : List Node} (hc : c ∈ cs) (hm : m ∈ c.walk) :
    m ∈ walkList cs := by
  induction cs with
  | nil => cases hc
  | cons d cs ih =>
    rw [walkList]
    rcases List.mem_cons.mp hc with rfl | hc
    · exact List.mem_append_left _ hm
    · exact List.mem_append_right _ (ih hc)

theorem exists_of_mem_walkList {m : Node} {cs : List Node} (hm : m ∈ walkList cs) :
    ∃ c ∈ cs, m ∈ c.walk := by
  induction cs with
  | nil => cases hm
  | cons c cs ih =>
    rw [walkList] at hm
    rcases List.mem_append.mp hm with hm | hm
    · exact ⟨c, List.mem_cons_self, hm⟩
    · obtain ⟨d, hd, hm⟩ := ih hm
      exact ⟨d, List.mem_cons_of_mem c hd, hm⟩

theorem mem_walk_self (n : Node) : n ∈ n.walk := by
  cases n
  rw [walk]
  exact List.mem_cons_self

theorem mem_walk_of_mem_children {n c m : Node} (hc : c ∈ n.children) (hm : m ∈ c.walk) :
    m ∈ n.walk := by
  cases n
  rw [walk]
  exact List.mem_cons_of_mem _ (mem_walkList hc hm)

theorem eq_or_exists_of_mem_walk {n m : Node} (hm : m ∈ n.walk) :
    m = n ∨ ∃ c ∈ n.children, m ∈ c.walk := by
  cases n
  rw [walk] at hm
  exact (List.mem_cons.mp hm).imp_right exists_of_mem_walkList

/-- What holds throughout a tree holds throughout the trees below its root. -/
theorem forall_walk_of_mem_children {P : Node → Prop} {n c : Node} (h : ∀ m ∈ n.walk, P m)
    (hc : c ∈ n.children) : ∀ m ∈ c.walk, P m :=
  fun m hm => h m (mem_walk_of_mem_children hc hm)

theorem forall_mem_walk {P : Node → Prop} {n : Node} (hself : P n)
    (hbelow : ∀ c ∈ n.children, ∀ m ∈ c.walk, P m) : ∀ m ∈ n.walk, P m := by
  intro m hm
  obtain rfl | ⟨c, hc, hm⟩ := eq_or_exists_of_mem_walk hm
  · exact hself
  · exact hbelow c hc m hm

/-! ## 2. Heights -/

mutual

/-- How many nodes of the tree are nested in each other at most. -/
def height : Node → Nat
  | ⟨_, _, _, children, _⟩ => heights children + 1

/-- The same for trees beside each other. -/
def heights : List Node → Nat
  | [] => 0
  | c :: cs => max (height c) (heights cs)

end

theorem height_le_heights {c : Node} {cs : List Node} (hc : c ∈ cs) : c.height ≤ heights cs := by
  induction cs with
  | nil => cases hc
  | cons d cs ih =>
    rw [heights]
    obtain rfl | hc := List.mem_cons.mp hc
    · exact Nat.le_max_left _ _
    · exact Nat.le_trans (ih hc) (Nat.le_max_right _ _)

theorem height_pos (n : Node) : 0 < n.height := by
  cases n
  exact Nat.succ_pos _

theorem height_lt {n c : Node} (hc : c ∈ n.children) : c.height < n.height := by
  cases n
  rw [height]
  exact Nat.lt_succ_of_le (height_le_heights hc)

/-- What holds of a node when it holds of its children holds of every node. -/
@[elab_as_elim]
theorem induction_on {P : Node → Prop} (n : Node) (node : ∀ n, (∀ c ∈ n.children, P c) → P n) : P n :=
  node n fun c _ => induction_on c node
termination_by n.height
decreasing_by exact height_lt ‹_›

end Arbor.Node
