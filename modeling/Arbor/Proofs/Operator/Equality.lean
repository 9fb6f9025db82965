import Arbor.Node.Parser
import Arbor.Proofs.Bytecode.Seats
import Arbor.Proofs.Operator.Introspection
import Arbor.Proofs.Value

/-!
# Equality of nodes

Nodes are compared with all that they consist of, their spans included. So of nodes that no other
operator tells apart just those are equal that were read from the same places, or made at run time
(`eq_nodes`), and one text that is read at two places gives nodes that are not (`eq_moved`).
-/

namespace Arbor

/-! ## 1. Spans -/

namespace Node

/-- The spans in the tree, in pre-order. -/
def spans (n : Node) : List Span := n.walk.map Node.span

theorem spans_cons (n : Node) : n.spans = n.span :: (walkList n.children).map Node.span := by
  cases n
  rfl

theorem eq_iff (m n : Node) : m = n ↔ m.kind = n.kind ∧ m.id = n.id ∧ m.attrs = n.attrs ∧
    m.span = n.span ∧ m.children = n.children := by
  cases m
  cases n
  rw [Node.mk.injEq]
  tauto

/-- The spans in front of others determine the tree, and so where the others begin. -/
def ToldBySpans (m : Node) : Prop :=
  ∀ (n : Node) (rest rest' : List Span), m.unspanned = n.unspanned →
    m.spans ++ rest = n.spans ++ rest' → m = n ∧ rest = rest'

theorem eq_of_toldBySpans {cs : List Node} (hcs : ∀ c ∈ cs, c.ToldBySpans) {ds : List Node}
    {rest rest' : List Span} (hmap : cs.map unspanned = ds.map unspanned)
    (hspans : (walkList cs).map Node.span ++ rest = (walkList ds).map Node.span ++ rest') :
    cs = ds ∧ rest = rest' := by
  induction cs generalizing ds rest rest' with
  | nil =>
    obtain rfl := List.map_eq_nil_iff.mp hmap.symm
    exact ⟨rfl, hspans⟩
  | cons c cs ih =>
    obtain ⟨d, ds, rfl, hd, hds⟩ := List.map_eq_cons_iff.mp hmap.symm
    rw [walkList, walkList, List.map_append, List.map_append, List.append_assoc,
      List.append_assoc] at hspans
    obtain ⟨rfl, hmore⟩ := hcs c List.mem_cons_self d _ _ hd.symm hspans
    obtain ⟨rfl, hrest⟩ := ih (fun c hc => hcs c (List.mem_cons_of_mem _ hc)) hds.symm hmore
    exact ⟨rfl, hrest⟩

theorem toldBySpans (m : Node) : m.ToldBySpans := by
  induction m using Node.induction_on with
  | node m ih =>
    intro n rest rest' h hspans
    obtain ⟨hkind, hid, hattrs, hchildren⟩ := unspanned_eq_iff.mp h
    rw [spans_cons, spans_cons, List.cons_append, List.cons_append] at hspans
    obtain ⟨hspan, hbelow⟩ := List.cons.inj hspans
    obtain ⟨hsame, hrest⟩ := eq_of_toldBySpans ih hchildren hbelow
    exact ⟨(eq_iff m n).mpr ⟨hkind, hid, hattrs, hspan, hsame⟩, hrest⟩

theorem eq_iff_spans_eq {m n : Node} (h : m.unspanned = n.unspanned) :
    m = n ↔ m.spans = n.spans := by
  refine ⟨congrArg spans, fun hspans => ?_⟩
  exact (m.toldBySpans n [] [] h (congrArg (· ++ []) hspans)).1

end Node

namespace Operator

/-! ## 2. Comparing nodes -/

theorem apply_eq_nodes (m n : Node) : eq.apply [.node m, .node n] = .bool (m == n) := rfl

theorem eq_nodes_iff (m n : Node) : eq.apply [.node m, .node n] = .bool true ↔ m = n := by
  rw [apply_eq_nodes]
  exact ⟨fun h => eq_of_beq (bool_injective h), fun h => congrArg Value.bool (beq_iff_eq.mpr h)⟩

/-- The instruction that compares leaves what the operator answers. -/
theorem step_comparing {p : BytecodeProgram} {c : Machine.Seat} {pc : Nat} {slots ops : List Value}
    {inst : Instruction} (hfunction : p.functions[c.index]? = some c.function)
    (hinst : c.function.code[pc]? = some inst) (hop : inst.op = "EQ")
    (hroom : c.below.length + ops.length < maxStack) (v w : Value) :
    (c.machine pc slots (ops ++ [v, w])).step p =
      .next (c.machine (pc + 1) slots (ops ++ [eq.apply [v, w]])) := by
  have hopcode : inst.opcode? = some (.operator eq) := by
    unfold Instruction.opcode?
    rw [hop]
    decide
  rw [c.step_of_opcode? p pc slots _ hfunction hinst hopcode]
  unfold Machine.execute
  dsimp only
  rw [show eq.arity = [v, w].length from rfl, c.popMany_machine]
  show Machine.proceed ((c.machine (pc + 1) slots ops).push c.function.name _) = _
  rw [c.push_machine, if_neg (by omega)]
  rfl

/-- The comparison of two nodes answers yes or no: whether they have one kind, one id, one span and the
same attributes, and children of which it says so in turn. Of nodes that no operator tells apart it
says so when the spans in them are the same, throughout. The instruction of the machine leaves the
operator's answer on the stack. -/
theorem eq_nodes (m n : Node) :
    (∃ b, eq.apply [.node m, .node n] = .bool b) ∧
    (eq.apply [.node m, .node n] = .bool true ↔
      m.kind = n.kind ∧ m.id = n.id ∧ m.attrs = n.attrs ∧ m.span = n.span ∧
        List.Forall₂ (fun c d => eq.apply [.node c, .node d] = .bool true) m.children n.children) ∧
    (m.Countable → n.Countable → Indistinguishable m n →
      (eq.apply [.node m, .node n] = .bool true ↔ m.spans = n.spans)) ∧
    ∀ (p : BytecodeProgram) (c : Machine.Seat) (pc : Nat) (slots ops : List Value)
      (inst : Instruction), p.functions[c.index]? = some c.function →
      c.function.code[pc]? = some inst → inst.op = "EQ" → c.below.length + ops.length < maxStack →
      (c.machine pc slots (ops ++ [.node m, .node n])).step p =
        .next (c.machine (pc + 1) slots (ops ++ [eq.apply [.node m, .node n]])) := by
  refine ⟨⟨m == n, rfl⟩, ?_, fun hm hn h => ?_, fun p c pc slots ops inst hfunction hinst hop hroom =>
    step_comparing hfunction hinst hop hroom (.node m) (.node n)⟩
  · simp only [eq_nodes_iff, List.forall₂_eq_eq_eq, Node.eq_iff m n]
  · rw [eq_nodes_iff]
    exact Node.eq_iff_spans_eq (h.unspanned_eq hm hn)

/-- A node of one line that was read from these offsets. -/
def litAt (first last : Nat) : Node where
  kind := "Lit"
  id := "a"
  span := ⟨⟨first, 1, first + 1⟩, ⟨last, 1, last + 1⟩⟩

/-- A function that compares. -/
def comparing : BytecodeFunction := ⟨"main", [], [], #[.of (.operator eq)]⟩

/-- A node that was read twice, as the operator and the machine compare it. -/
theorem eq_nodes_litAt :
    ((litAt 0 5).Countable ∧ (litAt 1 6).Countable ∧ Indistinguishable (litAt 0 5) (litAt 1 6)) ∧
      eq.apply [.node (litAt 0 5), .node (litAt 1 6)] ≠ .bool true ∧
      let seat : Machine.Seat := ⟨0, comparing, [], []⟩
      (seat.machine 0 [] [.node (litAt 0 5), .node (litAt 1 6)]).step ⟨[], #[comparing]⟩ =
        .next (seat.machine 1 [] [.bool false]) := by
  obtain ⟨-, -, hspans, hstep⟩ := eq_nodes (litAt 0 5) (litAt 1 6)
  have hm : (litAt 0 5).Countable := by unfold Node.Countable; decide
  have hn : (litAt 1 6).Countable := by unfold Node.Countable; decide
  have halike : Indistinguishable (litAt 0 5) (litAt 1 6) :=
    indistinguishable_of_unspanned_eq (by decide)
  refine ⟨⟨hm, hn, halike⟩, fun h => ?_, ?_⟩
  · exact absurd ((hspans hm hn halike).mp h) (by decide)
  · exact hstep ⟨[], #[comparing]⟩ ⟨0, comparing, [], []⟩ 0 [] [] (.of (.operator eq)) rfl rfl rfl
      (by decide)

/-- One text, read at two places. -/
theorem eq_moved :
    ∃ m n : Node, parse "Lit#a" = ⟨some m, []⟩ ∧ parse " Lit#a" = ⟨some n, []⟩ ∧
      Indistinguishable m n ∧ m.kind = n.kind ∧ m.id = n.id ∧ m.attrs = n.attrs ∧
      m.children = [] ∧ n.children = [] ∧ eq.apply [.node m, .node n] = .bool false := by
  have hhere : ∃ root, parse "Lit#a" = ⟨some root, []⟩ ∧ root = litAt 0 5 :=
    exists_parse_of_map (by decide +kernel) (by decide +kernel)
  have hthere : ∃ root, parse " Lit#a" = ⟨some root, []⟩ ∧ root = litAt 1 6 :=
    exists_parse_of_map (by decide +kernel) (by decide +kernel)
  obtain ⟨_, hhere, rfl⟩ := hhere
  obtain ⟨_, hthere, rfl⟩ := hthere
  exact ⟨litAt 0 5, litAt 1 6, hhere, hthere, indistinguishable_of_unspanned_eq (by decide), rfl, rfl,
    rfl, rfl, rfl, rfl⟩

end Operator

end Arbor
