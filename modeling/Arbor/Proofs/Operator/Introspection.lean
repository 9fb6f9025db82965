import Arbor.Evaluation.Evaluator
import Arbor.Operator
import Arbor.Proofs.Node.Indexing
import Arbor.Proofs.Node.Layout
import Arbor.Proofs.Node.RoundTrip

/-!
# What operators tell about nodes

Programs look into a node with operators only: its kind and id, how many attributes and children it
has, and the attribute and the child at an index. Nodes that no operator tells apart, nor any of their
children, are the same but for the spans, and the text of a node can be put together from what the
operators answer at one index after the other (`introspection_complete`). Both ask that every attribute
and every child has an index.
-/

namespace Arbor

open Text

/-! ## 1. Nodes without their spans -/

namespace Node

/-- Every attribute and every child has an index, throughout the tree. -/
def Countable (n : Node) : Prop :=
  ∀ m ∈ n.walk, m.attrs.size < 2147483648 ∧ m.children.length < 2147483648

theorem Countable.child {n c : Node} (h : n.Countable) (hc : c ∈ n.children) : c.Countable :=
  fun m hm => h m (mem_walk_of_mem_children hc hm)

theorem unspanned_eq (n : Node) :
    n.unspanned = ⟨n.kind, n.id, n.attrs, n.children.map unspanned, .nowhere⟩ := by
  unfold unspanned
  rw [recast_eq, Dict.mapEntries_id]

theorem unspanned_eq_iff {m n : Node} : m.unspanned = n.unspanned ↔
    m.kind = n.kind ∧ m.id = n.id ∧ m.attrs = n.attrs ∧
      m.children.map unspanned = n.children.map unspanned := by
  rw [unspanned_eq m, unspanned_eq n, Node.mk.injEq]
  simp

theorem format_eq_of_unspanned {m n : Node} (h : m.unspanned = n.unspanned) :
    m.format = n.format := by
  rw [← format_recast (fun _ _ _ _ => rfl) m, ← format_recast (fun _ _ _ _ => rfl) n]
  exact congrArg format h

end Node

namespace Operator

/-! ## 2. Answers -/

/-- The operators that tell about a node as a whole. -/
def onNode : List Operator := [nodeKind, nodeId, attrCount, childCount]

/-- The operators that tell about the attribute at an index. -/
def onAttr : List Operator := [attrKey, attrValueKind, attrValueString, attrValueInt, attrValueBool]

/-- No operator tells the nodes apart, nor the children at any index. -/
inductive Indistinguishable : Node → Node → Prop
  | intro {m n : Node}
    (whole : ∀ op ∈ onNode, op.apply [.node m] = op.apply [.node n])
    (attributes : ∀ op ∈ onAttr, ∀ i, op.apply [.node m, .int i] = op.apply [.node n, .int i])
    (children : ∀ i c d, childAt.apply [.node m, .int i] = .node c →
      childAt.apply [.node n, .int i] = .node d → Indistinguishable c d) :
    Indistinguishable m n

variable {m n : Node}

/-- An answer that is given tells what it was made of, and that it was given. -/
theorem eq_of_answer_eq {α : Type} {f : α → Value} (hinjective : Function.Injective f)
    (hknown : ∀ a, f a ≠ .unknown) {a b : Option α}
    (h : (a.map f).getD .unknown = (b.map f).getD .unknown) : a = b := by
  cases a with
  | none =>
    cases b with
    | none => rfl
    | some b => exact absurd h.symm (hknown b)
  | some a =>
    cases b with
    | none => exact absurd h (hknown a)
    | some b => exact congrArg some (hinjective h)

theorem str_injective : Function.Injective Value.str := fun _ _ h => by cases h; rfl

theorem int_injective : Function.Injective Value.int := fun _ _ h => by cases h; rfl

theorem bool_injective : Function.Injective Value.bool := fun _ _ h => by cases h; rfl

theorem node_injective : Function.Injective Value.node := fun _ _ h => by cases h; rfl

/-- A value is determined by its kind and what can be got out of it. -/
theorem attrValue_ext {v w : AttrValue} (hkind : v.kindName = w.kindName)
    (htext : v.text? = w.text?) (hint : v.int? = w.int?) (hbool : v.bool? = w.bool?) : v = w := by
  cases v <;> cases w <;>
    simp_all [AttrValue.kindName, AttrValue.text?, AttrValue.int?, AttrValue.bool?]

/-- The operators on attributes together tell the attribute at an index. -/
theorem attrAt?_eq {i : Int32}
    (h : ∀ op ∈ onAttr, op.apply [.node m, .int i] = op.apply [.node n, .int i]) :
    m.attrAt? i = n.attrAt? i := by
  have hkey := h attrKey (by decide)
  have hkind := h attrValueKind (by decide)
  have htext := h attrValueString (by decide)
  have hint := h attrValueInt (by decide)
  have hbool := h attrValueBool (by decide)
  simp only [apply, ofAttr] at hkey hkind htext hint hbool
  cases hm : m.attrAt? i with
  | none =>
    rw [hm] at hkey
    cases hn : n.attrAt? i with
    | none => rfl
    | some e =>
      rw [hn] at hkey
      cases hkey
  | some e =>
    rw [hm] at hkey hkind htext hint hbool
    cases hn : n.attrAt? i with
    | none =>
      rw [hn] at hkey
      cases hkey
    | some e' =>
      rw [hn] at hkey hkind htext hint hbool
      have hvalue : e.2 = e'.2 := attrValue_ext (str_injective hkind)
        (eq_of_answer_eq str_injective nofun htext) (eq_of_answer_eq int_injective nofun hint)
        (eq_of_answer_eq bool_injective nofun hbool)
      exact congrArg some (Prod.ext (str_injective hkey) hvalue)

/-- Nodes that no operator tells apart are the same but for the spans. -/
theorem Indistinguishable.unspanned_eq (h : Indistinguishable m n) (hm : m.Countable)
    (hn : n.Countable) : m.unspanned = n.unspanned := by
  induction h with
  | @intro m n whole attributes children ih =>
    obtain ⟨hattrsm, hchildrenm⟩ := hm m (Node.mem_walk_self m)
    obtain ⟨hattrsn, hchildrenn⟩ := hn n (Node.mem_walk_self n)
    have hattrs : m.attrs.entries = n.attrs.entries :=
      Node.eq_of_at?_eq hattrsm hattrsn fun i => attrAt?_eq fun op hop => attributes op hop i
    have hlength : m.children.length = n.children.length :=
      eq_of_saturateCount_eq hchildrenm hchildrenn (int_injective (whole childCount (by decide)))
    refine Node.unspanned_eq_iff.mpr ⟨str_injective (whole nodeKind (by decide)),
      str_injective (whole nodeId (by decide)), Dict.ext hattrs, ?_⟩
    -- at one place in both lists of children stand nodes that no operator tells apart
    refine List.ext_getElem (by simpa using hlength) fun i hi hi' => ?_
    rw [List.length_map] at hi hi'
    rw [List.getElem_map, List.getElem_map]
    have hc := Node.at?_saturateCount m.children (i := i) (by omega)
    have hd := Node.at?_saturateCount n.children (i := i) (by omega)
    rw [List.getElem?_eq_getElem hi] at hc
    rw [List.getElem?_eq_getElem hi'] at hd
    refine ih (saturateCount i) m.children[i] n.children[i] ?_ ?_
      (hm.child (List.getElem_mem hi)) (hn.child (List.getElem_mem hi'))
    · show ((m.childAt? _).map Value.node).getD .unknown = _
      rw [Node.childAt?, hc]
      rfl
    · show ((n.childAt? _).map Value.node).getD .unknown = _
      rw [Node.childAt?, hd]
      rfl

/-- The child at an index is answered as long as there is one. -/
theorem childAt_eq_node_iff {i : Int32} {c : Node} :
    childAt.apply [.node m, .int i] = .node c ↔ m.childAt? i = some c := by
  show ((m.childAt? i).map Value.node).getD .unknown = .node c ↔ _
  cases m.childAt? i with
  | none => exact ⟨nofun, nofun⟩
  | some d => exact ⟨fun h => congrArg some (node_injective h), fun h => by cases h; rfl⟩

/-- Operators do not see spans. -/
theorem indistinguishable_of_unspanned_eq (h : m.unspanned = n.unspanned) :
    Indistinguishable m n := by
  induction m using Node.induction_on generalizing n with
  | node m ih =>
    obtain ⟨hkind, hid, hattrs, hchildren⟩ := Node.unspanned_eq_iff.mp h
    have hlength : m.children.length = n.children.length := by
      simpa using congrArg List.length hchildren
    refine .intro (fun op hop => ?_) (fun op hop i => ?_) fun i c d hc hd => ?_
    · simp only [onNode, List.mem_cons, List.not_mem_nil, or_false] at hop
      rcases hop with rfl | rfl | rfl | rfl
      · exact congrArg Value.str hkind
      · exact congrArg Value.str hid
      · exact congrArg (fun attrs : Attrs => Value.int (saturateCount attrs.size)) hattrs
      · exact congrArg (fun count => Value.int (saturateCount count)) hlength
    · have hattr : m.attrAt? i = n.attrAt? i := by rw [Node.attrAt?, Node.attrAt?, hattrs]
      simp only [onAttr, List.mem_cons, List.not_mem_nil, or_false] at hop
      rcases hop with rfl | rfl | rfl | rfl | rfl <;> simp only [apply, ofAttr, hattr]
    · rw [childAt_eq_node_iff] at hc hd
      have hcd : (m.childAt? i).map Node.unspanned = (n.childAt? i).map Node.unspanned := by
        rw [Node.childAt?, Node.childAt?, ← Node.at?_map, ← Node.at?_map, hchildren]
      rw [hc, hd] at hcd
      exact ih c (Node.mem_of_at? hc) (Option.some_injective _ hcd)

/-! ## 3. Texts put together from answers -/

/-- What is made of the indices from zero on, as many as the answer counts. -/
def atEach (count : Value) (f : Int32 → String) : List String :=
  match count with
  | .int k => (List.range k.toInt.toNat).map fun i => f (saturateCount i)
  | _ => []

/-- The text of the attribute at an index, from what the operators answer. -/
def attrText (n : Node) (i : Int32) : String :=
  let told (op : Operator) : Value := op.apply [.node n, .int i]
  let text := (told attrValueString).display
  let value :=
    match (told attrValueKind).display with
    | "string" => quote text
    | "int" => (told attrValueInt).display
    | "bool" => (told attrValueBool).display
    | _ => if isBareIdentifier text then text else quote text
  (told attrKey).display ++ "=" ++ value

/-- The text of the child at an index, from what the operator answers. -/
def childText (n : Node) (i : Int32) : String := (childAt.apply [.node n, .int i]).display

/-- The text of a node, from what the operators answer at one index after the other. -/
def toldText (n : Node) : String :=
  (nodeKind.apply [.node n]).display ++ "#" ++ (nodeId.apply [.node n]).display ++
    listed "(" ")" (atEach (attrCount.apply [.node n]) (attrText n)) ++
    listed " \x7b " " \x7d" (atEach (childCount.apply [.node n]) (childText n))

theorem atEach_saturateCount {α : Type} {l : List α} (hl : l.length < 2147483648)
    {f : Int32 → String} {g : α → String} (h : ∀ i a, Node.at? l i = some a → f i = g a) :
    atEach (.int (saturateCount l.length)) f = l.map g := by
  unfold atEach
  dsimp only
  rw [(toNat_saturateCount hl).2]
  refine List.ext_getElem (by simp) fun i hi hi' => ?_
  rw [List.length_map] at hi'
  rw [List.getElem_map, List.getElem_map, List.getElem_range]
  refine h _ _ ?_
  rw [Node.at?_saturateCount _ (by omega), List.getElem?_eq_getElem hi']

theorem attrText_eq {i : Int32} {e : String × AttrValue} (h : n.attrAt? i = some e) :
    attrText n i = Node.formatAttr e := by
  obtain ⟨key, value⟩ := e
  unfold attrText Node.formatAttr
  simp only [apply, ofAttr, h, Option.bind_some]
  cases value with
  | string s => rfl
  | int k =>
    rw [AttrValue.format_int]
    rfl
  | bool b =>
    rw [AttrValue.format_bool]
    rfl
  | identifier s =>
    rw [AttrValue.format_identifier]
    rfl

theorem childText_eq {i : Int32} {c : Node} (h : n.childAt? i = some c) :
    childText n i = c.format := by
  rw [childText, childAt_eq_node_iff.mpr h]
  rfl

/-- The order of the indices is the order of the text. -/
theorem format_eq_toldText (h : n.Countable) : n.format = toldText n := by
  obtain ⟨hattrs, hchildren⟩ := h n (Node.mem_walk_self n)
  have hentries : atEach (attrCount.apply [.node n]) (attrText n) =
      n.attrs.entries.map Node.formatAttr :=
    atEach_saturateCount hattrs fun _ _ he => attrText_eq he
  have hbelow : atEach (childCount.apply [.node n]) (childText n) = n.children.map Node.format :=
    atEach_saturateCount hchildren fun _ _ hc => childText_eq hc
  rw [Node.format_eq, toldText, hentries, hbelow]
  rfl

/-! ## 4. Completeness -/

/-- The capability that prints a node looks at nothing but what operators see, and so does the record
of its call. -/
theorem callCapability_format {σ : Type} [Host σ] (h : m.unspanned = n.unspanned)
    (self : Node → Eval σ Value) (steps nesting : Nat) :
    Eval.callCapability self steps nesting "compiler.format" [.node m] =
      Eval.callCapability self steps nesting "compiler.format" [.node n] := by
  obtain ⟨hkind, hid, -, -⟩ := Node.unspanned_eq_iff.mp h
  have hrecord (s : Session σ) (result : Value) (phase : CallPhase) :
      s.recordCall "compiler.format" [.node m] result phase =
        s.recordCall "compiler.format" [.node n] result phase := by
    unfold Session.recordCall
    rw [List.map_singleton, List.map_singleton, Value.render, Value.render, hkind, hid]
  have hchecked {serve : String → List Value → Eval σ Value}
      (hserve : serve "compiler.format" [.node m] = serve "compiler.format" [.node n]) :
      Eval.callChecked serve "compiler.format" [.node m] =
        Eval.callChecked serve "compiler.format" [.node n] := by
    have hmeta : ∀ c, Contract.lookup? "compiler.format" = some c → c.isMeta = true := by
      decide
    unfold Eval.callChecked
    cases hlookup : Contract.lookup? "compiler.format" with
    | none => rfl
    | some c =>
      simp only [hmeta c hlookup, if_true, hserve, hrecord]
      rfl
  cases nesting with
  | zero => exact hchecked rfl
  | succ nesting =>
    refine hchecked ?_
    show (pure (.str m.format) : Eval σ Value) = pure (.str n.format)
    rw [Node.format_eq_of_unspanned h]

/-- With the permission for it, the capability gives the text of the node. -/
theorem callCapability_format_value {σ : Type} [Host σ] (self : Node → Eval σ Value)
    (steps nesting : Nat) {t : Activation σ} (ht : t.session.hasPermission "compiler" = true) :
    (Eval.callCapability self steps (nesting + 1) "compiler.format" [.node n] t).1 =
      .value (.str n.format) := by
  have hlookup : Contract.lookup? "compiler.format" =
      some ⟨"compiler.format", "compiler", "VAL072", [⟨.node, "VAL073"⟩], .string⟩ := by decide
  unfold Eval.callCapability Eval.callChecked
  rw [hlookup]
  show ((if (!t.session.hasPermission "compiler") = true then _ else _ : Eval σ Value) t).1 = _
  rw [ht]
  rfl

/-- When no operator tells two nodes apart, nor the children at any index, the nodes are the same but
for the spans, and so is their text, in whichever session it is asked for. In the text of a node stand
the attributes and the children in the order of their indices. -/
theorem introspection_complete (hm : m.Countable) (hn : n.Countable) (h : Indistinguishable m n) :
    m.unspanned = n.unspanned ∧ m.format = n.format ∧
      (∀ {σ : Type} [Host σ] (self : Node → Eval σ Value) (steps nesting : Nat) (t : Activation σ),
        Eval.callCapability self steps nesting "compiler.format" [.node m] t =
          Eval.callCapability self steps nesting "compiler.format" [.node n] t ∧
        (t.session.hasPermission "compiler" = true → ∀ k ∈ [m, n],
          (Eval.callCapability self steps (nesting + 1) "compiler.format" [.node k] t).1 =
            .value (.str k.format))) ∧
      ∀ k ∈ [m, n], k.format = toldText k := by
  have hsame := h.unspanned_eq hm hn
  refine ⟨hsame, Node.format_eq_of_unspanned hsame, fun self steps nesting t => ⟨?_, ?_⟩, ?_⟩
  · rw [callCapability_format hsame]
  · exact fun ht k _ => callCapability_format_value self steps nesting ht
  · simp only [List.forall_mem_cons, List.not_mem_nil, false_implies, implies_true, and_true]
    exact ⟨format_eq_toldText hm, format_eq_toldText hn⟩

/-- Two nodes that were read from different places. -/
theorem introspection_complete_moved :
    let call (at_ : Span) : Node :=
      { kind := "Call", id := "c", span := at_
        attrs := attrs [("target", .identifier "io.print"), ("as", .string "io.print")]
        children := [{ kind := "Lit", id := "a", attrs := attrs [("value", .int 1)], span := at_ }] }
    let here := call .nowhere
    let there := call ⟨⟨0, 1, 1⟩, ⟨9, 1, 10⟩⟩
    here ≠ there ∧ (here.Countable ∧ there.Countable ∧ Indistinguishable here there) ∧
      here.unspanned = there.unspanned ∧ here.format = there.format := by
  intro call here there
  have hhere : here.Countable := by unfold Node.Countable; decide
  have hthere : there.Countable := by unfold Node.Countable; decide
  have hsame : here.unspanned = there.unspanned := by decide
  have halike : Indistinguishable here there := indistinguishable_of_unspanned_eq hsame
  have hcomplete := introspection_complete hhere hthere halike
  exact ⟨by decide, ⟨hhere, hthere, halike⟩, hcomplete.1, hcomplete.2.1⟩

end Operator

end Arbor
