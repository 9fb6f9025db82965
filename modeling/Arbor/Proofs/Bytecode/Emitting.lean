import Arbor.Proofs.Bytecode.Container

/-!
# Programs that are emitted and loaded again

A loaded program that is emitted as a container is loaded as the same program, but for its constants
that are nodes: these are printed and parsed, so that they lose their spans, and identifiers that have to
be quoted come back as strings. None of this shows when they are printed, and the program is emitted as
before (`load_toNode`).
-/

namespace Arbor

open Text

/-! ## 1. Values that are printed and parsed -/

/-- The second value is what comes back of the first one: a node is printed and parsed. -/
inductive Value.Restored : Value → Value → Prop where
  | same (v : Value) : Restored v v
  | node {m root : Node} (h : root.unspanned = m.readBack) : Restored (.node m) (.node root)

/-- The result that holds a node. -/
def Node.asResult (n : Node) : Node :=
  ⟨"Ok", "ok0", Arbor.attrs [("type", .identifier "node")], [n], .nowhere⟩

theorem Value.formatResult_node (n : Node) :
    (Value.node n).formatResult = if n.isErr then n.format else n.asResult.format := by
  unfold formatResult resultNode
  dsimp only
  split <;> rfl

theorem Node.isErr_eq_of_unspanned_eq {root m : Node} (h : root.unspanned = m.readBack) :
    root.isErr = m.isErr := by
  have hroot : root.unspanned.kind = root.kind := kind_recast _ root
  have hm : m.readBack.kind = m.kind := kind_recast _ m
  unfold isErr
  rw [← hroot, ← hm, h]

theorem Node.unspanned_asResult {root m : Node} (h : root.unspanned = m.readBack) :
    root.asResult.unspanned = m.asResult.readBack := by
  have hattrs : m.asResult.attrs.mapEntries (fun _ => AttrValue.readBack) = root.asResult.attrs := by
    show (Arbor.attrs [("type", .identifier "node")]).mapEntries (fun _ => AttrValue.readBack) =
      Arbor.attrs [("type", .identifier "node")]
    decide +kernel
  unfold unspanned readBack
  rw [recast_eq, recast_eq, hattrs, Dict.mapEntries_id]
  show Node.mk "Ok" "ok0" _ [root.unspanned] .nowhere = Node.mk "Ok" "ok0" _ [m.readBack] .nowhere
  rw [h]

namespace Value.Restored

variable {v w : Value} (h : Restored v w)
include h

theorem kind_eq : w.kind = v.kind := by
  cases h <;> rfl

theorem display_eq : w.display = v.display := by
  cases h with
  | same => rfl
  | node h => exact Node.format_eq_of_unspanned_eq h

theorem formatResult_eq : w.formatResult = v.formatResult := by
  cases h with
  | same => rfl
  | node h =>
    rw [formatResult_node, formatResult_node, Node.isErr_eq_of_unspanned_eq h,
      Node.format_eq_of_unspanned_eq h,
      Node.format_eq_of_unspanned_eq (Node.unspanned_asResult h)]

theorem constantNode_eq (id : String) :
    BytecodeProgram.constantNode id w = BytecodeProgram.constantNode id v := by
  cases h with
  | same => rfl
  | node h =>
    unfold BytecodeProgram.constantNode
    dsimp only
    rw [Node.format_eq_of_unspanned_eq h]

end Value.Restored

namespace BytecodeProgram

/-! ## 2. What is emitted is stored -/

theorem ident?_of_attr? {n : Node} {key text : String}
    (h : n.attr? key = some (.identifier text)) : n.ident? key = some text := by
  unfold Node.ident?
  rw [h]
  rfl

/-- A constant that was loaded is stored again, as what comes back of it. -/
theorem ConstantOf.exists_restored {n : Node} {v : Value} (h : ConstantOf n v) (id : String) :
    ∃ w, ConstantOf (constantNode id v) w ∧ v.Restored w := by
  cases h with
  | @str text =>
    have hattr := attr?_attrs (n := constantNode id (.str text)) rfl (by simp)
    exact ⟨_, .str (ident?_of_attr? (hattr "kind")) (hattr "value"), .same _⟩
  | @int i =>
    have hattr := attr?_attrs (n := constantNode id (.int i)) rfl (by simp)
    exact ⟨_, .int (ident?_of_attr? (hattr "kind")) (hattr "value"), .same _⟩
  | @bool b =>
    have hattr := attr?_attrs (n := constantNode id (.bool b)) rfl (by simp)
    exact ⟨_, .bool (ident?_of_attr? (hattr "kind")) (hattr "value"), .same _⟩
  | @node text m _ _ hparse =>
    -- what was parsed can be printed and parsed again
    obtain ⟨root, hback, hroot⟩ := parse_format_of_writable (writable_of_parse hparse)
    have hattr := attr?_attrs (n := constantNode id (.node m)) rfl (by simp)
    exact ⟨.node root, .node (ident?_of_attr? (hattr "kind")) (hattr "value") hback, .node hroot⟩
  | void => exact ⟨_, .void rfl, .same _⟩

theorem OperandOf.isListed {n : Node} {key : String} {names : List String}
    (h : OperandOf names? [] n key names) : ∀ name ∈ names, IsListed name := by
  intro name hname
  cases h with
  | shown hattr hread =>
    obtain ⟨text, -, rfl⟩ := Option.map_eq_some_iff.mp hread
    exact isListed_of_mem_splitNames hname
  | otherKind => cases hname
  | absent => cases hname

theorem names?_joinNames {names : List String} (h : ∀ name ∈ names, IsListed name) :
    names? (.string (joinNames names)) = some names :=
  congrArg some (splitNames_joinNames_of_listed h)

theorem instructionOf_instructionNode (id : String) (i : Instruction) :
    InstructionOf (instructionNode id i) i := by
  have hattr := attr?_attrs (n := instructionNode id i) rfl (by simp)
  exact ⟨rfl, ident?_of_attr? (hattr "op"), .shown (hattr "a") rfl, .shown (hattr "b") rfl,
    .shown (hattr "s") rfl⟩

/-- A function that was loaded is stored again: its names come back from the lists. -/
theorem FunctionOf.functionNode {n : Node} {f : BytecodeFunction} (h : FunctionOf n f)
    (id : String) : FunctionOf (functionNode id f) f := by
  have hattr := attr?_attrs (n := BytecodeProgram.functionNode id f) rfl (by simp)
  constructor
  · exact ident?_of_attr? (hattr "name")
  · exact .shown (hattr "params") (names?_joinNames h.params.isListed)
  · exact .shown (hattr "locals") (names?_joinNames h.locals.isListed)
  · exact forall₂_mapIdx fun _ i _ => instructionOf_instructionNode _ i

theorem Sections.exists_of_mem {cs : List Node} {vs : List Value} {fs : List BytecodeFunction}
    (h : Sections cs vs fs) :
    (∀ v ∈ vs, ∃ c, ConstantOf c v) ∧ ∀ f ∈ fs, ∃ c, FunctionOf c f := by
  induction h with
  | nil => exact ⟨nofun, nofun⟩
  | constant _ hv _ ih => exact ⟨List.forall_mem_cons.mpr ⟨⟨_, hv⟩, ih.1⟩, ih.2⟩
  | function _ hf _ ih => exact ⟨ih.1, List.forall_mem_cons.mpr ⟨⟨_, hf⟩, ih.2⟩⟩

/-- The constants are stored one by one. -/
theorem exists_restored {vs : List Value} (h : ∀ v ∈ vs, ∃ c, ConstantOf c v)
    (idOf : Nat → String) :
    ∃ ws, Sections (vs.mapIdx fun i v => constantNode (idOf i) v) ws [] ∧
      List.Forall₂ Value.Restored vs ws := by
  induction vs generalizing idOf with
  | nil => exact ⟨[], .nil, .nil⟩
  | cons v vs ih =>
    obtain ⟨c, hc⟩ := h v List.mem_cons_self
    obtain ⟨w, hw, hrestored⟩ := hc.exists_restored (idOf 0)
    obtain ⟨ws, hws, hall⟩ := ih (fun u hu => h u (List.mem_cons_of_mem v hu)) fun i => idOf (i + 1)
    have hkind : (constantNode (idOf 0) v).kind = "Const" := by
      cases v <;> rfl
    rw [List.mapIdx_cons]
    exact ⟨w :: ws, .constant hkind hw hws, .cons hrestored hall⟩

theorem mapIdx_constantNode {vs ws : List Value} (h : List.Forall₂ Value.Restored vs ws)
    (idOf : Nat → String) :
    (ws.mapIdx fun i v => constantNode (idOf i) v) = vs.mapIdx fun i v => constantNode (idOf i) v := by
  induction h generalizing idOf with
  | nil => rfl
  | cons hw _ ih =>
    rw [List.mapIdx_cons, List.mapIdx_cons, hw.constantNode_eq, ih fun i => idOf (i + 1)]

theorem hasHeader_toNode (p : BytecodeProgram) : HasHeader p.toNode := ⟨rfl, rfl, rfl, rfl, rfl⟩

/-- What is emitted of a loaded program is loaded again: the functions are the same, under the same
indices, the constants have the same kinds and the same printed forms, and the program is emitted as
before. -/
theorem load_toNode {n : Node} {p : BytecodeProgram} (h : load n = .ok p) :
    ∃ q, load p.toNode = .ok q ∧ q.functions = p.functions ∧
      (∀ name, q.functionIndex? name = p.functionIndex? name) ∧
      List.Forall₂ (fun v w => w.kind = v.kind ∧ w.formatResult = v.formatResult ∧
        w.display = v.display) p.constants q.constants ∧
      q.toNode = p.toNode := by
  obtain ⟨hconstants, hfunctions⟩ := (load_eq_ok_iff.mp h).sections.exists_of_mem
  -- the constants come back changed, the functions as they are
  obtain ⟨ws, hws, hrestored⟩ := exists_restored hconstants fun i => "c" ++ natText i
  have hcode : Sections
      (p.functions.toList.mapIdx fun i f => functionNode ("f" ++ natText i) f) []
      p.functions.toList := by
    apply sections_of_functions
    apply forall₂_mapIdx
    intro i f hf
    obtain ⟨c, hc⟩ := hfunctions f hf
    exact ⟨rfl, hc.functionNode _⟩
  have hsections := hws.append hcode
  rw [List.append_nil, List.nil_append] at hsections
  refine ⟨⟨ws, p.functions⟩, load_eq_ok_iff.mpr ⟨hasHeader_toNode p, hsections⟩, rfl,
    fun name => rfl, ?_, ?_⟩
  · exact hrestored.imp fun v w hw => ⟨hw.kind_eq, hw.formatResult_eq, hw.display_eq⟩
  · unfold toNode
    dsimp only
    rw [mapIdx_constantNode hrestored fun i => "c" ++ natText i]

/-- A container of a node with a value that has to be quoted, and of a function. -/
def storedNode : Node where
  kind := "Bytecode"
  id := "b"
  attrs := attrs
    [("magic", .string magic), ("format", .string formatName), ("version", .int version),
      ("flags", .int 7)]
  children :=
    [⟨"Const", "k", attrs [("kind", .identifier "node"), ("value", .string "X#x(k=\"-a\") //")], [],
        .nowhere⟩,
      mainNode (.string " x,, y ")]

theorem load_toNode_storedNode : ∃ p q, load storedNode = .ok p ∧ load p.toNode = .ok q ∧
    q.functions = p.functions ∧ q.constants.length = p.constants.length ∧ q.toNode = p.toNode := by
  obtain ⟨p, hp⟩ := (exists_load_iff storedNode).mpr (by decide +kernel)
  obtain ⟨q, hq, hfunctions, -, hconstants, htoNode⟩ := load_toNode hp
  exact ⟨p, q, hp, hq, hfunctions, hconstants.length_eq.symm, htoNode⟩

end BytecodeProgram

end Arbor
