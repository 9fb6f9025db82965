import Arbor.Proofs.Bytecode.Format
import Arbor.Proofs.Node.Worded
import Arbor.Proofs.Text.Names

/-!
# Bytecode that is printed and read back

The container node of a program without constants but strings can be printed and parsed
(`writable_toNode`). What comes back loads as the same program, with the lists of names joined and split
again, when the names of the functions are printed without quotes (`load_readBack`). Otherwise it does
not load: a name between quotes is read back as a string, and a function's name has to be an identifier.
-/

namespace Arbor

open Text

/-! ## 1. Programs that can be printed -/

/-- A program whose container can be printed and read back. -/
structure BytecodeProgram.Printable (p : BytecodeProgram) : Prop where
  constants : ∀ v ∈ p.constants, ∃ text, v = .str text
  names : ∀ f ∈ p.functions.toList, (AttrValue.identifier f.name).NotTruthLed
  code : ∀ f ∈ p.functions.toList, ∀ i ∈ f.code.toList, i.opcode?.isSome

/-- The function with its lists of names joined and split again. -/
def BytecodeFunction.relisted (f : BytecodeFunction) : BytecodeFunction :=
  { f with
    params := splitNames (joinNames f.params)
    locals := splitNames (joinNames f.locals) }

def BytecodeProgram.relisted (p : BytecodeProgram) : BytecodeProgram :=
  { p with functions := p.functions.map BytecodeFunction.relisted }

/-- Mnemonics are printed without quotes, and none begins with a truth value. -/
theorem bare_mnemonic {i : Instruction} (h : i.opcode?.isSome) :
    isBareIdentifier i.op = true ∧ (AttrValue.identifier i.op).NotTruthLed := by
  have hall : ∀ op ∈ Opcode.all, isBareIdentifier op.mnemonic = true ∧
      (segments isJoint op.mnemonic.toList).head? ≠ some "true".toList ∧
        (segments isJoint op.mnemonic.toList).head? ≠ some "false".toList := by decide +kernel
  obtain ⟨op, hop⟩ := Option.isSome_iff_exists.mp h
  unfold Instruction.opcode? Opcode.ofMnemonic? at hop
  obtain ⟨hbare, htruth⟩ := hall op (List.mem_of_find?_eq_some hop)
  have hname : op.mnemonic = i.op := by simpa using List.find?_some hop
  rw [hname] at hbare htruth
  refine ⟨hbare, fun text htext _ => ?_⟩
  obtain rfl : i.op = text := AttrValue.identifier.inj htext
  exact htruth

/-! ## 2. The container is writable -/

/-- The words that the container is written with. -/
def containerWords : List String :=
  ["Bytecode", "Const", "Func", "Inst", "magic", "format", "version", "flags", "kind", "value", "name",
    "params", "locals", "op", "a", "b", "s"]

theorem areNames_containerWords : AreNames containerWords := by
  unfold AreNames
  decide +kernel

namespace BytecodeProgram

theorem writable_constantNode {id text : String} (hid : IsWord id.toList) (levels : Nat) :
    (constantNode id (.str text)).WritableWithin (levels + 1) := by
  have hkind : (AttrValue.identifier "string").NotTruthLed := by
    rintro _ ⟨⟩ -
    decide +kernel
  refine ⟨?_, fun c hc => by cases hc⟩
  apply writableHere_of_names areNames_containerWords (n := constantNode id (.str text))
  · show "Const" ∈ containerWords
    decide
  · exact hid
  · rfl
  · simp [containerWords]
  · simp [hkind, notTruthLed_string]

theorem writable_instructionNode {id : String} {i : Instruction} (hid : IsWord id.toList)
    (hop : i.opcode?.isSome) (levels : Nat) :
    (instructionNode id i).WritableWithin (levels + 1) := by
  refine ⟨?_, fun c hc => by cases hc⟩
  apply writableHere_of_names areNames_containerWords (n := instructionNode id i)
  · show "Inst" ∈ containerWords
    decide
  · exact hid
  · rfl
  · simp [containerWords]
  · simp [(bare_mnemonic hop).2, notTruthLed_int, notTruthLed_string]

theorem writable_functionNode {id : String} {f : BytecodeFunction} (hid : IsWord id.toList)
    (hname : (AttrValue.identifier f.name).NotTruthLed)
    (hcode : ∀ i ∈ f.code.toList, i.opcode?.isSome) (levels : Nat) :
    (functionNode id f).WritableWithin (levels + 2) := by
  have hdash : IsWord (id ++ "_").toList := by
    rw [String.toList_append]
    refine hid.append fun c hc => ?_
    obtain rfl : c = '_' := List.mem_singleton.mp hc
    decide
  refine ⟨?_, fun c hc => ?_⟩
  · apply writableHere_of_names areNames_containerWords (n := functionNode id f)
    · show "Func" ∈ containerWords
      decide
    · exact hid
    · rfl
    · simp [containerWords]
    · simp [hname, notTruthLed_string]
  · obtain ⟨i, hi, rfl⟩ := List.mem_mapIdx.mp hc
    exact writable_instructionNode (isWord_append_natText hdash i) (hcode _ (List.getElem_mem hi)) _

/-- The container of a printable program can be printed and read back. -/
theorem writable_toNode {p : BytecodeProgram} (h : p.Printable) : p.toNode.Writable := by
  refine ⟨?_, fun c hc => ?_⟩
  · apply writableHere_of_names areNames_containerWords (n := p.toNode)
    · show "Bytecode" ∈ containerWords
      decide
    · show IsWord "bc".toList
      decide +kernel
    · rfl
    · simp [containerWords]
    · simp [notTruthLed_string, notTruthLed_int]
  · rcases List.mem_append.mp hc with hc | hc
    · obtain ⟨i, hi, rfl⟩ := List.mem_mapIdx.mp hc
      obtain ⟨text, htext⟩ := h.constants _ (List.getElem_mem hi)
      rw [htext]
      exact writable_constantNode (isWord_append_natText (by decide +kernel) i) _
    · obtain ⟨i, hi, rfl⟩ := List.mem_mapIdx.mp hc
      have hmem : p.functions.toList[i] ∈ p.functions.toList := List.getElem_mem hi
      exact writable_functionNode (isWord_append_natText (by decide +kernel) i) (h.names _ hmem)
        (h.code _ hmem) _

/-! ## 3. What is read back is loaded -/

/-- Such an attribute when the node is read back. -/
theorem attr?_readBack {n : Node} {pairs : List (String × AttrValue)} (hattrs : n.attrs = attrs pairs)
    (hkeys : (pairs.map Prod.fst).Nodup) (key : String) :
    n.readBack.attr? key = (Dict.lookupIn? key pairs).map AttrValue.readBack := by
  rw [← attr?_attrs hattrs hkeys]
  exact Node.attr?_recast _ n key

theorem constantOf_readBack (id text : String) :
    ConstantOf (constantNode id (.str text)).readBack (.str text) := by
  have hattr := attr?_readBack (n := constantNode id (.str text)) rfl (by simp)
  have hkind : (AttrValue.identifier "string").readBack = .identifier "string" := by decide +kernel
  refine .str ?_ (hattr "value")
  unfold Node.ident?
  rw [hattr]
  simp only [Dict.lookupIn?, ↓reduceIte, Option.map_some, Option.bind_some, hkind]
  rfl

theorem instructionOf_readBack (id : String) {i : Instruction} (hop : i.opcode?.isSome) :
    InstructionOf (instructionNode id i).readBack i := by
  have hattr := attr?_readBack (n := instructionNode id i) rfl (by simp)
  have hbare := (bare_mnemonic hop).1
  refine ⟨Node.kind_recast _ _, ?_, .shown (hattr "a") rfl, .shown (hattr "b") rfl,
    .shown (hattr "s") rfl⟩
  unfold Node.ident?
  rw [hattr]
  simp [Dict.lookupIn?, hbare, AttrValue.identifier?, AttrValue.readBack]

theorem name_functionNode (id : String) (f : BytecodeFunction) :
    (functionNode id f).readBack.ident? "name" =
      if isBareIdentifier f.name then some f.name else none := by
  unfold Node.ident?
  rw [attr?_readBack (n := functionNode id f) rfl (by simp)]
  simp only [Dict.lookupIn?, ↓reduceIte, Option.map_some, Option.bind_some, AttrValue.readBack]
  split <;> rfl

theorem forall₂_mapIdx {α β : Type} {r : β → α → Prop} {make : Nat → α → β} {l : List α}
    (h : ∀ i, ∀ a ∈ l, r (make i a) a) : List.Forall₂ r (l.mapIdx make) l := by
  induction l generalizing make with
  | nil => exact .nil
  | cons a l ih =>
    rw [List.mapIdx_cons]
    exact .cons (h 0 a List.mem_cons_self) (ih fun i b hb => h (i + 1) b (List.mem_cons_of_mem a hb))

theorem functionOf_readBack (id : String) {f : BytecodeFunction}
    (hname : isBareIdentifier f.name = true) (hcode : ∀ i ∈ f.code.toList, i.opcode?.isSome) :
    FunctionOf (functionNode id f).readBack f.relisted := by
  have hattr := attr?_readBack (n := functionNode id f) rfl (by simp)
  refine ⟨?_, .shown (hattr "params") rfl, .shown (hattr "locals") rfl, ?_⟩
  · rw [name_functionNode, if_pos hname]
    rfl
  · unfold Node.readBack
    rw [Node.children_recast, List.forall₂_map_left_iff]
    exact forall₂_mapIdx fun i inst hinst => instructionOf_readBack _ (hcode inst hinst)

/-- A name that had to be quoted is none. -/
theorem loadFunction_quoted (id : String) {f : BytecodeFunction}
    (hname : isBareIdentifier f.name = false) :
    loadFunction (functionNode id f).readBack =
      .error (.load "Func missing name." (functionNode id f).readBack.id) := by
  unfold loadFunction
  rw [name_functionNode, if_neg (by simp [hname])]
  rfl

/-- The first function without a name keeps the sections from being loaded. -/
theorem foldlM_quoted {l : List BytecodeFunction}
    (hcode : ∀ f ∈ l, ∀ i ∈ f.code.toList, i.opcode?.isSome)
    (hquoted : ∃ f ∈ l, isBareIdentifier f.name = false) (idOf : Nat → String) (p : BytecodeProgram) :
    ∃ id, (l.mapIdx fun i f => (functionNode (idOf i) f).readBack).foldlM loadSection p =
      .error (.load "Func missing name." id) := by
  induction l generalizing idOf p with
  | nil =>
    obtain ⟨f, hf, -⟩ := hquoted
    cases hf
  | cons f l ih =>
    have hkind : (functionNode (idOf 0) f).readBack.kind = "Func" := Node.kind_recast _ _
    rw [List.mapIdx_cons, List.foldlM_cons]
    -- what stands in front of the first such function is loaded
    by_cases hname : isBareIdentifier f.name = true
    · have hsection : loadSection p (functionNode (idOf 0) f).readBack =
          .ok { p with functions := p.functions.push f.relisted } := by
        unfold loadSection
        rw [hkind, (functionOf_readBack _ hname (hcode f List.mem_cons_self)).load]
        rfl
      have hmore : ∃ g ∈ l, isBareIdentifier g.name = false := by
        obtain ⟨g, hg, hquoted⟩ := hquoted
        rcases List.mem_cons.mp hg with rfl | hg
        · rw [hname] at hquoted
          cases hquoted
        · exact ⟨g, hg, hquoted⟩
      rw [hsection]
      exact ih (fun g hg => hcode g (List.mem_cons_of_mem f hg)) hmore (fun i => idOf (i + 1)) _
    · rw [Bool.not_eq_true] at hname
      have hsection : loadSection p (functionNode (idOf 0) f).readBack =
          .error (.load "Func missing name." (functionNode (idOf 0) f).readBack.id) := by
        unfold loadSection
        rw [hkind, loadFunction_quoted _ hname]
        rfl
      rw [hsection]
      exact ⟨_, rfl⟩

theorem hasHeader_readBack (p : BytecodeProgram) : HasHeader p.toNode.readBack := by
  have hattr := attr?_readBack (n := p.toNode) rfl (by simp)
  refine ⟨Node.kind_recast _ _, hattr "magic", hattr "format", hattr "version", ?_⟩
  unfold Node.int?
  rw [hattr]
  rfl

theorem children_readBack (p : BytecodeProgram) : p.toNode.readBack.children =
    (p.constants.mapIdx fun i v => (constantNode ("c" ++ natText i) v).readBack) ++
      p.functions.toList.mapIdx fun i f => (functionNode ("f" ++ natText i) f).readBack := by
  unfold Node.readBack
  rw [Node.children_recast]
  show List.map _ (_ ++ _) = _
  rw [List.map_append]
  simp [List.mapIdx_eq_zipIdx_map, Function.comp_def]

theorem sections_constants {p : BytecodeProgram} (h : p.Printable) :
    Sections (p.constants.mapIdx fun i v => (constantNode ("c" ++ natText i) v).readBack) p.constants
      [] := by
  apply sections_of_constants
  apply forall₂_mapIdx
  intro i v hv
  obtain ⟨text, rfl⟩ := h.constants v hv
  exact ⟨Node.kind_recast _ _, constantOf_readBack _ text⟩

theorem load_readBack {p : BytecodeProgram} (h : p.Printable)
    (hnames : ∀ f ∈ p.functions.toList, isBareIdentifier f.name = true) :
    load p.toNode.readBack = .ok p.relisted := by
  have hfunctions : Sections
      (p.functions.toList.mapIdx fun i f => (functionNode ("f" ++ natText i) f).readBack) []
      (p.functions.toList.map BytecodeFunction.relisted) := by
    apply sections_of_functions
    apply List.forall₂_map_right_iff.mpr
    apply forall₂_mapIdx
    intro i f hf
    exact ⟨Node.kind_recast _ _, functionOf_readBack _ (hnames f hf) (h.code f hf)⟩
  have hsections := (sections_constants h).append hfunctions
  rw [← children_readBack, List.append_nil, List.nil_append] at hsections
  refine load_eq_ok_iff.mpr ⟨hasHeader_readBack p, ?_⟩
  unfold relisted
  rw [Array.toList_map]
  exact hsections

theorem load_quoted {p : BytecodeProgram} (h : p.Printable)
    (hquoted : ∃ f ∈ p.functions.toList, isBareIdentifier f.name = false) :
    ∃ id, load p.toNode.readBack = .error (.load "Func missing name." id) := by
  rw [load_of_header (hasHeader_readBack p), children_readBack, List.foldlM_append,
    (sections_constants h).load]
  exact foldlM_quoted h.code hquoted _ _

end BytecodeProgram

/-- A program, printed, parsed and loaded again, is the same one with its lists of names joined and split
again, when no name of a function has to be quoted. Else it does not load. -/
theorem load_parse_format {p : BytecodeProgram} (h : p.Printable) :
    ∃ root, parse p.toNode.format = ⟨some root, []⟩ ∧
      ((∀ f ∈ p.functions.toList, isBareIdentifier f.name = true) →
        BytecodeProgram.load root = .ok p.relisted) ∧
      ((∃ f ∈ p.functions.toList, isBareIdentifier f.name = false) →
        ∃ id, BytecodeProgram.load root = .error (.load "Func missing name." id)) := by
  obtain ⟨root, hparse, hroot⟩ := parse_format_of_writable (BytecodeProgram.writable_toNode h)
  refine ⟨root, hparse, fun hnames => ?_, fun hquoted => ?_⟩
  · rw [← BytecodeProgram.load_unspanned root, hroot]
    exact BytecodeProgram.load_readBack h hnames
  · rw [← BytecodeProgram.load_unspanned root, hroot]
    exact BytecodeProgram.load_quoted h hquoted

end Arbor
