import Arbor.Bytecode.Container
import Arbor.Proofs.Node.Recast
import Mathlib.Data.List.Forall2

/-!
# The container format

`ContainerOf` says which container nodes there are of a program, and `offenders` lists the nodes that
keep a node from being one, in the order in which the loader comes to them. The loader refuses a node
at its first offender, and it loads what has none (`judges_load`).

Operands are no offenders: one that is absent or of another kind has its default. So whatever operands a
container carries show in the loaded program exactly if all of them are of the format's kinds
(`load_strict`).
-/

namespace Arbor

open Text

/-- The text of a string. -/
def AttrValue.string? : AttrValue → Option String
  | string s => some s
  | _ => none

namespace BytecodeProgram

/-! ## 1. Nodes and what is stored in them -/

/-- The constant is stored in the node. A constant that is a node is stored as its text. -/
inductive ConstantOf (n : Node) : Value → Prop where
  | str {text : String} (hkind : n.ident? "kind" = some "string")
      (hvalue : n.attr? "value" = some (.string text)) : ConstantOf n (.str text)
  | int {i : Int32} (hkind : n.ident? "kind" = some "int")
      (hvalue : n.attr? "value" = some (.int i)) : ConstantOf n (.int i)
  | bool {b : Bool} (hkind : n.ident? "kind" = some "bool")
      (hvalue : n.attr? "value" = some (.bool b)) : ConstantOf n (.bool b)
  | node {text : String} {root : Node} (hkind : n.ident? "kind" = some "node")
      (hvalue : n.attr? "value" = some (.string text)) (hparse : parse text = ⟨some root, []⟩) :
      ConstantOf n (.node root)
  | void (hkind : n.ident? "kind" = some "null") : ConstantOf n .void

/-- What is read of an operand: the value of the attribute, or the default if the attribute is of
another kind or absent. -/
inductive OperandOf {α : Type} (read : AttrValue → Option α) (default : α) (n : Node) (key : String) :
    α → Prop where
  | shown {v : AttrValue} {a : α} (hattr : n.attr? key = some v) (hread : read v = some a) :
      OperandOf read default n key a
  | otherKind {v : AttrValue} (hattr : n.attr? key = some v) (hread : read v = none) :
      OperandOf read default n key default
  | absent (hattr : n.attr? key = none) : OperandOf read default n key default

/-- The names that a string lists. -/
def names? (v : AttrValue) : Option (List String) := v.string?.map splitNames

/-- The instruction is stored in the node. -/
structure InstructionOf (n : Node) (i : Instruction) : Prop where
  kind : n.kind = "Inst"
  op : n.ident? "op" = some i.op
  a : OperandOf AttrValue.int? 0 n "a" i.a
  b : OperandOf AttrValue.int? 0 n "b" i.b
  s : OperandOf AttrValue.string? "" n "s" i.s

/-- The function is stored in the node. -/
structure FunctionOf (n : Node) (f : BytecodeFunction) : Prop where
  name : n.ident? "name" = some f.name
  params : OperandOf names? [] n "params" f.params
  locals : OperandOf names? [] n "locals" f.locals
  code : List.Forall₂ InstructionOf n.children f.code.toList

/-- The constants and the functions are stored in the sections, in any order of the two kinds. -/
inductive Sections : List Node → List Value → List BytecodeFunction → Prop where
  | nil : Sections [] [] []
  | constant {c : Node} {cs : List Node} {v : Value} {vs : List Value} {fs : List BytecodeFunction}
      (hkind : c.kind = "Const") (hc : ConstantOf c v) (hcs : Sections cs vs fs) :
      Sections (c :: cs) (v :: vs) fs
  | function {c : Node} {cs : List Node} {vs : List Value} {f : BytecodeFunction}
      {fs : List BytecodeFunction} (hkind : c.kind = "Func") (hc : FunctionOf c f)
      (hcs : Sections cs vs fs) : Sections (c :: cs) vs (f :: fs)

theorem Sections.append {cs cs' : List Node} {vs vs' : List Value} {fs fs' : List BytecodeFunction}
    (h : Sections cs vs fs) (h' : Sections cs' vs' fs') :
    Sections (cs ++ cs') (vs ++ vs') (fs ++ fs') := by
  induction h with
  | nil => exact h'
  | constant hkind hv _ ih => exact .constant hkind hv ih
  | function hkind hf _ ih => exact .function hkind hf ih

/-- The node has the marks of a container. -/
def HasHeader (n : Node) : Prop :=
  n.kind = "Bytecode" ∧ n.attr? "magic" = some (.string magic) ∧
    n.attr? "format" = some (.string formatName) ∧ n.attr? "version" = some (.int version) ∧
      (n.int? "flags").isSome = true

instance (n : Node) : Decidable (HasHeader n) :=
  inferInstanceAs (Decidable (_ ∧ _ ∧ _ ∧ _ ∧ _))

/-- The program is stored in the node. -/
structure ContainerOf (n : Node) (p : BytecodeProgram) : Prop where
  header : HasHeader n
  sections : Sections n.children p.constants p.functions.toList

theorem clean_eq_ok_iff {p : Parsed} {root : Node} : p.clean = .ok root ↔ p = ⟨some root, []⟩ := by
  constructor
  · intro h
    unfold Parsed.clean at h
    split at h
    · next hroot hclean =>
      cases p
      cases hroot
      cases hclean
      cases h
      rfl
    · cases h
  · rintro rfl
    rfl

theorem loadConstant_eq_ok_iff {n : Node} {v : Value} : loadConstant n = .ok v ↔ ConstantOf n v := by
  constructor
  · intro h
    unfold loadConstant at h
    split at h
    · cases h
    · next hkind hvalue => cases h; exact .str hkind hvalue
    · next hkind hvalue => cases h; exact .int hkind hvalue
    · next hkind hvalue => cases h; exact .bool hkind hvalue
    · next text hkind hvalue =>
      split at h
      · next root hclean =>
        cases h
        exact .node hkind hvalue (clean_eq_ok_iff.mp hclean)
      · cases h
    · next hkind => cases h; exact .void hkind
    · cases h
  · intro h
    unfold loadConstant
    cases h with
    | str hkind hvalue =>
      rw [hkind, hvalue]
      rfl
    | int hkind hvalue =>
      rw [hkind, hvalue]
      rfl
    | bool hkind hvalue =>
      rw [hkind, hvalue]
      rfl
    | @node text root hkind hvalue hparse =>
      rw [hkind, hvalue]
      simp only [clean_eq_ok_iff.mpr hparse]
    | void hkind =>
      rw [hkind]
      rfl

/-! ## 2. The nodes that break the format -/

/-- The node, if it does not fit. -/
def offending (fits : Prop) [Decidable fits] (n : Node) : List Node := if fits then [] else [n]

instance (n : Node) : Decidable (∃ v, ConstantOf n v) :=
  decidable_of_iff ((loadConstant n).toOption.isSome = true) (by
    simp only [← loadConstant_eq_ok_iff]
    cases loadConstant n <;> simp [Except.toOption])

def instructionOffenders (n : Node) : List Node :=
  offending (n.kind = "Inst" ∧ (n.ident? "op").isSome = true) n

def functionOffenders (n : Node) : List Node :=
  offending ((n.ident? "name").isSome = true) n ++ n.children.flatMap instructionOffenders

def sectionOffenders (n : Node) : List Node :=
  if n.kind = "Const" then offending (∃ v, ConstantOf n v) n
  else if n.kind = "Func" then functionOffenders n
  else [n]

/-- The nodes that break the format, in the order in which the loader comes to them. -/
def offenders (n : Node) : List Node :=
  offending (HasHeader n) n ++ n.children.flatMap sectionOffenders

/-- The result fits if there is no offender, and is the refusal of the first one otherwise. -/
def Judges {α : Type} (culprits : List Node) (P : α → Prop) : Except BytecodeError α → Prop
  | .ok a => culprits = [] ∧ P a
  | .error e => ∃ n message, culprits.head? = some n ∧ e = .load message n.id

namespace Judges

variable {α β : Type} {culprits more : List Node} {P : α → Prop} {Q : β → Prop}
  {r : Except BytecodeError α}

theorem fault (message : String) (n : Node) (more : List Node) :
    Judges (n :: more) P (fault message n) := ⟨n, message, rfl, rfl⟩

theorem imp (h : Judges culprits P r) {P' : α → Prop} (himp : ∀ a, P a → P' a) :
    Judges culprits P' r := by
  cases r with
  | ok a => exact ⟨h.1, himp a h.2⟩
  | error e => exact h

theorem bind (h : Judges culprits P r) {f : α → Except BytecodeError β}
    (hf : ∀ a, P a → Judges more Q (f a)) : Judges (culprits ++ more) Q (r >>= f) := by
  cases r with
  | ok a =>
    obtain ⟨hnone, ha⟩ := h
    rw [hnone, List.nil_append]
    exact hf a ha
  | error e =>
    obtain ⟨n, message, hn, he⟩ := h
    exact ⟨n, message, by rw [List.head?_append, hn]; rfl, he⟩

theorem map (h : Judges culprits P r) {f : α → β} (hf : ∀ a, P a → Q (f a)) :
    Judges culprits Q (r >>= fun a => pure (f a)) := by
  have hbind : Judges (culprits ++ []) Q (r >>= fun a => pure (f a)) :=
    h.bind fun a ha => ⟨rfl, hf a ha⟩
  rwa [List.append_nil] at hbind

theorem mapM {cs : List Node} {R : Node → α → Prop} {f : Node → Except BytecodeError α}
    {offendersOf : Node → List Node} (h : ∀ c, Judges (offendersOf c) (R c) (f c)) :
    Judges (cs.flatMap offendersOf) (List.Forall₂ R cs) (cs.mapM f) := by
  induction cs with
  | nil => exact ⟨rfl, .nil⟩
  | cons c cs ih =>
    rw [List.flatMap_cons, List.mapM_cons]
    exact (h c).bind fun a ha => ih.map fun as has => .cons ha has

end Judges

theorem judges_loadConstant (n : Node) :
    Judges (offending (∃ v, ConstantOf n v) n) (ConstantOf n) (loadConstant n) := by
  cases h : loadConstant n with
  | ok v =>
    have hv := loadConstant_eq_ok_iff.mp h
    exact ⟨if_pos ⟨v, hv⟩, hv⟩
  | error e =>
    have hnone : ¬∃ v, ConstantOf n v := by
      rintro ⟨v, hv⟩
      rw [loadConstant_eq_ok_iff.mpr hv] at h
      cases h
    -- whatever is wrong with a constant is put down to its node
    have hfault : ∃ message, e = .load message n.id := by
      unfold loadConstant BytecodeProgram.fault at h
      split at h
      all_goals try split at h
      all_goals cases h
      all_goals exact ⟨_, rfl⟩
    obtain ⟨message, rfl⟩ := hfault
    refine ⟨n, message, ?_, rfl⟩
    unfold offending
    rw [if_neg hnone]
    rfl

/-- An operand is what the attribute is taken for, with the default elsewhere. -/
theorem operandOf_iff {α : Type} {read : AttrValue → Option α} {default a : α} {n : Node}
    {key : String} :
    OperandOf read default n key a ↔ ((n.attr? key).bind read).getD default = a := by
  constructor
  · rintro (⟨hattr, hread⟩ | ⟨hattr, hread⟩ | hattr)
    · rw [hattr, Option.bind_some, hread, Option.getD_some]
    · rw [hattr, Option.bind_some, hread, Option.getD_none]
    · rw [hattr, Option.bind_none, Option.getD_none]
  · rintro rfl
    cases hattr : n.attr? key with
    | none => exact .absent hattr
    | some v =>
      show OperandOf read default n key ((read v).getD default)
      cases hread : read v with
      | none => exact .otherKind hattr hread
      | some a => exact .shown hattr hread

theorem stringAttr_eq (n : Node) (key : String) :
    stringAttr n key = ((n.attr? key).bind AttrValue.string?).getD "" := by
  unfold stringAttr
  rcases n.attr? key with _ | _ | _ | _ | _ <;> rfl

theorem splitNames_stringAttr (n : Node) (key : String) :
    splitNames (stringAttr n key) = ((n.attr? key).bind names?).getD [] := by
  rw [stringAttr_eq]
  rcases n.attr? key with _ | _ | _ | _ | _ <;> rfl

theorem judges_loadInstruction (n : Node) :
    Judges (instructionOffenders n) (InstructionOf n) (loadInstruction n) := by
  unfold loadInstruction instructionOffenders offending
  by_cases hkind : n.kind = "Inst"
  · rw [if_neg (not_not_intro hkind)]
    cases hop : n.ident? "op" with
    | none =>
      rw [if_neg (by simp)]
      exact .fault _ n []
    | some op =>
      rw [if_pos ⟨hkind, rfl⟩, stringAttr_eq]
      exact ⟨rfl, hkind, hop, operandOf_iff.mpr rfl, operandOf_iff.mpr rfl, operandOf_iff.mpr rfl⟩
  · rw [if_pos hkind, if_neg fun h => hkind h.1]
    exact .fault _ n []

theorem judges_loadFunction (n : Node) :
    Judges (functionOffenders n) (FunctionOf n) (loadFunction n) := by
  unfold loadFunction functionOffenders offending
  cases hname : n.ident? "name" with
  | none =>
    rw [if_neg (by simp)]
    exact .fault _ n _
  | some name =>
    rw [if_pos Option.isSome_some, List.nil_append]
    refine (Judges.mapM judges_loadInstruction).map fun code hcode => ?_
    constructor
    · exact hname
    · exact operandOf_iff.mpr (splitNames_stringAttr n "params").symm
    · exact operandOf_iff.mpr (splitNames_stringAttr n "locals").symm
    · exact hcode

/-- What the sections add to a program. -/
def Adds (cs : List Node) (p q : BytecodeProgram) : Prop :=
  ∃ vs fs, Sections cs vs fs ∧ q.constants = p.constants ++ vs ∧
    q.functions.toList = p.functions.toList ++ fs

theorem judges_loadSection (p : BytecodeProgram) (n : Node) :
    Judges (sectionOffenders n) (Adds [n] p) (loadSection p n) := by
  unfold loadSection sectionOffenders
  by_cases hconst : n.kind = "Const"
  · rw [if_pos hconst, hconst]
    exact (judges_loadConstant n).map fun v hv =>
      ⟨[v], [], .constant hconst hv .nil, rfl, (List.append_nil _).symm⟩
  · rw [if_neg hconst]
    by_cases hfunc : n.kind = "Func"
    · rw [if_pos hfunc, hfunc]
      exact (judges_loadFunction n).map fun f hf =>
        ⟨[], [f], .function hfunc hf .nil, (List.append_nil _).symm, Array.toList_push⟩
    · rw [if_neg hfunc]
      split
      · next hkind => exact absurd hkind hconst
      · next hkind => exact absurd hkind hfunc
      · exact .fault _ n []

theorem Adds.cons {c : Node} {cs : List Node} {p q r : BytecodeProgram} (h : Adds [c] p q)
    (h' : Adds cs q r) : Adds (c :: cs) p r := by
  obtain ⟨vs, fs, hc, hvs, hfs⟩ := h
  obtain ⟨vs', fs', hcs, hvs', hfs'⟩ := h'
  exact ⟨vs ++ vs', fs ++ fs', hc.append hcs, by rw [hvs', hvs, List.append_assoc],
    by rw [hfs', hfs, List.append_assoc]⟩

theorem judges_loadSections (cs : List Node) (p : BytecodeProgram) :
    Judges (cs.flatMap sectionOffenders) (Adds cs p) (cs.foldlM loadSection p) := by
  induction cs generalizing p with
  | nil => exact ⟨rfl, [], [], .nil, (List.append_nil _).symm, (List.append_nil _).symm⟩
  | cons c cs ih =>
    rw [List.flatMap_cons, List.foldlM_cons]
    exact (judges_loadSection p c).bind fun q hq => (ih q).imp fun r hr => hq.cons hr

theorem load_of_header {n : Node} (h : HasHeader n) :
    load n = n.children.foldlM loadSection ⟨[], #[]⟩ := by
  obtain ⟨hkind, hmagic, hformat, hversion, hflags⟩ := h
  have hint : ¬(n.int? "flags").isNone = true := by
    simpa [Option.isSome_iff_ne_none] using hflags
  unfold load
  rw [if_neg (not_not_intro hkind), if_neg (not_not_intro hmagic), if_neg (not_not_intro hformat),
    if_neg (not_not_intro hversion), if_neg hint]

/-- A node without offenders is loaded as the program that is stored in it, and any other node is
refused at its first offender. -/
theorem judges_load (n : Node) : Judges (offenders n) (ContainerOf n) (load n) := by
  unfold offenders offending
  -- the header comes first, and no section is looked at without it
  by_cases hheader : HasHeader n
  · rw [if_pos hheader, List.nil_append, load_of_header hheader]
    refine (judges_loadSections n.children ⟨[], #[]⟩).imp fun p hp => ⟨hheader, ?_⟩
    obtain ⟨vs, fs, hsections, hvs, hfs⟩ := hp
    rw [hvs, hfs]
    exact hsections
  · have hload : ∃ message, load n = fault message n := by
      unfold load
      split_ifs with hkind hmagic hformat hversion hflags
      iterate 5 exact ⟨_, rfl⟩
      rw [not_not] at hkind hmagic hformat hversion
      have hint : (n.int? "flags").isSome = true := by
        simpa [Option.isSome_iff_ne_none] using hflags
      exact absurd ⟨hkind, hmagic, hformat, hversion, hint⟩ hheader
    obtain ⟨message, hload⟩ := hload
    rw [if_neg hheader, hload]
    exact .fault message n _

theorem exists_load_iff (n : Node) : (∃ p, load n = .ok p) ↔ offenders n = [] := by
  have hload := judges_load n
  constructor
  · rintro ⟨p, hp⟩
    rw [hp] at hload
    exact hload.1
  · intro hnone
    cases hresult : load n with
    | ok p => exact ⟨p, rfl⟩
    | error e =>
      rw [hresult] at hload
      obtain ⟨c, message, hc, -⟩ := hload
      rw [hnone] at hc
      cases hc

/-! ## 3. What is stored is loaded -/

theorem sections_of_constants {cs : List Node} {vs : List Value}
    (h : List.Forall₂ (fun c v => c.kind = "Const" ∧ ConstantOf c v) cs vs) : Sections cs vs [] := by
  induction h with
  | nil => exact .nil
  | cons hv _ ih => exact .constant hv.1 hv.2 ih

theorem sections_of_functions {cs : List Node} {fs : List BytecodeFunction}
    (h : List.Forall₂ (fun c f => c.kind = "Func" ∧ FunctionOf c f) cs fs) : Sections cs [] fs := by
  induction h with
  | nil => exact .nil
  | cons hf _ ih => exact .function hf.1 hf.2 ih

theorem InstructionOf.load {n : Node} {i : Instruction} (h : InstructionOf n i) :
    loadInstruction n = .ok i := by
  unfold loadInstruction
  rw [if_neg (not_not_intro h.kind), h.op, stringAttr_eq, operandOf_iff.mp h.s]
  unfold Node.int?
  rw [operandOf_iff.mp h.a, operandOf_iff.mp h.b]

theorem mapM_of_forall₂ {α : Type} {read : Node → Except BytecodeError α} {cs : List Node}
    {as : List α} (h : List.Forall₂ (fun c a => read c = .ok a) cs as) : cs.mapM read = .ok as := by
  induction h with
  | nil => rfl
  | cons ha _ ih =>
    rw [List.mapM_cons, ha, ih]
    rfl

theorem FunctionOf.load {n : Node} {f : BytecodeFunction} (h : FunctionOf n f) :
    loadFunction n = .ok f := by
  have hcode := mapM_of_forall₂ (h.code.imp fun _ _ hi => hi.load)
  unfold loadFunction
  rw [h.name, splitNames_stringAttr, splitNames_stringAttr, operandOf_iff.mp h.params,
    operandOf_iff.mp h.locals, hcode]
  rfl

theorem Sections.load {cs : List Node} {vs : List Value} {fs : List BytecodeFunction}
    (h : Sections cs vs fs) (p : BytecodeProgram) :
    cs.foldlM loadSection p = .ok ⟨p.constants ++ vs, p.functions ++ fs⟩ := by
  induction h generalizing p with
  | nil => simp; rfl
  | @constant c cs v vs fs hkind hv _ ih =>
    have hsection : loadSection p c = .ok { p with constants := p.constants ++ [v] } := by
      unfold loadSection
      rw [hkind, loadConstant_eq_ok_iff.mpr hv]
      rfl
    rw [List.foldlM_cons, hsection]
    show cs.foldlM loadSection _ = _
    rw [ih, List.append_assoc]
    rfl
  | @function c cs vs f fs hkind hf _ ih =>
    have hsection : loadSection p c = .ok { p with functions := p.functions.push f } := by
      unfold loadSection
      rw [hkind, hf.load]
      rfl
    rw [List.foldlM_cons, hsection]
    show cs.foldlM loadSection _ = _
    rw [ih]
    simp

/-- The loader accepts a node exactly as a container of what it loads. -/
theorem load_eq_ok_iff {n : Node} {p : BytecodeProgram} : load n = .ok p ↔ ContainerOf n p := by
  constructor
  · intro h
    have hjudged := judges_load n
    rw [h] at hjudged
    exact hjudged.2
  · intro h
    rw [load_of_header h.header, h.sections.load]
    simp

/-! ## 4. Operands that show -/

section Operands

variable {α β : Type} (read : AttrValue → Option α) (n : Node) (key : String)

/-- If there is such an operand, then the value is read of it. -/
def Shows (a : α) : Prop := ∀ v, n.attr? key = some v → read v = some a

/-- If there is such an operand, then it is of the kind that is read. -/
def HasKind : Prop := ∀ v, n.attr? key = some v → (read v).isSome = true

variable {read n key}

theorem OperandOf.shows_iff {default a : α} (h : OperandOf read default n key a) :
    Shows read n key a ↔ HasKind read n key := by
  constructor
  · intro hshows v hv
    rw [hshows v hv]
    rfl
  · intro hkind v hv
    cases h with
    | shown hattr hread =>
      rw [hattr] at hv
      cases hv
      exact hread
    | otherKind hattr hread =>
      have hsome := hkind _ hattr
      rw [hread] at hsome
      cases hsome
    | absent hattr =>
      rw [hattr] at hv
      cases hv

theorem forall₂_iff_forall {γ δ : Type} {R S : γ → δ → Prop} {K : γ → Prop} {l : List γ}
    {l' : List δ} (h : List.Forall₂ R l l') (hiff : ∀ c d, R c d → (S c d ↔ K c)) :
    List.Forall₂ S l l' ↔ ∀ c ∈ l, K c := by
  induction h with
  | nil => simp
  | cons hcd _ ih => rw [List.forall₂_cons, List.forall_mem_cons, ih, hiff _ _ hcd]

end Operands

/-- Every operand of the instruction shows. -/
structure InstructionShows (n : Node) (i : Instruction) : Prop where
  a : Shows AttrValue.int? n "a" i.a
  b : Shows AttrValue.int? n "b" i.b
  s : Shows AttrValue.string? n "s" i.s

/-- Every list of names of the function shows, and every operand of its instructions. -/
structure FunctionShows (n : Node) (f : BytecodeFunction) : Prop where
  params : Shows names? n "params" f.params
  locals : Shows names? n "locals" f.locals
  code : List.Forall₂ InstructionShows n.children f.code.toList

/-- The nodes of functions, in order. -/
def functionNodes (n : Node) : List Node := n.children.filter (·.kind == "Func")

/-- Every operand in the container shows in the program. -/
def OperandsShow (n : Node) (p : BytecodeProgram) : Prop :=
  List.Forall₂ FunctionShows (functionNodes n) p.functions.toList

structure InstructionKinds (n : Node) : Prop where
  a : HasKind AttrValue.int? n "a"
  b : HasKind AttrValue.int? n "b"
  s : HasKind AttrValue.string? n "s"

structure FunctionKinds (n : Node) : Prop where
  params : HasKind names? n "params"
  locals : HasKind names? n "locals"
  code : ∀ i ∈ n.children, i.kind = "Inst" → InstructionKinds i

/-- Every operand in the container is of the format's kind. -/
def OperandKinds (n : Node) : Prop := ∀ c ∈ functionNodes n, FunctionKinds c

instance {α : Type} (read : AttrValue → Option α) (n : Node) (key : String) :
    Decidable (HasKind read n key) :=
  decidable_of_iff ((n.attr? key).all (fun v => (read v).isSome) = true) (by
    unfold HasKind
    cases n.attr? key <;> simp)

instance (n : Node) : Decidable (InstructionKinds n) :=
  decidable_of_iff (HasKind AttrValue.int? n "a" ∧ HasKind AttrValue.int? n "b" ∧
      HasKind AttrValue.string? n "s")
    ⟨fun ⟨ha, hb, hs⟩ => ⟨ha, hb, hs⟩, fun ⟨ha, hb, hs⟩ => ⟨ha, hb, hs⟩⟩

instance (n : Node) : Decidable (FunctionKinds n) :=
  decidable_of_iff (HasKind names? n "params" ∧ HasKind names? n "locals" ∧
      ∀ i ∈ n.children, i.kind = "Inst" → InstructionKinds i)
    ⟨fun ⟨hp, hl, hc⟩ => ⟨hp, hl, hc⟩, fun ⟨hp, hl, hc⟩ => ⟨hp, hl, hc⟩⟩

instance (n : Node) : Decidable (OperandKinds n) :=
  inferInstanceAs (Decidable (∀ c ∈ functionNodes n, FunctionKinds c))

theorem InstructionOf.shows_iff {n : Node} {i : Instruction} (h : InstructionOf n i) :
    InstructionShows n i ↔ InstructionKinds n :=
  ⟨fun ⟨ha, hb, hs⟩ => ⟨h.a.shows_iff.mp ha, h.b.shows_iff.mp hb, h.s.shows_iff.mp hs⟩,
    fun ⟨ha, hb, hs⟩ => ⟨h.a.shows_iff.mpr ha, h.b.shows_iff.mpr hb, h.s.shows_iff.mpr hs⟩⟩

theorem FunctionOf.shows_iff {n : Node} {f : BytecodeFunction} (h : FunctionOf n f) :
    FunctionShows n f ↔ FunctionKinds n := by
  have hcode := forall₂_iff_forall h.code (K := fun c => c.kind = "Inst" → InstructionKinds c)
    fun _ _ hi => hi.shows_iff.trans ⟨fun hk _ => hk, fun hk => hk hi.kind⟩
  exact ⟨fun ⟨hp, hl, hc⟩ => ⟨h.params.shows_iff.mp hp, h.locals.shows_iff.mp hl, hcode.mp hc⟩,
    fun ⟨hp, hl, hc⟩ => ⟨h.params.shows_iff.mpr hp, h.locals.shows_iff.mpr hl, hcode.mpr hc⟩⟩

theorem Sections.functions {cs : List Node} {vs : List Value} {fs : List BytecodeFunction}
    (h : Sections cs vs fs) : List.Forall₂ FunctionOf (cs.filter (·.kind == "Func")) fs := by
  induction h with
  | nil => exact .nil
  | constant hkind _ _ ih => rwa [List.filter_cons_of_neg (by simp [hkind])]
  | function hkind hf _ ih =>
    rw [List.filter_cons_of_pos (by simp [hkind])]
    exact .cons hf ih

theorem ContainerOf.operandsShow_iff {n : Node} {p : BytecodeProgram} (h : ContainerOf n p) :
    OperandsShow n p ↔ OperandKinds n :=
  forall₂_iff_forall h.sections.functions fun _ _ hf => hf.shows_iff

/-! ## 5. What does not show in a loaded program -/

/-- The operands that are texts, by the kind of their node and their key. -/
def textOperands : List (String × String) := [("Func", "params"), ("Func", "locals"), ("Inst", "s")]

/-- The operands that are integers. -/
def intOperands : List (String × String) := [("Inst", "a"), ("Inst", "b")]

/-- The change of values only concerns operands, and it keeps what the loader takes them for. -/
structure KeepsOperands (change : String → String → AttrValue → AttrValue) : Prop where
  text : ∀ kind key v, (kind, key) ∈ textOperands →
    (change kind key v).string?.getD "" = v.string?.getD ""
  int : ∀ kind key v, (kind, key) ∈ intOperands → (change kind key v).int?.getD 0 = v.int?.getD 0
  other : ∀ kind key v, (kind, key) ∉ textOperands ++ intOperands → change kind key v = v

section Changed

variable {change : String → String → AttrValue → AttrValue} (h : KeepsOperands change) (n : Node)

include h

theorem KeepsOperands.stringAttr_recast {key : String} (hkey : (n.kind, key) ∈ textOperands) :
    stringAttr (n.recast change) key = stringAttr n key := by
  rw [stringAttr_eq, stringAttr_eq, Node.attr?_recast]
  cases n.attr? key with
  | none => rfl
  | some v => exact h.text n.kind key v hkey

theorem KeepsOperands.int?_recast {key : String} (hkey : (n.kind, key) ∈ intOperands) :
    ((n.recast change).int? key).getD 0 = (n.int? key).getD 0 := by
  unfold Node.int?
  rw [Node.attr?_recast]
  cases n.attr? key with
  | none => rfl
  | some v => exact h.int n.kind key v hkey

theorem KeepsOperands.attr?_recast {key : String}
    (hkey : (n.kind, key) ∉ textOperands ++ intOperands) :
    (n.recast change).attr? key = n.attr? key := by
  have hvalue : change n.kind key = id := funext fun v => h.other n.kind key v hkey
  rw [Node.attr?_recast, hvalue, Option.map_id]
  rfl

theorem KeepsOperands.ident?_recast {key : String}
    (hkey : (n.kind, key) ∉ textOperands ++ intOperands) :
    (n.recast change).ident? key = n.ident? key := by
  unfold Node.ident?
  rw [h.attr?_recast n hkey]

theorem loadConstant_recast (hkind : n.kind = "Const") :
    loadConstant (n.recast change) = loadConstant n := by
  unfold loadConstant fault
  rw [h.ident?_recast n (by simp [hkind, textOperands, intOperands]),
    h.attr?_recast n (by simp [hkind, textOperands, intOperands]),
    Node.id_recast]

theorem loadInstruction_recast : loadInstruction (n.recast change) = loadInstruction n := by
  unfold loadInstruction fault
  rw [Node.kind_recast, Node.id_recast]
  by_cases hkind : n.kind = "Inst"
  · rw [h.ident?_recast n (by simp [hkind, textOperands, intOperands]),
      h.int?_recast n (by simp [hkind, intOperands]), h.int?_recast n (by simp [hkind, intOperands]),
      h.stringAttr_recast n (by simp [hkind, textOperands])]
  · rw [if_pos hkind, if_pos hkind]

theorem loadFunction_recast (hkind : n.kind = "Func") :
    loadFunction (n.recast change) = loadFunction n := by
  have hcode : (n.recast change).children.mapM loadInstruction = n.children.mapM loadInstruction := by
    rw [Node.children_recast, List.mapM_map]
    congr 1
    funext c
    exact loadInstruction_recast h c
  unfold loadFunction fault
  rw [h.ident?_recast n (by simp [hkind, textOperands, intOperands]),
    h.stringAttr_recast n (by simp [hkind, textOperands]),
    h.stringAttr_recast n (by simp [hkind, textOperands]), Node.id_recast, hcode]

theorem loadSection_recast (p : BytecodeProgram) :
    loadSection p (n.recast change) = loadSection p n := by
  unfold loadSection fault
  rw [Node.kind_recast, Node.id_recast]
  split
  · next hkind => rw [loadConstant_recast h n hkind]
  · next hkind => rw [loadFunction_recast h n hkind]
  · rfl

theorem load_recast : load (n.recast change) = load n := by
  unfold load fault
  rw [Node.kind_recast, Node.id_recast]
  by_cases hkind : n.kind = "Bytecode"
  · have hattr (key : String) : (n.recast change).attr? key = n.attr? key :=
      h.attr?_recast n (by simp [hkind, textOperands, intOperands])
    have hsections : (fun p c => loadSection p (Node.recast change c)) = loadSection := by
      funext p c
      exact loadSection_recast h c p
    unfold Node.int?
    rw [hattr, hattr, hattr, hattr, Node.children_recast, List.foldlM_map, hsections]
  · rw [if_pos hkind, if_pos hkind]

end Changed

theorem load_unspanned (n : Node) : load n.unspanned = load n :=
  load_recast ⟨fun _ _ _ _ => rfl, fun _ _ _ _ => rfl, fun _ _ _ _ => rfl⟩ n

/-! ## 6. Operands of other kinds -/

/-- The operand with its default, if it is of another kind than the format's. -/
def withDefault (kind key : String) (v : AttrValue) : AttrValue :=
  if textOperands.contains (kind, key) then .string (v.string?.getD "")
  else if intOperands.contains (kind, key) then .int (v.int?.getD 0)
  else v

theorem keepsOperands_withDefault : KeepsOperands withDefault where
  text kind key v hkey := by
    unfold withDefault
    rw [if_pos (List.contains_iff_mem.mpr hkey)]
    rfl
  int kind key v hkey := by
    -- no operand is on both lists
    have htext : (kind, key) ∉ textOperands := by
      revert hkey
      generalize (kind, key) = operand
      revert operand
      decide
    unfold withDefault
    rw [if_neg (List.contains_iff_mem.not.mpr htext), if_pos (List.contains_iff_mem.mpr hkey)]
    rfl
  other kind key v hkey := by
    rw [List.mem_append, not_or] at hkey
    unfold withDefault
    rw [if_neg (List.contains_iff_mem.not.mpr hkey.1), if_neg (List.contains_iff_mem.not.mpr hkey.2)]

section Recast

variable (n : Node)

theorem hasKind_recast {α : Type} {read : AttrValue → Option α} {key : String}
    (hread : ∀ v, (read (withDefault n.kind key v)).isSome = true) :
    HasKind read (n.recast withDefault) key := by
  intro v hv
  rw [Node.attr?_recast, Option.map_eq_some_iff] at hv
  obtain ⟨w, -, rfl⟩ := hv
  exact hread w

theorem instructionKinds_recast (hkind : n.kind = "Inst") :
    InstructionKinds (n.recast withDefault) := by
  constructor
  all_goals
    apply hasKind_recast
    intro v
    rw [hkind]
    rfl

theorem functionKinds_recast (hkind : n.kind = "Func") : FunctionKinds (n.recast withDefault) where
  params := hasKind_recast n fun v => by rw [hkind]; rfl
  locals := hasKind_recast n fun v => by rw [hkind]; rfl
  code i hi hinst := by
    rw [Node.children_recast] at hi
    obtain ⟨j, -, rfl⟩ := List.mem_map.mp hi
    rw [Node.kind_recast] at hinst
    exact instructionKinds_recast j hinst

theorem operandKinds_recast : OperandKinds (n.recast withDefault) := by
  intro c hc
  obtain ⟨hmem, hkind⟩ := List.mem_filter.mp hc
  rw [Node.children_recast] at hmem
  obtain ⟨d, -, rfl⟩ := List.mem_map.mp hmem
  rw [beq_iff_eq, Node.kind_recast] at hkind
  exact functionKinds_recast d hkind

end Recast

/-- The loader accepts a node exactly if nothing in it breaks the format, and refuses it with the id of
the first node that does. Of what it accepts, every operand shows in the loaded program exactly if all
are of the format's kinds: the loader takes an operand of another kind for the default. -/
theorem load_strict (n : Node) :
    ((∃ p, load n = .ok p) ↔ offenders n = []) ∧
    (∀ e, load n = .error e → e.code = "VM001" ∧
      (offenders n).head?.map Node.id = some e.nodeId) ∧
    (∀ p, load n = .ok p → (OperandsShow n p ↔ OperandKinds n)) ∧
    OperandKinds (n.recast withDefault) ∧ load (n.recast withDefault) = load n := by
  have hload := judges_load n
  refine ⟨exists_load_iff n, fun e he => ?_, fun p hp => ?_, operandKinds_recast n,
    load_recast keepsOperands_withDefault n⟩
  · rw [he] at hload
    obtain ⟨c, message, hc, rfl⟩ := hload
    rw [hc]
    exact ⟨rfl, rfl⟩
  · exact (load_eq_ok_iff.mp hp).operandsShow_iff

/-- A function with this attribute for its parameters. -/
def mainNode (params : AttrValue) : Node where
  kind := "Func"
  id := "f0"
  attrs := attrs [("name", .identifier "main"), ("params", params)]
  children :=
    [⟨"Inst", "i0", attrs [("op", .identifier "LOAD_LOCAL"), ("a", .int 1)], [], .nowhere⟩]

/-- A container of one section. -/
def soleSection (c : Node) : Node where
  kind := "Bytecode"
  id := "bc"
  attrs := attrs
    [("magic", .string magic), ("format", .string formatName), ("version", .int version),
      ("flags", .int 0)]
  children := [c]

/-- Parameters in a string are loaded, and a section that is no function is refused by its id. -/
theorem load_strict_soleSection :
    (∃ p, load (soleSection (mainNode (.string " x, y"))) = .ok p ∧
      OperandsShow (soleSection (mainNode (.string " x, y"))) p) ∧
    ∀ e, load (soleSection ⟨"Fn", "g", ∅, [], .nowhere⟩) = .error e →
      e.code = "VM001" ∧ e.nodeId = "g" := by
  obtain ⟨haccepted, -, hshow, -⟩ := load_strict (soleSection (mainNode (.string " x, y")))
  obtain ⟨p, hp⟩ := haccepted.mpr (by decide +kernel)
  refine ⟨⟨p, hp, (hshow p hp).mpr (by decide +kernel)⟩, fun e he => ?_⟩
  obtain ⟨hcode, hid⟩ := (load_strict (soleSection ⟨"Fn", "g", ∅, [], .nowhere⟩)).2.1 e he
  have hfirst : (offenders (soleSection ⟨"Fn", "g", ∅, [], .nowhere⟩)).head?.map Node.id = some "g" :=
    by decide +kernel
  rw [hfirst] at hid
  exact ⟨hcode, (Option.some.inj hid).symm⟩

/-- Parameters that are not in a string are dropped, and nothing is refused. -/
theorem not_load_strict :
    (mainNode (.identifier "x")).attr? "params" = some (.identifier "x") ∧
      load (soleSection (mainNode (.identifier "x"))) =
        .ok ⟨[], #[⟨"main", [], [], #[⟨"LOAD_LOCAL", 1, 0, ""⟩]⟩]⟩ := ⟨rfl, rfl⟩

end BytecodeProgram

end Arbor
