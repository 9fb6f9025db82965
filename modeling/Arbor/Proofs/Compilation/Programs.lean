import Arbor.Proofs.Compilation.Source
import Mathlib.Data.List.Forall2
import Mathlib.Data.List.Nodup

/-!
# The functions of a compiled program

What compilation succeeds with: `main` from the statements, and behind it one function for each
definition, all made with the same names in scope (`assembled_of_compile`). The constants of a function
come before those of the next one. A function whose name is its own is found under it
(`functionIndex?_of_nodup`).
-/

namespace Arbor

/-- With names that are all different, each function is found under its name. -/
theorem functionIndex?_of_nodup {p : BytecodeProgram}
    (hnames : (p.functions.toList.map (·.name)).Nodup) {i : Nat} {f : BytecodeFunction}
    (hf : p.functions[i]? = some f) : p.functionIndex? f.name = some i := by
  obtain ⟨hlt, hget⟩ := Array.getElem?_eq_some_iff.mp hf
  have hsize : p.functions.toList.length = p.functions.size := rfl
  have hfind : p.functions.toList.reverse.findIdx? (·.name == f.name) =
      some (p.functions.size - 1 - i) := by
    rw [List.findIdx?_eq_some_iff_getElem]
    refine ⟨by rw [List.length_reverse]; omega, ?_, fun j hj => ?_⟩
    · rw [List.getElem_reverse, beq_iff_eq]
      have hindex : p.functions.toList.length - 1 - (p.functions.size - 1 - i) = i := by omega
      simp only [hindex]
      exact congrArg BytecodeFunction.name hget
    · -- an earlier hit would be a second function with the name
      rw [List.getElem_reverse, Bool.not_eq_true, beq_eq_false_iff_ne]
      intro hname
      have hj' : p.functions.toList.length - 1 - j < (p.functions.toList.map (·.name)).length := by
        rw [List.length_map]
        omega
      have hi' : i < (p.functions.toList.map (·.name)).length := by
        rw [List.length_map]
        exact hlt
      have hsame : p.functions.toList.length - 1 - j = i := by
        rw [← @List.Nodup.getElem_inj_iff _ _ hnames _ hj' _ hi', List.getElem_map, List.getElem_map,
          hname]
        exact congrArg BytecodeFunction.name hget.symm
      omega
  unfold BytecodeProgram.functionIndex?
  rw [hfind]
  show some (p.functions.size - 1 - (p.functions.size - 1 - i)) = some i
  congr 1
  omega

namespace Compiler

/-- The function has the code of the statements, compiled after the constants before it. -/
structure Built (functions : List String) (params : List String) (statements : List Node)
    (before : List Value) (f : BytecodeFunction) (codes : List (List Instruction)) (s : Scope) :
    Prop where
  compiles : CompilesAll functions 2 0 statements ⟨params, before⟩ codes s
  code : f.code.toList = sequenceCode 0 codes ++ [.of .ret]
  params : f.params = params
  locals : f.locals = s.locals

theorem built_of_functionOf {functions : List String} {name : String} {params : List String}
    {statements : List Node} {before after : List Value} {f : BytecodeFunction}
    (h : functionOf functions name params statements before = .ok (f, after)) :
    f.name = name ∧ ∃ codes s, Built functions params statements before f codes s ∧
      s.constants = after := by
  obtain ⟨⟨codes, s⟩, hcodes, h⟩ := of_bind_ok h
  cases h
  exact ⟨rfl, codes, s, ⟨compilesAll_of_nodeCodes hcodes, rfl, rfl, rfl⟩, rfl⟩

/-- The function at an index belongs to the definition. -/
structure Defines (functions : List String) (constants : List Value) (d : String × Node)
    (body : Node) (f : BytecodeFunction) (before : List Value) (codes : List (List Instruction))
    (s : Scope) : Prop where
  children : d.2.children = [body]
  block : body.isBlock = true
  name : f.name = d.1
  built : Built functions (Text.splitNames ((d.2.text? "params").getD "")) body.children before f
    codes s
  constants : s.constants <+: constants

theorem defines_of_definitionCode {functions : List String} {name : String} {fn : Node}
    {before after : List Value} {f : BytecodeFunction}
    (h : definitionCode functions name fn before = .ok (f, after)) :
    before <+: after ∧ ∃ body codes s, Defines functions after (name, fn) body f before codes s := by
  unfold definitionCode at h
  split at h
  · next body hbody =>
    split at h
    · next hblock =>
      obtain ⟨hname, codes, s, hbuilt, rfl⟩ := built_of_functionOf h
      exact ⟨hbuilt.compiles.grows.constants, body, codes, s, hbody, hblock, hname, hbuilt,
        List.prefix_refl _⟩
    · cases h
  · cases h

theorem Defines.mono {functions : List String} {constants constants' : List Value}
    {d : String × Node} {body : Node} {f : BytecodeFunction} {before : List Value}
    {codes : List (List Instruction)} {s : Scope}
    (h : Defines functions constants d body f before codes s) (hle : constants <+: constants') :
    Defines functions constants' d body f before codes s :=
  ⟨h.children, h.block, h.name, h.built, h.constants.trans hle⟩

/-- The functions of the definitions, in their order. -/
theorem defines_of_definitionCodes {functions : List String} {ns : List Node}
    {before after : List Value} {fs : List BytecodeFunction}
    (h : definitionCodes functions ns before = .ok (fs, after)) :
    before <+: after ∧ List.Forall₂ (fun d f => ∃ body constants codes s,
      Defines functions after d body f constants codes s) (ns.filterMap definition?) fs := by
  induction ns generalizing before after fs with
  | nil =>
    cases h
    exact ⟨List.prefix_refl _, .nil⟩
  | cons n ns ih =>
    unfold definitionCodes at h
    cases hdefinition : definition? n with
    | none =>
      rw [hdefinition] at h
      rw [List.filterMap_cons_none hdefinition]
      exact ih h
    | some d =>
      rw [hdefinition] at h
      obtain ⟨⟨f, middle⟩, hf, h⟩ := of_bind_ok h
      obtain ⟨⟨rest, constants⟩, hrest, h⟩ := of_bind_ok h
      cases h
      obtain ⟨hgrows, body, codes, s, hdefines⟩ := defines_of_definitionCode hf
      obtain ⟨hgrows', hall⟩ := ih hrest
      -- the constants of the first function are among those behind the other ones
      rw [List.filterMap_cons_some hdefinition]
      exact ⟨hgrows.trans hgrows', .cons ⟨body, _, codes, s, hdefines.mono hgrows'⟩ hall⟩

theorem forall_ne_main {ns : List Node} (h : checkNames ns = .ok ()) :
    ∀ d ∈ ns.filterMap definition?, d.1 ≠ mainName := by
  induction ns with
  | nil => simp
  | cons n ns ih =>
    unfold checkNames at h
    cases hdefinition : definition? n with
    | none =>
      rw [hdefinition] at h
      rw [List.filterMap_cons_none hdefinition]
      exact ih h
    | some d =>
      obtain ⟨name, fn⟩ := d
      rw [hdefinition] at h
      dsimp only at h
      split at h
      · cases h
      · next hname =>
        rw [List.filterMap_cons_some hdefinition]
        intro e he
        rcases List.mem_cons.mp he with rfl | he
        · exact hname
        · exact ih h e he

/-- What a compiled program is made of. -/
structure Assembled (root : Node) (p : BytecodeProgram) (main : BytecodeFunction)
    (fs : List BytecodeFunction) (before : List Value) (codes : List (List Instruction))
    (s : Scope) : Prop where
  program : root.isProgram = true
  statements : Built ((definitions root).map Prod.fst) []
    (root.children.filter fun n => (definition? n).isNone) before main codes s
  mainName : main.name = mainName
  reserved : ∀ d ∈ definitions root, d.1 ≠ Compiler.mainName
  functions : List.Forall₂ (fun d f => ∃ body constants codes s,
    Defines ((definitions root).map Prod.fst) p.constants d body f constants codes s)
    (definitions root) fs
  constants : s.constants = p.constants
  all : p.functions = (main :: fs).toArray

theorem assembled_of_compile {root : Node} {p : BytecodeProgram} (h : compile root = .ok p) :
    ∃ main fs before codes s, Assembled root p main fs before codes s := by
  unfold compile at h
  split at h
  · cases h
  · next hprogram =>
    obtain ⟨_, hcheck, h⟩ := of_bind_ok h
    obtain ⟨⟨fs, before⟩, hfs, h⟩ := of_bind_ok h
    obtain ⟨⟨main, after⟩, hmain, h⟩ := of_bind_ok h
    cases h
    obtain ⟨hname, codes, s, hbuilt, hafter⟩ := built_of_functionOf hmain
    obtain ⟨-, hall⟩ := defines_of_definitionCodes hfs
    have hgrows : before <+: after := hafter ▸ hbuilt.compiles.grows.constants
    -- `main` is compiled last and put first, so all constants are known behind it
    refine ⟨main, fs, before, codes, s, by simpa using hprogram, hbuilt, hname,
      forall_ne_main hcheck, hall.imp fun d f hf => ?_, hafter, rfl⟩
    obtain ⟨body, constants, codes, s, hdefines⟩ := hf
    exact ⟨body, constants, codes, s, hdefines.mono hgrows⟩

/-- A compiled program without constants, from its functions. -/
theorem compile_eq {root : Node} {functions : Array BytecodeFunction}
    (h : (match compile root with
      | .ok p => p.constants.isEmpty && decide (p.functions = functions)
      | .error _ => false) = true) : compile root = .ok ⟨[], functions⟩ := by
  cases hcompile : compile root with
  | error e =>
    rw [hcompile] at h
    cases h
  | ok p =>
    rw [hcompile] at h
    obtain ⟨hconstants, hfunctions⟩ := (Bool.and_eq_true _ _).mp h
    obtain ⟨constants, functions'⟩ := p
    obtain rfl : constants = [] := List.isEmpty_iff.mp hconstants
    obtain rfl : functions' = functions := of_decide_eq_true hfunctions
    rfl

namespace Assembled

variable {root : Node} {p : BytecodeProgram} {main : BytecodeFunction} {fs : List BytecodeFunction}
  {before : List Value} {codes : List (List Instruction)} {s : Scope}
  (h : Assembled root p main fs before codes s)
include h

theorem names : fs.map (·.name) = (definitions root).map Prod.fst := by
  rw [← List.forall₂_eq_eq_eq, List.forall₂_map_left_iff, List.forall₂_map_right_iff]
  refine (List.Forall₂.flip h.functions).imp fun f d hf => ?_
  obtain ⟨body, constants, codes, s, hdefines⟩ := hf
  exact hdefines.name

/-- Each definition has a function. -/
theorem function : ∀ d ∈ definitions root, ∃ f ∈ fs, ∃ body constants codes s,
    Defines ((definitions root).map Prod.fst) p.constants d body f constants codes s := by
  intro d hd
  obtain ⟨i, hi, rfl⟩ := List.getElem_of_mem hd
  have hi' : i < fs.length := h.functions.length_eq ▸ hi
  exact ⟨fs[i], List.getElem_mem hi', h.functions.get hi hi'⟩

/-- Each function but `main` belongs to a definition. -/
theorem definition : ∀ f ∈ fs, ∃ d ∈ definitions root, ∃ body constants codes s,
    Defines ((definitions root).map Prod.fst) p.constants d body f constants codes s := by
  intro f hf
  obtain ⟨i, hi, rfl⟩ := List.getElem_of_mem hf
  have hi' : i < (definitions root).length := h.functions.length_eq ▸ hi
  exact ⟨(definitions root)[i], List.getElem_mem hi', h.functions.get hi' hi⟩

/-- The functions of the program have the names of the definitions, and each its own. -/
theorem nodup (hdistinct : ((definitions root).map Prod.fst).Nodup) :
    (p.functions.toList.map (·.name)).Nodup := by
  rw [h.all]
  show (main.name :: fs.map (·.name)).Nodup
  rw [h.names, h.mainName]
  refine List.nodup_cons.mpr ⟨fun hmem => ?_, hdistinct⟩
  obtain ⟨d, hd, hname⟩ := List.mem_map.mp hmem
  exact h.reserved d hd hname

end Assembled

end Compiler

end Arbor
