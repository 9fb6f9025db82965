import Arbor.Proofs.Bytecode.Container
import Arbor.Proofs.Bytecode.Seats
import Arbor.Proofs.Bytecode.Widening
import Arbor.Proofs.Compilation.Definitions
import Arbor.Proofs.Evaluation.Formatting
import Arbor.Proofs.Node.Identifiers

/-!
# Printed bytecode is loaded again

The bytecode of a program that was parsed can be printed, and its text is parsed without a report. When
the names of all definitions are printed without quotes, the text loads as the same functions with the
same code, which may have more slots: a name with a comma in it makes several in the list of the locals.
The code names none of these, so the loaded program runs the same (`reload_compile`).
-/

namespace Arbor

open Text

namespace Compiler

/-! ## 1. The instructions of compiled code -/

/-- The instruction has an opcode, and names none but the first slots. -/
structure Known (count : Nat) (i : Instruction) : Prop where
  opcode : i.opcode?.isSome
  inSlots : i.InSlots count

theorem Known.mono {count count' : Nat} {i : Instruction} (h : Known count i)
    (hle : count ≤ count') : Known count' i := by
  refine ⟨h.opcode, fun hop => ?_⟩
  obtain ⟨hsign, hlt⟩ := h.inSlots hop
  exact ⟨hsign, by omega⟩

theorem known_of {op : Opcode} (hop : op ≠ .loadLocal ∧ op ≠ .storeLocal) (count : Nat) (a : Int32)
    (text : String) : Known count (.of op a text) := by
  have hopcode := Instruction.opcode?_of op a text
  refine ⟨by rw [hopcode]; rfl, fun h => ?_⟩
  rw [hopcode] at h
  rcases h with h | h
  · exact absurd (Option.some.inj h) hop.1
  · exact absurd (Option.some.inj h) hop.2

theorem toNat_saturateCount_le (n : Nat) :
    0 ≤ saturateCount n ∧ (saturateCount n).toInt.toNat ≤ n := by
  by_cases hn : n < 2147483648
  · obtain ⟨hsign, hvalue⟩ := toNat_saturateCount hn
    exact ⟨Int32.not_lt.mp hsign, by omega⟩
  · have hcount : saturateCount n = Int32.ofInt 2147483647 := by
      unfold saturateCount saturate
      rw [if_neg (by omega), if_pos (by omega)]
    have hvalue : (Int32.ofInt 2147483647).toInt.toNat = 2147483647 := by decide
    rw [hcount]
    exact ⟨by decide, by omega⟩

theorem known_slot {op : Opcode} {locals : List String} {name : String} {slot : Nat}
    (hslot : locals.findIdx? (· == name) = some slot) :
    Known locals.length (.of op (saturateCount slot)) := by
  obtain ⟨hlt, -⟩ := List.findIdx?_eq_some_iff_getElem.mp hslot
  obtain ⟨hsign, hle⟩ := toNat_saturateCount_le slot
  refine ⟨by rw [Instruction.opcode?_of]; rfl, fun _ => ⟨hsign, ?_⟩⟩
  show (saturateCount slot).toInt.toNat < locals.length
  omega

variable {functions : List String} {i : Instruction} {count : Nat}

theorem known_joinStatements {stop : Nat} {codes : List (List Instruction)}
    (h : i ∈ codes.flatten → Known count i) (hi : i ∈ joinStatements stop codes) :
    Known count i := by
  induction codes with
  | nil =>
    rw [List.mem_singleton.mp hi]
    exact known_of (by decide) count 0 ""
  | cons code codes ih =>
    have hfirst (hi : i ∈ code) := h (List.mem_append_left _ hi)
    have hmore := ih fun hi => h (List.mem_append_right code hi)
    cases codes with
    | nil => exact hfirst hi
    | cons next more =>
      rw [joinStatements_cons] at hi
      rcases List.mem_append.mp hi with hi | hi
      · exact hfirst hi
      rcases List.mem_cons.mp hi with rfl | hi
      · exact known_of (by decide) count _ ""
      rcases List.mem_cons.mp hi with rfl | hi
      · exact known_of (by decide) count 0 ""
      · exact hmore hi

theorem known_branchCode {start : Nat} {condition thenCode elseCode : List Instruction}
    (hcondition : i ∈ condition → Known count i) (hthen : i ∈ thenCode → Known count i)
    (helse : i ∈ elseCode → Known count i)
    (hi : i ∈ branchCode start condition thenCode elseCode) : Known count i := by
  unfold branchCode at hi
  simp only [List.mem_append, List.mem_singleton] at hi
  rcases hi with (((hi | rfl) | hi) | rfl) | hi
  · exact hcondition hi
  · exact known_of (by decide) count _ ""
  · exact hthen hi
  · exact known_of (by decide) count _ ""
  · exact helse hi

theorem known_flatten {codes : List (List Instruction)} {last : Instruction}
    (h : i ∈ codes.flatten → Known count i) (hlast : Known count last)
    (hi : i ∈ codes.flatten ++ [last]) : Known count i := by
  rcases List.mem_append.mp hi with hi | hi
  · exact h hi
  · rw [List.mem_singleton.mp hi]
    exact hlast

theorem Known.grows {s s' : Scope} (h : Known s.locals.length i) (hgrows : s.Grows s') :
    Known s'.locals.length i := h.mono hgrows.locals.length_le

mutual

/-- Every instruction of the code of a node has an opcode, and names a slot that there is. -/
theorem Compiles.known {start : Nat} {n : Node} {s s' : Scope} {code : List Instruction} :
    Compiles functions start n s code s' → i ∈ code → Known s'.locals.length i
  | .sequence _ h, hi => known_joinStatements (fun hi => h.known hi) hi
  | @Compiles.bind _ _ _ _ name _ _ s' _ _ _ h, hi => by
    rcases List.mem_append.mp hi with hi | hi
    -- the slot of the name may only be made behind the code of the child
    · exact (h.known hi).grows (s'.grows_resolve name)
    rcases List.mem_cons.mp hi with rfl | hi
    · exact known_slot (s'.findIdx?_resolve name)
    · rw [List.mem_singleton.mp hi]
      exact known_of (by decide) _ 0 ""
  | .var _ _ hslot, hi => by
    rw [List.mem_singleton.mp hi]
    exact known_slot hslot
  | .text _ _, hi | .int _ _, hi | .bool _ _, hi => by
    rw [List.mem_singleton.mp hi]
    exact known_of (by decide) _ _ ""
  | .callSys _ _ _ h, hi =>
    known_flatten (fun hi => h.known hi) (known_of (by decide) _ _ _) hi
  | .call _ _ _ _ h, hi =>
    known_flatten (fun hi => h.known hi) (known_of (by decide) _ _ _) hi
  | .operator _ _ h, hi =>
    known_flatten (fun hi => h.known hi) (known_of (by simp) _ 0 "") hi
  | .branch _ _ h h', hi => by
    apply known_branchCode _ h'.known _ hi
    · exact fun hi => (h.known hi).grows h'.grows
    · intro hi
      rw [List.mem_singleton.mp hi]
      exact known_of (by decide) _ 0 ""
  | .branchElse _ _ h h' h'', hi =>
    known_branchCode (fun hi => (h.known hi).grows (h'.grows.trans h''.grows))
      (fun hi => (h'.known hi).grows h''.grows) (fun hi => h''.known hi) hi
  | .leaveVoid _ _, hi => by
    rcases List.mem_cons.mp hi with rfl | hi
    · exact known_of (by decide) _ 0 ""
    · rw [List.mem_singleton.mp hi]
      exact known_of (by decide) _ 0 ""
  | .leave _ _ h, hi => by
    rcases List.mem_append.mp hi with hi | hi
    · exact h.known hi
    · rw [List.mem_singleton.mp hi]
      exact known_of (by decide) _ 0 ""

theorem CompilesAll.known {gap start : Nat} {ns : List Node} {s s' : Scope}
    {codes : List (List Instruction)} :
    CompilesAll functions gap start ns s codes s' → i ∈ codes.flatten → Known s'.locals.length i
  | .nil, hi => by cases hi
  | .cons h h', hi => by
    rcases List.mem_append.mp hi with hi | hi
    · exact (h.known hi).grows h'.grows
    · exact h'.known hi

end

theorem Built.known {params : List String} {statements : List Node} {before : List Value}
    {f : BytecodeFunction} {codes : List (List Instruction)} {s : Scope}
    (h : Built functions params statements before f codes s) :
    ∀ i ∈ f.code.toList, Known f.slotCount i := by
  intro i hi
  have hle : s.locals.length ≤ f.slotCount := by
    unfold BytecodeFunction.slotCount
    rw [h.locals]
    omega
  rw [h.code] at hi
  rcases List.mem_append.mp hi with hi | hi
  · exact (known_joinStatements h.compiles.known hi).mono hle
  · rw [List.mem_singleton.mp hi]
    exact known_of (by decide) _ 0 ""

/-! ## 2. The constants of compiled code -/

/-- The constants are strings. -/
def AreTexts (vs : List Value) : Prop := ∀ v ∈ vs, ∃ text, v = .str text

theorem areTexts_constant {s : Scope} (h : AreTexts s.constants) (text : String) :
    AreTexts (s.constant (.str text)).2.constants := by
  unfold Scope.constant
  split
  · exact h
  · intro v hv
    rcases List.mem_append.mp hv with hv | hv
    · exact h v hv
    · exact ⟨text, List.mem_singleton.mp hv⟩

theorem constants_resolve (s : Scope) (name : String) :
    (s.resolve name).2.constants = s.constants := by
  unfold Scope.resolve
  split <;> rfl

mutual

theorem Compiles.areTexts {start : Nat} {n : Node} {s s' : Scope} {code : List Instruction} :
    Compiles functions start n s code s' → AreTexts s.constants → AreTexts s'.constants
  | .sequence _ h, hs | .callSys _ _ _ h, hs | .call _ _ _ _ h, hs | .operator _ _ h, hs =>
    h.areTexts hs
  | .bind _ _ _ h, hs => by
    rw [constants_resolve]
    exact h.areTexts hs
  | .text _ _, hs => areTexts_constant hs _
  | .var _ _ _, hs | .int _ _, hs | .bool _ _, hs | .leaveVoid _ _, hs => hs
  | .branch _ _ h h', hs => h'.areTexts (h.areTexts hs)
  | .branchElse _ _ h h' h'', hs => h''.areTexts (h'.areTexts (h.areTexts hs))
  | .leave _ _ h, hs => h.areTexts hs

theorem CompilesAll.areTexts {gap start : Nat} {ns : List Node} {s s' : Scope}
    {codes : List (List Instruction)} : CompilesAll functions gap start ns s codes s' →
    AreTexts s.constants → AreTexts s'.constants
  | .nil, hs => hs
  | .cons h h', hs => h'.areTexts (h.areTexts hs)

end

theorem areTexts_of_functionOf {name : String} {params : List String} {statements : List Node}
    {before after : List Value} {f : BytecodeFunction}
    (h : functionOf functions name params statements before = .ok (f, after))
    (hbefore : AreTexts before) : AreTexts after := by
  obtain ⟨-, codes, s, hbuilt, rfl⟩ := built_of_functionOf h
  exact hbuilt.compiles.areTexts hbefore

theorem areTexts_of_definitionCodes {ns : List Node} {before after : List Value}
    {fs : List BytecodeFunction} (h : definitionCodes functions ns before = .ok (fs, after))
    (hbefore : AreTexts before) : AreTexts after := by
  induction ns generalizing before fs with
  | nil =>
    cases h
    exact hbefore
  | cons n ns ih =>
    unfold definitionCodes at h
    cases hdefinition : definition? n with
    | none =>
      rw [hdefinition] at h
      exact ih h hbefore
    | some d =>
      rw [hdefinition] at h
      obtain ⟨⟨f, middle⟩, hf, h⟩ := of_bind_ok h
      obtain ⟨⟨rest, constants⟩, hrest, h⟩ := of_bind_ok h
      cases h
      apply ih hrest
      unfold definitionCode at hf
      split at hf
      · split at hf
        · exact areTexts_of_functionOf hf hbefore
        · cases hf
      · cases hf

theorem areTexts_of_compile {root : Node} {p : BytecodeProgram} (h : compile root = .ok p) :
    AreTexts p.constants := by
  unfold compile at h
  split at h
  · cases h
  obtain ⟨_, -, h⟩ := of_bind_ok h
  obtain ⟨⟨fs, before⟩, hfs, h⟩ := of_bind_ok h
  obtain ⟨⟨main, after⟩, hmain, h⟩ := of_bind_ok h
  cases h
  exact areTexts_of_functionOf hmain (areTexts_of_definitionCodes hfs nofun)

/-! ## 3. The names of compiled code -/

/-- The names of the function's slots come from the program's own text. -/
structure Sourced (root : Node) (f : BytecodeFunction) : Prop where
  name : f.name = mainName ∨ ∃ n ∈ root.children, n.ident? "name" = some f.name
  params : ∀ x ∈ f.params, IsListed x
  locals : ∀ x ∈ f.locals, IsListed x ∨ ∃ m ∈ root.walk, x ∈ m.binds

theorem Built.sourced {root : Node} {params : List String} {statements : List Node}
    {before : List Value} {f : BytecodeFunction} {codes : List (List Instruction)} {s : Scope}
    (h : Built functions params statements before f codes s)
    (hname : f.name = mainName ∨ ∃ n ∈ root.children, n.ident? "name" = some f.name)
    (hparams : ∀ x ∈ params, IsListed x)
    (hstatements : ∀ c ∈ statements, ∀ m ∈ c.walk, m ∈ root.walk) : Sourced root f where
  name := hname
  params := by
    rw [h.params]
    exact hparams
  locals := by
    intro x hx
    rw [h.locals] at hx
    rcases h.compiles.mem_locals hx with hx | ⟨c, hc, m, hm, hbinds⟩
    · exact .inl (hparams x hx)
    · exact .inr ⟨m, hstatements c hc m hm, hbinds⟩

theorem Assembled.sourced {root : Node} {p : BytecodeProgram} {main : BytecodeFunction}
    {fs : List BytecodeFunction} {before : List Value} {codes : List (List Instruction)} {s : Scope}
    (h : Assembled root p main fs before codes s) {f : BytecodeFunction}
    (hf : f ∈ p.functions.toList) : Sourced root f := by
  rw [h.all] at hf
  rcases List.mem_cons.mp hf with rfl | hf
  · apply h.statements.sourced (.inl h.mainName) (by simp)
    intro c hc m hm
    exact Node.mem_walk_of_mem_children (mem_statements hc).1 hm
  · obtain ⟨d, hd, body, constants, codes', s', hdefines⟩ := h.definition f hf
    apply hdefines.built.sourced
    · obtain ⟨n, hn, hdefinition⟩ := mem_definitions hd
      obtain ⟨-, -, -, hident⟩ := definition?_eq_some hdefinition
      exact .inr ⟨n, hn, by rw [hident, hdefines.name]⟩
    · exact fun x hx => isListed_of_mem_splitNames hx
    · intro c hc m hm
      apply mem_walk_of_definition hd
      apply Node.mem_walk_of_mem_children _ (Node.mem_walk_of_mem_children hc hm)
      rw [hdefines.children]
      exact List.mem_cons_self

theorem known_of_compile {root : Node} {p : BytecodeProgram} (h : compile root = .ok p) :
    ∀ f ∈ p.functions.toList, ∀ i ∈ f.code.toList, Known f.slotCount i := by
  obtain ⟨main, fs, before, codes, s, ha⟩ := assembled_of_compile h
  intro f hf
  rw [ha.all] at hf
  rcases List.mem_cons.mp hf with rfl | hf
  · exact ha.statements.known
  · obtain ⟨d, -, body, constants, codes', s', hdefines⟩ := ha.definition f hf
    exact hdefines.built.known

variable {source : String} {root : Node} {p : BytecodeProgram}

theorem notTruthLed_of_sourced (hparse : parse source = ⟨some root, []⟩) {f : BytecodeFunction}
    (hf : Sourced root f) : (AttrValue.identifier f.name).NotTruthLed := by
  rcases hf.name with hname | ⟨n, hn, hname⟩
  · rw [hname]
    rintro _ ⟨⟩ -
    decide +kernel
  -- the name stands in the source, and what was parsed can be written
  · have hwritable : n.WritableHere := ((writable_of_parse hparse).2 n hn).1
    obtain ⟨value, hvalue, hident⟩ := Option.bind_eq_some_iff.mp hname
    have hmem : ("name", value) ∈ n.attrs.entries := Dict.find?_eq_some_iff.mp hvalue
    have hname' : value = .identifier f.name := by
      cases value with
      | identifier text => exact congrArg AttrValue.identifier (Option.some.inj hident)
      | _ => cases hident
    rw [← hname']
    exact hwritable.values _ hmem

/-- The bytecode of a program that was parsed can be printed and read back. -/
theorem printable_of_compile (hparse : parse source = ⟨some root, []⟩)
    (hcompile : compile root = .ok p) : p.Printable where
  constants := areTexts_of_compile hcompile
  names f hf := by
    obtain ⟨main, fs, before, codes, s, ha⟩ := assembled_of_compile hcompile
    exact notTruthLed_of_sourced hparse (ha.sourced hf)
  code f hf i hi := (known_of_compile hcompile f hf i hi).opcode

theorem isJoined_of_binds (hparse : parse source = ⟨some root, []⟩) {m : Node} (hm : m ∈ root.walk)
    {x : String} (hx : x ∈ m.binds) : IsJoined x := by
  unfold Node.binds at hx
  split at hx
  · exact (isJoined_of_parse hparse m hm).ident (by simpa using hx)
  · cases hx

/-- Joining and splitting the names of the slots again can only make more of them. -/
theorem widens_relisted (hparse : parse source = ⟨some root, []⟩)
    (hcompile : compile root = .ok p) : p.Widens p.relisted := by
  obtain ⟨main, fs, before, codes, s, ha⟩ := assembled_of_compile hcompile
  refine ⟨rfl, ?_, fun f hf i hi => (known_of_compile hcompile f hf i hi).inSlots⟩
  unfold BytecodeProgram.relisted
  rw [Array.toList_map, List.forall₂_map_right_iff, List.forall₂_same]
  intro f hf
  have hsourced := ha.sourced hf
  refine ⟨rfl, splitNames_joinNames_of_listed hsourced.params, rfl, ?_⟩
  apply length_le_splitNames_joinNames
  -- a name with a comma in it comes apart, but none vanishes
  intro x hx
  rcases hsourced.locals x hx with hlisted | ⟨m, hm, hbinds⟩
  · have hsplit : splitNames x = [x] := hlisted
    simp [hsplit]
  · exact (isJoined_of_binds hparse hm hbinds).splitNames_ne_nil

theorem relisted_eq (hparse : parse source = ⟨some root, []⟩) (hcompile : compile root = .ok p)
    (hcomma : ∀ f ∈ p.functions.toList, ∀ x ∈ f.locals, ',' ∉ x.toList) : p.relisted = p := by
  obtain ⟨main, fs, before, codes, s, ha⟩ := assembled_of_compile hcompile
  have hsame : ∀ f ∈ p.functions, f.relisted = f := by
    intro f hf
    have hf' : f ∈ p.functions.toList := Array.mem_def.mp hf
    have hsourced := ha.sourced hf'
    have hlocals : splitNames (joinNames f.locals) = f.locals := by
      apply splitNames_joinNames_of_listed
      intro x hx
      rcases hsourced.locals x hx with hlisted | ⟨m, hm, hbinds⟩
      · exact hlisted
      · exact (isJoined_of_binds hparse hm hbinds).isListed (hcomma f hf' x hx)
    unfold BytecodeFunction.relisted
    rw [splitNames_joinNames_of_listed hsourced.params, hlocals]
  unfold BytecodeProgram.relisted
  rw [Array.map_congr_left hsame, Array.map_id']

/-! ## 4. Printed bytecode -/

/-- The bytecode of a program that was parsed can be printed, and its text parses without a report. It
loads exactly when no name of a definition has to be quoted. Then it is a program with the same
constants and the same functions, of which each has at least as many slots, and as many when no slot's
name has a comma in it. Without a recorder it runs the same, in every session. -/
theorem reload_compile (hparse : parse source = ⟨some root, []⟩) (hcompile : compile root = .ok p) :
    ∃ node, parse p.toNode.format = ⟨some node, []⟩ ∧
      ((∃ d ∈ definitions root, isBareIdentifier d.1 = false) →
        ∃ id, BytecodeProgram.load node = .error (.load "Func missing name." id)) ∧
      ((∀ d ∈ definitions root, isBareIdentifier d.1 = true) →
        ∃ q, BytecodeProgram.load node = .ok q ∧ q.constants = p.constants ∧
          List.Forall₂ BytecodeFunction.Widens p.functions.toList q.functions.toList ∧
          ((∀ f ∈ p.functions.toList, ∀ x ∈ f.locals, ',' ∉ x.toList) → q = p) ∧
          ∀ {σ : Type} [Host σ] (s : Session σ), s.recorder? = none →
            ∀ fuel entry args, s.runProgram fuel q entry args = s.runProgram fuel p entry args) := by
  obtain ⟨node, hnode, hload, hquoted⟩ := load_parse_format (printable_of_compile hparse hcompile)
  obtain ⟨main, fs, before, codes, s, ha⟩ := assembled_of_compile hcompile
  have hwidens := widens_relisted hparse hcompile
  refine ⟨node, hnode, ?_, fun hnames => ?_⟩
  · rintro ⟨d, hd, hname⟩
    apply hquoted
    obtain ⟨f, hf, body, constants, codes', s', hdefines⟩ := ha.function d hd
    refine ⟨f, ?_, hdefines.name ▸ hname⟩
    rw [ha.all]
    exact List.mem_cons_of_mem main hf
  · have hbare : ∀ f ∈ p.functions.toList, isBareIdentifier f.name = true := by
      intro f hf
      rw [ha.all] at hf
      rcases List.mem_cons.mp hf with rfl | hf
      · rw [ha.mainName]
        decide +kernel
      · obtain ⟨d, hd, body, constants, codes', s', hdefines⟩ := ha.definition f hf
        rw [hdefines.name]
        exact hnames d hd
    exact ⟨p.relisted, hload hbare, rfl, hwidens.functions, relisted_eq hparse hcompile,
      fun s hquiet => runProgram_widens hwidens hquiet⟩

/-- The text of a program with a function under a name of two letters, which binds a number and reads
it, and a call of the function. -/
def callText (function : String) : String :=
  "Program#p \x7b Let#l(name=" ++ function ++ ") \x7b Fn#f(params=\"\") \x7b Block#k \x7b " ++
    "Let#m(name=x,y) \x7b Lit#t(value=7) \x7d Var#v(name=x,y) \x7d \x7d \x7d Call#c(target=" ++
    function ++ ") \x7d"

/-- The tree of such a text. -/
def callTree (function : String) : Node :=
  ⟨"Program", "p", ∅,
    [⟨"Let", "l", .ofList [("name", .identifier function)],
      [⟨"Fn", "f", .ofList [("params", .string "")],
        [⟨"Block", "k", ∅,
          [⟨"Let", "m", .ofList [("name", .identifier "x,y")],
            [⟨"Lit", "t", .ofList [("value", .int 7)], [], .onFirstLine 75 89⟩], .onFirstLine 57 91⟩,
            ⟨"Var", "v", .ofList [("name", .identifier "x,y")], [], .onFirstLine 92 107⟩],
          .onFirstLine 47 109⟩], .onFirstLine 29 111⟩], .onFirstLine 12 113⟩,
      ⟨"Call", "c", .ofList [("target", .identifier function)], [], .onFirstLine 114 131⟩],
    .onFirstLine 0 133⟩

/-- The functions of its bytecode. -/
def callFunctions (function : String) : Array BytecodeFunction := #[
  { name := "main", params := [], locals := []
    code := #[.of .call (saturateCount 0) function, .of .ret] },
  { name := function, params := [], locals := ["x,y"]
    code := #[.of .pushInt 7, .of .storeLocal (saturateCount 0), .of .pushVoid,
      .of .jumpIfErr (saturateCount 6), .of .pop, .of .loadLocal (saturateCount 0), .of .ret] }]

/-- A name with a comma in it makes a slot more, and nothing else changes. -/
theorem reload_compile_comma :
    parse (callText "f1") = ⟨some (callTree "f1"), []⟩ ∧
      compile (callTree "f1") = .ok ⟨[], callFunctions "f1"⟩ ∧
      ∃ node q, parse (BytecodeProgram.mk [] (callFunctions "f1")).toNode.format = ⟨some node, []⟩ ∧
        BytecodeProgram.load node = .ok q ∧
        List.Forall₂ BytecodeFunction.Widens (callFunctions "f1").toList q.functions.toList ∧
        ((Session.fresh "").runProgram 20 q "main" []).1.toOption.map Value.formatResult =
          some "Ok#ok0(type=int value=7)" := by
  have hparse : parse (callText "f1") = ⟨some (callTree "f1"), []⟩ :=
    parsed_eq (by decide +kernel) (by decide +kernel)
  have hcompile : compile (callTree "f1") = .ok ⟨[], callFunctions "f1"⟩ :=
    compile_eq (by decide +kernel)
  obtain ⟨node, hnode, -, hload⟩ := reload_compile hparse hcompile
  obtain ⟨q, hq, -, hfunctions, -, hrun⟩ := hload (by decide +kernel)
  refine ⟨hparse, hcompile, node, q, hnode, hq, hfunctions, ?_⟩
  rw [hrun (Session.fresh "") rfl]
  decide +kernel

/-- A program with a function whose name begins with a digit compiles and runs, but its bytecode, once
printed, does not load. -/
theorem not_reload_digitLed :
    parse (callText "1a") = ⟨some (callTree "1a"), []⟩ ∧
      compile (callTree "1a") = .ok ⟨[], callFunctions "1a"⟩ ∧
      ((Session.fresh "").runProgram 20 ⟨[], callFunctions "1a"⟩ "main" []).1.toOption.map
        Value.formatResult = some "Ok#ok0(type=int value=7)" ∧
      ∃ node, parse (BytecodeProgram.mk [] (callFunctions "1a")).toNode.format = ⟨some node, []⟩ ∧
        ∃ id, BytecodeProgram.load node = .error (.load "Func missing name." id) := by
  have hparse : parse (callText "1a") = ⟨some (callTree "1a"), []⟩ :=
    parsed_eq (by decide +kernel) (by decide +kernel)
  have hcompile : compile (callTree "1a") = .ok ⟨[], callFunctions "1a"⟩ :=
    compile_eq (by decide +kernel)
  obtain ⟨node, hnode, -, hquoted⟩ := load_parse_format (printable_of_compile hparse hcompile)
  refine ⟨hparse, hcompile, by decide +kernel, node, hnode, hquoted ?_⟩
  decide +kernel

end Compiler

end Arbor
