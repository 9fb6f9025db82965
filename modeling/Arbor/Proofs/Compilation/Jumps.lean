import Arbor.Proofs.Bytecode.Forward
import Arbor.Proofs.Compilation.Safety

/-!
# Compiled code only jumps forward

The compiler gives a jump the place that it leads to as soon as it knows how long the code up to there
is: the end of a sequence for its error exits, the else part or the end of a branch for the others. All
of these lie behind the jump and no further than the end of the code that the jump belongs to
(`Compiles.leadsAhead`). So no function of a compiled program jumps back, and a run of any of them comes
to an end however the program calls itself (`compiled_run_ends`).
-/

namespace Arbor

theorem Instruction.jumpTarget?_of (op : Opcode) (a : Int32) (s : String) :
    (Instruction.of op a s).jumpTarget? =
      if op = .jump ∨ op = .jumpIfFalse ∨ op = .jumpIfErr then some a else none := by
  unfold jumpTarget?
  rw [opcode?_of]
  cases op <;> rfl

namespace Compiler

/-! ## 1. Where jumps lead -/

/-- In code that begins at `start` each jump leads to a place behind it, and at most to `stop`. -/
def LeadsAhead (start stop : Nat) (code : List Instruction) : Prop :=
  ∀ i inst, code[i]? = some inst → ∀ target ∈ inst.jumpTarget?,
    ∃ place, target = saturateCount place ∧ start + i < place ∧ place ≤ stop

namespace LeadsAhead

variable {start stop : Nat} {code more : List Instruction}

theorem mono (h : LeadsAhead start stop code) {stop' : Nat} (hstop : stop ≤ stop') :
    LeadsAhead start stop' code := by
  intro i inst hinst target htarget
  obtain ⟨place, hplace, hbehind, hmost⟩ := h i inst hinst target htarget
  exact ⟨place, hplace, hbehind, Nat.le_trans hmost hstop⟩

theorem append (h : LeadsAhead start stop code)
    (hmore : LeadsAhead (start + code.length) stop more) :
    LeadsAhead start stop (code ++ more) := by
  intro i inst hinst target htarget
  by_cases hi : i < code.length
  · rw [List.getElem?_append_left hi] at hinst
    exact h i inst hinst target htarget
  · rw [List.getElem?_append_right (by omega)] at hinst
    obtain ⟨place, hplace, hbehind, hmost⟩ := hmore _ inst hinst target htarget
    exact ⟨place, hplace, by omega, hmost⟩

/-- Code that does not jump. -/
theorem plain (h : ∀ inst ∈ code, inst.jumpTarget? = none) : LeadsAhead start stop code := by
  intro i inst hinst target htarget
  rw [h inst (List.mem_of_getElem? hinst)] at htarget
  cases htarget

theorem jump {op : Opcode} {place : Nat} (hbehind : start < place) (hmost : place ≤ stop) :
    LeadsAhead start stop [.of op (saturateCount place)] := by
  intro i inst hinst target htarget
  obtain ⟨rfl, rfl⟩ : i = 0 ∧ inst = .of op (saturateCount place) := by
    cases i with
    | zero => exact ⟨rfl, (Option.some.inj hinst).symm⟩
    | succ i => cases hinst
  rw [Instruction.jumpTarget?_of] at htarget
  split at htarget
  · exact ⟨place, (Option.some.inj htarget).symm, hbehind, hmost⟩
  · cases htarget

end LeadsAhead

/-- The same of the codes of nodes, which stand in order from `start` with `gap` more instructions
between one and the next: each of them keeps to itself. -/
def AllLeadAhead (gap : Nat) : Nat → List (List Instruction) → Prop
  | _, [] => True
  | start, code :: codes =>
    LeadsAhead start (start + code.length) code ∧
      AllLeadAhead gap (start + code.length + gap) codes

theorem AllLeadAhead.flatten {start : Nat} {codes : List (List Instruction)}
    (h : AllLeadAhead 0 start codes) :
    LeadsAhead start (start + codes.flatten.length) codes.flatten := by
  induction codes generalizing start with
  | nil => exact .plain nofun
  | cons code codes ih =>
    obtain ⟨hcode, hcodes⟩ := h
    rw [List.flatten_cons, List.length_append, ← Nat.add_assoc]
    exact (hcode.mono (Nat.le_add_right _ _)).append (ih hcodes)

/-- The error exits of a sequence lead to its end. -/
theorem AllLeadAhead.join {start stop : Nat} {codes : List (List Instruction)}
    (h : AllLeadAhead 2 start codes) (hstop : start + sequenceLength codes ≤ stop) :
    LeadsAhead start stop (joinStatements stop codes) := by
  induction codes generalizing start with
  | nil => exact .plain (by simp [joinStatements, Instruction.jumpTarget?_of])
  | cons code codes ih =>
    obtain ⟨hcode, hcodes⟩ := h
    cases codes with
    | nil =>
      rw [sequenceLength_singleton] at hstop
      exact hcode.mono hstop
    | cons next more =>
      rw [sequenceLength_cons] at hstop
      rw [joinStatements_cons]
      refine (hcode.mono (by omega)).append ?_
      have hexit : LeadsAhead (start + code.length) stop [.of .jumpIfErr (saturateCount stop)] :=
        .jump (by omega) (Nat.le_refl _)
      have hdrop : LeadsAhead (start + code.length + 1) stop [.of .pop] :=
        .plain (by simp [Instruction.jumpTarget?_of])
      have hrest : LeadsAhead (start + code.length + 2) stop (joinStatements stop (next :: more)) :=
        ih hcodes (by omega)
      exact hexit.append (hdrop.append hrest)

theorem AllLeadAhead.sequence {start : Nat} {codes : List (List Instruction)}
    (h : AllLeadAhead 2 start codes) :
    LeadsAhead start (start + (sequenceCode start codes).length) (sequenceCode start codes) := by
  rw [length_sequenceCode]
  exact h.join (Nat.le_refl _)

/-- The jumps of a branch lead to its else part and to its end. -/
theorem leadsAhead_branch {start : Nat} {code thenCode elseCode : List Instruction}
    (hcode : LeadsAhead start (start + code.length) code)
    (hthen : LeadsAhead (start + code.length + 1) (start + code.length + 1 + thenCode.length)
      thenCode)
    (helse : LeadsAhead (start + code.length + 1 + thenCode.length + 1)
      (start + code.length + 1 + thenCode.length + 1 + elseCode.length) elseCode) :
    LeadsAhead start (start + (branchCode start code thenCode elseCode).length)
      (branchCode start code thenCode elseCode) := by
  rw [length_branchCode]
  unfold branchCode
  simp only [List.append_assoc]
  refine (hcode.mono (by omega)).append (.append (.jump (by omega) (by omega)) ?_)
  refine (hthen.mono (by omega)).append (.append (.jump (by omega) (by omega)) ?_)
  exact helse

/-! ## 2. Compiled code -/

section Code

variable {functions : List String}

mutual

theorem Compiles.leadsAhead {start : Nat} {n : Node} {s s' : Scope} {code : List Instruction} :
    Compiles functions start n s code s' → LeadsAhead start (start + code.length) code
  | .sequence _ h => h.leadAhead.sequence
  | .bind _ _ _ h =>
    (h.leadsAhead.mono (by simp)).append (.plain (by simp [Instruction.jumpTarget?_of]))
  | .var .. | .text .. | .int .. | .bool .. | .leaveVoid .. =>
    .plain (by simp [Instruction.jumpTarget?_of])
  | .callSys _ _ _ h | .call _ _ _ _ h | .operator _ _ h =>
    (h.leadAhead.flatten.mono (by simp)).append (.plain (by simp [Instruction.jumpTarget?_of]))
  | .branch _ _ h h' =>
    leadsAhead_branch h.leadsAhead h'.leadsAhead (.plain (by simp [Instruction.jumpTarget?_of]))
  | .branchElse _ _ h h' h'' => leadsAhead_branch h.leadsAhead h'.leadsAhead h''.leadsAhead
  | .leave _ _ h =>
    (h.leadsAhead.mono (by simp)).append (.plain (by simp [Instruction.jumpTarget?_of]))

theorem CompilesAll.leadAhead {gap start : Nat} {ns : List Node} {s s' : Scope}
    {codes : List (List Instruction)} :
    CompilesAll functions gap start ns s codes s' → AllLeadAhead gap start codes
  | .nil => trivial
  | .cons h h' => ⟨h.leadsAhead, h'.leadAhead⟩

end

/-- The function of a compiled body only jumps forward, when the places in it do not saturate. -/
theorem Built.forward {params : List String} {statements : List Node} {before : List Value}
    {f : BytecodeFunction} {codes : List (List Instruction)} {s : Scope}
    (h : Built functions params statements before f codes s) (hsize : f.code.size < 2147483648) :
    f.Forward := by
  have hahead : LeadsAhead 0 f.code.size f.code.toList := by
    have hlength : (sequenceCode 0 codes).length ≤ f.code.size := by
      rw [← Array.length_toList, h.code, List.length_append]
      exact Nat.le_add_right _ _
    rw [h.code]
    refine (h.compiles.leadAhead.sequence.mono ?_).append
      (.plain (by simp [Instruction.jumpTarget?_of]))
    omega
  intro i hi target htarget
  have hinst : f.code.toList[i]? = some f.code[i] := by
    rw [Array.getElem?_toList, Array.getElem?_eq_getElem hi]
  obtain ⟨place, rfl, hbehind, hmost⟩ := hahead i _ hinst target htarget
  -- in code of this size a place is the number that stands for it
  obtain ⟨-, hplace⟩ := toNat_saturateCount (n := place) (by omega)
  omega

end Code

/-- The program only jumps forward, and every run of one of its functions comes to an end within a
number of steps that only depends on the program: on all arguments, with all answers to its calls, and
however its functions call themselves. -/
theorem compiled_run_ends {root : Node} {p : BytecodeProgram} (hcompile : compile root = .ok p)
    (hsize : ∀ f ∈ p.functions.toList, f.code.size < 2147483648) :
    p.Forward ∧ ∀ {τ ε : Type} (runner : Machine.Runner τ ε) (entry : String) (args : List Value)
      (t : τ), ∃ r u, r ≠ .error .outOfFuel ∧
        ∀ fuel, p.stepLimit ≤ fuel → Machine.run runner fuel p entry args t = (r, u) := by
  have hforward : p.Forward := by
    intro f hf
    have hmem : f ∈ p.functions.toList := Array.mem_toList_iff.mpr hf
    obtain ⟨params, statements, before, codes, s, hbuilt, -⟩ := built_of_compile hcompile hmem
    exact hbuilt.forward (hsize f hmem)
  exact ⟨hforward, fun runner entry args t => Machine.run_ends runner hforward entry args t⟩

/-- A program with a function that calls itself twice where its argument is true, and so for ever. -/
def recurring : Node :=
  let var (id : String) : Node :=
    { kind := "Var", id, attrs := attrs [("name", .identifier "x")] }
  let call (id : String) (argument : Node) : Node :=
    { kind := "Call", id, attrs := attrs [("target", .identifier "f")], children := [argument] }
  let body : Node :=
    { kind := "If", id := "i"
      children :=
        [var "u", { kind := "Block", id := "t", children := [call "c" (var "v"), call "d" (var "w")] }] }
  { kind := "Program", id := "p"
    children :=
      [{ kind := "Let", id := "l", attrs := attrs [("name", .identifier "f")]
         children :=
          [{ kind := "Fn", id := "g", attrs := attrs [("params", .string "x")]
             children := [{ kind := "Block", id := "b", children := [body] }] }] },
       call "e" { kind := "Lit", id := "a", attrs := attrs [("value", .bool true)] }] }

/-- The functions of its bytecode. -/
def recurringFunctions : Array BytecodeFunction := #[
  { name := "main", params := [], locals := []
    code := #[.of .pushBool 1, .of .call (saturateCount 1) "f", .of .ret] },
  { name := "f", params := ["x"], locals := ["x"]
    code := #[.of .loadLocal (saturateCount 0), .of .jumpIfFalse (saturateCount 9),
      .of .loadLocal (saturateCount 0), .of .call (saturateCount 1) "f",
      .of .jumpIfErr (saturateCount 8), .of .pop,
      .of .loadLocal (saturateCount 0), .of .call (saturateCount 1) "f",
      .of .jump (saturateCount 10), .of .pushVoid, .of .ret] }]

theorem compiled_run_ends_recurring :
    compile recurring = .ok ⟨[], recurringFunctions⟩ ∧
      (∀ f ∈ recurringFunctions.toList, f.code.size < 2147483648) ∧
      BytecodeProgram.Forward ⟨[], recurringFunctions⟩ ∧
      ∃ r u, r ≠ .error .outOfFuel ∧
        ∀ fuel, BytecodeProgram.stepLimit ⟨[], recurringFunctions⟩ ≤ fuel →
          Machine.run (answering .void) fuel ⟨[], recurringFunctions⟩ "main" [] () = (r, u) := by
  have hcompile : compile recurring = .ok ⟨[], recurringFunctions⟩ := compile_eq (by decide +kernel)
  have hsize : ∀ f ∈ recurringFunctions.toList, f.code.size < 2147483648 := by decide +kernel
  obtain ⟨hforward, hends⟩ := compiled_run_ends hcompile hsize
  exact ⟨hcompile, hsize, hforward, hends (answering .void) "main" [] ()⟩

end Compiler

end Arbor
