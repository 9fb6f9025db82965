import Arbor.Proofs.Bytecode.Safety
import Arbor.Proofs.Compilation.Correctness

/-!
# Compiled code does not go wrong

The code of a node pushes exactly one value (`Compiles.nets`). So the machine, in the code of a compiled
program, never lacks an operand and never meets an index that leads nowhere (`run_compiled`).
-/

namespace Arbor.Compiler

open Machine

variable {p : BytecodeProgram} {steps : Nat} {c : Seat} {functions : List String}

/-! ## 1. Code of a function -/

/-- The function at the index does not go wrong from its start, when it may end. -/
def Enters (p : BytecodeProgram) (steps index : Nat) (f : BytecodeFunction) : Prop :=
  ∀ c : Seat, c.index = index → c.function = f → ∀ slots : List Value,
    slots.length = f.slotCount → (∀ j v, steps = j + 1 → (c.leave p v).Safe (Safe p j)) →
      (c.machine 0 slots []).Safe p steps

/-- Each name is that of a function which does not go wrong. -/
def Callable (p : BytecodeProgram) (steps : Nat) (functions : List String) : Prop :=
  ∀ target ∈ functions, ∃ index callee, p.functionIndex? target = some index ∧
    p.functions[index]? = some callee ∧ Enters p steps index callee

section Calls

variable (hc : p.functions[c.index]? = some c.function) {pc : Nat} {slots ops args : List Value}
  (hargs : args.length < 2147483648) {target : String}
  (hnext : ∀ v, (c.machine (pc + 1) slots (ops ++ [v])).Safe p (steps + 1))
include hc hargs hnext

/-- A call of a capability takes its arguments and comes to one value, whatever the answer. -/
theorem safe_callSys
    (hinst : c.function.code[pc]? = some (.of .callSys (saturateCount args.length) target)) :
    (c.machine pc slots (ops ++ args)).Safe p (steps + 1) := by
  apply (Safe.backwards p steps).callSys hc hargs hinst
  intro v
  have hpush := c.push_machine (pc + 1) slots ops c.function.name v
  by_cases hfull : maxStack ≤ c.below.length + ops.length
  · rw [if_pos hfull] at hpush
    rw [hpush]
    show "AIVM002" ∈ runtimeCodes
    decide
  · rw [if_neg hfull] at hpush
    rw [hpush]
    exact (hnext v).of_succ

theorem safe_call {index : Nat} {callee : BytecodeFunction}
    (hindex : p.functionIndex? target = some index) (hcallee : p.functions[index]? = some callee)
    (henters : Enters p steps index callee)
    (hinst : c.function.code[pc]? = some (.of .call (saturateCount args.length) target)) :
    (c.machine pc slots (ops ++ args)).Safe p (steps + 1) := by
  apply (Safe.backwards p steps).call hc (Safe.limit p steps) hindex hcallee hargs hinst
  · intro hfit
    apply henters (c.callee (pc + 1) slots ops index callee) rfl rfl
    · rw [List.length_append, List.length_replicate]
      unfold BytecodeFunction.slotCount
      omega
    · -- the end of the call is a step, so its value has a step less to go on for
      rintro j v rfl
      apply (Safe.backwards p j).leave_callee (Safe.limit p j)
      exact (hnext v).of_succ
  · intro _
    exact hnext .unknown

end Calls

/-- That a machine does not go wrong can be followed backwards through the code of all nodes, as long as
the function may end and so may those it calls. -/
theorem rules_safe (hcallable : Callable p steps functions)
    (hc : p.functions[c.index]? = some c.function)
    (hleave : ∀ v, (c.leave p v).Safe (Safe p steps)) :
    Rules p (Safe p (steps + 1)) (Transition.Safe (Safe p steps))
      (fun slots slots' => slots'.length = slots.length) c functions (fun _ => True) where
  backwards := Safe.backwards p steps
  limit := Safe.limit p steps
  odd := by
    intro v _
    show "AIVM007" ∈ runtimeCodes
    decide
  refl _ := rfl
  trans h h' := h'.trans h
  length h := h
  children _ _ _ := trivial
  bind _ _ slots i v := List.length_set ..
  leave _ _ := hleave
  capability _ _ _ _ pc slots ops args hargs hinst hnext := safe_callSys hc hargs hnext hinst
  function := by
    intro n target _ _ _ _ htarget pc slots ops args hargs hinst hnext
    obtain ⟨index, callee, hindex, hcallee, henters⟩ := hcallable target htarget
    exact safe_call hc hargs hnext hindex hcallee henters hinst

/-! ## 2. Programs -/

/-- No operand of the program saturates. A call has fewer arguments than its function has
instructions, so nothing is asked of it. -/
abbrev IsSmall (p : BytecodeProgram) : Prop :=
  p.constants.length < 2147483648 ∧
    ∀ f ∈ p.functions.toList, f.code.size < 2147483648 ∧ f.slotCount < 2147483648

theorem built_of_compile {root : Node} (h : compile root = .ok p) {f : BytecodeFunction}
    (hf : f ∈ p.functions.toList) : ∃ params statements constants codes s,
      Built ((definitions root).map Prod.fst) params statements constants f codes s ∧
        s.constants <+: p.constants := by
  obtain ⟨main, fs, before, codes, s, ha⟩ := assembled_of_compile h
  rw [ha.all] at hf
  rcases List.mem_cons.mp hf with rfl | hf
  · exact ⟨_, _, _, codes, s, ha.statements, ha.constants ▸ List.prefix_refl _⟩
  · obtain ⟨d, -, body, constants, codes', s', hdefines⟩ := ha.definition f hf
    exact ⟨_, _, constants, codes', s', hdefines.built, hdefines.constants⟩

/-- The name of a function leads to a function of that name, if not to the same one. -/
theorem exists_functionIndex {f : BytecodeFunction} (hf : f ∈ p.functions.toList) :
    ∃ index g, p.functionIndex? f.name = some index ∧ p.functions[index]? = some g ∧
      g.name = f.name := by
  have hfound : (p.functions.toList.reverse.findIdx? (·.name == f.name)).isSome = true := by
    rw [List.findIdx?_isSome, List.any_eq_true]
    exact ⟨f, List.mem_reverse.mpr hf, beq_self_eq_true f.name⟩
  obtain ⟨i, hi⟩ := Option.isSome_iff_exists.mp hfound
  obtain ⟨hlt, hname, -⟩ := List.findIdx?_eq_some_iff_getElem.mp hi
  rw [List.length_reverse] at hlt
  have hsize : p.functions.toList.length = p.functions.size := rfl
  have hindex : p.functions.size - 1 - i < p.functions.size := by omega
  refine ⟨p.functions.size - 1 - i, p.functions[p.functions.size - 1 - i], ?_,
    Array.getElem?_eq_getElem hindex, ?_⟩
  · unfold BytecodeProgram.functionIndex?
    rw [hi]
    rfl
  · rw [List.getElem_reverse, beq_iff_eq] at hname
    exact hname

theorem callable_definitions {root : Node} (h : compile root = .ok p)
    (henters : ∀ index f, p.functions[index]? = some f → Enters p steps index f) :
    Callable p steps ((definitions root).map Prod.fst) := by
  obtain ⟨main, fs, before, codes, s, ha⟩ := assembled_of_compile h
  intro target htarget
  rw [← ha.names] at htarget
  obtain ⟨f, hf, rfl⟩ := List.mem_map.mp htarget
  have hmem : f ∈ p.functions.toList := by
    rw [ha.all]
    exact List.mem_cons_of_mem main hf
  obtain ⟨index, callee, hindex, hcallee, -⟩ := exists_functionIndex hmem
  exact ⟨index, callee, hindex, hcallee, henters index callee hcallee⟩

/-- No function of a compiled program goes wrong from its start. By induction on the steps: what the
function calls has a step less. -/
theorem enters_of_compile {root : Node} (h : compile root = .ok p) (hsmall : IsSmall p)
    (steps index : Nat) {f : BytecodeFunction} (hf : p.functions[index]? = some f) :
    Enters p steps index f := by
  induction steps generalizing index f with
  | zero => exact fun _ _ _ _ _ _ => trivial
  | succ steps ih =>
    intro c hindex hfunction slots hslots hleave
    subst hindex hfunction
    have hmem : c.function ∈ p.functions.toList :=
      Array.mem_toList_iff.mpr (Array.mem_of_getElem? hf)
    obtain ⟨params, statements, before, codes, s, hbuilt, hconstants⟩ := built_of_compile h hmem
    obtain ⟨hsize, hslotCount⟩ := hsmall.2 _ hmem
    have hhome : Home p c s := by
      refine ⟨hf, hsize, hslotCount, hsmall.1, ?_, hconstants⟩
      rw [hbuilt.locals]
    have hcallable := callable_definitions h fun index f hf => ih index hf
    have hrules := rules_safe hcallable hf fun v => hleave steps v rfl
    obtain ⟨hplaced, hret⟩ := placed_body hbuilt.code
    have hbody := nets_sequence hrules hhome
      (hbuilt.compiles.allNet hrules (fun _ _ => trivial) hhome) hplaced
    apply hbody slots [] hslots
    intro slots' vs _ hvs
    obtain ⟨v, rfl⟩ := List.length_eq_one_iff.mp hvs
    exact (Safe.backwards p steps).ret hf hret (hleave steps v rfl)

theorem start_safe {root : Node} (h : compile root = .ok p) (hsmall : IsSmall p) {entry : String}
    {index : Nat} {f : BytecodeFunction} (hindex : p.functionIndex? entry = some index)
    (hf : p.functions[index]? = some f) {args : List Value} (hargs : args.length = f.params.length)
    (steps : Nat) : ∃ m, Machine.start p entry args = .ok m ∧ m.Safe p steps := by
  refine ⟨(Seat.mk index f [] []).machine 0
    (args ++ List.replicate (f.slotCount - args.length) .void) [], ?_, ?_⟩
  · unfold Machine.start
    rw [hindex, Option.bind_some, hf]
    dsimp only [Option.map_some]
    rw [if_neg (by omega)]
    rfl
  · apply enters_of_compile h hsmall steps index hf ⟨index, f, [], []⟩ rfl rfl
    · rw [List.length_append, List.length_replicate]
      unfold BytecodeFunction.slotCount
      omega
    · -- the outermost call ends the run
      intro j v _
      trivial

/-- Whatever function of a compiled program the machine starts in, and whoever answers its capability
calls, it fails at its limits and at conditions that are no truth values only. -/
theorem run_compiled {root : Node} (hcompile : compile root = .ok p) (hsmall : IsSmall p)
    {entry : BytecodeFunction} (hentry : entry ∈ p.functions.toList) {τ ε : Type}
    (runner : Runner τ ε) (fuel : Nat) (t : τ) :
    ∃ index f, p.functionIndex? entry.name = some index ∧ p.functions[index]? = some f ∧
      f.name = entry.name ∧ ∀ args : List Value, args.length = f.params.length → ∀ e u,
        Machine.run runner fuel p entry.name args t = (.error (.failed e), u) →
          e.code ∈ ["AIVM002", "AIVM004", "AIVM007"] := by
  obtain ⟨index, f, hindex, hf, hname⟩ := exists_functionIndex hentry
  refine ⟨index, f, hindex, hf, hname, fun args hargs e u hrun => ?_⟩
  obtain ⟨m, hstart, hsafe⟩ := start_safe hcompile hsmall hindex hf hargs fuel
  unfold Machine.run at hrun
  rw [hstart] at hrun
  exact Machine.exec_safe runner hsafe hrun

/-- Answers every capability call with one value. -/
def answering (v : Value) : Runner Unit Empty where
  call _ _ _ := (.ok v, ())
  wantsSteps _ := false
  observe _ _ := ()

/-- The machine does fail, at a number as a condition. -/
theorem run_compiled_oddBranch :
    Machine.run (answering .void) 3 ⟨[], oddBranchFunctions⟩ "main" [] () =
        (.error (.failed (Settles.oddCondition (.int 1) "main")), ()) ∧
      (Settles.oddCondition (.int 1) "main").code ∈ ["AIVM002", "AIVM004", "AIVM007"] := by
  have hrun : Machine.run (answering .void) 3 ⟨[], oddBranchFunctions⟩ "main" [] () =
      (.error (.failed (Settles.oddCondition (.int 1) "main")), ()) := rfl
  have hmain : oddBranchFunctions[0] ∈ oddBranchFunctions.toList := by decide +kernel
  obtain ⟨index, f, hindex, hf, -, hsafe⟩ := run_compiled faithful_oddBranch.compiled
    (by decide +kernel) hmain (answering .void) 3 ()
  obtain rfl : 0 = index := Option.some.inj hindex
  obtain rfl : oddBranchFunctions[0] = f := Option.some.inj hf
  exact ⟨hrun, hsafe [] rfl _ _ hrun⟩

end Arbor.Compiler
