import Arbor.Proofs.Bytecode.Rules
import Arbor.Proofs.Compilation.Code

/-!
# What code pushes

The code of a node pushes exactly one value, whatever way it takes through its jumps, unless it leaves
the function before its end (`Compiles.nets`). `Nets` says of two points of a function how many values
the code between them pushes; it is about any property of machines that can be followed backwards. What
the property has to say of bindings, returns and calls is asked of the nodes in question, in `Rules`.
-/

namespace Arbor.Compiler

open Machine

/-! ## 1. Where code stands -/

/-- Where the code of a body stands in its function, and the instruction behind it. -/
theorem placed_body {f : BytecodeFunction} {codes : List (List Instruction)}
    (h : f.code.toList = sequenceCode 0 codes ++ [.of .ret]) :
    Placed (sequenceCode 0 codes) 0 f ∧
      f.code[0 + (sequenceCode 0 codes).length]? = some (.of .ret) := by
  have hplaced : Placed (sequenceCode 0 codes ++ [.of .ret]) 0 f :=
    ⟨[], by rw [List.append_nil, List.drop_zero, h]⟩
  exact hplaced.append.imp_right fun hret => hret.head.1

/-- Where the parts of a branch stand. -/
theorem placed_branch {start : Nat} {f : BytecodeFunction} {code thenCode elseCode : List Instruction}
    (hplaced : Placed (branchCode start code thenCode elseCode) start f) :
    Placed code start f ∧
    f.code[start + code.length]? = some (.of .jumpIfFalse
      (saturateCount (start + code.length + 1 + thenCode.length + 1))) ∧
    Placed thenCode (start + code.length + 1) f ∧
    f.code[start + code.length + 1 + thenCode.length]? = some (.of .jump
      (saturateCount (start + code.length + 1 + thenCode.length + 1 + elseCode.length))) ∧
    Placed elseCode (start + code.length + 1 + thenCode.length + 1) f ∧
    start + code.length + 1 + thenCode.length + 1 + elseCode.length ≤ f.code.size := by
  unfold branchCode at hplaced
  simp only [List.append_assoc, List.singleton_append] at hplaced
  have hend : start + (code ++ .of .jumpIfFalse _ :: (thenCode ++ .of .jump _ :: elseCode)).length ≤
      f.code.size := hplaced.le_size
  simp only [List.length_append, List.length_cons] at hend
  obtain ⟨hcondition, hrest⟩ := hplaced.append
  obtain ⟨hskip, hrest⟩ := hrest.head
  obtain ⟨hthen, hrest⟩ := hrest.append
  obtain ⟨hjump, helse⟩ := hrest.head
  exact ⟨hcondition, hskip, hthen, hjump, helse, by omega⟩

theorem length_branchCode {start : Nat} (code thenCode elseCode : List Instruction) :
    start + (branchCode start code thenCode elseCode).length =
      start + code.length + 1 + thenCode.length + 1 + elseCode.length := by
  unfold branchCode
  simp only [List.length_append, List.length_cons, List.length_nil]
  omega

/-- The function of the seat is in the program and has what the scope names; its operands do not
saturate. -/
structure Home (p : BytecodeProgram) (c : Seat) (s : Scope) : Prop where
  function : p.functions[c.index]? = some c.function
  size : c.function.code.size < 2147483648
  slotCount : c.function.slotCount < 2147483648
  constantCount : p.constants.length < 2147483648
  locals : s.locals <+: c.function.locals
  constants : s.constants <+: p.constants

theorem Home.mono {s s' : Scope} (h : Home p c s') (hgrows : s.Grows s') : Home p c s :=
  { h with
    locals := hgrows.locals.trans h.locals
    constants := hgrows.constants.trans h.constants }

theorem Home.lt_slotCount {s : Scope} (h : Home p c s) {name : String} {i : Nat}
    (hi : s.locals.findIdx? (· == name) = some i) : i < c.function.slotCount := by
  obtain ⟨hlt, -⟩ := List.findIdx?_eq_some_iff_getElem.mp hi
  have hle := h.locals.length_le
  unfold BytecodeFunction.slotCount
  omega

theorem Home.constant {s : Scope} {text : String} (h : Home p c (s.constant (.str text)).2) :
    p.constants[(s.constant (.str text)).1]? = some (.str text) := by
  obtain ⟨more, hmore⟩ := h.constants
  have hindex := s.constants_constant text
  rw [← hmore, List.getElem?_append_left (List.getElem?_eq_some_iff.mp hindex).1]
  exact hindex

/-! ## 2. Code between two points -/

/-- Between the points the code pushes `count` values, and makes of the slots only such as `kept`
relates to them: the property `S` holds before the code when it holds behind it. -/
def Nets (S : Machine → Prop) (kept : List Value → List Value → Prop) (c : Seat)
    (start stop count : Nat) : Prop :=
  ∀ slots ops : List Value, slots.length = c.function.slotCount →
    (∀ slots' vs : List Value, kept slots slots' → vs.length = count →
      S (c.machine stop slots' (ops ++ vs))) →
    S (c.machine start slots ops)

/-- What is asked of a property that is followed backwards through the code of the nodes that `allowed`
admits: of any code, and of the nodes that bind a name, leave the function or call something. -/
structure Rules (p : BytecodeProgram) (S : Machine → Prop) (A : Transition → Prop)
    (kept : List Value → List Value → Prop) (c : Seat) (functions : List String)
    (allowed : Node → Prop) : Prop where
  backwards : Backwards p S A
  limit : ∀ e : BytecodeError, e.IsLimit → A (.failed e)
  odd : ∀ v : Value, v.kind ≠ .bool →
    A (.failed (.typeMismatch ("JUMP_IF_FALSE expects bool, got " ++ v.kind.name) c.function.name))
  refl : ∀ slots, kept slots slots
  trans : ∀ {slots slots' slots''}, kept slots slots' → kept slots' slots'' → kept slots slots''
  length : ∀ {slots slots'}, kept slots slots' → slots'.length = slots.length
  children : ∀ {n}, allowed n → ∀ m ∈ n.children, allowed m
  bind : ∀ {n}, allowed n → n.form? = some .bind → ∀ slots i v, kept slots (slots.set i v)
  leave : ∀ {n}, allowed n → n.form? = some .leave → ∀ v, A (c.leave p v)
  capability : ∀ {n target}, allowed n → n.form? = some .call → n.ident? "target" = some target →
    (Contract.lookup? target).isSome → ∀ pc (slots ops args : List Value),
    args.length < 2147483648 →
    c.function.code[pc]? = some (.of .callSys (saturateCount args.length) target) →
    (∀ v, S (c.machine (pc + 1) slots (ops ++ [v]))) → S (c.machine pc slots (ops ++ args))
  function : ∀ {n target}, allowed n → n.form? = some .call → n.ident? "target" = some target →
    Contract.lookup? target = none → target ∈ functions → ∀ pc (slots ops args : List Value),
    args.length < 2147483648 →
    c.function.code[pc]? = some (.of .call (saturateCount args.length) target) →
    (∀ v, S (c.machine (pc + 1) slots (ops ++ [v]))) → S (c.machine pc slots (ops ++ args))

section Rules

variable {p : BytecodeProgram} {S : Machine → Prop} {A : Transition → Prop}
  {kept : List Value → List Value → Prop} {c : Seat} {functions : List String}
  {allowed : Node → Prop} (hr : Rules p S A kept c functions allowed)

theorem Nets.of_eq {start stop stop' count : Nat} (h : Nets S kept c start stop count)
    (hstop : stop = stop') : Nets S kept c start stop' count := hstop ▸ h

include hr

theorem Nets.refl (point : Nat) : Nets S kept c point point 0 := by
  intro slots ops _ hnext
  have hend := hnext slots [] (hr.refl slots) rfl
  rwa [List.append_nil] at hend

theorem Nets.trans {start middle stop count more : Nat} (h : Nets S kept c start middle count)
    (h' : Nets S kept c middle stop more) : Nets S kept c start stop (count + more) := by
  intro slots ops hslots hnext
  apply h slots ops hslots
  intro slots' vs hslots' hvs
  apply h' slots' (ops ++ vs) ((hr.length hslots').trans hslots)
  intro slots'' vs' hslots'' hvs'
  rw [List.append_assoc]
  apply hnext slots'' (vs ++ vs') (hr.trans hslots' hslots'')
  rw [List.length_append, hvs, hvs']

/-- Code that pushes one value, whatever it is, nets one. -/
theorem Nets.push {start : Nat} (value : List Value → Value)
    (h : ∀ slots ops, slots.length = c.function.slotCount →
      S (c.machine (start + 1) slots (ops ++ [value slots])) → S (c.machine start slots ops)) :
    Nets S kept c start (start + 1) 1 := by
  intro slots ops hslots hnext
  exact h slots ops hslots (hnext slots [value slots] (hr.refl slots) rfl)

section Instructions

variable {s : Scope} (h : Home p c s) {start stop : Nat}
include h

theorem nets_pushVoid (hinst : c.function.code[start]? = some (.of .pushVoid)) :
    Nets S kept c start (start + 1) 1 :=
  .push hr (fun _ => .void) fun _ _ _ hnext => hr.backwards.pushVoid h.function hr.limit hinst hnext

theorem nets_pushInt {i : Int32} (hinst : c.function.code[start]? = some (.of .pushInt i)) :
    Nets S kept c start (start + 1) 1 :=
  .push hr (fun _ => .int i) fun _ _ _ hnext => hr.backwards.pushInt h.function hr.limit hinst hnext

theorem nets_pushBool {b : Bool}
    (hinst : c.function.code[start]? = some (.of .pushBool (if b then 1 else 0))) :
    Nets S kept c start (start + 1) 1 :=
  .push hr (fun _ => .bool b) fun _ _ _ hnext => hr.backwards.pushBool h.function hr.limit hinst hnext

theorem nets_const {index : Nat} {v : Value} (hindex : p.constants[index]? = some v)
    (hinst : c.function.code[start]? = some (.of .const (saturateCount index))) :
    Nets S kept c start (start + 1) 1 :=
  .push hr (fun _ => v) fun _ _ _ hnext =>
    hr.backwards.const h.function hr.limit hindex h.constantCount hinst hnext

theorem nets_loadLocal {i : Nat} (hi : i < c.function.slotCount)
    (hinst : c.function.code[start]? = some (.of .loadLocal (saturateCount i))) :
    Nets S kept c start (start + 1) 1 := by
  refine .push hr (fun slots => slots.getD i .void) fun slots ops hslots hnext => ?_
  have hlt : i < slots.length := by omega
  have hsize : slots.length < 2147483648 := hslots ▸ h.slotCount
  have hvalue : slots[i]? = some (slots.getD i .void) := by
    rw [List.getD_eq_getElem?_getD, List.getElem?_eq_getElem hlt]
    rfl
  exact hr.backwards.loadLocal h.function hr.limit hvalue hsize hinst hnext

theorem Nets.storeLocal (hcode : Nets S kept c start stop 1) {i : Nat}
    (hi : i < c.function.slotCount) (hset : ∀ slots v, kept slots (slots.set i v))
    (hinst : c.function.code[stop]? = some (.of .storeLocal (saturateCount i))) :
    Nets S kept c start (stop + 1) 0 := by
  intro slots ops hslots hnext
  apply hcode slots ops hslots
  intro slots' vs hslots' hvs
  obtain ⟨v, rfl⟩ := List.length_eq_one_iff.mp hvs
  have hcount : slots'.length = c.function.slotCount := (hr.length hslots').trans hslots
  have hlt : i < slots'.length := by omega
  have hsize : slots'.length < 2147483648 := hcount ▸ h.slotCount
  apply hr.backwards.storeLocal h.function hlt hsize hinst
  have hend := hnext (slots'.set i v) [] (hr.trans hslots' (hset slots' v)) rfl
  rwa [List.append_nil] at hend

theorem Nets.jump {count target : Nat} (hcode : Nets S kept c start stop count)
    (htarget : target ≤ c.function.code.size)
    (hinst : c.function.code[stop]? = some (.of .jump (saturateCount target))) :
    Nets S kept c start target count := by
  intro slots ops hslots hnext
  apply hcode slots ops hslots
  intro slots' vs hslots' hvs
  apply hr.backwards.jump h.function htarget h.size hinst
  exact hnext slots' vs hslots' hvs

/-- The jump at an error keeps it as the value of all the code. -/
theorem Nets.jumpIfErr {target : Nat} (hcode : Nets S kept c start stop 1)
    (htarget : target ≤ c.function.code.size)
    (hjump : c.function.code[stop]? = some (.of .jumpIfErr (saturateCount target)))
    (hpop : c.function.code[stop + 1]? = some (.of .pop))
    (hmore : Nets S kept c (stop + 2) target 1) : Nets S kept c start target 1 := by
  intro slots ops hslots hnext
  apply hcode slots ops hslots
  intro slots' vs hslots' hvs
  obtain ⟨v, rfl⟩ := List.length_eq_one_iff.mp hvs
  apply hr.backwards.jumpIfErr h.function htarget h.size hjump
  · intro _
    exact hnext slots' [v] hslots' rfl
  · intro _
    apply hr.backwards.pop h.function hpop
    apply hmore slots' ops ((hr.length hslots').trans hslots)
    exact fun slots'' vs hslots'' => hnext slots'' vs (hr.trans hslots' hslots'')

/-- Both ways from a condition come to the same point with as many values. -/
theorem Nets.jumpIfFalse {target last count : Nat} (hcode : Nets S kept c start stop 1)
    (htarget : target ≤ c.function.code.size)
    (hinst : c.function.code[stop]? = some (.of .jumpIfFalse (saturateCount target)))
    (htrue : Nets S kept c (stop + 1) last count) (hfalse : Nets S kept c target last count) :
    Nets S kept c start last count := by
  intro slots ops hslots hnext
  apply hcode slots ops hslots
  intro slots' vs hslots' hvs
  obtain ⟨v, rfl⟩ := List.length_eq_one_iff.mp hvs
  have hcount : slots'.length = c.function.slotCount := (hr.length hslots').trans hslots
  have hlast : ∀ slots'' vs, kept slots' slots'' → vs.length = count →
      S (c.machine last slots'' (ops ++ vs)) :=
    fun slots'' vs hslots'' => hnext slots'' vs (hr.trans hslots' hslots'')
  apply hr.backwards.jumpIfFalse h.function htarget h.size hinst
  · intro _
    exact hfalse slots' ops hcount hlast
  · intro _
    exact htrue slots' ops hcount hlast
  · exact hr.odd v

/-- Behind the end of a call nothing is reached. -/
theorem Nets.ret (hcode : Nets S kept c start stop 1) (hleave : ∀ v, A (c.leave p v))
    (hinst : c.function.code[stop]? = some (.of .ret)) (last count : Nat) :
    Nets S kept c start last count := by
  intro slots ops hslots _
  apply hcode slots ops hslots
  intro slots' vs _ hvs
  obtain ⟨v, rfl⟩ := List.length_eq_one_iff.mp hvs
  exact hr.backwards.ret h.function hinst (hleave v)

omit h hr in
/-- What takes operands and pushes one value, whatever it is. -/
theorem Nets.taking {count : Nat} (hcode : Nets S kept c start stop count)
    (htake : ∀ slots ops args : List Value, args.length = count →
      (∀ v, S (c.machine (stop + 1) slots (ops ++ [v]))) → S (c.machine stop slots (ops ++ args))) :
    Nets S kept c start (stop + 1) 1 := by
  intro slots ops hslots hnext
  apply hcode slots ops hslots
  intro slots' vs hslots' hvs
  apply htake slots' ops vs hvs
  exact fun v => hnext slots' [v] hslots' rfl

end Instructions

/-! ## 3. Lists of nodes -/

/-- Wherever the codes of a list stand in the function, with a gap between one and the next, each pushes
one value. -/
def AllNet (S : Machine → Prop) (kept : List Value → List Value → Prop) (c : Seat) (gap : Nat) :
    Nat → List (List Instruction) → Prop
  | _, [] => True
  | start, code :: codes =>
    (Placed code start c.function → Nets S kept c start (start + code.length) 1) ∧
      AllNet S kept c gap (start + code.length + gap) codes

theorem nets_operands {start : Nat} {codes : List (List Instruction)}
    (hcodes : AllNet S kept c 0 start codes) (hplaced : Placed codes.flatten start c.function) :
    Nets S kept c start (start + codes.flatten.length) codes.length := by
  induction codes generalizing start with
  | nil => exact Nets.refl hr start
  | cons code codes ih =>
    rw [List.flatten_cons] at hplaced
    obtain ⟨hfirst, hrest⟩ := hplaced.append
    have hnets := (hcodes.1 hfirst).trans hr (ih hcodes.2 hrest)
    rw [List.flatten_cons, List.length_append, List.length_cons, Nat.add_comm codes.length 1,
      ← Nat.add_assoc start]
    exact hnets

theorem nets_statements {s : Scope} (h : Home p c s) {start stop : Nat} {code : List Instruction}
    {codes : List (List Instruction)} (hcodes : AllNet S kept c 2 start (code :: codes))
    (hstop : stop = start + sequenceLength (code :: codes))
    (hplaced : Placed (joinStatements stop (code :: codes)) start c.function) :
    Nets S kept c start stop 1 := by
  induction codes generalizing start code with
  | nil =>
    rw [sequenceLength_singleton] at hstop
    subst hstop
    exact hcodes.1 hplaced
  | cons next more ih =>
    rw [joinStatements_cons] at hplaced
    rw [sequenceLength_cons] at hstop
    have hend : stop ≤ c.function.code.size := by
      have hle := hplaced.le_size
      have hlength := length_joinStatements stop (next :: more)
      rw [List.length_append, List.length_cons, List.length_cons, hlength] at hle
      omega
    -- behind a statement its value is kept when it is an error, and dropped when not
    obtain ⟨hfirst, hrest⟩ := hplaced.append
    obtain ⟨hjump, hrest⟩ := hrest.head
    obtain ⟨hpop, hrest⟩ := hrest.head
    apply (hcodes.1 hfirst).jumpIfErr hr h hend hjump hpop
    exact ih hcodes.2 (by omega) hrest

theorem nets_sequence {s : Scope} (h : Home p c s) {start : Nat} {codes : List (List Instruction)}
    (hcodes : AllNet S kept c 2 start codes)
    (hplaced : Placed (sequenceCode start codes) start c.function) :
    Nets S kept c start (start + (sequenceCode start codes).length) 1 := by
  rw [length_sequenceCode]
  cases codes with
  | nil => exact nets_pushVoid hr h hplaced.head.1
  | cons code codes => exact nets_statements hr h hcodes rfl hplaced

/-! ## 4. Nodes -/

section Nodes

omit hr in
/-- A call with as many arguments as fit into the code has a count that does not saturate. -/
theorem argumentCount_lt {start : Nat} {ns : List Node} {s s' : Scope}
    {codes : List (List Instruction)} (h : CompilesAll functions 0 start ns s codes s')
    (hhome : Home p c s') {inst : Instruction}
    (hplaced : Placed (codes.flatten ++ [inst]) start c.function) : ns.length < 2147483648 := by
  have hle := h.length_le
  have hcount := h.length_codes
  have hend := hplaced.le_size
  have hsize := hhome.size
  rw [List.length_append, List.length_singleton] at hend
  omega

/-- Where the parts of a branch stand. -/
theorem nets_branch {s : Scope} (h : Home p c s) {start : Nat}
    {code thenCode elseCode : List Instruction}
    (hplaced : Placed (branchCode start code thenCode elseCode) start c.function)
    (hcondition : Placed code start c.function → Nets S kept c start (start + code.length) 1)
    (hthen : Placed thenCode (start + code.length + 1) c.function →
      Nets S kept c (start + code.length + 1) (start + code.length + 1 + thenCode.length) 1)
    (helse : Placed elseCode (start + code.length + 1 + thenCode.length + 1) c.function →
      Nets S kept c (start + code.length + 1 + thenCode.length + 1)
        (start + code.length + 1 + thenCode.length + 1 + elseCode.length) 1) :
    Nets S kept c start (start + (branchCode start code thenCode elseCode).length) 1 := by
  obtain ⟨hfirst, hskip, hsecond, hjump, hthird, hend⟩ := placed_branch hplaced
  rw [length_branchCode]
  apply (hcondition hfirst).jumpIfFalse hr h (by omega) hskip
  · exact (hthen hsecond).jump hr h hend hjump
  · exact helse hthird

end Nodes

end Rules

section

variable {p : BytecodeProgram} {S : Machine → Prop} {A : Transition → Prop}
  {kept : List Value → List Value → Prop} {c : Seat} {functions : List String}
  {allowed : Node → Prop}

mutual

/-- The code of a node that is allowed pushes one value. -/
theorem Compiles.nets (hr : Rules p S A kept c functions allowed) {start : Nat} {n : Node}
    {s s' : Scope} {code : List Instruction} :
    Compiles functions start n s code s' → allowed n → Home p c s' → Placed code start c.function →
      Nets S kept c start (start + code.length) 1
  | .sequence _ hcodes, hn, h, hplaced =>
    nets_sequence hr h (hcodes.allNet hr (hr.children hn) h) hplaced
  | @Compiles.bind _ _ _ _ name _ _ s' hform _ hchildren hchild, hn, h, hplaced => by
    obtain ⟨hfirst, hrest⟩ := hplaced.append
    obtain ⟨hstore, hrest⟩ := hrest.head
    have hslot := h.lt_slotCount (s'.findIdx?_resolve name)
    have hnets := hchild.nets hr (hr.children hn _ (hchildren ▸ List.mem_cons_self))
      (h.mono (s'.grows_resolve name)) hfirst
    have hset := fun slots v => hr.bind hn hform slots (s'.resolve name).1 v
    have hall := (hnets.storeLocal hr h hslot hset hstore).trans hr (nets_pushVoid hr h hrest.head.1)
    apply hall.of_eq
    rw [List.length_append]
    rfl
  | .var _ _ hslot, _, h, hplaced => nets_loadLocal hr h (h.lt_slotCount hslot) hplaced.head.1
  | .text _ _, _, h, hplaced => nets_const hr h h.constant hplaced.head.1
  | .int _ _, _, h, hplaced => nets_pushInt hr h hplaced.head.1
  | .bool _ _, _, h, hplaced => nets_pushBool hr h hplaced.head.1
  | .callSys hform htarget hlookup hcodes, hn, h, hplaced => by
    have hcount := argumentCount_lt hcodes h hplaced
    obtain ⟨hfirst, hrest⟩ := hplaced.append
    have hnets := nets_operands hr (hcodes.allNet hr (hr.children hn) h) hfirst
    rw [hcodes.length_codes] at hnets
    refine (hnets.taking fun slots ops args hargs hnext => ?_).of_eq ?_
    · exact hr.capability hn hform htarget hlookup _ slots ops args (hargs ▸ hcount)
        (hargs ▸ hrest.head.1) hnext
    · rw [List.length_append]
      rfl
  | .call hform htarget hlookup hmem hcodes, hn, h, hplaced => by
    have hcount := argumentCount_lt hcodes h hplaced
    obtain ⟨hfirst, hrest⟩ := hplaced.append
    have hnets := nets_operands hr (hcodes.allNet hr (hr.children hn) h) hfirst
    rw [hcodes.length_codes] at hnets
    refine (hnets.taking fun slots ops args hargs hnext => ?_).of_eq ?_
    · exact hr.function hn hform htarget hlookup hmem _ slots ops args (hargs ▸ hcount)
        (hargs ▸ hrest.head.1) hnext
    · rw [List.length_append]
      rfl
  | .branch _ hchildren hcondition hthen, hn, h, hplaced =>
    nets_branch hr h hplaced
      (hcondition.nets hr (hr.children hn _ (by simp [hchildren])) (h.mono hthen.grows))
      (hthen.nets hr (hr.children hn _ (by simp [hchildren])) h)
      fun helse => nets_pushVoid hr h helse.head.1
  | .branchElse _ hchildren hcondition hthen helse, hn, h, hplaced =>
    nets_branch hr h hplaced
      (hcondition.nets hr (hr.children hn _ (by simp [hchildren]))
        (h.mono (hthen.grows.trans helse.grows)))
      (hthen.nets hr (hr.children hn _ (by simp [hchildren])) (h.mono helse.grows))
      (helse.nets hr (hr.children hn _ (by simp [hchildren])) h)
  | .leaveVoid hform _, hn, h, hplaced => by
    obtain ⟨hpush, hrest⟩ := hplaced.head
    exact (nets_pushVoid hr h hpush).ret hr h (hr.leave hn hform) hrest.head.1 _ _
  | .leave hform hchildren hchild, hn, h, hplaced => by
    obtain ⟨hfirst, hrest⟩ := hplaced.append
    have hnets := hchild.nets hr (hr.children hn _ (hchildren ▸ List.mem_cons_self)) h hfirst
    exact hnets.ret hr h (hr.leave hn hform) hrest.head.1 _ _
  | .operator _ harity hcodes, hn, h, hplaced => by
    obtain ⟨hfirst, hrest⟩ := hplaced.append
    have hnets := nets_operands hr (hcodes.allNet hr (hr.children hn) h) hfirst
    rw [hcodes.length_codes, harity] at hnets
    refine (hnets.taking fun slots ops args hargs hnext => ?_).of_eq ?_
    · exact hr.backwards.operator h.function hr.limit hargs hrest.head.1 (hnext _)
    · rw [List.length_append]
      rfl

/-- Each code of a list of such nodes pushes one value. -/
theorem CompilesAll.allNet (hr : Rules p S A kept c functions allowed) {gap start : Nat}
    {ns : List Node} {s s' : Scope} {codes : List (List Instruction)} :
    CompilesAll functions gap start ns s codes s' → (∀ n ∈ ns, allowed n) → Home p c s' →
      AllNet S kept c gap start codes
  | .nil, _, _ => trivial
  | .cons hcode hcodes, hns, h =>
    ⟨hcode.nets hr (hns _ List.mem_cons_self) (h.mono hcodes.grows),
      hcodes.allNet hr (fun n hn => hns n (List.mem_cons_of_mem _ hn)) h⟩

end

end

end Arbor.Compiler
