import Arbor.Proofs.Bytecode.Bounds
import Mathlib.Algebra.Order.Group.Nat

/-!
# Programs that only jump forward

When every jump of a program leads behind the instruction that makes it, no frame comes to the same
instruction twice, and as the number of frames is limited there is only so much that the machine can
do. `Machine.work` is a bound on it, which every step lowers (`Machine.step_work`). A frame weighs
more than everything that can still go on in the frames that it may call. So every run comes to an end
within a number of steps that only depends on the program (`Machine.run_ends`).
-/

namespace Arbor

/-! ## 1. Forward jumps -/

/-- Where the instruction may jump to. -/
def Instruction.jumpTarget? (i : Instruction) : Option Int32 :=
  match i.opcode? with
  | some .jump | some .jumpIfFalse | some .jumpIfErr => some i.a
  | _ => none

/-- From this place in a function the instruction jumps ahead, if it jumps at all. -/
def Instruction.JumpsAhead (i : Instruction) (place : Nat) : Prop :=
  ∀ target ∈ i.jumpTarget?, (place : Int) < target.toInt

-- named, as a search may come up with the instance that goes through every `Int32`
instance (i : Instruction) (place : Nat) : Decidable (i.JumpsAhead place) :=
  Option.decidableForallMem i.jumpTarget?

/-- Every jump of the function leads behind the instruction that makes it. -/
def BytecodeFunction.Forward (f : BytecodeFunction) : Prop :=
  ∀ i (h : i < f.code.size), f.code[i].JumpsAhead i

instance (f : BytecodeFunction) : Decidable f.Forward :=
  inferInstanceAs (Decidable (∀ i (h : i < f.code.size), f.code[i].JumpsAhead i))

namespace BytecodeProgram

/-- No function of the program jumps back. -/
def Forward (p : BytecodeProgram) : Prop := ∀ f ∈ p.functions, f.Forward

instance (p : BytecodeProgram) : Decidable p.Forward :=
  inferInstanceAs (Decidable (∀ f ∈ p.functions, f.Forward))

/-- The number of instructions of the program. -/
def instructionCount (p : BytecodeProgram) : Nat :=
  (p.functions.toList.map (·.code.toList)).flatten.length

theorem size_le_instructionCount {p : BytecodeProgram} {index : Nat} {f : BytecodeFunction}
    (hfound : p.functions[index]? = some f) : f.code.size ≤ p.instructionCount := by
  have hmem : f ∈ p.functions.toList := Array.mem_toList_iff.mpr (Array.mem_of_getElem? hfound)
  have hcode : f.code.toList ∈ p.functions.toList.map (·.code.toList) :=
    List.mem_map.mpr ⟨f, hmem, rfl⟩
  exact (List.sublist_flatten_of_mem hcode).length_le

end BytecodeProgram

namespace Machine

/-! ## 2. The work that is left -/

variable (p : BytecodeProgram)

/-- The number of instructions behind the one that the frame has come to. -/
def instructionsLeft (f : Frame) : Nat :=
  match p.functions[f.function]? with
  | some function => function.code.size - f.pc
  | none => 0

/-- What an instruction counts in a frame inside of so many others: more than all that can go on in
the frames that may come to be inside of this one. -/
def weight (outside : Nat) : Nat := (p.instructionCount + 2) ^ (maxFrames - outside)

/-- A bound on the steps that are left in the frames, from the innermost. -/
def work : List Frame → Nat
  | [] => 0
  | f :: outer => (instructionsLeft p f + 1) * weight p outer.length + work outer

variable {p}

theorem work_cons (f : Frame) (outer : List Frame) :
    work p (f :: outer) = (instructionsLeft p f + 1) * weight p outer.length + work p outer := rfl

theorem weight_pos (outside : Nat) : 0 < weight p outside := Nat.pow_pos (by omega)

theorem instructionsLeft_le (f : Frame) : instructionsLeft p f ≤ p.instructionCount := by
  unfold instructionsLeft
  split
  · next function hfound =>
    have hsize := BytecodeProgram.size_le_instructionCount hfound
    omega
  · exact Nat.zero_le _

/-- There is less to do in a frame than an instruction counts in the one outside. -/
theorem frame_lt_weight {outside : Nat} (hdepth : outside < maxFrames) (f : Frame) :
    (instructionsLeft p f + 1) * weight p (outside + 1) < weight p outside := by
  have hleft := instructionsLeft_le (p := p) f
  have hweight : weight p outside = (p.instructionCount + 2) * weight p (outside + 1) := by
    unfold weight
    rw [show maxFrames - outside = maxFrames - (outside + 1) + 1 by omega, Nat.pow_succ,
      Nat.mul_comm]
  rw [hweight]
  exact Nat.mul_lt_mul_of_pos_right (by omega) (weight_pos _)

/-! ## 3. Steps lower the work -/

/-- The machine has less work left than the bound. -/
def Within (p : BytecodeProgram) (bound : Nat) (m : Machine) : Prop := work p m.frames < bound

section Steps

variable {m : Machine} {bound : Nat} {name : String}

theorem push_within (h : Within p bound m) (v : Value) :
    Ensures (Within p bound) (m.push name v) := by
  unfold push
  split
  · exact .error _
  · exact .ok h

theorem pop_frames : Ensures (fun r => r.2.frames = m.frames) (m.pop name) := by
  unfold pop
  split
  · exact .ok rfl
  · exact .error _

theorem popMany_frames (count : Nat) :
    Ensures (fun r => r.2.frames = m.frames) (m.popMany name count) := by
  unfold popMany
  split
  · exact .error _
  · exact .ok rfl

theorem popArgs_frames (count : Int32) :
    Ensures (fun r => r.2.frames = m.frames) (m.popArgs name count) := by
  unfold popArgs
  split
  · exact .error _
  · exact popMany_frames _

variable {frame : Frame} {outer : List Frame} {function : BytecodeFunction}

theorem leave_within (hframes : m.frames = frame :: outer) (hbound : work p m.frames ≤ bound)
    (v : Value) : (m.leave p v).Into (Within p bound) := by
  have hpos : 0 < (instructionsLeft p frame + 1) * weight p outer.length :=
    Nat.mul_pos (Nat.succ_pos _) (weight_pos _)
  have houter : work p outer < bound := by
    rw [hframes, work_cons] at hbound
    omega
  unfold leave
  rw [hframes]
  cases outer with
  | nil => trivial
  | cons caller outer =>
    refine (push_within (m := ⟨_, caller :: outer⟩) ?_ v).proceed
    exact houter

/-- A jump that does not lead back. -/
theorem jump_within (hfound : p.functions[frame.function]? = some function)
    (hframes : m.frames = frame :: outer) {target : Int32}
    (hforward : (frame.pc : Int) ≤ target.toInt) (hbound : work p (frame :: outer) < bound) :
    Ensures (Within p bound) (m.jump function target) := by
  have hleft : instructionsLeft p { frame with pc := target.toInt.toNat } ≤
      instructionsLeft p frame := by
    unfold instructionsLeft
    simp only [hfound]
    omega
  have hwork := Nat.mul_le_mul_right (weight p outer.length) (Nat.succ_le_succ hleft)
  rw [work_cons] at hbound
  unfold jump mapFrame
  rw [hframes]
  split
  · exact .error _
  · refine .ok ?_
    show work p ({ frame with pc := target.toInt.toNat } :: outer) < bound
    rw [work_cons]
    exact Nat.lt_of_le_of_lt (Nat.add_le_add_right hwork _) hbound

/-- A call takes less than an instruction of the caller counts. -/
theorem enter_within (hframes : m.frames = frame :: outer) (index : Nat) (callee : BytecodeFunction)
    (args : List Value) :
    Ensures (Within p (work p m.frames + weight p outer.length)) (m.enter index callee args) := by
  unfold enter
  by_cases hdepth : maxFrames ≤ m.frames.length
  · rw [if_pos hdepth]
    exact .error _
  · rw [if_neg hdepth]
    have hlength : m.frames.length = outer.length + 1 := by rw [hframes, List.length_cons]
    refine .ok ?_
    have hnew := frame_lt_weight (p := p) (by omega : outer.length < maxFrames) ⟨index, 0,
      (args ++ List.replicate (callee.slotCount - args.length) Value.void).toArray, m.stack.size⟩
    show work p (_ :: m.frames) < _
    rw [work_cons, hlength]
    omega

/-- What an instruction leads to, when it is counted already. -/
theorem execute_within (hfound : p.functions[frame.function]? = some function)
    (hframes : m.frames = frame :: outer) {op : Opcode} {inst : Instruction}
    (hop : inst.opcode? = some op)
    (hforward : ∀ target ∈ inst.jumpTarget?, (frame.pc : Int) ≤ target.toInt) (old : Frame) :
    (execute p m old function op inst).Into
      (Within p (work p m.frames + weight p outer.length)) := by
  have hpos := weight_pos (p := p) outer.length
  have hkept {r : Machine} (hr : r.frames = m.frames) :
      Within p (work p m.frames + weight p outer.length) r := by
    show work p r.frames < _
    rw [hr]
    omega
  have hjump {r : Machine} (hr : r.frames = m.frames) (htarget : inst.a ∈ inst.jumpTarget?) :
      Ensures (Within p (work p m.frames + weight p outer.length)) (r.jump function inst.a) := by
    refine jump_within hfound (hr.trans hframes) (hforward _ htarget) ?_
    rw [← hframes]
    omega
  unfold execute
  cases op with
  | nop => exact hkept rfl
  | const => exact (Ensures.after _ fun v => push_within (hkept rfl) v).proceed
  | pushInt => exact (push_within (hkept rfl) _).proceed
  | pushBool => exact (push_within (hkept rfl) _).proceed
  | pushVoid => exact (push_within (hkept rfl) _).proceed
  | pop => exact (pop_frames.bind fun r hr => .ok (hkept hr)).proceed
  | dup => exact (Ensures.after _ fun v => push_within (hkept rfl) v).proceed
  | loadLocal => exact (Ensures.after _ fun i => push_within (hkept rfl) _).proceed
  | storeLocal =>
    refine (Ensures.after _ fun i => pop_frames.bind fun r hr => .ok ?_).proceed
    show work p (r.2.mapFrame _).frames < _
    unfold mapFrame
    rw [hr, hframes]
    -- the frame has another local, and as much before it
    show work p (frame :: outer) < _
    omega
  | jump => exact (hjump rfl (by simp [Instruction.jumpTarget?, hop])).proceed
  | jumpIfFalse =>
    refine (pop_frames.bind fun ⟨v, r⟩ hr => ?_).proceed
    dsimp only
    split
    · exact hjump hr (by simp [Instruction.jumpTarget?, hop])
    · exact .ok (hkept hr)
    · exact .error _
  | jumpIfErr =>
    refine (Ensures.after _ fun v => ?_).proceed
    split
    · exact hjump rfl (by simp [Instruction.jumpTarget?, hop])
    · exact .ok (hkept rfl)
  | operator shared =>
    exact ((popMany_frames _).bind fun r hr => push_within (hkept hr) _).proceed
  | call =>
    refine ((popArgs_frames _).bind fun ⟨args, r⟩ hr => ?_).proceed
    dsimp only
    split
    · exact .error _
    · split
      · exact .error _
      · split
        · rw [← hr]
          exact enter_within (hr.trans hframes) _ _ args
        · exact push_within (hkept hr) _
  | callSys =>
    dsimp only
    split
    · next hargs => exact hkept (popArgs_frames _ _ hargs)
    · trivial
  | ret => exact leave_within hframes (Nat.le_add_right _ _) _
  | halt => trivial

theorem fetch_instruction {op : Opcode} {inst : Instruction}
    (h : m.fetch p = .instruction frame function op inst) :
    (∃ outer, m.frames = frame :: outer) ∧ p.functions[frame.function]? = some function ∧
      function.code[frame.pc]? = some inst ∧ inst.opcode? = some op := by
  have hfacing := Facing.of_instruction h
  obtain ⟨outer, hframes⟩ := hfacing.innermost
  refine ⟨⟨outer, hframes⟩, hfacing.found, ?_⟩
  unfold fetch at h
  simp only [hframes, hfacing.found] at h
  split at h
  · cases h
  · next hinst =>
    split at h
    · cases h
    · next hop =>
      cases h
      exact ⟨hinst, hop⟩

theorem fetch_functionEnd (h : m.fetch p = .functionEnd) :
    ∃ frame outer, m.frames = frame :: outer := by
  unfold fetch at h
  split at h
  · cases h
  · next frame outer hframes => exact ⟨frame, outer, hframes⟩

/-- A step lowers the work that is left. -/
theorem step_work (hforward : p.Forward) : (m.step p).Into (Within p (work p m.frames)) := by
  unfold step
  cases hfetch : m.fetch p with
  | nothing => trivial
  | functionEnd =>
    obtain ⟨frame, outer, hframes⟩ := fetch_functionEnd hfetch
    exact leave_within hframes (Nat.le_refl _) _
  | unknown e => trivial
  | instruction frame function op inst =>
    obtain ⟨⟨outer, hframes⟩, hfound, hinst, hop⟩ := fetch_instruction hfetch
    obtain ⟨hlt, hget⟩ := Array.getElem?_eq_some_iff.mp hinst
    have hjumps : ∀ target ∈ inst.jumpTarget?, ((frame.pc + 1 : Nat) : Int) ≤ target.toInt := by
      intro target htarget
      rw [← hget] at htarget
      have hbehind := hforward function (Array.mem_of_getElem? hfound) frame.pc hlt target htarget
      omega
    -- the instruction is counted before it is done, and that is what it may cost
    have hcounted : (m.mapFrame fun f => { f with pc := f.pc + 1 }).frames =
        { frame with pc := frame.pc + 1 } :: outer := by
      unfold mapFrame
      rw [hframes]
    have hleft : instructionsLeft p { frame with pc := frame.pc + 1 } + 1 =
        instructionsLeft p frame := by
      unfold instructionsLeft
      simp only [hfound]
      omega
    have hwork : work p m.frames =
        work p (m.mapFrame fun f => { f with pc := f.pc + 1 }).frames + weight p outer.length := by
      rw [hcounted, hframes, work_cons, work_cons, ← hleft, Nat.succ_mul]
      omega
    let counted : Frame := { frame with pc := frame.pc + 1 }
    have hcode : p.functions[counted.function]? = some function := hfound
    rw [hwork]
    exact execute_within hcode hcounted hop hjumps frame

end Steps

/-! ## 4. Runs end -/

end Machine

/-- More steps than the machine can do in a program that only jumps forward. -/
def BytecodeProgram.stepLimit (p : BytecodeProgram) : Nat :=
  (p.instructionCount + 2) ^ (maxFrames + 1)

namespace Machine

variable {τ ε : Type} (runner : Runner τ ε)

/-- With more steps than the work that is left a run comes to an end of its own, whoever answers its
calls, and to the same one with every such number of steps. By induction on the work. -/
theorem exec_ends (hforward : p.Forward) (m : Machine) (t : τ) :
    ∃ r u, r ≠ .error .outOfFuel ∧
      ∀ fuel, work p m.frames < fuel → exec runner p fuel m t = (r, u) := by
  induction hwork : work p m.frames using Nat.strongRecOn generalizing m t with
  | ind bound ih =>
    subst hwork
    have hstep := step_work (m := m) hforward
    -- it is enough to say what the first step leads to
    suffices hfirst : ∃ r u, r ≠ .error .outOfFuel ∧
        ∀ fuel, work p m.frames ≤ fuel → exec runner p (fuel + 1) m t = (r, u) by
      obtain ⟨r, u, hr, hrun⟩ := hfirst
      refine ⟨r, u, hr, fun fuel hfuel => ?_⟩
      rw [show fuel = fuel - 1 + 1 by omega]
      exact hrun (fuel - 1) (by omega)
    unfold exec
    cases hnext : m.step p with
    | next m' =>
      rw [hnext] at hstep
      obtain ⟨r, u, hr, hrun⟩ := ih _ hstep m' (observeNext runner p m t) rfl
      exact ⟨r, u, hr, fun fuel hfuel => hrun fuel (Nat.lt_of_lt_of_le hstep hfuel)⟩
    | finished v => exact ⟨.ok v, _, nofun, fun _ _ => rfl⟩
    | failed e => exact ⟨.error (.failed e), _, nofun, fun _ _ => rfl⟩
    | calls target args m' function =>
      rw [hnext] at hstep
      dsimp only
      cases runner.call target args (observeNext runner p m t) with
      | mk answer t' =>
        cases answer with
        | error e => exact ⟨.error (.ended e), t', nofun, fun _ _ => rfl⟩
        | ok v =>
          dsimp only
          cases hpush : m'.push function v with
          | error e => exact ⟨.error (.failed e), t', nofun, fun _ _ => rfl⟩
          | ok m'' =>
            have hless := push_within hstep v m'' hpush
            obtain ⟨r, u, hr, hrun⟩ := ih _ hless m'' t' rfl
            exact ⟨r, u, hr, fun fuel hfuel => hrun fuel (Nat.lt_of_lt_of_le hless hfuel)⟩

/-- At the start of a function there is less to do than the limit. -/
theorem work_lt_stepLimit {entry : String} {args : List Value} {m : Machine}
    (h : start p entry args = .ok m) : work p m.frames < p.stepLimit := by
  obtain ⟨frame, hframe⟩ : ∃ frame, m.frames = [frame] := by
    unfold start at h
    split at h
    · cases h
    · split at h
      · cases h
      · cases h
        exact ⟨_, rfl⟩
  have hleft := instructionsLeft_le (p := p) frame
  have hlimit : p.stepLimit = (p.instructionCount + 2) * weight p 0 := by
    unfold BytecodeProgram.stepLimit weight
    rw [Nat.sub_zero, Nat.pow_succ, Nat.mul_comm]
  rw [hframe, work_cons, List.length_nil, work, Nat.add_zero, hlimit]
  exact Nat.mul_lt_mul_of_pos_right (by omega) (weight_pos 0)

/-- A program that only jumps forward comes to an end within the limit of steps, from whatever function
it starts, on all arguments, and whoever answers its calls. -/
theorem run_ends (hforward : p.Forward) (entry : String) (args : List Value) (t : τ) :
    ∃ r u, r ≠ .error .outOfFuel ∧
      ∀ fuel, p.stepLimit ≤ fuel → run runner fuel p entry args t = (r, u) := by
  unfold run
  cases hstart : start p entry args with
  | error e => exact ⟨.error (.failed e), t, nofun, fun _ _ => rfl⟩
  | ok m =>
    obtain ⟨r, u, hr, hrun⟩ := exec_ends runner hforward m t
    refine ⟨r, u, hr, fun fuel hfuel => hrun fuel ?_⟩
    exact Nat.lt_of_lt_of_le (work_lt_stepLimit hstart) hfuel

end Machine

end Arbor
