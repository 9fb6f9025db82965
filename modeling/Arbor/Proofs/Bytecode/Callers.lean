import Arbor.Proofs.Bytecode.Reuse

/-!
# What a call leaves alone

All frames share one operand stack, and the code of a call may pop, jump and call as it likes. Still it
comes to nothing that lies under it: `Atop floor callers` are the machines in which the operands under a
call are `floor` and the frames under it are `callers`, and only the end of the call leads out of them
(`step_atop`). So a run goes through such machines until the call returns, and then there is one value
more on the operands of the caller (`call_isolated`).
-/

namespace Arbor

namespace Machine

/-! ## 1. Machines inside a call -/

/-- The machine is in a call or in calls that it led to. Under the call lie the operands `floor` and the
frames `callers`. -/
structure Atop (floor : Array Value) (callers : List Frame) (m : Machine) : Prop where
  operands : m.stack.extract 0 floor.size = floor
  frames : ∃ inner bottom, m.frames = inner ++ bottom :: callers ∧ bottom.base = floor.size ∧
    ∀ f ∈ inner, floor.size ≤ f.base

section Operations

variable {p : BytecodeProgram} {m : Machine} {name : String} {floor : Array Value}
  {callers : List Frame}

theorem Atop.size_le (h : m.Atop floor callers) : floor.size ≤ m.stack.size := by
  have hsize := congrArg Array.size h.operands
  rw [Array.size_extract] at hsize
  omega

/-- The innermost frame has no operands of those under the call. -/
theorem Atop.le_base (h : m.Atop floor callers) : floor.size ≤ m.base := by
  obtain ⟨inner, bottom, hframes, hbottom, hinner⟩ := h.frames
  unfold base
  rw [hframes]
  cases inner with
  | nil => exact Nat.le_of_eq hbottom.symm
  | cons f inner => exact hinner f List.mem_cons_self

/-- Operands may go as long as those under the call stay. -/
theorem Atop.cut (h : m.Atop floor callers) {keep : Nat} (hkeep : floor.size ≤ keep) :
    Atop floor callers { m with stack := m.stack.extract 0 keep } where
  operands := by
    show (m.stack.extract 0 keep).extract 0 floor.size = floor
    rw [Array.extract_extract, Nat.zero_add, Nat.zero_add, Nat.min_eq_left hkeep]
    exact h.operands
  frames := h.frames

theorem Atop.mapFrame (h : m.Atop floor callers) {g : Frame → Frame}
    (hbase : ∀ f, (g f).base = f.base) : (m.mapFrame g).Atop floor callers := by
  obtain ⟨inner, bottom, hframes, hbottom, hinner⟩ := h.frames
  unfold Machine.mapFrame
  cases inner with
  | nil =>
    rw [hframes]
    exact ⟨h.operands, [], g bottom, rfl, (hbase bottom).trans hbottom, nofun⟩
  | cons f inner =>
    rw [hframes]
    refine ⟨h.operands, g f :: inner, bottom, rfl, hbottom, fun f' hf' => ?_⟩
    rcases List.mem_cons.mp hf' with rfl | hf'
    · rw [hbase]
      exact hinner f List.mem_cons_self
    · exact hinner f' (List.mem_cons_of_mem f hf')

theorem push_atop (h : m.Atop floor callers) (v : Value) :
    Ensures (Atop floor callers) (m.push name v) := by
  unfold push
  split
  · exact .error _
  · refine .ok ⟨?_, h.frames⟩
    show (m.stack.push v).extract 0 floor.size = floor
    rw [Array.extract_push_of_le h.size_le]
    exact h.operands

theorem pop_atop (h : m.Atop floor callers) :
    Ensures (fun r => r.2.Atop floor callers) (m.pop name) := by
  have hbase := h.le_base
  unfold pop top?
  by_cases hempty : m.stack.size ≤ m.base
  · rw [if_pos hempty]
    exact .error _
  · rw [if_neg hempty]
    split
    · have hpop : m.stack.pop = m.stack.extract 0 (m.stack.size - 1) := by simp
      rw [hpop]
      exact .ok (h.cut (by omega))
    · exact .error _

theorem popMany_atop (h : m.Atop floor callers) (count : Nat) :
    Ensures (fun r => r.2.Atop floor callers) (m.popMany name count) := by
  have hbase := h.le_base
  unfold popMany
  split
  · exact .error _
  · exact .ok (h.cut (by omega))

theorem popArgs_atop (h : m.Atop floor callers) (count : Int32) :
    Ensures (fun r => r.2.Atop floor callers) (m.popArgs name count) := by
  unfold popArgs
  split
  · exact .error _
  · exact popMany_atop h _

/-- A call inside the call has its operands above. -/
theorem enter_atop (h : m.Atop floor callers) (index : Nat) (callee : BytecodeFunction)
    (args : List Value) : Ensures (Atop floor callers) (m.enter index callee args) := by
  obtain ⟨inner, bottom, hframes, hbottom, hinner⟩ := h.frames
  unfold enter
  split
  · exact .error _
  · refine .ok ⟨h.operands, _ :: inner, bottom, by rw [hframes]; rfl, hbottom, fun f hf => ?_⟩
    rcases List.mem_cons.mp hf with rfl | hf
    · exact h.size_le
    · exact hinner f hf

theorem jump_atop (h : m.Atop floor callers) (function : BytecodeFunction) (target : Int32) :
    Ensures (Atop floor callers) (m.jump function target) := by
  unfold jump
  split
  · exact .error _
  · exact .ok (h.mapFrame fun _ => rfl)

/-! ## 2. One step -/

/-- No instruction but `RETURN` leads out of the call. -/
theorem execute_atop (h : m.Atop floor callers) (frame : Frame) (function : BytecodeFunction)
    {op : Opcode} (hop : op ≠ .ret) (inst : Instruction) :
    (execute p m frame function op inst).Into (Atop floor callers) := by
  unfold execute
  cases op with
  | nop => exact h
  | const => exact (Ensures.after _ fun v => push_atop h v).proceed
  | pushInt => exact (push_atop h _).proceed
  | pushBool => exact (push_atop h _).proceed
  | pushVoid => exact (push_atop h _).proceed
  | pop => exact ((pop_atop h).bind fun r hr => .ok hr).proceed
  | dup => exact (Ensures.after _ fun v => push_atop h v).proceed
  | loadLocal => exact (Ensures.after _ fun i => push_atop h _).proceed
  | storeLocal =>
    refine (Ensures.after _ fun i => (pop_atop h).bind fun r hr => .ok ?_).proceed
    exact hr.mapFrame fun _ => rfl
  | jump => exact (jump_atop h function _).proceed
  | jumpIfFalse =>
    refine ((pop_atop h).bind fun ⟨v, rest⟩ hr => ?_).proceed
    dsimp only
    split
    · exact jump_atop hr function _
    · exact .ok hr
    · exact .error _
  | jumpIfErr =>
    refine (Ensures.after _ fun v => ?_).proceed
    split
    · exact jump_atop h function _
    · exact .ok h
  | operator shared =>
    exact ((popMany_atop h _).bind fun r hr => push_atop hr _).proceed
  | call =>
    refine ((popArgs_atop h _).bind fun ⟨args, rest⟩ hr => ?_).proceed
    dsimp only
    split
    · exact .error _
    · split
      · exact .error _
      · split
        · exact enter_atop hr _ _ _
        · exact push_atop hr _
  | callSys =>
    dsimp only
    split
    · next hargs => exact popArgs_atop h _ _ hargs
    · trivial
  | ret => exact absurd rfl hop
  | halt => trivial

/-- What comes of a step inside the call: the call goes on, it has returned a value, or its value found
no room. With it stands the machine that is left when the run ends with the step. -/
def Contained (p : BytecodeProgram) (floor : Array Value) (caller : Frame) (outer : List Frame)
    (left : Machine) : Transition → Prop
  | .next u => u.Atop floor (caller :: outer) ∨ ∃ v, u = ⟨floor.push v, caller :: outer⟩
  | .finished _ => left.Atop floor (caller :: outer)
  | .failed e => left.Atop floor (caller :: outer) ∨
    left = ⟨floor, caller :: outer⟩ ∧ maxStack ≤ floor.size ∧
      e = .stackOverflow (functionName p caller.function)
  | .calls _ _ u _ => u.Atop floor (caller :: outer)

variable {caller : Frame} {outer : List Frame}

/-- The end of the innermost frame, which is the call's own or one of a call that it led to. -/
theorem leave_contained (h : m.Atop floor (caller :: outer)) (v : Value) :
    Contained p floor caller outer ⟨m.stack.extract 0 m.base, m.frames.tail⟩ (m.leave p v) := by
  have hbase := h.le_base
  obtain ⟨inner, bottom, hframes, hbottom, hinner⟩ := h.frames
  unfold leave
  cases inner with
  | nil =>
    have hcut : m.stack.extract 0 m.base = floor := by
      have hown : m.base = floor.size := by
        unfold base
        rw [hframes]
        exact hbottom
      rw [hown]
      exact h.operands
    have htail : m.frames.tail = caller :: outer := by rw [hframes]; rfl
    rw [hcut, htail]
    dsimp only
    unfold push
    by_cases hroom : maxStack ≤ floor.size
    · rw [if_pos hroom]
      exact .inr ⟨rfl, hroom, rfl⟩
    · rw [if_neg hroom]
      exact .inr ⟨v, rfl⟩
  | cons f inner =>
    have hcut : Atop floor (caller :: outer) ⟨m.stack.extract 0 m.base, m.frames.tail⟩ := by
      refine ⟨(h.cut hbase).operands, inner, bottom, by rw [hframes]; rfl, hbottom, fun f' hf' => ?_⟩
      exact hinner f' (List.mem_cons_of_mem f hf')
    obtain ⟨next, more, hnext⟩ : ∃ next more, m.frames.tail = next :: more :=
      List.exists_cons_of_ne_nil (by rw [hframes]; simp)
    rw [hnext] at hcut ⊢
    dsimp only
    have hpush : Ensures (Atop floor (caller :: outer))
        (push ⟨m.stack.extract 0 m.base, next :: more⟩ (functionName p next.function) v) :=
      push_atop hcut v
    split
    · next hroom => exact .inl (hpush _ hroom)
    · exact .inl hcut

theorem taken_atop {α : Type} (h : m.Atop floor callers) {r : Except BytecodeError (α × Machine)}
    (hr : Ensures (fun r => r.2.Atop floor callers) r) : (m.taken r).Atop floor callers := by
  cases r with
  | error e => exact h
  | ok r => exact hr r rfl

/-- What a run leaves that ends with an instruction other than `RETURN`. -/
theorem remains_atop (h : m.Atop floor callers) {frame : Frame} {function : BytecodeFunction}
    {op : Opcode} {inst : Instruction} (hfetch : m.fetch p = .instruction frame function op inst)
    (hop : op ≠ .ret) : (m.remains p).Atop floor callers := by
  have hcounted : (m.mapFrame fun f => { f with pc := f.pc + 1 }).Atop floor callers :=
    h.mapFrame fun _ => rfl
  unfold remains
  rw [hfetch]
  cases op with
  | ret => exact absurd rfl hop
  | halt => exact taken_atop hcounted (pop_atop hcounted)
  | jumpIfFalse => exact taken_atop hcounted (pop_atop hcounted)
  | operator shared => exact taken_atop hcounted (popMany_atop hcounted _)
  | call => exact taken_atop hcounted (popArgs_atop hcounted _)
  | callSys => exact taken_atop hcounted (popArgs_atop hcounted _)
  | _ => exact hcounted

theorem Contained.of_into {left : Machine} {next : Transition}
    (hnext : next.Into (Atop floor (caller :: outer))) (hleft : left.Atop floor (caller :: outer)) :
    Contained p floor caller outer left next := by
  cases next with
  | next u => exact .inl hnext
  | finished v => exact hleft
  | failed e => exact .inl hleft
  | calls target args u function => exact hnext

theorem outside_mapFrame (m : Machine) {g : Frame → Frame} (hbase : ∀ f, (g f).base = f.base) :
    (⟨(m.mapFrame g).stack.extract 0 (m.mapFrame g).base, (m.mapFrame g).frames.tail⟩ : Machine) =
      ⟨m.stack.extract 0 m.base, m.frames.tail⟩ := by
  obtain ⟨stack, frames⟩ := m
  cases frames with
  | nil => rfl
  | cons f outer =>
    show (⟨stack.extract 0 (g f).base, outer⟩ : Machine) = ⟨stack.extract 0 f.base, outer⟩
    rw [hbase]

/-- Every step inside the call leaves alone what lies under it. -/
theorem step_atop (h : m.Atop floor (caller :: outer)) :
    Contained p floor caller outer (m.remains p) (m.step p) := by
  have hcounted : (m.mapFrame fun f => { f with pc := f.pc + 1 }).Atop floor (caller :: outer) :=
    h.mapFrame fun _ => rfl
  cases hfetch : m.fetch p with
  | nothing =>
    unfold step remains
    rw [hfetch]
    exact h
  | functionEnd =>
    unfold step remains
    rw [hfetch]
    exact leave_contained h _
  | unknown e =>
    unfold step remains
    rw [hfetch]
    exact .inl hcounted
  | instruction frame function op inst =>
    by_cases hop : op = .ret
    · subst hop
      -- counting the instruction changes neither the operands nor where they begin
      have houtside := outside_mapFrame m (g := fun f => { f with pc := f.pc + 1 }) fun _ => rfl
      unfold step remains
      rw [hfetch]
      dsimp only
      rw [← houtside]
      exact leave_contained hcounted _
    · have hinto := execute_atop (p := p) hcounted frame function hop inst
      have hstep : m.step p = execute p (m.mapFrame fun f => { f with pc := f.pc + 1 }) frame function
          op inst := by
        unfold step
        rw [hfetch]
      rw [hstep]
      exact .of_into hinto (remains_atop h hfetch hop)

end Operations

/-! ## 3. One run -/

section Runs

variable {τ ε : Type} (runner : Runner τ ε) {p : BytecodeProgram}

/-- The states of a run that begins inside the call. First are those of the call; behind them there is
none when the run is cut off or ends in the call. Else the call has returned a value, or there was no
room for it. -/
def Sheltered (floor : Array Value) (callers : List Frame) (overflows : Prop)
    (states : List Machine) : Prop :=
  ∃ during behind, states = during ++ behind ∧ (∀ u ∈ during, u.Atop floor callers) ∧
    (behind = [] ∨ (∃ v more, behind = ⟨floor.push v, callers⟩ :: more) ∨
      behind = [⟨floor, callers⟩] ∧ overflows)

namespace Sheltered

variable {floor : Array Value} {callers : List Frame} {overflows : Prop} {states : List Machine}

theorem nil : Sheltered floor callers overflows [] := ⟨[], [], rfl, nofun, .inl rfl⟩

theorem cons {m : Machine} (h : m.Atop floor callers)
    (hstates : Sheltered floor callers overflows states) :
    Sheltered floor callers overflows (m :: states) := by
  obtain ⟨during, behind, rfl, hduring, hbehind⟩ := hstates
  refine ⟨m :: during, behind, rfl, fun u hu => ?_, hbehind⟩
  rcases List.mem_cons.mp hu with rfl | hu
  · exact h
  · exact hduring u hu

theorem returned (v : Value) (more : List Machine) :
    Sheltered floor callers overflows (⟨floor.push v, callers⟩ :: more) :=
  ⟨[], _, rfl, nofun, .inr (.inl ⟨v, more, rfl⟩)⟩

theorem overflow (h : overflows) : Sheltered floor callers overflows [⟨floor, callers⟩] :=
  ⟨[], _, rfl, nofun, .inr (.inr ⟨rfl, h⟩)⟩

end Sheltered

theorem passes_cons (fuel : Nat) (m : Machine) (t : τ) :
    ∃ more, passes runner p fuel m t = m :: more := by
  cases fuel with
  | zero => exact ⟨[], rfl⟩
  | succ fuel => exact ⟨_, rfl⟩

/-- A run goes through the machines of the call until the call returns. -/
theorem passes_sheltered {m : Machine} {floor : Array Value} {caller : Frame} {outer : List Frame}
    (h : m.Atop floor (caller :: outer)) (fuel : Nat) (t : τ) :
    Sheltered floor (caller :: outer)
      (maxStack ≤ floor.size ∧ (exec runner p fuel m t).1 =
        .error (.failed (.stackOverflow (functionName p caller.function))))
      (passes runner p fuel m t) := by
  induction fuel generalizing m t with
  | zero => exact .cons h .nil
  | succ fuel ih =>
    unfold passes exec
    dsimp only
    generalize observeNext runner p m t = t'
    refine .cons h ?_
    have hstep := step_atop (p := p) h
    cases hnext : m.step p with
    | next u =>
      rw [hnext] at hstep
      rcases hstep with hu | ⟨v, rfl⟩
      · exact ih hu t'
      · obtain ⟨more, hmore⟩ := passes_cons runner (p := p) fuel ⟨floor.push v, caller :: outer⟩ t'
        dsimp only
        rw [hmore]
        exact .returned v more
    | finished v =>
      rw [hnext] at hstep
      exact .cons hstep .nil
    | failed e =>
      rw [hnext] at hstep
      rcases hstep with hleft | ⟨hleft, hroom, rfl⟩
      · exact .cons hleft .nil
      · dsimp only
        rw [hleft]
        exact .overflow ⟨hroom, rfl⟩
    | calls target args u function =>
      rw [hnext] at hstep
      dsimp only
      refine .cons hstep ?_
      rcases runner.call target args t' with ⟨answer, t''⟩
      cases answer with
      | error e => exact .nil
      | ok v =>
        dsimp only
        have hpush : Ensures (Atop floor (caller :: outer)) (u.push function v) := push_atop hstep v
        cases hroom : u.push function v with
        | error e => exact .nil
        | ok u' => exact ih (hpush u' hroom) t''

/-! ## 4. Calls -/

/-- The arguments of a call are the last operands. -/
theorem popArgs_eq_ok {m rest : Machine} {name : String} {count : Int32} {args : List Value}
    (h : m.popArgs name count = .ok (args, rest)) :
    count.toInt = args.length ∧ m.stack = rest.stack ++ args.toArray ∧ rest.frames = m.frames := by
  unfold popArgs at h
  split at h
  · cases h
  · next hcount =>
    have hpositive : 0 ≤ count.toInt := by
      rw [Int32.lt_iff_toInt_lt] at hcount
      simpa using hcount
    unfold popMany at h
    split at h
    · cases h
    · next hfew =>
      cases h
      refine ⟨?_, ?_, rfl⟩
      · rw [Array.length_toList, Array.size_extract]
        omega
      · rw [Array.toArray_toList, Array.extract_append_extract]
        simp

/-- A `CALL` that begins a call takes its arguments and leaves the rest of the machine under it. -/
theorem step_call {p : BytecodeProgram} {m m' : Machine} {frame : Frame} {function : BytecodeFunction}
    {inst : Instruction} (hfetch : m.fetch p = .instruction frame function .call inst)
    (hstep : m.step p = .next m') (hpushed : m.frames.length < m'.frames.length) :
    ∃ index callee args floor outer,
      p.functionIndex? inst.s = some index ∧ p.functions[index]? = some callee ∧
        inst.a.toInt = args.length ∧ args.length = callee.params.length ∧
        m.stack = floor ++ args.toArray ∧ m.frames = frame :: outer ∧
        m' = ⟨floor, ⟨index, 0,
          (args ++ List.replicate (callee.slotCount - args.length) .void).toArray, floor.size⟩ ::
            { frame with pc := frame.pc + 1 } :: outer⟩ := by
  obtain ⟨outer, hframes⟩ := (Facing.of_instruction hfetch).innermost
  have hcounted : m.mapFrame (fun f => { f with pc := f.pc + 1 }) =
      ⟨m.stack, { frame with pc := frame.pc + 1 } :: outer⟩ := by
    unfold mapFrame
    rw [hframes]
  unfold step at hstep
  rw [hfetch] at hstep
  dsimp only at hstep
  rw [hcounted] at hstep
  unfold execute at hstep
  dsimp only at hstep
  cases hargs : popArgs ⟨m.stack, { frame with pc := frame.pc + 1 } :: outer⟩ function.name inst.a with
  | error e =>
    rw [hargs] at hstep
    cases hstep
  | ok r =>
    obtain ⟨args, rest⟩ := r
    obtain ⟨hcount, hstack, hrest⟩ := popArgs_eq_ok hargs
    rw [hargs] at hstep
    cases hindex : p.functionIndex? inst.s with
    | none =>
      rw [hindex] at hstep
      cases hstep
    | some index =>
      rw [hindex] at hstep
      dsimp only at hstep
      cases hcallee : p.functions[index]? with
      | none =>
        rw [hcallee] at hstep
        cases hstep
      | some callee =>
        rw [hcallee] at hstep
        change proceed (if args.length = callee.params.length then rest.enter index callee args
          else rest.push function.name .unknown) = .next m' at hstep
        split at hstep
        · next hparams =>
          unfold enter at hstep
          split at hstep
          · cases hstep
          · cases hstep
            refine ⟨index, callee, args, rest.stack, outer, rfl, hcallee, hcount, hparams, hstack,
              hframes, ?_⟩
            rw [hrest]
        -- with another number of arguments no call begins
        · unfold push at hstep
          split at hstep
          · cases hstep
          · cases hstep
            rw [hrest, hframes] at hpushed
            exact absurd hpushed (Nat.lt_irrefl _)

/-- The code of a call, and of all calls that it leads to, leaves alone what lies under the call. When a
`CALL` begins a call, in whatever state of the machine, its arguments are taken from the operands; in all
states that a run goes through from there until the call returns, the operands that are left and the
frames under the call stay as they are, their slots and their next instructions with them. When the call
returns, one value is on top of these operands, or the run fails because there is no room for it. -/
theorem call_isolated {p : BytecodeProgram} {m m' : Machine} {frame : Frame}
    {function : BytecodeFunction} {inst : Instruction}
    (hfetch : m.fetch p = .instruction frame function .call inst) (hstep : m.step p = .next m')
    (hpushed : m.frames.length < m'.frames.length) :
    ∃ index callee args floor outer,
      p.functionIndex? inst.s = some index ∧ p.functions[index]? = some callee ∧
        inst.a.toInt = args.length ∧ args.length = callee.params.length ∧
        m.stack = floor ++ args.toArray ∧ m.frames = frame :: outer ∧
        let callers := { frame with pc := frame.pc + 1 } :: outer
        m' = ⟨floor, ⟨index, 0,
            (args ++ List.replicate (callee.slotCount - args.length) .void).toArray, floor.size⟩ ::
              callers⟩ ∧
          ∀ {τ ε : Type} (runner : Runner τ ε) (fuel : Nat) (t : τ),
            ∃ during behind, passes runner p fuel m' t = during ++ behind ∧
              (∀ u ∈ during, u.stack.extract 0 floor.size = floor ∧
                ∃ inner, inner ≠ [] ∧ u.frames = inner ++ callers) ∧
              (behind = [] ∨ (∃ v more, behind = ⟨floor.push v, callers⟩ :: more) ∨
                behind = [⟨floor, callers⟩] ∧ maxStack ≤ floor.size ∧ ∃ e, e.code = "AIVM002" ∧
                  (exec runner p fuel m' t).1 = .error (.failed e)) := by
  obtain ⟨index, callee, args, floor, outer, hindex, hcallee, hcount, hparams, hstack, hframes, rfl⟩ :=
    step_call hfetch hstep hpushed
  refine ⟨index, callee, args, floor, outer, hindex, hcallee, hcount, hparams, hstack, hframes, rfl, ?_⟩
  intro τ ε runner fuel t
  -- the machine at the start of the call has nothing of its own but the frame
  have hatop {slots : Array Value} : Atop floor ({ frame with pc := frame.pc + 1 } :: outer)
      ⟨floor, ⟨index, 0, slots, floor.size⟩ :: { frame with pc := frame.pc + 1 } :: outer⟩ :=
    ⟨by simp, [], _, rfl, rfl, nofun⟩
  obtain ⟨during, behind, hstates, hduring, hbehind⟩ := passes_sheltered runner (p := p) hatop fuel t
  refine ⟨during, behind, hstates, fun u hu => ?_, ?_⟩
  · obtain ⟨hoperands, inner, bottom, huframes, -, -⟩ := hduring u hu
    exact ⟨hoperands, inner ++ [bottom], by simp, by rw [huframes]; simp⟩
  · rcases hbehind with hnone | hreturned | ⟨hleft, hroom, hrun⟩
    · exact .inl hnone
    · exact .inr (.inl hreturned)
    · exact .inr (.inr ⟨hleft, hroom, .stackOverflow (functionName p frame.function), rfl, hrun⟩)

/-- A function that leaves two operands behind when it returns. -/
def unbalanced : BytecodeProgram where
  constants := []
  functions := #[⟨"main", [], [], #[.of .pushInt 5, .of .pushInt 7, .of .call 1 "f", .of .ret]⟩,
    ⟨"f", ["x"], ["x"], #[.of .loadLocal 0, .of .dup, .of .dup, .of .ret]⟩]

/-- Only one of the three is left to the caller. -/
theorem call_isolated_unbalanced :
    let m : Machine := ⟨#[.int 5, .int 7], [⟨0, 2, #[], 0⟩]⟩
    let m' : Machine := ⟨#[.int 5], [⟨1, 0, #[.int 7], 1⟩, ⟨0, 3, #[], 0⟩]⟩
    m.step unbalanced = .next m' ∧
      ∀ {τ ε : Type} (runner : Runner τ ε) (fuel : Nat) (t : τ),
        ∃ during behind, passes runner unbalanced fuel m' t = during ++ behind ∧
          (∀ u ∈ during, u.stack.extract 0 1 = #[.int 5]) ∧
          (behind = [] ∨ (∃ v more, behind = ⟨#[.int 5, v], [⟨0, 3, #[], 0⟩]⟩ :: more)) := by
  intro m m'
  have hfetch : m.fetch unbalanced =
      .instruction ⟨0, 2, #[], 0⟩ unbalanced.functions[0] .call (.of .call 1 "f") := rfl
  have hstep : m.step unbalanced = .next m' := rfl
  obtain ⟨index, callee, args, floor, outer, -, -, -, -, -, hframes, hm', hruns⟩ :=
    call_isolated hfetch hstep (by decide)
  obtain ⟨hfloor, -⟩ := Machine.mk.inj hm'
  obtain ⟨-, rfl⟩ := List.cons.inj hframes
  subst hfloor
  refine ⟨hstep, fun runner fuel t => ?_⟩
  obtain ⟨during, behind, hstates, hduring, hbehind⟩ := hruns runner fuel t
  refine ⟨during, behind, hstates, fun u hu => (hduring u hu).1, ?_⟩
  rcases hbehind with hnone | ⟨v, more, hreturned⟩ | ⟨-, hroom, -⟩
  · exact .inl hnone
  · exact .inr ⟨v, more, hreturned⟩
  · exact absurd hroom (by decide)

end Runs

end Machine

end Arbor
