import Arbor.Bytecode.Machine

/-!
# The limits of the machine

A machine is `Bounded` when the operand stack and the calls in progress stay below their limits, the
bases of the frames are in order, and every frame has the slots of its function and an instruction of
it, or its end, before it. No step breaks this, whatever the instruction is (`Machine.step_bounded`).

It is what the machine relies on where it looks up an index or takes a part of the operands without
asking first. `Machine.indexes` and `Machine.cuts` list these places for a step.
-/

namespace Arbor

/-! ## 1. The invariant -/

/-- The frame is one of a function of the program, with the function's slots, before one of its
instructions or at its end. -/
structure Frame.Fits (p : BytecodeProgram) (f : Frame) (function : BytecodeFunction) : Prop where
  found : p.functions[f.function]? = some function
  locals : f.locals.size = function.slotCount
  pc : f.pc ≤ function.code.size

namespace Machine

/-- The limits of the machine hold, and its frames are in order. -/
structure Bounded (p : BytecodeProgram) (m : Machine) : Prop where
  operands : m.stack.size ≤ maxStack
  depth : m.frames.length ≤ maxFrames
  ordered : m.frames.Pairwise fun inner outer => outer.base ≤ inner.base
  based : ∀ f ∈ m.frames, f.base ≤ m.stack.size
  fits : ∀ f ∈ m.frames, ∃ function, f.Fits p function

/-- What a step leads to is `S`. -/
def Transition.Into (S : Machine → Prop) : Transition → Prop
  | next m => S m
  | calls _ _ m _ => S m
  | finished _ | failed _ => True

/-- An operation of the machine that succeeds has come to what `Q` says. -/
def Ensures {α : Type} (Q : α → Prop) (r : Except BytecodeError α) : Prop := ∀ a, r = .ok a → Q a

namespace Ensures

variable {α β : Type} {Q : α → Prop} {R : β → Prop}

theorem ok {a : α} (h : Q a) : Ensures Q (.ok a) := by
  intro b hb
  cases hb
  exact h

theorem error (e : BytecodeError) : Ensures Q (.error e) := fun _ h => by cases h

theorem bind {r : Except BytecodeError α} {next : α → Except BytecodeError β} (h : Ensures Q r)
    (hnext : ∀ a, Q a → Ensures R (next a)) : Ensures R (r >>= next) := by
  cases r with
  | error e => exact error e
  | ok a => exact hnext a (h a rfl)

/-- Whatever the first part comes to, the second does what it should. -/
theorem after (r : Except BytecodeError α) {next : α → Except BytecodeError β}
    (hnext : ∀ a, Ensures R (next a)) : Ensures R (r >>= next) :=
  bind (Q := fun _ => True) (fun _ _ => trivial) fun a _ => hnext a

theorem proceed {S : Machine → Prop} {r : Except BytecodeError Machine} (h : Ensures S r) :
    (Machine.proceed r).Into S := by
  cases r with
  | error e => trivial
  | ok m => exact h m rfl

end Ensures

/-! ## 2. One operation -/

section Operations

variable {p : BytecodeProgram} {m : Machine} {name : String}

theorem base_le_size (h : m.Bounded p) : m.base ≤ m.stack.size := by
  unfold base
  cases hframes : m.frames with
  | nil => simp
  | cons f outer => exact h.based f (by simp [hframes])

/-- No frame's operands begin above those of the innermost one. -/
theorem Bounded.le_base (h : m.Bounded p) {f : Frame} (hf : f ∈ m.frames) : f.base ≤ m.base := by
  unfold base
  cases hframes : m.frames with
  | nil => simp [hframes] at hf
  | cons inner outer =>
    have hordered := h.ordered
    rw [hframes] at hf hordered
    rcases List.mem_cons.mp hf with rfl | hf
    · exact Nat.le_refl _
    · exact (List.pairwise_cons.mp hordered).1 f hf

/-- The innermost frame may lose operands of its own. -/
theorem Bounded.cut (h : m.Bounded p) {stack : Array Value} (hbase : m.base ≤ stack.size)
    (hsize : stack.size ≤ m.stack.size) : Bounded p { m with stack } where
  operands := Nat.le_trans hsize h.operands
  depth := h.depth
  ordered := h.ordered
  based _ hf := Nat.le_trans (h.le_base hf) hbase
  fits := h.fits

/-- The innermost frame may change, but neither its function nor where its operands begin. -/
theorem Bounded.mapFrame (h : m.Bounded p) {g : Frame → Frame} (hbase : ∀ f, (g f).base = f.base)
    (hfits : ∀ f function, m.frames.head? = some f → f.Fits p function → (g f).Fits p function) :
    (m.mapFrame g).Bounded p := by
  unfold Machine.mapFrame
  cases hframes : m.frames with
  | nil => exact h
  | cons f outer =>
    have hdepth := h.depth
    have hordered := h.ordered
    have hbased := h.based
    have hall := h.fits
    rw [hframes] at hdepth hordered hbased hall
    rw [List.pairwise_cons] at hordered
    obtain ⟨function, hfunction⟩ := hall f (by simp)
    refine ⟨h.operands, by simpa using hdepth, ?_, ?_, ?_⟩
    · show List.Pairwise _ (g f :: outer)
      rw [List.pairwise_cons, hbase f]
      exact hordered
    · intro f' hf'
      rcases List.mem_cons.mp hf' with rfl | hf'
      · rw [hbase]
        exact hbased f (by simp)
      · exact hbased f' (by simp [hf'])
    · intro f' hf'
      rcases List.mem_cons.mp hf' with rfl | hf'
      · exact ⟨function, hfits f function (by simp [hframes]) hfunction⟩
      · exact hall f' (by simp [hf'])

/-- The innermost call ends, and its operands are dropped. -/
theorem Bounded.outside (h : m.Bounded p) :
    Bounded p ⟨m.stack.extract 0 m.base, m.frames.tail⟩ := by
  have hbase := base_le_size h
  have hsize : (m.stack.extract 0 m.base).size = m.base := by
    simp
    omega
  have hmem {f : Frame} (hf : f ∈ m.frames.tail) : f ∈ m.frames := List.mem_of_mem_tail hf
  refine ⟨?_, ?_, h.ordered.tail, ?_, fun f hf => h.fits f (hmem hf)⟩
  · have hoperands := h.operands
    show (m.stack.extract 0 m.base).size ≤ maxStack
    omega
  · have hdepth := h.depth
    show m.frames.tail.length ≤ maxFrames
    simp
    omega
  · intro f hf
    show f.base ≤ (m.stack.extract 0 m.base).size
    rw [hsize]
    exact h.le_base (hmem hf)

theorem push_bounded (h : m.Bounded p) (v : Value) : Ensures (Bounded p) (m.push name v) := by
  unfold push
  split
  · exact .error _
  · next hroom =>
    refine .ok ⟨?_, h.depth, h.ordered, fun f hf => ?_, h.fits⟩
    · show (m.stack.push v).size ≤ maxStack
      rw [Array.size_push]
      omega
    · have hf := h.based f hf
      show f.base ≤ (m.stack.push v).size
      rw [Array.size_push]
      omega

/-- What an operation keeps that only takes operands: the invariant and the frames. -/
def Cuts (p : BytecodeProgram) (m m' : Machine) : Prop := m'.Bounded p ∧ m'.frames = m.frames

theorem pop_cuts (h : m.Bounded p) : Ensures (fun r => Cuts p m r.2) (m.pop name) := by
  unfold pop top?
  by_cases hempty : m.stack.size ≤ m.base
  · rw [if_pos hempty]
    exact .error _
  · rw [if_neg hempty]
    split
    · refine .ok ⟨h.cut ?_ ?_, rfl⟩
      all_goals
        rw [Array.size_pop]
        omega
    · exact .error _

theorem popMany_cuts (h : m.Bounded p) (count : Nat) :
    Ensures (fun r => Cuts p m r.2) (m.popMany name count) := by
  unfold popMany
  split
  · exact .error _
  · refine .ok ⟨h.cut ?_ ?_, rfl⟩
    all_goals
      rw [Array.size_extract]
      omega

theorem popArgs_cuts (h : m.Bounded p) (count : Int32) :
    Ensures (fun r => Cuts p m r.2) (m.popArgs name count) := by
  unfold popArgs
  split
  · exact .error _
  · exact popMany_cuts h _

/-- A call begins with the slots of its function, when the arguments are no more than these. -/
theorem enter_bounded (h : m.Bounded p) {index : Nat} {callee : BytecodeFunction}
    {args : List Value} (hcallee : p.functions[index]? = some callee)
    (hargs : args.length = callee.params.length) :
    Ensures (Bounded p) (m.enter index callee args) := by
  unfold enter
  by_cases hdepth : maxFrames ≤ m.frames.length
  · rw [if_pos hdepth]
    exact .error _
  · rw [if_neg hdepth]
    have hslots : args.length ≤ callee.slotCount := by
      unfold BytecodeFunction.slotCount
      omega
    refine .ok ⟨h.operands, ?_, ?_, ?_, ?_⟩
    · rw [List.length_cons]
      omega
    · rw [List.pairwise_cons]
      exact ⟨fun f hf => h.based f hf, h.ordered⟩
    · intro f hf
      rcases List.mem_cons.mp hf with rfl | hf
      · exact Nat.le_refl _
      · exact h.based f hf
    · intro f hf
      rcases List.mem_cons.mp hf with rfl | hf
      · refine ⟨callee, hcallee, ?_, Nat.zero_le _⟩
        simp
        omega
      · exact h.fits f hf

/-- The innermost frame is in a call of the function. -/
def Inside (p : BytecodeProgram) (m : Machine) (function : BytecodeFunction) : Prop :=
  ∃ f outer, m.frames = f :: outer ∧ p.functions[f.function]? = some function

theorem jump_bounded (h : m.Bounded p) {function : BytecodeFunction} (hin : m.Inside p function)
    (target : Int32) : Ensures (Bounded p) (m.jump function target) := by
  unfold jump
  split
  · exact .error _
  · next hrange =>
    have hcode : target.toInt.toNat ≤ function.code.size := by
      simp only [Bool.or_eq_true, decide_eq_true_eq, not_or] at hrange
      omega
    obtain ⟨f, outer, hframes, hfunction⟩ := hin
    refine .ok (h.mapFrame (fun _ => rfl) fun f' g hf' hg => ⟨hg.found, hg.locals, ?_⟩)
    -- the function of the frame is the one that the target was compared with
    obtain rfl : f = f' := by simpa [hframes] using hf'
    obtain rfl : function = g := by simpa [hfunction] using hg.found
    exact hcode

theorem leave_bounded (h : m.Bounded p) (v : Value) : (m.leave p v).Into (Bounded p) := by
  have houtside := h.outside
  unfold leave
  cases hframes : m.frames.tail with
  | nil => trivial
  | cons caller outer =>
    rw [hframes] at houtside
    exact (push_bounded houtside v).proceed

/-! ## 3. One step -/

/-- An instruction keeps the invariant. -/
theorem execute_bounded (h : m.Bounded p) {function : BytecodeFunction} (hin : m.Inside p function)
    (frame : Frame) (op : Opcode) (inst : Instruction) :
    (execute p m frame function op inst).Into (Bounded p) := by
  have hcut {m' : Machine} (hm' : Cuts p m m') : m'.Inside p function := by
    unfold Inside
    rw [hm'.2]
    exact hin
  unfold execute
  cases op with
  | nop => exact h
  | const => exact (Ensures.after _ fun v => push_bounded h v).proceed
  | pushInt => exact (push_bounded h _).proceed
  | pushBool => exact (push_bounded h _).proceed
  | pushVoid => exact (push_bounded h _).proceed
  | pop => exact ((pop_cuts h).bind fun r hr => .ok hr.1).proceed
  | dup => exact (Ensures.after _ fun v => push_bounded h v).proceed
  | loadLocal => exact (Ensures.after _ fun i => push_bounded h _).proceed
  | storeLocal =>
    refine (Ensures.after _ fun i => (pop_cuts h).bind fun r hr => .ok ?_).proceed
    refine hr.1.mapFrame (fun _ => rfl) fun f g _ hg => ⟨hg.found, ?_, hg.pc⟩
    rw [Array.size_setIfInBounds]
    exact hg.locals
  | jump => exact (jump_bounded h hin _).proceed
  | jumpIfFalse =>
    refine ((pop_cuts h).bind fun ⟨v, rest⟩ hr => ?_).proceed
    dsimp only
    split
    · exact jump_bounded hr.1 (hcut hr) _
    · exact .ok hr.1
    · exact .error _
  | jumpIfErr =>
    refine (Ensures.after _ fun v => ?_).proceed
    split
    · exact jump_bounded h hin _
    · exact .ok h
  | operator shared =>
    exact ((popMany_cuts h _).bind fun r hr => push_bounded hr.1 _).proceed
  | call =>
    refine ((popArgs_cuts h _).bind fun ⟨args, rest⟩ hr => ?_).proceed
    dsimp only
    split
    · exact .error _
    · split
      · exact .error _
      · next hcallee =>
        split
        · next hargs => exact enter_bounded hr.1 hcallee hargs
        · exact push_bounded hr.1 _
  | callSys =>
    dsimp only
    split
    · next hargs => exact (popArgs_cuts h _ _ hargs).1
    · trivial
  | ret => exact leave_bounded h _
  | halt => trivial

/-- The machine has come to an instruction of the function, in the frame. -/
structure Facing (p : BytecodeProgram) (m : Machine) (frame : Frame) (function : BytecodeFunction) :
    Prop where
  innermost : ∃ outer, m.frames = frame :: outer
  found : p.functions[frame.function]? = some function
  inCode : frame.pc < function.code.size

/-- The machine looks for an opcode only where there is an instruction. -/
theorem facing_of_fetch (hsome : m.fetch p ≠ .nothing) (hcode : m.fetch p ≠ .functionEnd) :
    ∃ frame function, m.Facing p frame function ∧
      ∀ frame' function' op inst, m.fetch p = .instruction frame' function' op inst →
        frame' = frame ∧ function' = function := by
  unfold fetch at *
  cases hframes : m.frames with
  | nil => simp [hframes] at hsome
  | cons frame outer =>
    simp only [hframes] at hsome hcode ⊢
    cases hfunction : p.functions[frame.function]? with
    | none => simp [hfunction] at hsome
    | some function =>
      simp only [hfunction] at hsome hcode ⊢
      cases hinst : function.code[frame.pc]? with
      | none => simp [hinst] at hcode
      | some inst =>
        simp only
        refine ⟨frame, function, ⟨⟨outer, hframes⟩, hfunction,
          (Array.getElem?_eq_some_iff.mp hinst).1⟩, ?_⟩
        intro frame' function' op inst' heq
        split at heq
        · cases heq
        · cases heq
          exact ⟨rfl, rfl⟩

theorem Facing.of_instruction {frame : Frame} {function : BytecodeFunction} {op : Opcode}
    {inst : Instruction} (h : m.fetch p = .instruction frame function op inst) :
    m.Facing p frame function := by
  obtain ⟨f, g, hfacing, hsame⟩ := facing_of_fetch (p := p) (m := m) (by simp [h]) (by simp [h])
  obtain ⟨rfl, rfl⟩ := hsame _ _ _ _ h
  exact hfacing

/-- The machine counts an instruction before doing it. -/
theorem Facing.counted {frame : Frame} {function : BytecodeFunction}
    (hfacing : m.Facing p frame function) (h : m.Bounded p) :
    Bounded p (m.mapFrame fun f => { f with pc := f.pc + 1 }) ∧
      Inside p (m.mapFrame fun f => { f with pc := f.pc + 1 }) function := by
  obtain ⟨outer, hframes⟩ := hfacing.innermost
  constructor
  · refine h.mapFrame (fun _ => rfl) fun f g hf hg => ⟨hg.found, hg.locals, ?_⟩
    obtain rfl : frame = f := by simpa [hframes] using hf
    obtain rfl : function = g := by simpa [hfacing.found] using hg.found
    exact hfacing.inCode
  · refine ⟨{ frame with pc := frame.pc + 1 }, outer, ?_, hfacing.found⟩
    simp [Machine.mapFrame, hframes]

/-- A step keeps the invariant. -/
theorem step_bounded (h : m.Bounded p) : (m.step p).Into (Bounded p) := by
  unfold step
  cases hfetch : m.fetch p with
  | nothing => trivial
  | functionEnd => exact leave_bounded h _
  | unknown e => trivial
  | instruction frame function op inst =>
    obtain ⟨hcounted, hin⟩ := (Facing.of_instruction hfetch).counted h
    exact execute_bounded hcounted hin frame op inst

end Operations

/-! ## 4. Indexes and cuts -/

section InRange

variable {p : BytecodeProgram} {m : Machine}

/-- The indexes that the machine uses before and in its next instruction without asking whether they
are in range, each with the length of what it is an index of. -/
def indexes (p : BytecodeProgram) (m : Machine) : List (Nat × Nat) :=
  -- an observer sees the function of every frame
  m.frames.map (fun f => (f.function, p.functions.size)) ++
    match m.fetch p with
    | .instruction frame function op inst =>
      -- the instruction itself, and the innermost frame
      [(frame.pc, function.code.size), (m.frames.length - 1, m.frames.length)] ++
        match op with
        | .loadLocal | .storeLocal =>
          match slot frame function.name inst.a with
          | .ok i => [(i, frame.locals.size)]
          | .error _ => []
        | .call =>
          match p.functionIndex? inst.s with
          | some index => [(index, p.functions.size)]
          | none => []
        | _ => []
    | _ => []

/-- The upper parts of the operand stack that the machine looks at or takes before and in its next
instruction: where each begins, and how many operands it has. -/
def cuts (p : BytecodeProgram) (m : Machine) : List (Nat × Nat) :=
  let top (count : Nat) : List (Nat × Nat) :=
    if m.stack.size < m.base + count then [] else [(m.stack.size - count, count)]
  match m.fetch p with
  | .instruction frame _ op inst =>
    (frame.base, m.stack.size - frame.base) ::
      match op with
      | .operator shared => top shared.arity
      | .call | .callSys => if inst.a < 0 then [] else top inst.a.toInt.toNat
      | _ => []
  | _ => []

theorem functionIndex?_lt {name : String} {index : Nat} (h : p.functionIndex? name = some index) :
    index < p.functions.size := by
  unfold BytecodeProgram.functionIndex? at h
  obtain ⟨i, hi, rfl⟩ := Option.map_eq_some_iff.mp h
  have hlt := (List.findIdx?_eq_some_iff_getElem.mp hi).1
  rw [List.length_reverse, Array.length_toList] at hlt
  omega

theorem Bounded.indexes_lt (h : m.Bounded p) {index length : Nat}
    (hindex : (index, length) ∈ m.indexes p) : index < length := by
  unfold indexes at hindex
  rcases List.mem_append.mp hindex with hindex | hindex
  · obtain ⟨f, hf, heq⟩ := List.mem_map.mp hindex
    obtain ⟨function, hfits⟩ := h.fits f hf
    cases heq
    exact (Array.getElem?_eq_some_iff.mp hfits.found).1
  · split at hindex
    · next frame function op inst hfetch =>
      have hfacing := Facing.of_instruction hfetch
      rcases List.mem_append.mp hindex with hindex | hindex
      · obtain ⟨outer, hframes⟩ := hfacing.innermost
        have hpc := hfacing.inCode
        rw [hframes] at hindex
        simp only [List.length_cons, List.mem_cons, Prod.mk.injEq, List.not_mem_nil, or_false]
          at hindex
        omega
      · have hslot : ∀ i, slot frame function.name inst.a = .ok i → i < frame.locals.size := by
          intro i hi
          unfold slot at hi
          split at hi
          · cases hi
          · next hrange =>
            cases hi
            simp only [Bool.or_eq_true, decide_eq_true_eq, not_or] at hrange
            omega
        split at hindex
        · split at hindex
          · next i hi =>
            obtain ⟨rfl, rfl⟩ : index = i ∧ length = frame.locals.size := by simpa using hindex
            exact hslot _ hi
          · cases hindex
        · split at hindex
          · next i hi =>
            obtain ⟨rfl, rfl⟩ : index = i ∧ length = frame.locals.size := by simpa using hindex
            exact hslot _ hi
          · cases hindex
        · split at hindex
          · next i hi =>
            obtain ⟨rfl, rfl⟩ : index = i ∧ length = p.functions.size := by simpa using hindex
            exact functionIndex?_lt hi
          · cases hindex
        · cases hindex
    · cases hindex

theorem Bounded.cuts_eq (h : m.Bounded p) {first count : Nat} (hcut : (first, count) ∈ m.cuts p) :
    first + count = m.stack.size := by
  have htop {n : Nat} (hmem : (first, count) ∈
      if m.stack.size < m.base + n then [] else [(m.stack.size - n, n)]) :
      first + count = m.stack.size := by
    by_cases hfew : m.stack.size < m.base + n
    · simp [hfew] at hmem
    · simp only [if_neg hfew, List.mem_singleton, Prod.mk.injEq] at hmem
      omega
  unfold cuts at hcut
  dsimp only at hcut
  split at hcut
  · next frame function op inst hfetch =>
    obtain ⟨outer, hframes⟩ := (Facing.of_instruction hfetch).innermost
    rcases List.mem_cons.mp hcut with hcut | hcut
    · have hbase := h.based frame (by simp [hframes])
      cases hcut
      omega
    · split at hcut
      · exact htop hcut
      · split at hcut
        · cases hcut
        · exact htop hcut
      · split at hcut
        · cases hcut
        · exact htop hcut
      · cases hcut
  · cases hcut

end InRange

end Machine

end Arbor
