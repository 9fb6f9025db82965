import Arbor.Proofs.Bytecode.Bounds

/-!
# Machines that are used again

A machine may be used for one run after another, and what an earlier run leaves behind is whatever the
machine had come to. `Reached p` are the machines that this can lead to, whatever the instructions of
`p` are and whatever capability calls are answered with. All of them keep to the limits of the machine
(`Reached.bounded`), and the next run does not depend on which of them it begins with
(`used_bounded`).
-/

namespace Arbor

namespace Machine

/-! ## 1. Runs on a used machine -/

/-- The machine at the start of a function, when it has been used before: what it held is dropped. -/
def restart (p : BytecodeProgram) (m : Machine) (entry : String) (args : List Value) :
    Except BytecodeError Machine :=
  match (p.functionIndex? entry).bind fun i => p.functions[i]?.map (i, ·) with
  | none => .error (.invalidProgram ("Unknown entry function '" ++ entry ++ "'.") entry)
  | some (index, function) =>
    if args.length ≠ function.params.length then
      .error (.invalidProgram ("Entry '" ++ entry ++ "' expects " ++
        Text.natText function.params.length ++ " arguments, got " ++ Text.natText args.length ++
        ".") entry)
    else { m with stack := #[], frames := [] }.enter index function args

/-- Runs a function of the program on a machine that has been used before. -/
def rerun {τ ε : Type} (runner : Runner τ ε) (fuel : Nat) (p : BytecodeProgram) (m : Machine)
    (entry : String) (args : List Value) (t : τ) : Except (Stop ε) Value × τ :=
  match restart p m entry args with
  | .ok m => exec runner p fuel m t
  | .error e => (.error (.failed e), t)

/-- The machine when an operation has taken operands, or as it was when there were too few. -/
def taken {α : Type} (m : Machine) (r : Except BytecodeError (α × Machine)) : Machine :=
  match r with
  | .ok (_, m) => m
  | .error _ => m

/-- What is left of a machine whose run ends before, in or behind its next instruction. -/
def remains (p : BytecodeProgram) (m : Machine) : Machine :=
  let outside : Machine := ⟨m.stack.extract 0 m.base, m.frames.tail⟩
  let counted := m.mapFrame fun f => { f with pc := f.pc + 1 }
  match m.fetch p with
  | .nothing => m
  | .functionEnd => outside
  | .unknown _ => counted
  | .instruction _ function op inst =>
    match op with
    | .ret => outside
    | .halt | .jumpIfFalse => counted.taken (counted.pop function.name)
    | .operator shared => counted.taken (counted.popMany function.name shared.arity)
    | .call | .callSys => counted.taken (counted.popArgs function.name inst.a)
    | _ => counted

/-- The machines that a run goes through: the one before each instruction, the ones while a capability
call is answered, and the one that the run leaves. -/
def passes {τ ε : Type} (runner : Runner τ ε) (p : BytecodeProgram) :
    Nat → Machine → τ → List Machine
  | 0, m, _ => [m]
  | fuel + 1, m, t =>
    let t := observeNext runner p m t
    m :: match m.step p with
      | .next m => passes runner p fuel m t
      | .finished _ | .failed _ => [m.remains p]
      | .calls target args m function =>
        m :: match runner.call target args t with
          | (.error _, _) => []
          | (.ok v, t) =>
            match m.push function v with
            | .ok m => passes runner p fuel m t
            | .error _ => []

/-- The machines that any sequence of runs of the program can come to. -/
inductive Reached (p : BytecodeProgram) : Machine → Prop
  | idle : Reached p idle
  | restarted {m m' : Machine} {entry : String} {args : List Value} (h : Reached p m)
      (hstart : restart p m entry args = .ok m') : Reached p m'
  | stepped {m m' : Machine} (h : Reached p m) (hstep : m.step p = .next m') : Reached p m'
  /-- A capability call is being answered. -/
  | calling {m m' : Machine} {target function : String} {args : List Value} (h : Reached p m)
      (hstep : m.step p = .calls target args m' function) : Reached p m'
  /-- The answer goes on the operand stack. -/
  | answered {m m' m'' : Machine} {target function : String} {args : List Value} {v : Value}
      (h : Reached p m) (hstep : m.step p = .calls target args m' function)
      (hpush : m'.push function v = .ok m'') : Reached p m''
  /-- The run ends. -/
  | ended {m : Machine} (h : Reached p m) : Reached p (m.remains p)

/-! ## 2. Every state keeps to the limits -/

section States

variable {p : BytecodeProgram} {m : Machine}

theorem restart_eq (p : BytecodeProgram) (m : Machine) (entry : String) (args : List Value) :
    restart p m entry args = start p entry args := rfl

theorem idle_bounded (p : BytecodeProgram) : idle.Bounded p :=
  ⟨by decide, by decide, .nil, by simp [idle], by simp [idle]⟩

theorem start_bounded (p : BytecodeProgram) (entry : String) (args : List Value) :
    Ensures (Bounded p) (start p entry args) := by
  unfold start
  split
  · exact .error _
  · next index function hfound =>
    obtain ⟨i, _, hi⟩ := Option.bind_eq_some_iff.mp hfound
    obtain ⟨g, hg, heq⟩ := Option.map_eq_some_iff.mp hi
    cases heq
    split
    · exact .error _
    · next hargs => exact enter_bounded (idle_bounded p) hg (by omega)

/-- What a run leaves keeps to the invariant, wherever the run ends. -/
theorem Bounded.remains (h : m.Bounded p) : (m.remains p).Bounded p := by
  have htaken {α : Type} {m : Machine} (h : m.Bounded p) {r : Except BytecodeError (α × Machine)}
      (hr : Ensures (fun r => Cuts p m r.2) r) : (m.taken r).Bounded p := by
    cases r with
    | error e => exact h
    | ok r => exact (hr r rfl).1
  unfold Machine.remains
  dsimp only
  cases hfetch : m.fetch p with
  | nothing => exact h
  | functionEnd => exact h.outside
  | unknown e =>
    obtain ⟨frame, function, hfacing, -⟩ :=
      facing_of_fetch (p := p) (m := m) (by simp [hfetch]) (by simp [hfetch])
    exact (hfacing.counted h).1
  | instruction frame function op inst =>
    have hcounted := ((Facing.of_instruction hfetch).counted h).1
    cases op with
    | ret => exact h.outside
    | halt => exact htaken hcounted (pop_cuts hcounted)
    | jumpIfFalse => exact htaken hcounted (pop_cuts hcounted)
    | operator shared => exact htaken hcounted (popMany_cuts hcounted _)
    | call => exact htaken hcounted (popArgs_cuts hcounted _)
    | callSys => exact htaken hcounted (popArgs_cuts hcounted _)
    | _ => exact hcounted

/-- Whatever the machine was used for, the invariant holds. -/
theorem Reached.bounded (h : Reached p m) : m.Bounded p := by
  induction h with
  | idle => exact idle_bounded p
  | restarted _ hstart _ =>
    rw [restart_eq] at hstart
    exact start_bounded p _ _ _ hstart
  | stepped _ hstep ih =>
    have hinto := step_bounded ih
    rw [hstep] at hinto
    exact hinto
  | calling _ hstep ih =>
    have hinto := step_bounded ih
    rw [hstep] at hinto
    exact hinto
  | answered _ hstep hpush ih =>
    have hinto := step_bounded ih
    rw [hstep] at hinto
    exact push_bounded hinto _ _ hpush
  | ended _ ih => exact ih.remains

/-- A run goes through reached machines only. -/
theorem Reached.of_mem_passes {τ ε : Type} {runner : Runner τ ε} {fuel : Nat} {t : τ}
    (h : Reached p m) {m' : Machine} (hm' : m' ∈ passes runner p fuel m t) : Reached p m' := by
  induction fuel generalizing m t with
  | zero =>
    obtain rfl := List.mem_singleton.mp hm'
    exact h
  | succ fuel ih =>
    unfold passes at hm'
    rcases List.mem_cons.mp hm' with rfl | hm'
    · exact h
    cases hstep : m.step p with
    | next next =>
      rw [hstep] at hm'
      exact ih (h.stepped hstep) hm'
    | finished v =>
      rw [hstep] at hm'
      obtain rfl := List.mem_singleton.mp hm'
      exact h.ended
    | failed e =>
      rw [hstep] at hm'
      obtain rfl := List.mem_singleton.mp hm'
      exact h.ended
    | calls target args next function =>
      rw [hstep] at hm'
      rcases List.mem_cons.mp hm' with rfl | hm'
      · exact h.calling hstep
      -- the run goes on when the call is answered and there is room for the answer
      split at hm'
      · cases hm'
      · split at hm'
        · next hpush => exact ih (h.answered hstep hpush) hm'
        · cases hm'

/-- A machine that has been used for any runs of a program keeps to the invariant in every state, uses
no index and takes no operands that are out of range, and runs as a new one does. -/
theorem used_bounded (h : Reached p m) :
    m.Bounded p ∧ (∀ index length, (index, length) ∈ m.indexes p → index < length) ∧
      (∀ first count, (first, count) ∈ m.cuts p → first + count = m.stack.size) ∧
      ∀ {τ ε : Type} (runner : Runner τ ε) (fuel : Nat) (entry : String) (args : List Value) (t : τ),
        rerun runner fuel p m entry args t = run runner fuel p entry args t ∧
          ∀ m', restart p m entry args = .ok m' →
            ∀ m'' ∈ passes runner p fuel m' t, Reached p m'' := by
  refine ⟨h.bounded, fun _ _ => h.bounded.indexes_lt, fun _ _ => h.bounded.cuts_eq, ?_⟩
  intro τ ε runner fuel entry args t
  exact ⟨rfl, fun m' hstart m'' hm'' => (h.restarted hstart).of_mem_passes hm''⟩

/-- A program that stops inside its function. -/
def halting : BytecodeProgram where
  constants := []
  functions := #[⟨"main", ["x"], ["x", "y"], #[.of .loadLocal 0, .of .halt]⟩]

/-- The machine that a run of it leaves still has the call in progress. -/
theorem used_bounded_halting :
    let m : Machine := ⟨#[], [⟨0, 2, #[.int 7, .void], 0⟩]⟩
    Reached halting m ∧ m.Bounded halting := by
  have hrestart : restart halting idle "main" [.int 7] =
      .ok ⟨#[], [⟨0, 0, #[.int 7, .void], 0⟩]⟩ := rfl
  have hstart : Reached halting ⟨#[], [⟨0, 0, #[.int 7, .void], 0⟩]⟩ := Reached.idle.restarted hrestart
  have hloaded : Reached halting ⟨#[.int 7], [⟨0, 1, #[.int 7, .void], 0⟩]⟩ := hstart.stepped rfl
  have hleft : Reached halting ⟨#[], [⟨0, 2, #[.int 7, .void], 0⟩]⟩ := hloaded.ended
  exact ⟨hleft, (used_bounded hleft).1⟩

end States

end Machine

end Arbor
