import Arbor.Evaluation.Run
import Arbor.Proofs.Compilation.Faithful
import Arbor.Proofs.Evaluation.Runs

/-!
# The compiler is correct

A faithful program, evaluated in one session and run on the machine in another one that agrees with
it, ends the same way (`compile_correct`): with the same value or the same fault, and with the host
having been asked for the same. It holds for every host, so also for one that writes down what it is
asked for.
-/

namespace Arbor

open Compiler Eval

variable {σ : Type} [Host σ]

/-! ## 1. Ends of runs -/

/-- The second run, which is one of the machine, ends like the first one, which is an evaluation, and
not because of a bound on it. Each may also come to a limit of its own. And the machine fails at a
condition that is no truth value, where evaluation goes on with an unknown value, maybe to ask the host
for more. -/
inductive SameEnd (a b : Except Halt Value × Session σ) : Prop where
  | same : a.1 ≠ .error .outOfFuel → b.1 = a.1 → b.2.host = a.2.host → b.2.replay? = a.2.replay? →
    SameEnd a b
  | deep (limit : Nat) (id : String) : a.1 = .error (.fault (.depthExceeded limit id)) → SameEnd a b
  | full (e : BytecodeError) : e.IsLimit → b.1 = .error (.fault (.bytecode e)) → SameEnd a b
  | odd (v : Value) (name : String) : v.kind ≠ .bool →
    b.1 = .error (.fault (.bytecode (Settles.oddCondition v name))) →
    HostReaches b.2.host a.2.host → SameEnd a b

/-- The end of a run of the machine, as the session sees it. -/
def sessionEnd (r : MachineEnd σ) : Except Halt Value × Session σ :=
  match r with
  | (.ok v, t) => (.ok v, t.session)
  | (.error (.failed e), t) => (.error (.fault (.bytecode e)), t.session)
  | (.error (.ended h), t) => (.error h, t.session)
  | (.error .outOfFuel, t) => (.error .outOfFuel, t.session)

theorem runProgram_eq {s : Session σ} {steps : Nat} {p : BytecodeProgram} {entry : String}
    {args : List Value} {m : Machine} (hstart : Machine.start p entry args = .ok m) :
    s.runProgram steps p entry args =
      sessionEnd (Machine.exec (machineRunner (callCapability (eval steps) steps steps)) p steps m
        ⟨s, []⟩) := by
  unfold Session.runProgram runMachine Machine.run
  rw [hstart]
  dsimp only
  generalize Machine.exec (machineRunner (callCapability (eval steps) steps steps)) p steps m
    (⟨s, []⟩ : Activation σ) = r
  obtain ⟨o, t⟩ := r
  cases o with
  | ok v => rfl
  | error e => cases e <;> rfl

/-- The steps are enough for the run of `main`, or at least the run comes to an end with them. -/
def Suffices (enough steps : Nat) (u : Session σ) (p : BytecodeProgram) : Prop :=
  enough ≤ steps ∨ (u.runProgram steps p mainName []).1 ≠ .error .outOfFuel

/-- A run that settles ends so in every session that agrees, with enough steps. -/
theorem Settles.runProgram {p : BytecodeProgram} {Q : MachineEnd σ → Prop} {m : Machine}
    {s u : Session σ} (h : Settles p Q m s) (hstart : Machine.start p mainName [] = .ok m)
    (hu : s.Agree u) :
    ∃ enough, ∀ steps, Suffices enough steps u p →
      ∃ r, Q r ∧ u.runProgram steps p mainName [] = sessionEnd r := by
  obtain ⟨n, hn⟩ := h
  refine ⟨n + 1, fun steps hsteps => ⟨_, ?_, runProgram_eq hstart⟩⟩
  unfold Suffices at hsteps
  rw [runProgram_eq hstart] at hsteps
  cases steps with
  | zero =>
    rcases hsteps with hle | hfinished
    · exact absurd hle (by omega)
    · exact absurd rfl hfinished
  | succ nesting =>
    have hend := hn (eval (nesting + 1)) (nesting + 1) nesting ⟨u, []⟩ hu
    rcases hsteps with hle | hfinished
    · have hlast := hend (nesting + 1 - n)
      rwa [Nat.add_sub_cancel' (by omega)] at hlast
    · -- it does not matter that more steps would be enough, for the end is the same
      generalize machineRunner (callCapability (eval (nesting + 1) : Node → Eval σ Value)
        (nesting + 1) (nesting + 1)) = runner at hend hfinished ⊢
      have hlast := hend (nesting + 1)
      rw [Nat.add_comm, Machine.exec_of_finished] at hlast
      · exact hlast
      · intro houtOfFuel
        refine hfinished ?_
        unfold sessionEnd
        split <;> simp_all

/-- What the end of a run of the machine has to be where evaluation comes to no value. -/
theorem otherwise_sameEnd {p : BytecodeProgram} {main : BytecodeFunction} {o : Outcome Value}
    {v : Activation σ} (hshallow : ∀ limit id, o ≠ .halted (.fault (.depthExceeded limit id))) :
    Otherwise p (fun r => SameEnd (Session.conclude o, v.surface.session) (sessionEnd r))
      (mainSeat main) (o, v) where
  returned := by
    rintro v' hv' u hu
    cases hv'
    exact .same nofun rfl hu.host.symm hu.replay?.symm
  halted := by
    rintro e hfuel he u hu
    cases he
    refine .same (fun h => hfuel ?_) rfl hu.host.symm hu.replay?.symm
    cases h
    rfl
  odd := fun v' name u hv' hreach => .odd v' name hv' rfl hreach
  shallow := hshallow

/-! ## 2. Whole runs -/

/-- Where evaluation of a program comes to its statements. -/
def Session.entering (s : Session σ) (root : Node) : Activation σ :=
  ((⟨s, []⟩ : Activation σ).noteStep root).deepen

theorem evaluate_program {s : Session σ} {root : Node} (hprogram : root.isProgram = true)
    (hstrict : s.strict = false) (hdeep : s.depth < s.maxDepth) {fuel : Nat} {o : Outcome Value}
    {v : Activation σ}
    (hrun : sequence (eval fuel) .void root.children (s.entering root) = (o, v)) :
    s.evaluate (fuel + 1) root = (Session.conclude o, v.surface.session) := by
  have hform : evalForm (eval fuel) fuel root (s.entering root) = (o, v) := by
    unfold evalForm
    rw [Node.form?_of_isProgram hprogram]
    exact hrun
  unfold Session.evaluate
  rw [eval_succ, evalWith_of_lt (fun n => invariant_restores.eval fuel n) hdeep hstrict hform]

theorem evaluate_of_le {s : Session σ} (hdeep : s.maxDepth ≤ s.depth) (fuel : Nat) (root : Node) :
    (s.evaluate (fuel + 1) root).1 = .error (.fault (.depthExceeded s.maxDepth root.id)) := by
  unfold Session.evaluate
  rw [eval_succ, evalWith_of_le hdeep]
  rfl

/-- A program whose names and calls mean the same to both ends the same way, evaluated and compiled, when
the machine runs for enough steps. The bound on evaluation only has to be beyond the depth that the
session allows. -/
theorem Concordant.sameEnd {root : Node} {p : BytecodeProgram} {s u : Session σ}
    (hp : Concordant s.permissions root p) (hglobals : s.globals = ∅) (hstrict : s.strict = false)
    (hreadOnly : s.readOnly = []) (hdepth : s.depth = 0) {fuel : Nat} (hfuel : s.maxDepth < fuel)
    (hu : s.Agree u) :
    ∃ enough, ∀ steps, Suffices enough steps u p →
      SameEnd (s.evaluate fuel root) (u.runProgram steps p mainName []) := by
  obtain ⟨main, fs, before, codes, scope, ha⟩ := assembled_of_compile hp.compiled
  obtain ⟨fuel, rfl⟩ : ∃ k, fuel = k + 1 := ⟨fuel - 1, by omega⟩
  by_cases hdeep : s.maxDepth ≤ s.depth
  · -- not even the root is evaluated
    exact ⟨0, fun steps _ => .deep s.maxDepth root.id (evaluate_of_le hdeep fuel root)⟩
  rw [Nat.not_le] at hdeep
  rcases hrun : sequence (eval fuel) .void root.children (s.entering root) with ⟨o, v⟩
  rw [evaluate_program ha.program hstrict hdeep hrun]
  by_cases hexceeded : ∃ limit id, o = .halted (.fault (.depthExceeded limit id))
  · obtain ⟨limit, id, rfl⟩ := hexceeded
    exact ⟨0, fun steps _ => .deep limit id rfl⟩
  have hshallow (limit : Nat) (id : String) : o ≠ .halted (.fault (.depthExceeded limit id)) :=
    fun h => hexceeded ⟨limit, id, h⟩
  have hsettles : Settles p
      (fun r => SameEnd (Session.conclude o, v.surface.session) (sessionEnd r))
      ((mainSeat main).machine 0 (List.replicate main.slotCount .void) [])
      (s.entering root).session := by
    refine hp.settles ha rfl hglobals hstrict hreadOnly rfl ?_ fuel ?_ (fun e u' he => .full e he rfl)
      ?_ fun v' u' hv' u'' hu'' => ?_
    · show s.depth + 1 ≤ s.maxDepth
      omega
    · show s.maxDepth < fuel + (s.depth + 1)
      omega
    · rw [hrun]
      exact otherwise_sameEnd hshallow
    · rw [hrun] at hv'
      cases hv'
      exact .same nofun rfl hu''.host.symm hu''.replay?.symm
  obtain ⟨enough, henough⟩ := hsettles.runProgram (hp.start_main ha)
    ((Session.Agree.mk rfl rfl rfl : (s.entering root).session.Agree s).trans hu)
  refine ⟨enough, fun steps hsteps => ?_⟩
  obtain ⟨r, hr, hend⟩ := henough steps hsteps
  rw [hend]
  exact hr

/-- A faithful program ends the same way, evaluated and compiled, when the machine runs for enough
steps. The bound on evaluation only has to be beyond the depth that the session allows. -/
theorem compile_correct {root : Node} {p : BytecodeProgram} {s u : Session σ}
    (hp : Faithful s.permissions root p) (hglobals : s.globals = ∅) (hstrict : s.strict = false)
    (hreadOnly : s.readOnly = []) (hdepth : s.depth = 0) {fuel : Nat} (hfuel : s.maxDepth < fuel)
    (hu : s.Agree u) :
    ∃ enough, ∀ steps, enough ≤ steps →
      SameEnd (s.evaluate fuel root) (u.runProgram steps p mainName []) := by
  obtain ⟨main, fs, before, codes, scope, ha⟩ := assembled_of_compile hp.compiled
  obtain ⟨enough, henough⟩ :=
    (hp.concordant ha.program).sameEnd hglobals hstrict hreadOnly hdepth hfuel hu
  exact ⟨enough, fun steps hsteps => henough steps (.inl hsteps)⟩

/-- A program with a function that doubles a number, by a capability, and a call of it. -/
def doubling : Node where
  kind := "Program"
  id := "p"
  children :=
    [{ kind := "Let", id := "l", attrs := attrs [("name", .identifier "double")]
       children :=
         [{ kind := "Fn", id := "f", attrs := attrs [("params", .string "x")]
            children :=
              [{ kind := "Block", id := "b"
                 children :=
                   [{ kind := "Call", id := "a", attrs := attrs [("target", .identifier "math.add")]
                      children :=
                        [{ kind := "Var", id := "u", attrs := attrs [("name", .identifier "x")] },
                         { kind := "Var", id := "v", attrs := attrs [("name", .identifier "x")] }]
                    }] }] }] },
     { kind := "Call", id := "c", attrs := attrs [("target", .identifier "double")]
       children := [{ kind := "Lit", id := "n", attrs := attrs [("value", .int 21)] }] }]

/-- The functions of its bytecode. -/
def doublingFunctions : Array BytecodeFunction := #[
  { name := "main", params := [], locals := []
    code := #[.of .pushInt 21, .of .call (saturateCount 1) "double", .of .ret] },
  { name := "double", params := ["x"], locals := ["x"]
    code := #[.of .loadLocal (saturateCount 0), .of .loadLocal (saturateCount 0),
      .of .callSys (saturateCount 2) "math.add", .of .ret] }]

theorem faithful_doubling :
    Faithful (Session.fresh "").permissions doubling ⟨[], doublingFunctions⟩ where
  compiled := compile_eq (by decide +kernel)
  small := by decide +kernel
  arguments := by decide +kernel
  definitionsFirst := ⟨doubling.children.take 1, doubling.children.drop 1, rfl, by decide +kernel,
    by decide +kernel⟩
  distinct := by decide +kernel
  params := by decide +kernel
  bindings := by decide +kernel
  mainBindings := by decide +kernel
  inScope := by decide +kernel
  calls := by decide +kernel

theorem compile_correct_doubling :
    Faithful (Session.fresh "").permissions doubling ⟨[], doublingFunctions⟩ ∧
      (Session.fresh "").maxDepth < 4097 ∧
      ((Session.fresh "").evaluate 4097 doubling).1 = .ok (.int 42) ∧
      ∃ enough, ∀ steps, enough ≤ steps → SameEnd ((Session.fresh "").evaluate 4097 doubling)
        ((Session.fresh "").runProgram steps ⟨[], doublingFunctions⟩ mainName []) := by
  have hdepth : (Session.fresh "").maxDepth < 4097 := by decide
  refine ⟨faithful_doubling, hdepth, rfl, ?_⟩
  exact compile_correct faithful_doubling rfl rfl rfl rfl hdepth (.refl _)

/-- A program that branches on a number. -/
def oddBranch : Node where
  kind := "Program"
  id := "p"
  children :=
    [{ kind := "If", id := "i"
       children :=
         [{ kind := "Lit", id := "c", attrs := attrs [("value", .int 1)] },
          { kind := "Lit", id := "t", attrs := attrs [("value", .int 2)] }] }]

/-- The function of its bytecode. -/
def oddBranchFunctions : Array BytecodeFunction := #[
  { name := "main", params := [], locals := []
    code := #[.of .pushInt 1, .of .jumpIfFalse (saturateCount 4), .of .pushInt 2,
      .of .jump (saturateCount 5), .of .pushVoid, .of .ret] }]

theorem faithful_oddBranch :
    Faithful (Session.fresh "").permissions oddBranch ⟨[], oddBranchFunctions⟩ where
  compiled := compile_eq (by decide +kernel)
  small := by decide +kernel
  arguments := by decide +kernel
  definitionsFirst := ⟨[], oddBranch.children, rfl, by decide +kernel, by decide +kernel⟩
  distinct := by decide +kernel
  params := by decide +kernel
  bindings := by decide +kernel
  mainBindings := by decide +kernel
  inScope := by decide +kernel
  calls := by decide +kernel

/-- Evaluation makes nothing of a number as a condition, and the machine stops at it. -/
theorem compile_oddBranch :
    Faithful (Session.fresh "").permissions oddBranch ⟨[], oddBranchFunctions⟩ ∧
      ((Session.fresh "").evaluate 4097 oddBranch).1 = .ok .unknown ∧
      ((Session.fresh "").runProgram 4097 ⟨[], oddBranchFunctions⟩ mainName []).1 =
        .error (.fault (.bytecode (Settles.oddCondition (.int 1) "main"))) :=
  ⟨faithful_oddBranch, rfl, rfl⟩

end Arbor
