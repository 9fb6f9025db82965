import Arbor.Proofs.Bytecode.Forward
import Arbor.Proofs.Evaluation.Oversight
import Arbor.Proofs.Evaluation.Termination

/-!
# Runs of the machine inside each other

Bytecode that calls `sys.vm_run` starts a run of the machine inside of the one it is run by. Neither
the depth of evaluation nor the frames of a machine count that. So an evaluation in which bytecode
only jumps forward ends just when there is a bound on how deep runs of the machine nest inside each
other (`Eval.ends_iff_nesting_bounded`), and there are evaluations without such a bound, in which a
program is handed to itself.
-/

namespace Arbor

open Filter

variable {σ : Type}

/-- The bytecode node only jumps forward, if it holds a program at all. -/
def Node.jumpsForward (bytecode : Node) : Bool :=
  match BytecodeProgram.load bytecode with
  | .ok p => decide p.Forward
  | .error _ => true

namespace Eval

/-! ## 1. A run of the machine -/

section Machines

variable {l : Filter ℕ} {permissions : List String} {room : Nat}
  {call : ℕ → String → List Value → Eval σ Value}
  (hcall : ∀ target args,
    Ends l (Activation.Room permissions room) fun fuel => call fuel target args)
include hcall

/-- The machine ends if the calls that it makes do, with more steps than the work that is left. -/
theorem Ends.stepping {p : BytecodeProgram} (hforward : p.Forward) (m : Machine) {steps : ℕ → Nat}
    (hsteps : ∀ᶠ fuel in l, Machine.work p m.frames < steps fuel) :
    Ends l (Activation.Room permissions room)
      fun fuel => Eval.stepping (call fuel) p (steps fuel) m := by
  induction hwork : Machine.work p m.frames using Nat.strongRecOn generalizing m steps with
  | ind work ih =>
    subst hwork
    have hobserving : Ends l (Activation.Room permissions room)
        fun fuel => Eval.observing (call fuel) p m := by
      refine fun t ht => ⟨.value (), _, .of_forall fun fuel => observing_eq (call fuel) p m t, ?_⟩
      exact ⟨trivial, ht.permissions, ht.depth⟩
    -- what is left goes on with a step less
    have hrest {m' : Machine} (hless : Machine.Within p (Machine.work p m.frames) m') :
        Ends l (Activation.Room permissions room)
          fun fuel => Eval.stepping (call fuel) p (steps fuel - 1) m' := by
      refine ih _ hless m' ?_ rfl
      filter_upwards [hsteps] with fuel hfuel
      have hless' : Machine.work p m'.frames < Machine.work p m.frames := hless
      omega
    have hcontinuing : Ends l (Activation.Room permissions room)
        fun fuel => continuing (call fuel) p (steps fuel - 1) (m.step p) := by
      have hstep := Machine.step_work (m := m) hforward
      unfold continuing
      cases hnext : m.step p with
      | next m' =>
        rw [hnext] at hstep
        exact hrest hstep
      | finished v => exact .pure v
      | failed e => exact .fault _
      | calls target args m' function =>
        rw [hnext] at hstep
        refine (hcall target args).catchReturn.bind fun v => ?_
        unfold resuming
        cases hpush : m'.push function v with
        | ok m'' => exact hrest (Machine.push_within hstep v m'' hpush)
        | error e => exact .fault _
    refine (hobserving.bind fun _ => hcontinuing).congr ?_
    filter_upwards [hsteps] with fuel hfuel
    rw [← stepping_succ]
    congr 1
    omega

theorem Ends.runBytecode {bytecode : Node} (hforward : bytecode.jumpsForward = true)
    {steps : ℕ → Nat} (hsteps : Tendsto steps l atTop) (entry : String) (callArgs : Node) :
    Ends l (Activation.Room permissions room)
      fun fuel => Eval.runBytecode (call fuel) (steps fuel) bytecode entry callArgs := by
  unfold Eval.runBytecode
  unfold Node.jumpsForward at hforward
  cases hload : BytecodeProgram.load bytecode with
  | error e => exact .fault _
  | ok p =>
    rw [hload] at hforward
    simp only [runMachine_eq]
    unfold resuming
    cases Machine.start p entry (callArgs.children.map argumentValue) with
    | error e => exact .fault _
    | ok m => exact .stepping hcall (of_decide_eq_true hforward) m (hsteps.eventually_gt_atTop _)

end Machines

theorem Ends.faultAsValue {l : Filter ℕ} {P : Activation σ → Prop} {step : ℕ → Eval σ Value}
    (hstep : Ends l P step) : Ends l P fun fuel => Eval.faultAsValue (step fuel) := by
  refine hstep.map id (fun t r => Eval.faultAsValue (fun _ => r) t) (fun _ ht => ht)
    fun t o u _ hend hu => ?_
  cases o with
  | value v => exact ⟨hend, hu⟩
  | returned v => exact ⟨hend, hu⟩
  | halted h =>
    cases h with
    | fault f => exact ⟨trivial, hu⟩
    | stopped => exact hend.elim
    | outOfFuel => exact hend.elim

/-! ## 2. Runs inside each other -/

/-- Less than `depth` runs of the machine are around, and the module only jumps forward. -/
def forwardWithin (depth level : Nat) (bytecode : Node) : Bool :=
  decide (level < depth) && bytecode.jumpsForward

/-- All runs end at a level if those one level deeper do. -/
theorem Ends.vettedRun {l : Filter ℕ} {permissions : List String} {room depth level : Nat}
    {call : ℕ → String → List Value → Eval σ Value} (hcall : level < depth → ∀ target args,
      Ends l (Activation.Room permissions room) fun fuel => call fuel target args)
    {steps : ℕ → Nat} (hsteps : Tendsto steps l atTop) (bytecode : Node) (entry : String)
    (callArgs : Node) :
    Ends l (Activation.Room permissions room) fun fuel =>
      Eval.vettedRun (forwardWithin depth) (Pure.pure .void) level (call fuel) (steps fuel) bytecode
        entry callArgs := by
  unfold Eval.vettedRun
  cases hadmits : forwardWithin depth level bytecode with
  | false => exact .pure _
  | true =>
    obtain ⟨hlevel, hforward⟩ : level < depth ∧ bytecode.jumpsForward = true := by
      simpa [forwardWithin] using hadmits
    exact (Ends.runBytecode (hcall hlevel) hforward hsteps entry callArgs).faultAsValue

section Nested

variable [Host σ]

/-- By induction on how many more runs of the machine may be inside of each other. -/
theorem Ends.forwardCapability (hhost : Host.Responds σ) {permissions : List String}
    {room depth : Nat} {self : ℕ → Node → Eval σ Value}
    (hself : ∀ n, Ends atTop (Activation.Room permissions room) fun fuel => self fuel n)
    (left : Nat) : ∀ level, depth ≤ level + left → ∀ target args,
      Ends atTop (Activation.Room permissions room) fun fuel =>
        Eval.vettedCapability (forwardWithin depth) (Pure.pure .void) (self fuel) fuel
          (fuel - level) level target args := by
  induction left with
  | zero =>
    intro level hlevel target args
    refine Ends.vettedCapability hhost hself (fun _ bytecode entry callArgs => ?_)
      (eventually_gt_atTop level) target args
    exact .vettedRun (fun h => by omega) tendsto_id bytecode entry callArgs
  | succ left ih =>
    intro level hlevel target args
    refine Ends.vettedCapability hhost hself (fun _ bytecode entry callArgs => ?_)
      (eventually_gt_atTop level) target args
    exact .vettedRun (fun _ => ih (level + 1) (by omega)) tendsto_id bytecode entry callArgs

/-- The evaluation comes to the same end with every bound that is large enough. -/
def Terminates (n : Node) (t : Activation σ) : Prop :=
  ∃ o u, o.Ended ∧ ∃ enough, ∀ fuel, enough ≤ fuel → eval fuel n t = (o, u)

theorem terminates_of_forwardWithin (hhost : Host.Responds σ) {n : Node} {t : Activation σ}
    {depth : Nat} (hruns : ∀ fuel, RunsOnly (forwardWithin depth) fuel n t) : Terminates n t := by
  have hends : Ends atTop
      (Activation.Room t.session.permissions (t.session.maxDepth - t.session.depth))
      fun fuel => vetted (forwardWithin depth) (Pure.pure .void) fuel n :=
    .vetted hhost (fun _ => eventually_gt_atTop 0) (fun _ => (map_add_atTop_eq_nat 1).ge)
    (fun room self hself => Ends.forwardCapability hhost hself depth 0 (by omega))
    (t.session.maxDepth - t.session.depth) n
  obtain ⟨o, u, hvetted, hend, _⟩ := hends t ⟨rfl, by omega⟩
  obtain ⟨enough, henough⟩ := eventually_atTop.mp hvetted
  refine ⟨o, u, hend, enough, fun fuel hfuel => ?_⟩
  rw [← hruns fuel (Pure.pure .void)]
  exact henough fuel hfuel

/-- An evaluation that comes to an end has come to it with some bound, and no more runs of the
machine are inside of each other than that bound. -/
theorem forwardWithin_of_terminates {n : Node} {t : Activation σ}
    (hforward : ∀ fuel, RunsOnly (fun _ bytecode => bytecode.jumpsForward) fuel n t)
    (h : Terminates n t) : ∃ depth, ∀ fuel, RunsOnly (forwardWithin depth) fuel n t := by
  obtain ⟨o, u, hend, enough, heval⟩ := h
  -- with no more than this bound on evaluation the runs cannot nest deeper than it
  have hbelow (alarm : Eval σ Value) (fuel : Nat) (hfuel : fuel ≤ enough) :
      vetted (forwardWithin enough) alarm fuel n t = eval fuel n t := by
    rw [← hforward fuel alarm]
    refine congrFun (vetted_congr alarm fuel (fun level hlevel => ?_) n) t
    funext bytecode
    simp [forwardWithin, show level < enough by omega]
  refine ⟨enough, fun fuel alarm => ?_⟩
  by_cases hfuel : fuel ≤ enough
  · exact hbelow alarm fuel hfuel
  · -- with more, the evaluation is over before it comes to its bound
    have hdone : (vetted (forwardWithin enough) alarm enough n t).1 ≠ .halted .outOfFuel := by
      rw [hbelow alarm enough (Nat.le_refl _), heval enough (Nat.le_refl _)]
      rintro rfl
      exact hend
    rw [vetted_stable (by omega : enough ≤ fuel) hdone, hbelow alarm enough (Nat.le_refl _),
      heval enough (Nat.le_refl _), heval fuel (by omega)]

/-- Where all bytecode that is run only jumps forward, an evaluation ends just when there is a bound
on how many runs of the machine are directly inside of each other: none is cut off by another guard.
-/
theorem ends_iff_nesting_bounded (hhost : Host.Responds σ) (n : Node) (t : Activation σ)
    (hforward : ∀ fuel, RunsOnly (fun _ bytecode => bytecode.jumpsForward) fuel n t) :
    Terminates n t ↔ ∃ depth, ∀ fuel, RunsOnly (forwardWithin depth) fuel n t := by
  constructor
  · exact forwardWithin_of_terminates hforward
  · rintro ⟨depth, hruns⟩
    exact terminates_of_forwardWithin hhost hruns

end Nested

/-! ## 3. A program that is handed to itself -/

/-- The two steps do the same here: they run out of fuel. -/
def Starved {α : Type} (step step' : Eval σ α) (t : Activation σ) : Prop :=
  ∃ u, step t = (.halted .outOfFuel, u) ∧ step' t = (.halted .outOfFuel, u)

namespace Starved

variable {α β : Type} {t : Activation σ}

theorem halt : Starved (Eval.halt .outOfFuel : Eval σ α) (Eval.halt .outOfFuel) t := ⟨t, rfl, rfl⟩

theorem eq {step step' : Eval σ α} (h : Starved step step' t) : step t = step' t := by
  obtain ⟨u, hstep, hstep'⟩ := h
  rw [hstep, hstep']

theorem outOfFuel {step step' : Eval σ α} (h : Starved step step' t) :
    (step' t).1 = .halted .outOfFuel := by
  obtain ⟨u, _, hstep'⟩ := h
  rw [hstep']

theorem bind {step step' : Eval σ α} (h : Starved step step' t) (f f' : α → Eval σ β) :
    Starved (step >>= f) (step' >>= f') t := by
  obtain ⟨u, hstep, hstep'⟩ := h
  exact ⟨u, by rw [bind_def, hstep], by rw [bind_def, hstep']⟩

/-- Behind what both steps come to. -/
theorem after {step step' : Eval σ α} {a : α} {u : Activation σ} (hstep : step t = (.value a, u))
    (hstep' : step' t = (.value a, u)) {f f' : α → Eval σ β} (h : Starved (f a) (f' a) u) :
    Starved (step >>= f) (step' >>= f') t := by
  obtain ⟨w, hf, hf'⟩ := h
  exact ⟨w, by rw [bind_def, hstep]; exact hf, by rw [bind_def, hstep']; exact hf'⟩

theorem between {step step' : Eval σ α} {enter leave : Activation σ → Activation σ}
    (h : Starved step step' (enter t)) :
    Starved (Eval.between enter leave step) (Eval.between enter leave step') t := by
  obtain ⟨u, hstep, hstep'⟩ := h
  unfold Starved Eval.between
  exact ⟨leave u, by rw [hstep], by rw [hstep']⟩

theorem catchReturn {step step' : Eval σ Value} (h : Starved step step' t) :
    Starved (Eval.catchReturn step) (Eval.catchReturn step') t := by
  obtain ⟨u, hstep, hstep'⟩ := h
  unfold Starved Eval.catchReturn
  exact ⟨u, by rw [hstep], by rw [hstep']⟩

theorem faultAsValue {step step' : Eval σ Value} (h : Starved step step' t) :
    Starved (Eval.faultAsValue step) (Eval.faultAsValue step') t := by
  obtain ⟨u, hstep, hstep'⟩ := h
  unfold Starved Eval.faultAsValue
  exact ⟨u, by rw [hstep], by rw [hstep']⟩

theorem entering {step step' : Eval σ Value} {n : Node}
    (hroom : t.session.depth < t.session.maxDepth) (h : Starved step step' (t.noteStep n).deepen) :
    Starved (Eval.entering n step) (Eval.entering n step') t := by
  have hcheck : checkDepth n t = (.value (), t) := if_neg (by omega)
  refine after hcheck hcheck ?_
  refine after (u := t.noteStep n) rfl rfl ?_
  exact h.between.bind _ _

end Starved

end Eval

/-- A relay: a function that takes bytecode and runs it, with that bytecode as its argument. -/
def relay : BytecodeProgram where
  constants := [.str "main"]
  functions := #[
    { name := "main", params := ["self"], locals := ["self"]
      code := #[.of .loadLocal 0, .of .const 0,
        .of .const 0, .of (.operator .makeBlock), .of .loadLocal 0, .of (.operator .appendChild),
        .of .callSys 3 "sys.vm_run", .of .ret] }]

namespace Relay

/-- The relay as bytecode, which is what it is handed. -/
def bytecode : Node := relay.toNode

def arguments : Node := { kind := "Block", id := "main", children := [bytecode] }

def callArguments : List Value := [.node bytecode, .str "main", .node arguments]

theorem load_bytecode : BytecodeProgram.load bytecode = .ok relay := rfl

theorem jumpsForward_bytecode : bytecode.jumpsForward = true := by
  have hforward : relay.Forward := by decide +kernel
  unfold Node.jumpsForward
  rw [load_bytecode]
  exact decide_eq_true hforward

/-- The machine before an instruction of the relay, with these operands. -/
def machine (pc : Nat) (operands : List Value) : Machine :=
  ⟨operands.toArray, [⟨0, pc, #[.node bytecode], 0⟩]⟩

section Runs

open Eval

variable {σ : Type} {call other : String → List Value → Eval σ Value}

/-- With either way of calling capabilities the machine runs out of fuel from here on, and alike. -/
def Endless (call other : String → List Value → Eval σ Value) (m : Machine) : Prop :=
  ∀ steps t, t.session.hasPermission "sys" = true →
    Starved (stepping call relay steps m) (stepping other relay steps m) t

theorem endless_of_continuing {m : Machine}
    (h : ∀ steps t, t.session.hasPermission "sys" = true →
      Starved (continuing call relay steps (m.step relay))
        (continuing other relay steps (m.step relay)) t) :
    Endless call other m := by
  intro steps t ht
  cases steps with
  | zero => exact .halt
  | succ steps =>
    rw [stepping_succ, stepping_succ]
    exact .after (observing_eq call relay m t) (observing_eq other relay m t) (h steps _ ht)

theorem endless_of_next {m next : Machine} (hstep : m.step relay = .next next)
    (h : Endless call other next) : Endless call other m := by
  refine endless_of_continuing fun steps t ht => ?_
  rw [hstep]
  exact h steps t ht

/-- The relay is endless if the call that it makes is. -/
theorem endless_start (hcall : ∀ t, t.session.hasPermission "sys" = true →
    Starved (call "sys.vm_run" callArguments) (other "sys.vm_run" callArguments) t) :
    Endless call other (machine 0 []) := by
  let self : Value := .node bytecode
  let empty : Value := .node { kind := "Block", id := "main" }
  have hlast : Endless call other (machine 6 [self, .str "main", .node arguments]) := by
    refine endless_of_continuing fun steps t ht => ?_
    exact (hcall t ht).catchReturn.bind _ _
  have h5 : Endless call other (machine 5 [self, .str "main", empty, self]) :=
    endless_of_next rfl hlast
  have h4 : Endless call other (machine 4 [self, .str "main", empty]) :=
    endless_of_next rfl h5
  have h3 : Endless call other (machine 3 [self, .str "main", .str "main"]) :=
    endless_of_next rfl h4
  have h2 : Endless call other (machine 2 [self, .str "main"]) := endless_of_next rfl h3
  have h1 : Endless call other (machine 1 [self]) := endless_of_next rfl h2
  exact endless_of_next rfl h1

theorem runBytecode_endless (hcall : ∀ t, t.session.hasPermission "sys" = true →
    Starved (call "sys.vm_run" callArguments) (other "sys.vm_run" callArguments) t) (steps : Nat)
    {t : Activation σ} (ht : t.session.hasPermission "sys" = true) :
    Starved (runBytecode call steps bytecode "main" arguments)
      (runBytecode other steps bytecode "main" arguments) t := by
  have hrun (call : String → List Value → Eval σ Value) :
      runBytecode call steps bytecode "main" arguments =
        stepping call relay steps (machine 0 []) := by
    unfold runBytecode
    rw [load_bytecode]
    exact runMachine_eq call relay steps "main" [.node bytecode]
  rw [hrun, hrun]
  exact endless_start hcall steps t ht

/-- A call that fits is answered. -/
theorem callChecked_starved [Host σ] {serve other : String → List Value → Eval σ Value}
    {t : Activation σ} (ht : t.session.hasPermission "sys" = true)
    (h : Starved (serve "sys.vm_run" callArguments) (other "sys.vm_run" callArguments) t) :
    Starved (callChecked serve "sys.vm_run" callArguments)
      (callChecked other "sys.vm_run" callArguments) t := by
  let answer (v : Value) : Eval σ Value := do
    modifySession fun s => s.recordCall "sys.vm_run" callArguments v .ok
    pure v
  have hanswer (serve : String → List Value → Eval σ Value) :
      callChecked serve "sys.vm_run" callArguments t =
        (serve "sys.vm_run" callArguments >>= answer) t := by
    show (if !t.session.hasPermission "sys" then _ else _ : Eval σ Value) t = _
    rw [ht]
    rfl
  obtain ⟨u, hserve, hother⟩ := h.bind answer answer
  exact ⟨u, by rw [hanswer, hserve], by rw [hanswer, hother]⟩

/-- However deep runs of the machine may nest, the relay nests deeper. -/
theorem capability_starved [Host σ] (alarm : Eval σ Value) (self self' : Node → Eval σ Value)
    (steps nesting level : Nat) (t : Activation σ) (ht : t.session.hasPermission "sys" = true) :
    Starved (vettedCapability (fun _ b => b.jumpsForward) alarm self steps nesting level
        "sys.vm_run" callArguments)
      (callCapability self' steps nesting "sys.vm_run" callArguments) t := by
  induction nesting generalizing level t with
  | zero => exact callChecked_starved ht .halt
  | succ nesting ih =>
    refine callChecked_starved ht ?_
    have hvetted (call : String → List Value → Eval σ Value) :
        vettedMeta (fun _ b => b.jumpsForward) alarm self call steps level "sys.vm_run"
            callArguments =
          faultAsValue (runBytecode call steps bytecode "main" arguments) := by
      show vettedRun (fun _ b => b.jumpsForward) alarm level call steps bytecode "main"
        arguments = _
      unfold vettedRun
      exact if_pos jumpsForward_bytecode
    rw [hvetted]
    exact (runBytecode_endless (ih (level + 1)) steps ht).faultAsValue

end Runs

/-! ### The session -/

/-- A session with the relay and its arguments at hand. -/
def session : Session BareHost :=
  { BareHost.session ["sys"] with
    globals := Dict.ofList [("self", .node bytecode), ("args", .node arguments)] }

/-- The call that starts the relay. -/
def startCall : Node :=
  let name (text : String) : Attrs := attrs [("name", .identifier text)]
  { kind := "Call", id := "c", attrs := attrs [("target", .identifier "sys.vm_run")]
    children :=
      [{ kind := "Var", id := "s", attrs := name "self" },
       { kind := "Lit", id := "m", attrs := attrs [("value", .string "main")] },
       { kind := "Var", id := "a", attrs := name "args" }] }

def start : Node := { kind := "Program", id := "p", children := [startCall] }

open Eval in
theorem evalCall_startCall {self : Node → Eval BareHost Value}
    {capability closure} {t : Activation BareHost} (ht : t.session.hasPermission "sys" = true) :
    evalCall self capability closure startCall t =
      (operands self startCall.children >>= capability "sys.vm_run") t := by
  show (if t.session.hasPermission "sys" then _ else _ : Eval BareHost Value) t = _
  rw [ht]
  rfl

open Eval in
theorem starved_start (alarm : Eval BareHost Value) (fuel : Nat) :
    Starved (vetted (fun _ b => b.jumpsForward) alarm fuel start) (eval fuel start)
      ⟨session, []⟩ := by
  match fuel with
  | 0 => exact .halt
  | 1 => exact ⟨_, rfl, rfl⟩
  | 2 => exact ⟨_, rfl, rfl⟩
  | fuel + 3 =>
    let self := vetted (fun _ b => b.jumpsForward) alarm (fuel + 1)
    let self' : Node → Eval BareHost Value := eval (fuel + 1)
    refine .entering (by decide) ?_
    show Starved (sequence (vetted _ alarm (fuel + 2)) .void [startCall])
      (sequence (eval (fuel + 2)) .void [startCall]) _
    refine Starved.bind ?_ _ _
    refine .entering (by decide) ?_
    show Starved
      (evalCall self (vettedCapability _ alarm self (fuel + 1) (fuel + 1) 0) (callClosure self)
        startCall)
      (evalCall self' (callCapability self' (fuel + 1) (fuel + 1)) (callClosure self') startCall) _
    unfold Starved
    rw [evalCall_startCall (by decide), evalCall_startCall (by decide)]
    exact Starved.after (a := callArguments) rfl rfl
      (capability_starved alarm self self' (fuel + 1) (fuel + 1) 0 _ (by decide))

open Eval

/-- The relay only jumps forward, and so does all bytecode that is run. -/
theorem runsOnly_start (fuel : Nat) :
    RunsOnly (fun _ bytecode => bytecode.jumpsForward) fuel start ⟨session, []⟩ :=
  fun alarm => (starved_start alarm fuel).eq

theorem not_terminates_start : ¬Terminates start ⟨session, []⟩ := by
  rintro ⟨o, u, hend, enough, heval⟩
  have hstarved := (starved_start (halt .stopped) enough).outOfFuel
  rw [heval enough (Nat.le_refl _)] at hstarved
  obtain rfl : o = .halted .outOfFuel := hstarved
  exact hend

end Relay

open Relay in
/-- There is no bound on how deep the runs of the relay nest. -/
theorem Eval.ends_iff_nesting_bounded_relay :
    Host.Responds BareHost ∧
      (∀ fuel, RunsOnly (fun _ bytecode => bytecode.jumpsForward) fuel start ⟨session, []⟩) ∧
      ¬∃ depth, ∀ fuel, RunsOnly (forwardWithin depth) fuel start ⟨session, []⟩ := by
  have hiff := ends_iff_nesting_bounded BareHost.responds start ⟨session, []⟩ runsOnly_start
  exact ⟨BareHost.responds, runsOnly_start,
    fun hbounded => not_terminates_start (hiff.mpr hbounded)⟩

open Relay in
/-- The host answers and all bytecode that is run only jumps forward, and yet no guard cuts the
relay off: with every bound on the evaluation it goes on beyond that bound. -/
theorem Eval.relay_outlasts_guards :
    Host.Responds BareHost ∧
      (∀ fuel, RunsOnly (fun _ bytecode => bytecode.jumpsForward) fuel start ⟨session, []⟩) ∧
      (∀ fuel, (eval fuel start ⟨session, []⟩).1 = .halted .outOfFuel) ∧
      ¬Terminates start ⟨session, []⟩ :=
  ⟨BareHost.responds, runsOnly_start, fun fuel => (starved_start (halt .stopped) fuel).outOfFuel,
    not_terminates_start⟩

end Arbor
