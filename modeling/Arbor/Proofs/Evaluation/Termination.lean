import Arbor.Proofs.Evaluation.Vetting
import Mathlib.Order.Filter.AtTopBot.Basic

/-!
# Evaluation ends

Evaluation is bounded by a number, and what it does with a bound that is too small says nothing
about programs. So a step is looked at for all bounds at once: it `Ends` when it comes to a value, a
`Return` or a fault, and to the same one for almost all bounds. Almost all bounds are those of a
filter, such as the bounds above a number.

The reason why evaluation ends is the depth that is left to it (`Activation.Room`). Every node that
is entered takes one level of it, wherever the node comes from: a closure, a module, or a program
that was built and is run.
-/

namespace Arbor

open Filter

variable {σ α β : Type}

/-- All calls of the host return. -/
def Host.Responds (σ : Type) [Host σ] : Prop :=
  ∀ (call : HostCall) (host : σ), (Host.perform call host).1 ≠ .stopped

/-- The step came to an end of its own: neither the host nor the bound on evaluation ended it. -/
def Outcome.Ended : Outcome α → Prop
  | .value _ | .returned _ | .halted (.fault _) => True
  | .halted _ => False

/-- These permissions are held, and at most so many more evaluations may nest. -/
structure Activation.Room (permissions : List String) (room : Nat) (t : Activation σ) : Prop where
  permissions : t.session.permissions = permissions
  depth : t.session.maxDepth ≤ t.session.depth + room

namespace Eval

/-- Wherever `P` holds the step ends, for almost all bounds in the same way and where `P` holds. -/
def Ends (l : Filter ℕ) (P : Activation σ → Prop) (step : ℕ → Eval σ α) : Prop :=
  ∀ t, P t → ∃ o u, (∀ᶠ fuel in l, step fuel t = (o, u)) ∧ o.Ended ∧ P u

namespace Ends

variable {l : Filter ℕ} {P : Activation σ → Prop}

/-! ## 1. Steps and sequences of steps -/

theorem of_step {step : Eval σ α} (h : ∀ t, P t → (step t).1.Ended ∧ P (step t).2) :
    Ends l P fun _ => step :=
  fun t ht => ⟨_, _, .of_forall fun _ => rfl, h t ht⟩

theorem pure (a : α) : Ends l P fun _ => (Pure.pure a : Eval σ α) :=
  of_step fun _ ht => ⟨trivial, ht⟩

theorem fault (f : Fault) : Ends l P fun _ => (Eval.fault f : Eval σ α) :=
  of_step fun _ ht => ⟨trivial, ht⟩

/-- A check ends whether it fails or not. -/
theorem check {fails : Activation σ → Prop} [DecidablePred fails] {fault : Activation σ → Fault}
    {a : α} :
    Ends l P fun _ t => if fails t then (.halted (.fault (fault t)), t) else (.value a, t) := by
  refine of_step fun t ht => ?_
  by_cases hfails : fails t
  · rw [if_pos hfails]
    exact ⟨trivial, ht⟩
  · rw [if_neg hfails]
    exact ⟨trivial, ht⟩

/-- Only almost all bounds matter. -/
theorem congr {step step' : ℕ → Eval σ α} (hsame : ∀ᶠ fuel in l, step fuel = step' fuel)
    (h : Ends l P step) : Ends l P step' := by
  intro t ht
  obtain ⟨o, u, hstep, hend⟩ := h t ht
  refine ⟨o, u, ?_, hend⟩
  filter_upwards [hsame, hstep] with fuel heq hfuel
  rw [← heq, hfuel]

/-- If the step ends for almost all bounds, so does the one that has one bound less. -/
theorem of_succ {l' : Filter ℕ} (hl : l' ≤ Filter.map (· + 1) l) {step : ℕ → Eval σ α}
    (h : Ends l P fun fuel => step (fuel + 1)) : Ends l' P step := by
  intro t ht
  obtain ⟨o, u, hstep, hend⟩ := h t ht
  exact ⟨o, u, hl (eventually_map.mpr hstep), hend⟩

theorem bind {step : ℕ → Eval σ α} {f : ℕ → α → Eval σ β} (hstep : Ends l P step)
    (hf : ∀ a, Ends l P fun fuel => f fuel a) : Ends l P fun fuel => step fuel >>= f fuel := by
  intro t ht
  obtain ⟨o, u, hstep, hend, hu⟩ := hstep t ht
  cases o with
  | value a =>
    obtain ⟨o, w, hf, hend⟩ := hf a u hu
    refine ⟨o, w, ?_, hend⟩
    filter_upwards [hstep, hf] with fuel hstep hf
    rw [bind_def, hstep]
    exact hf
  | returned v =>
    refine ⟨.returned v, u, ?_, hend, hu⟩
    filter_upwards [hstep] with fuel hstep
    rw [bind_def, hstep]
  | halted h =>
    have hend : (Outcome.halted h : Outcome β).Ended := by
      cases h <;> exact hend
    refine ⟨.halted h, u, ?_, hend, hu⟩
    filter_upwards [hstep] with fuel hstep
    rw [bind_def, hstep]

/-- What is done with the end of a step, whichever it is. -/
theorem map {Q : Activation σ → Prop} {step : ℕ → Eval σ α} (hstep : Ends l P step)
    (enter : Activation σ → Activation σ)
    (after : Activation σ → Outcome α × Activation σ → Outcome β × Activation σ)
    (henter : ∀ t, Q t → P (enter t))
    (hafter : ∀ t o u, Q t → o.Ended → P u → (after t (o, u)).1.Ended ∧ Q (after t (o, u)).2) :
    Ends l Q fun fuel t => after t (step fuel (enter t)) := by
  intro t ht
  obtain ⟨o, u, hstep, hend, hu⟩ := hstep (enter t) (henter t ht)
  refine ⟨_, _, ?_, hafter t o u ht hend hu⟩
  filter_upwards [hstep] with fuel hstep
  rw [hstep]

theorem catchReturn {step : ℕ → Eval σ Value} (hstep : Ends l P step) :
    Ends l P fun fuel => Eval.catchReturn (step fuel) := by
  refine hstep.map id (fun t r => Eval.catchReturn (fun _ => r) t) (fun _ ht => ht)
    fun t o u _ hend hu => ?_
  cases o with
  | value v => exact ⟨trivial, hu⟩
  | returned v => exact ⟨trivial, hu⟩
  | halted h => exact ⟨hend, hu⟩

theorem between {Q : Activation σ → Prop} {enter leave : Activation σ → Activation σ}
    {step : ℕ → Eval σ α} (hstep : Ends l P step) (henter : ∀ t, Q t → P (enter t))
    (hleave : ∀ t, P t → Q (leave t)) : Ends l Q fun fuel => Eval.between enter leave (step fuel) :=
  hstep.map enter (fun _ r => (r.1, leave r.2)) henter fun _ _ u _ hend hu => ⟨hend, hleave u hu⟩

end Ends

/-! ## 2. Evaluation -/

section Rooms

variable {permissions : List String} {room : Nat}

theorem ended_ask [Host σ] (hhost : Host.Responds σ) (call : HostCall) (t : Activation σ)
    (ht : t.Room permissions room) :
    (ask call t).1.Ended ∧ (ask call t).2.Room permissions room := by
  have hreturns := hhost call t.session.host
  unfold ask
  generalize Host.perform call t.session.host = x at hreturns
  obtain ⟨answer, host⟩ := x
  cases answer with
  | given reply => exact ⟨trivial, ht.permissions, ht.depth⟩
  | refused e => exact ⟨trivial, ht.permissions, ht.depth⟩
  | stopped => exact absurd rfl hreturns

theorem invoke_answer_ne_stopped [Host σ] (hhost : Host.Responds σ) (host : σ)
    (replay? : Option Replay) (target : String) (args : List Value) :
    (Dispatch.invoke host replay? target args).answer ≠ .stopped := by
  unfold Dispatch.invoke
  cases Dispatch.action replay?.isSome target args with
  | error e => nofun
  | ok action =>
    cases action with
    | value v => nofun
    | replayed => cases replay? <;> nofun
    | call c value =>
      have hreturns := hhost c host
      dsimp only
      generalize Host.perform c host = x at hreturns
      obtain ⟨answer, after⟩ := x
      cases answer with
      | given reply => nofun
      | refused e => nofun
      | stopped => exact absurd rfl hreturns

theorem ended_serveHost [Host σ] (hhost : Host.Responds σ) (target : String) (args : List Value)
    (t : Activation σ) (ht : t.Room permissions room) :
    (serveHost target args t).1.Ended ∧ (serveHost target args t).2.Room permissions room := by
  have hreturns := invoke_answer_ne_stopped hhost t.session.host t.session.replay? target args
  unfold serveHost
  dsimp only
  generalize Dispatch.invoke t.session.host t.session.replay? target args = result at hreturns ⊢
  obtain ⟨answer, host, replay?⟩ := result
  cases answer with
  | given v => exact ⟨trivial, ht.permissions, ht.depth⟩
  | refused e => exact ⟨trivial, ht.permissions, ht.depth⟩
  | stopped => exact absurd rfl hreturns

theorem ended_settleModule (path : String) (ran : Outcome Value × Exports) (hend : ran.1.Ended)
    (t : Activation σ) (ht : t.Room permissions room) :
    (settleModule path ran t).1.Ended ∧ (settleModule path ran t).2.Room permissions room := by
  have hkept (exports : Exports) : (keepExports path exports t).1.Ended ∧
      (keepExports path exports t).2.Room permissions room := ⟨trivial, ht.permissions, ht.depth⟩
  unfold settleModule
  split
  · next h _ =>
    refine ⟨?_, ht⟩
    cases h <;> exact hend
  · split
    · exact ⟨trivial, ht⟩
    · exact hkept _
  · exact hkept _
  · exact hkept _

/-- Evaluation is made of steps that end if those inside do. -/
def endRules [Host σ] (hhost : Host.Responds σ) (l : Filter ℕ) (permissions : List String)
    (room : Nat) : Compositional σ ℕ where
  Holds step := Ends l (Activation.Room permissions room) step
  Granted permission := permission ∈ permissions
  pure := .pure
  fault := .fault
  unwind _ := .of_step fun _ ht => ⟨trivial, ht⟩
  bind := .bind
  catchReturn := .catchReturn
  look _ := .of_step fun _ ht => ⟨trivial, ht⟩
  permitted permission yes no hyes hno := by
    intro t ht
    by_cases hheld : t.session.hasPermission permission = true
    · have hmem : permission ∈ permissions := by
        rw [← ht.permissions]
        simpa [Session.hasPermission] using hheld
      obtain ⟨o, u, hstep, hend⟩ := hyes hmem t ht
      refine ⟨o, u, ?_, hend⟩
      filter_upwards [hstep] with fuel hstep
      show (if t.session.hasPermission permission then yes fuel else no fuel) t = _
      rw [if_pos hheld, hstep]
    · obtain ⟨o, u, hstep, hend⟩ := hno t ht
      refine ⟨o, u, ?_, hend⟩
      filter_upwards [hstep] with fuel hstep
      show (if t.session.hasPermission permission then yes fuel else no fuel) t = _
      rw [if_neg hheld, hstep]
  currentEnv := .of_step fun _ ht => ⟨trivial, ht⟩
  newSerial := .of_step fun _ ht => ⟨trivial, ht.permissions, ht.depth⟩
  mapEnv f := by
    refine .of_step fun t ht => ⟨trivial, ?_⟩
    unfold Activation.mapEnv
    split
    · exact ⟨ht.permissions, ht.depth⟩
    · exact ⟨ht.permissions, ht.depth⟩
  addExport name v := by
    refine .of_step fun t ht => ⟨trivial, ?_⟩
    unfold Eval.addExport Activation.addExport
    dsimp only
    split
    · exact ht
    · exact ⟨ht.permissions, ht.depth⟩
  recordCall _ _ _ _ := .of_step fun _ ht => ⟨trivial, ht.permissions, ht.depth⟩
  noteStep _ := .of_step fun _ ht => ⟨trivial, ht.permissions, ht.depth⟩
  known _ _ := .check
  checkWritable _ _ := .check
  ask call := .of_step (ended_ask hhost call)
  serveHost target args := .of_step (ended_serveHost hhost target args)
  inCall _ _ _ hstep := hstep.between (fun _ ht => ⟨ht.permissions, ht.depth⟩)
    fun _ ht => ⟨ht.permissions, ht.depth⟩
  runNested hn := hn.catchReturn.map (fun t => { t with frames := [∅] })
    (fun t r => (r.1, { r.2 with frames := t.frames }))
    (fun _ ht => ⟨ht.permissions, ht.depth⟩) fun _ _ _ _ hend hu => ⟨hend, hu.permissions, hu.depth⟩
  load path self program hprogram := by
    refine hprogram.map (fun t => t.enterModule path) (fun t r =>
      settleModule path (r.1, r.2.exports) (r.2.leaveModule path t.session.baseDir))
      (fun _ ht => ⟨ht.permissions, ht.depth⟩) fun t o u _ hend hu => ?_
    exact ended_settleModule path (o, u.exports) hend _ ⟨hu.permissions, hu.depth⟩

variable {l : Filter ℕ}

/-- Inside of a node there is room for one evaluation less. -/
theorem Ends.entering {step : ℕ → Eval σ Value}
    (hstep : Ends l (Activation.Room permissions room) step) (n : Node) :
    Ends l (Activation.Room permissions (room + 1)) fun fuel => Eval.entering n (step fuel) := by
  have hcheck : Ends l (Activation.Room permissions (room + 1))
      fun _ => (checkDepth n : Eval σ Unit) := .check
  have hknown (v : Value) : Ends l (Activation.Room permissions (room + 1))
      fun _ => (known n v : Eval σ Value) := .check
  have hnote : Ends l (Activation.Room permissions (room + 1))
      fun _ => (noteStep n : Eval σ Unit) :=
    .of_step fun t ht => ⟨trivial, ht.permissions, ht.depth⟩
  refine hcheck.bind fun _ => ?_
  refine hnote.bind fun _ => ?_
  refine (hstep.between (fun t ht => ⟨ht.permissions, ?_⟩)
    fun t ht => ⟨ht.permissions, ?_⟩).bind hknown
  · have hdepth := ht.depth
    show t.session.maxDepth ≤ t.session.depth + 1 + room
    omega
  · have hdepth := ht.depth
    show t.session.maxDepth ≤ t.session.depth - 1 + (room + 1)
    omega

/-- Without room the depth is exceeded. -/
theorem Ends.entering_of_deep (step : ℕ → Eval σ Value) (n : Node) :
    Ends l (Activation.Room permissions 0) fun fuel => Eval.entering n (step fuel) := by
  intro t ht
  have hdeep : t.session.maxDepth ≤ t.session.depth := ht.depth
  have hcheck : checkDepth n t = (.halted (.fault (.depthExceeded t.session.maxDepth n.id)), t) :=
    if_pos hdeep
  refine ⟨.halted (.fault (.depthExceeded t.session.maxDepth n.id)), t, .of_forall fun fuel => ?_,
    trivial, ht⟩
  show (checkDepth n >>= _ : Eval σ Value) t = _
  rw [bind_def, hcheck]

section Vetted

variable [Host σ] (hhost : Host.Responds σ) {admits : Nat → Node → Bool} {alarm : Eval σ Value}
include hhost

/-- A call of a capability ends if the runs of the machine do, which need a permission. -/
theorem Ends.vettedCapability {self : ℕ → Node → Eval σ Value}
    (hself : ∀ n, Ends l (Activation.Room permissions room) fun fuel => self fuel n)
    {steps : ℕ → Nat} {level : Nat} (hrun : "sys" ∈ permissions → ∀ bytecode entry callArgs,
      Ends l (Activation.Room permissions room) fun fuel => vettedRun admits alarm level
        (Eval.vettedCapability admits alarm (self fuel) (steps fuel) (fuel - (level + 1))
          (level + 1)) (steps fuel) bytecode entry callArgs)
    (hl : ∀ᶠ fuel in l, level < fuel) (target : String) (args : List Value) :
    Ends l (Activation.Room permissions room) fun fuel =>
      Eval.vettedCapability admits alarm (self fuel) (steps fuel) (fuel - level) level target
        args := by
  let C := endRules hhost l permissions room
  have hchecked : C.Holds fun fuel => callChecked (vettedMeta admits alarm (self fuel)
      (Eval.vettedCapability admits alarm (self fuel) (steps fuel) (fuel - (level + 1)) (level + 1))
      (steps fuel) level) target args := by
    refine C.callChecked fun contract hlookup hgranted => ?_
    refine C.vettedMeta hself ?_
    rintro bytecode entry callArgs rfl
    -- the call was let through, so the permission that its contract names is held
    obtain rfl : contract = _ := Option.some.inj hlookup.symm
    exact hrun hgranted bytecode entry callArgs
  refine Ends.congr ?_ hchecked
  filter_upwards [hl] with fuel hfuel
  rw [show fuel - level = fuel - (level + 1) + 1 by omega]
  rfl

/-- A vetted evaluation ends if the capability calls in it do. There may be fewer of the bounds for
which this is known the more room there is. -/
theorem Ends.vetted {l : Nat → Filter ℕ} (hpos : ∀ room, ∀ᶠ fuel in l room, 0 < fuel)
    (hl : ∀ room, l (room + 1) ≤ Filter.map (· + 1) (l room))
    (hcapability : ∀ room (self : ℕ → Node → Eval σ Value),
      (∀ n, Ends (l room) (Activation.Room permissions room) fun fuel => self fuel n) →
      ∀ target args, Ends (l room) (Activation.Room permissions room) fun fuel =>
        Eval.vettedCapability admits alarm (self fuel) fuel fuel 0 target args)
    (room : Nat) (n : Node) :
    Ends (l room) (Activation.Room permissions room)
      fun fuel => Eval.vetted admits alarm fuel n := by
  induction room generalizing n with
  | zero =>
    refine .congr ?_ (.entering_of_deep (fun fuel => vettedForm admits alarm
      (Eval.vetted admits alarm (fuel - 1)) (fuel - 1) n) n)
    filter_upwards [hpos 0] with fuel hfuel
    rw [show fuel = fuel - 1 + 1 by omega]
    rfl
  | succ room ih =>
    refine .of_succ (hl room) (.entering ?_ n)
    exact (endRules hhost (l room) permissions room).vettedForm ih n (hcapability room _ ih)

end Vetted

end Rooms

/-! ## 3. Without bytecode -/

/-- In a session that may not run bytecode evaluation ends, over every host that answers: it comes
to the same value, `Return` or fault with every bound above the depth that is left. -/
theorem eval_ends [Host σ] (hhost : Host.Responds σ) (n : Node) (t : Activation σ)
    (hsys : t.session.hasPermission "sys" = false) :
    ∃ o u, o.Ended ∧
      ∀ fuel, t.session.maxDepth - t.session.depth < fuel → eval fuel n t = (o, u) := by
  let permissions := t.session.permissions
  -- with so much room all bounds above it are enough
  let bounds (room : Nat) : Filter ℕ := 𝓟 (Set.Ioi room)
  have hmissing : "sys" ∉ permissions := by simpa [Session.hasPermission] using hsys
  have hpos (room : Nat) : ∀ᶠ fuel in bounds room, 0 < fuel :=
    eventually_principal.mpr fun fuel (hfuel : room < fuel) => by omega
  have hbounds (room : Nat) : bounds (room + 1) ≤ map (· + 1) (bounds room) := by
    rw [map_principal]
    refine principal_mono.mpr fun fuel (hfuel : room + 1 < fuel) => ?_
    exact ⟨fuel - 1, show room < fuel - 1 by omega, show fuel - 1 + 1 = fuel by omega⟩
  have hends (room : Nat) : Ends (bounds room) (Activation.Room permissions room)
      fun fuel => vetted (fun _ _ => true) (halt .stopped) fuel n :=
    .vetted hhost hpos hbounds (fun room self hself => Ends.vettedCapability hhost hself
      (fun hheld => absurd hheld hmissing) (hpos room)) room n
  obtain ⟨o, u, heval, hend, _⟩ := hends (t.session.maxDepth - t.session.depth) t ⟨rfl, by omega⟩
  refine ⟨o, u, hend, fun fuel hfuel => ?_⟩
  rw [← vetted_of_all (halt .stopped)]
  exact eventually_principal.mp heval fuel hfuel

end Eval

/-- A host that supports nothing. -/
structure BareHost where

instance : Host BareHost where
  perform call host := (.refused (.unsupported call.label), host)

theorem BareHost.responds : Host.Responds BareHost := nofun

/-- A session over such a host. -/
def BareHost.session (more : List String) : Session BareHost where
  permissions := defaultPermissions more
  host := ⟨⟩

/-- A program with a function that calls itself without end. -/
def endless : Node :=
  let call (id : String) : Node :=
    { kind := "Call", id, attrs := attrs [("target", .identifier "f")] }
  let function : Node :=
    { kind := "Fn", id := "f", attrs := attrs [("params", .string "")]
      children := [{ kind := "Block", id := "b", children := [call "c"] }] }
  { kind := "Program", id := "p"
    children :=
      [{ kind := "Let", id := "l", attrs := attrs [("name", .identifier "f")]
         children := [function] },
       call "d"] }

theorem Eval.eval_ends_endless :
    Host.Responds BareHost ∧ (BareHost.session []).hasPermission "sys" = false ∧
      ∃ o u, o.Ended ∧
        ∀ fuel, 4096 < fuel → eval fuel endless ⟨BareHost.session [], []⟩ = (o, u) := by
  have hsys : (BareHost.session []).hasPermission "sys" = false := by decide
  have hends := eval_ends BareHost.responds endless ⟨BareHost.session [], []⟩ hsys
  exact ⟨BareHost.responds, hsys, hends⟩

end Arbor
