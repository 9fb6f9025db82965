import Arbor.Proofs.Compilation.Alignment

/-!
# Calls without effects

A call of a capability for which the permission is missing is unknown. Evaluation does not look at its
arguments, while bytecode computes them first. So the host is asked for nothing by either only if the
arguments are inert: then the machine passes through their code and leaves the session as it was
(`settles_inert`), and comes to the unknown value of the call (`settles_denied`).
-/

namespace Arbor

variable {σ : Type} [Host σ]

/-! ## 1. Capabilities that ask nothing of the host -/

namespace Eval

omit [Host σ] in
theorem serveMeta_eq_value {target : String} (htarget : target ∉ runningTargets)
    (self : Node → Eval σ Value) (call : String → List Value → Eval σ Value) (steps : Nat)
    (args : List Value) (t : Activation σ) :
    ∃ v, serveMeta self call steps target args t = (.value v, t) := by
  unfold serveMeta
  split
  · exact ⟨_, rfl⟩
  · exact ⟨_, rfl⟩
  · exact ⟨_, rfl⟩
  · exact ⟨_, rfl⟩
  · exact absurd (by decide) htarget
  · exact absurd (by decide) htarget
  · exact ⟨_, rfl⟩

/-- An addition of two integers asks the host for nothing. -/
theorem serveHost_add {contract : Contract} (hlookup : Contract.lookup? "math.add" = some contract)
    {args : List Value} (hkinds : args.map Value.kind = contract.args.map ArgSpec.kind)
    (t : Activation σ) :
    ∃ v u, serveHost "math.add" args t = (.value v, u) ∧ t.session.Agree u.session := by
  have hints : some [ValueKind.int, ValueKind.int] = some (contract.args.map ArgSpec.kind) :=
    congrArg (Option.map fun c : Contract => c.args.map ArgSpec.kind) hlookup
  rw [← Option.some.inj hints] at hkinds
  obtain ⟨a, b, rfl⟩ : ∃ a b, args = [.int a, .int b] := by
    match args with
    | [.int a, .int b] => exact ⟨a, b, rfl⟩
  exact ⟨.int (a + b), _, rfl, rfl, rfl, rfl⟩

/-- A capability that needs no permission of the host, and evaluates no program, comes to a value. -/
theorem callCapability_unprivileged {target : String} {contract : Contract}
    (hlookup : Contract.lookup? target = some contract) (htarget : target ∉ runningTargets)
    (hunprivileged : contract.permission ∉ hostPermissions) (self : Node → Eval σ Value)
    (steps nesting : Nat) (args : List Value) (t : Activation σ) :
    ∃ v u, callCapability self steps (nesting + 1) target args t = (.value v, u) ∧
      t.session.Agree u.session := by
  by_cases hdenied : contract.permission ∉ t.session.permissions
  · exact ⟨_, _, callCapability_denied hlookup self steps (nesting + 1) args hdenied, rfl, rfl, rfl⟩
  have hheld : (!t.session.hasPermission contract.permission) = false := by
    rw [Bool.not_eq_false']
    exact Session.hasPermission_iff.mpr (not_not.mp hdenied)
  show ∃ v u, callChecked (serveMeta self (callCapability self steps nesting) steps) target args t =
    (.value v, u) ∧ t.session.Agree u.session
  unfold callChecked
  rw [hlookup]
  show ∃ v u, (if (!t.session.hasPermission contract.permission) = true then
    (deny contract >>= fun _ => pure .unknown : Eval σ Value) else _) t = (.value v, u) ∧ _
  rw [hheld, if_neg Bool.false_ne_true]
  by_cases hfit : (args.any Value.isUnknown || !(contract.check (args.map Value.kind)).isEmpty) = true
  · rw [if_pos hfit]
    exact ⟨.unknown, _, rfl, rfl, rfl, rfl⟩
  rw [if_neg hfit]
  obtain ⟨hmem, hname⟩ := Contract.mem_table_of_lookup? hlookup
  by_cases hmeta : contract.isMeta = true
  · obtain ⟨v, hv⟩ :=
      serveMeta_eq_value htarget self (callCapability self steps nesting) steps args t
    rw [if_pos hmeta, bind_def, hv]
    exact ⟨v, _, rfl, rfl, rfl, rfl⟩
  · -- the table has no other capability with such a permission that a host serves
    rw [if_neg hmeta]
    rcases unprivileged_target contract hmem with hprivileged | hadd | hserved
    · exact absurd hprivileged hunprivileged
    · obtain rfl : target = "math.add" := hname.symm.trans hadd
      exact serveHost_add hlookup (Contract.kinds_eq_of_fit hfit).2 t
    · exact absurd hserved hmeta

end Eval

/-! ## 2. Inert code -/

namespace Compiler

open Node

/-- The end of a run is accepted when the machine fails in a session that agrees: at one of its limits,
or at a condition that is no truth value. -/
structure AcceptsFailures (Q : MachineEnd σ → Prop) (s : Session σ) : Prop where
  limits : ∀ (e : BytecodeError) (u : Activation σ), e.IsLimit → s.Agree u.session →
    Q (.error (.failed e), u)
  odd : ∀ v name (u : Activation σ), v.kind ≠ .bool → s.Agree u.session →
    Q (.error (.failed (Settles.oddCondition v name)), u)

variable {p : BytecodeProgram} {Q : MachineEnd σ → Prop} {s : Session σ} {c : Machine.Seat}

theorem AcceptsFailures.after (hQ : AcceptsFailures Q s) {u : Session σ} (hu : s.Agree u)
    (e : BytecodeError) (he : e.IsLimit) : After p Q (.failed e) u :=
  fun v hv => hQ.limits e v he (hu.trans hv)

/-- Whatever capability inert code calls, the session stays as it is. -/
theorem settles_capability (hQ : AcceptsFailures Q s) (hc : p.functions[c.index]? = some c.function)
    {target : String} {contract : Contract} (hlookup : Contract.lookup? target = some contract)
    (hquiet : contract.permission ∉ s.permissions ∨
      target ∉ runningTargets ∧ contract.permission ∉ hostPermissions)
    {pc : Nat} {slots ops args : List Value} (hargs : args.length < 2147483648)
    (hinst : c.function.code[pc]? = some (.of .callSys (saturateCount args.length) target))
    (hnext : ∀ v, Settles p Q (c.machine (pc + 1) slots (ops ++ [v])) s) :
    Settles p Q (c.machine pc slots (ops ++ args)) s := by
  have hidle : Eval.Idle s.permissions target := by
    rcases hquiet with hdenied | ⟨hrunning, -⟩
    · exact .inr ⟨contract, hlookup, hdenied⟩
    · exact .inl hrunning
  -- denied or served, the call comes to a value and asks the host for nothing
  have hanswer : ∃ v u, Eval.callCapability (fun _ => Eval.halt .outOfFuel) 0 1 target args
      (⟨s, []⟩ : Activation σ) = (.value v, u) ∧ s.Agree u.session := by
    rcases hquiet with hdenied | ⟨hrunning, hunprivileged⟩
    · exact ⟨_, _, Eval.callCapability_denied hlookup _ 0 1 args (t := ⟨s, []⟩) hdenied, rfl, rfl, rfl⟩
    · exact Eval.callCapability_unprivileged hlookup hrunning hunprivileged _ 0 0 args ⟨s, []⟩
  obtain ⟨v, u, hcall, hagree⟩ := hanswer
  refine Settles.callSys hc hargs hinst (t := ⟨s, []⟩) hidle (hQ.after hagree) hcall (fun v _ => ?_)
    fun e _ he => ?_
  · exact Settles.of_agree hagree.symm (hnext v)
  · cases he

/-- Inert code keeps all the slots, and the end of the run is the same from the start of it on. -/
theorem rules_inert (hQ : AcceptsFailures Q s) (hc : p.functions[c.index]? = some c.function)
    (functions : List String) :
    Rules p (Settles p Q · s) (After p Q · s) Eq c functions (Node.Inert s.permissions) where
  backwards := Settles.backwards
  limit := hQ.after (.refl s)
  odd v hv u hu := hQ.odd v c.function.name u hv hu
  refl _ := rfl
  trans := Eq.trans
  length := by
    rintro slots slots' rfl
    rfl
  children hn := hn.children
  bind hn hform := absurd hform hn.here.bind
  leave hn hform := absurd hform hn.here.leave
  capability := by
    intro n target hn hform htarget _ pc slots ops args hargs hinst hnext
    obtain ⟨hsome, hquiet⟩ := hn.here.call hform target htarget
    obtain ⟨contract, hlookup⟩ := Option.isSome_iff_exists.mp hsome
    exact settles_capability hQ hc hlookup (hquiet contract hlookup) hargs hinst hnext
  function := by
    intro n target hn hform htarget hlookup
    obtain ⟨hsome, -⟩ := hn.here.call hform target htarget
    rw [hlookup] at hsome
    cases hsome

/-- The arguments of a denied call are computed without effects, and the call is unknown. -/
theorem settles_denied {functions : List String} {ns : List Node} {start : Nat} {scope scope' : Scope}
    {codes : List (List Instruction)} {target : String} {contract : Contract}
    (hlookup : Contract.lookup? target = some contract)
    (hdenied : contract.permission ∉ s.permissions) (hinert : ∀ n ∈ ns, n.Inert s.permissions)
    (hcode : CompilesAll functions 0 start ns scope codes scope') (hhome : Home p c scope')
    (hplaced : Placed (codes.flatten ++ [.of .callSys (saturateCount ns.length) target]) start
      c.function)
    (hQ : AcceptsFailures Q s) {slots ops : List Value} (hslots : slots.length = c.function.slotCount)
    (hnext : Settles p Q (c.machine (start + codes.flatten.length + 1) slots (ops ++ [.unknown])) s) :
    Settles p Q (c.machine start slots ops) s := by
  have hrules := rules_inert hQ hhome.function functions
  have hcount := argumentCount_lt hcode hhome hplaced
  obtain ⟨hfirst, hrest⟩ := hplaced.append
  have hnets := nets_operands hrules (hcode.allNet hrules hinert hhome) hfirst
  refine hnets slots ops hslots fun slots' args hsame hargs => ?_
  subst hsame
  rw [hcode.length_codes] at hargs
  have hinst := hrest.head.1
  rw [← hargs] at hinst hcount
  have hanswer := Eval.callCapability_denied hlookup (fun _ => Eval.halt .outOfFuel) 0 1 args
    (t := (⟨s, []⟩ : Activation σ)) hdenied
  refine Settles.callSys hhome.function hcount hinst (t := ⟨s, []⟩)
    (.inr ⟨contract, hlookup, hdenied⟩) (hQ.after ⟨rfl, rfl, rfl⟩) hanswer (fun v hv => ?_)
    fun e _ he => ?_
  · cases hv
    exact Settles.of_agree (s := s) ⟨rfl, rfl, rfl⟩ hnext
  · cases he

end Compiler

end Arbor
