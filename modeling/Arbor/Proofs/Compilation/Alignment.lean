import Arbor.Proofs.Bytecode.Settling
import Arbor.Proofs.Compilation.Nets
import Arbor.Proofs.Compilation.Source
import Arbor.Proofs.Dict
import Mathlib.Data.List.Nodup

/-!
# Evaluation and the machine side by side

A seat of the machine runs the code of a node while evaluation works on the node. `Aligned` says that
the two stand at the same point: each bound variable has its value in its slot, and each function is
bound to its closure. `Follows` says that the machine, from one instruction to another one, does what
an evaluation step does: where the step comes to a value, the machine gets there with that value on
its operands, and where it does not, both runs end alike.

`Follows` takes what the machine does afterwards as a hypothesis. So the two runs need no common
measure, and the end of each is looked at once, in the end that `Otherwise` is about.
-/

namespace Arbor.Compiler

/-! ## 1. Bytecode and closures -/

/-- A bytecode program, the permissions it runs with, and the closures of its definitions. In each
function some names are kept: they stay bound to the closures. -/
structure World where
  program : BytecodeProgram
  permissions : List String
  closures : List (String × Closure Value)
  kept : String → String → Prop

/-- The names of the functions. -/
def World.functions (w : World) : List String := w.closures.map Prod.fst

/-- The function is in the program, and its operands do not saturate. -/
structure Seated (w : World) (index : Nat) (f : BytecodeFunction) : Prop where
  function : w.program.functions[index]? = some f
  size : f.code.size < 2147483648
  slotCount : f.slotCount < 2147483648

/-- The seat's function has the code at `start`, and what the compiler has behind it. -/
structure Site (w : World) (c : Machine.Seat) (start : Nat) (code : List Instruction) (s : Scope) :
    Prop where
  seated : Seated w c.index c.function
  placed : Placed code start c.function
  locals : s.locals <+: c.function.locals
  constants : s.constants <+: w.program.constants

theorem Site.part {w : World} {c : Machine.Seat} {start start' : Nat} {code code' : List Instruction}
    {s s' : Scope} (h : Site w c start code s) (hplaced : Placed code' start' c.function)
    (hgrows : s'.Grows s) : Site w c start' code' s' :=
  ⟨h.seated, hplaced, hgrows.locals.trans h.locals, hgrows.constants.trans h.constants⟩

theorem Site.lt_slotCount {w : World} {c : Machine.Seat} {start : Nat} {code : List Instruction}
    {s : Scope} (h : Site w c start code s) {name : String} {i : Nat}
    (hi : s.locals.findIdx? (· == name) = some i) : i < c.function.slotCount := by
  obtain ⟨hlt, -⟩ := List.findIdx?_eq_some_iff_getElem.mp hi
  have hle := h.locals.length_le
  unfold BytecodeFunction.slotCount
  omega

/-- The bytecode function is that of the closure. -/
structure Realizes (w : World) (name : String) (f : Closure Value) (index : Nat)
    (callee : BytecodeFunction) (constants : List Value) (codes : List (List Instruction))
    (s : Scope) : Prop where
  found : w.program.functionIndex? name = some index
  named : callee.name = name
  seated : Seated w index callee
  compiles : CompilesAll w.functions 2 0 f.body.children ⟨f.params, constants⟩ codes s
  code : callee.code.toList = sequenceCode 0 codes ++ [.of .ret]
  params : callee.params = f.params
  locals : callee.locals = s.locals
  constants : s.constants <+: w.program.constants

/-- Each closure has its bytecode function, and captures nothing but closures of the program. A name
that is kept in a function is kept in `main`, too, and is no parameter of the function. The names in
scope in its body are parameters that the list has once, or have no slot. -/
structure World.Sound (w : World) : Prop where
  distinct : w.functions.Nodup
  constants : w.program.constants.length < 2147483648
  realized : ∀ name f, (name, f) ∈ w.closures →
    ∃ index callee constants codes s, Realizes w name f index callee constants codes s
  named : ∀ name f, (name, f) ∈ w.closures → f.name? = some name
  captured : ∀ name f, (name, f) ∈ w.closures → ∀ d ∈ f.captured,
    ∃ g, d.2 = .fn g ∧ (d.1, g) ∈ w.closures
  kept : ∀ name f, (name, f) ∈ w.closures → ∀ x, w.kept name x → w.kept mainName x ∧ x ∉ f.params
  block : ∀ name f, (name, f) ∈ w.closures → f.body.form? = some .block
  plain : ∀ name f, (name, f) ∈ w.closures → f.body.Plain w.functions (w.kept name) w.permissions
  bound : ∀ name f, (name, f) ∈ w.closures → ∃ bound, f.body.Scoped bound ∧
    ∀ x ∈ bound, (x ∈ f.params ∨ ∃ m ∈ f.body.walk, x ∈ m.binds) → f.params.count x = 1

theorem Site.home {w : World} (hw : w.Sound) {c : Machine.Seat} {start : Nat}
    {code : List Instruction} {s : Scope} (h : Site w c start code s) : Home w.program c s :=
  ⟨h.seated.function, h.seated.size, h.seated.slotCount, hw.constants, h.locals, h.constants⟩

theorem World.Sound.unique {w : World} (hw : w.Sound) {name : String} {f g : Closure Value}
    (hf : (name, f) ∈ w.closures) (hg : (name, g) ∈ w.closures) : f = g :=
  congrArg Prod.snd (List.inj_on_of_nodup_map hw.distinct hf hg rfl)

/-- In a call every name that is kept there is bound to its closure. -/
theorem find?_calleeEnv {w : World} (hw : w.Sound) {name : String} {f : Closure Value}
    (hf : (name, f) ∈ w.closures) {globals : Env}
    (hglobals : ∀ name f, (name, f) ∈ w.closures → w.kept mainName name →
      globals.find? name = some (.fn f))
    (args : List Value) {other : String} {g : Closure Value} (hg : (other, g) ∈ w.closures)
    (hkept : w.kept name other) : (Eval.calleeEnv globals f args).find? other = some (.fn g) := by
  obtain ⟨hmain, hparam⟩ := hw.kept name f hf other hkept
  unfold Eval.calleeEnv
  rw [hw.named name f hf]
  refine Dict.find?_insertAll (fun e he heq => ?_) (Dict.find?_insertAll (fun e he heq => ?_) ?_)
  · exact absurd (heq ▸ (List.of_mem_zip he).1) hparam
  -- what is captured under the name is the closure of that name, too
  · obtain ⟨g', hvalue, hg'⟩ := hw.captured name f hf e he
    rw [heq] at hg'
    rw [hvalue, hw.unique hg' hg]
  · by_cases hname : other = name
    · subst hname
      rw [Dict.find?_insert_self, hw.unique hf hg]
    · rw [Dict.find?_insert_of_ne _ hname]
      exact hglobals other g hg hmain

/-- A slot of a function is one of its parameters, or was made for a name that its body binds. -/
theorem Realizes.slot {w : World} {name : String} {f : Closure Value} {index : Nat}
    {callee : BytecodeFunction} {constants : List Value} {codes : List (List Instruction)} {s : Scope}
    (h : Realizes w name f index callee constants codes s) {x : String} (hx : x ∈ callee.locals) :
    x ∈ f.params ∨ ∃ m ∈ f.body.walk, x ∈ m.binds := by
  rw [h.locals] at hx
  refine (h.compiles.mem_locals hx).imp_right fun ⟨c, hc, m, hm, hbinds⟩ => ?_
  exact ⟨m, Node.mem_walk_of_mem_children hc hm, hbinds⟩

section

variable {σ : Type}

/-! ## 2. Aligned states -/

/-- Evaluation and the machine stand at the same point, with the names `bound` in scope. The bound on
evaluation is not in the way of the depth that the session allows. -/
structure Aligned (w : World) (fuel : Nat) (c : Machine.Seat) (bound locals : List String)
    (slots : List Value) (t : Activation σ) : Prop where
  length : slots.length = c.function.slotCount
  vars : ∀ x ∈ bound, x ∈ c.function.locals → ∃ i v,
    locals.findIdx? (· == x) = some i ∧ slots[i]? = some v ∧ t.env.find? x = some v
  env : ∀ name f, (name, f) ∈ w.closures → w.kept c.function.name name →
    t.env.find? name = some (.fn f)
  globals : ∀ name f, (name, f) ∈ w.closures → w.kept mainName name →
    t.session.globals.find? name = some (.fn f)
  /-- Outside of all calls the statements of `main` are evaluated. -/
  outermost : t.frames = [] → c.function.name = mainName
  strict : t.session.strict = false
  readOnly : t.session.readOnly = []
  permissions : t.session.permissions = w.permissions
  depth : t.session.depth ≤ t.session.maxDepth
  fuel : t.session.maxDepth < fuel + t.session.depth

namespace Aligned

variable {w : World} {fuel : Nat} {c : Machine.Seat} {bound locals : List String}
  {slots : List Value} {t : Activation σ}

theorem mono (h : Aligned w fuel c bound locals slots t) {bound' locals' : List String}
    (hbound : bound' ⊆ bound) (hlocals : locals <+: locals') :
    Aligned w fuel c bound' locals' slots t where
  length := h.length
  vars := by
    intro x hx hvariable
    obtain ⟨i, v, hi, hslot, henv⟩ := h.vars x (hbound hx) hvariable
    exact ⟨i, v, findIdx?_of_prefix hlocals hi, hslot, henv⟩
  env := h.env
  globals := h.globals
  outermost := h.outermost
  strict := h.strict
  readOnly := h.readOnly
  permissions := h.permissions
  depth := h.depth
  fuel := h.fuel

/-- What leaves the bindings alone keeps the states aligned. -/
theorem of_restores [Host σ] (h : Aligned w fuel c bound locals slots t) {u : Activation σ}
    (hu : Restores t u) (hframes : u.frames = t.frames)
    (hglobals : u.session.globals = t.session.globals) :
    Aligned w fuel c bound locals slots u := by
  have henv : u.env = t.env := by
    unfold Activation.env
    rw [hframes, hglobals]
  refine ⟨h.length, ?_, ?_, ?_, ?_, hu.strict.trans h.strict, hu.readOnly.trans h.readOnly,
    hu.permissions.trans h.permissions, ?_, ?_⟩
  · rw [henv]
    exact h.vars
  · rw [henv]
    exact h.env
  · rw [hglobals]
    exact h.globals
  · rw [hframes]
    exact h.outermost
  · rw [hu.depth, hu.maxDepth]
    exact h.depth
  · rw [hu.depth, hu.maxDepth]
    exact h.fuel

theorem deepen (h : Aligned w (fuel + 1) c bound locals slots t)
    (hdepth : t.session.depth < t.session.maxDepth) (n : Node) :
    Aligned w fuel c bound locals slots (t.noteStep n).deepen where
  length := h.length
  vars := h.vars
  env := h.env
  globals := h.globals
  outermost := h.outermost
  strict := h.strict
  readOnly := h.readOnly
  permissions := h.permissions
  depth := hdepth
  fuel := by
    have hfuel := h.fuel
    show t.session.maxDepth < fuel + (t.session.depth + 1)
    omega

theorem surface (h : Aligned w fuel c bound locals slots t) :
    Aligned w (fuel + 1) c bound locals slots t.surface where
  length := h.length
  vars := h.vars
  env := h.env
  globals := h.globals
  outermost := h.outermost
  strict := h.strict
  readOnly := h.readOnly
  permissions := h.permissions
  depth := by
    have hdepth := h.depth
    show t.session.depth - 1 ≤ t.session.maxDepth
    omega
  fuel := by
    have hfuel := h.fuel
    show t.session.maxDepth < fuel + 1 + (t.session.depth - 1)
    omega

/-- A name that is bound has its new value in its slot. -/
theorem assign (h : Aligned w fuel c bound locals slots t) {name : String} {i : Nat}
    (hi : locals.findIdx? (· == name) = some i) (hlt : i < slots.length)
    (hname : ¬w.kept c.function.name name) (v : Value) :
    Aligned w fuel c (name :: bound) locals (slots.set i v)
      (t.mapEnv fun env => env.insert name v) := by
  have hother {x : String} (hx : x ≠ name) (env : Env) : (env.insert name v).find? x = env.find? x :=
    env.find?_insert_of_ne hx v
  have hne {function : String} (hkept : w.kept c.function.name function) : function ≠ name := by
    rintro rfl
    exact hname hkept
  have hsame : (t.mapEnv fun env => env.insert name v).session.strict = t.session.strict ∧
      (t.mapEnv fun env => env.insert name v).session.readOnly = t.session.readOnly ∧
      (t.mapEnv fun env => env.insert name v).session.permissions = t.session.permissions ∧
      (t.mapEnv fun env => env.insert name v).session.depth = t.session.depth ∧
      (t.mapEnv fun env => env.insert name v).session.maxDepth = t.session.maxDepth := by
    unfold Activation.mapEnv
    split <;> exact ⟨rfl, rfl, rfl, rfl, rfl⟩
  obtain ⟨hstrict, hreadOnly, hpermissions, hdepth, hmaxDepth⟩ := hsame
  refine ⟨(List.length_set ..).trans h.length, ?_, ?_, ?_, ?_, hstrict.trans h.strict,
    hreadOnly.trans h.readOnly, hpermissions.trans h.permissions, ?_, ?_⟩
  · intro x hx hvariable
    rw [Activation.env_mapEnv]
    by_cases hxname : x = name
    · subst hxname
      exact ⟨i, v, hi, List.getElem?_set_self hlt, Dict.find?_insert_self _ _ _⟩
    · obtain ⟨j, u, hj, hslot, henv⟩ :=
        h.vars x ((List.mem_cons.mp hx).resolve_left hxname) hvariable
      -- slots are found by name, so different names have different slots
      have hij : i ≠ j := by
        rintro rfl
        obtain ⟨_, hisname, _⟩ := List.findIdx?_eq_some_iff_getElem.mp hi
        obtain ⟨_, hisx, _⟩ := List.findIdx?_eq_some_iff_getElem.mp hj
        exact hxname ((beq_iff_eq.mp hisx).symm.trans (beq_iff_eq.mp hisname))
      refine ⟨j, u, hj, ?_, ?_⟩
      · rw [List.getElem?_set_ne hij]
        exact hslot
      · rw [hother hxname]
        exact henv
  · intro function f hf hkept
    rw [Activation.env_mapEnv, hother (hne hkept)]
    exact h.env function f hf hkept
  · intro function f hf hkept
    have hfind := h.globals function f hf hkept
    unfold Activation.mapEnv
    split
    -- outside of all calls the name is bound globally, but then it is not kept in `main`
    · next hframes =>
      rw [← h.outermost hframes] at hkept
      exact (hother (hne hkept) _).trans hfind
    · exact hfind
  · intro hframes
    refine h.outermost ?_
    unfold Activation.mapEnv at hframes
    split at hframes
    · next hnone => exact hnone
    · cases hframes
  · rw [hdepth, hmaxDepth]
    exact h.depth
  · rw [hdepth, hmaxDepth]
    exact h.fuel

/-- A call starts aligned: its arguments are in the first slots. -/
theorem enter (h : Aligned w fuel c bound locals slots t) (hw : w.Sound) {name : String}
    {f : Closure Value} (hf : (name, f) ∈ w.closures) {args : List Value}
    (hargs : f.params.length = args.length) {c' : Machine.Seat} (hc' : c'.function.params = f.params)
    (hname : c'.function.name = name) {bound' : List String}
    (hbound' : ∀ x ∈ bound', x ∈ c'.function.locals → f.params.count x = 1) (label : String) :
    Aligned w fuel c' bound' f.params
      (args ++ List.replicate (c'.function.slotCount - args.length) .void)
      (t.enterCall label (Eval.calleeEnv t.session.globals f args)) where
  length := by
    have hle : args.length ≤ c'.function.slotCount := by
      unfold BytecodeFunction.slotCount
      rw [hc', hargs]
      omega
    rw [List.length_append, List.length_replicate]
    omega
  vars := by
    intro x hx hvariable
    -- a variable in scope in the body of a function is a parameter, of which there is only one
    have honce := hbound' x hx hvariable
    have hparam : x ∈ f.params := List.count_pos_iff.mp (by omega)
    obtain ⟨i, hi⟩ : ∃ i, f.params.findIdx? (· == x) = some i := by
      rw [← Option.isSome_iff_exists, List.findIdx?_isSome, List.any_eq_true]
      exact ⟨x, hparam, beq_self_eq_true x⟩
    obtain ⟨hlt, hisx, -⟩ := List.findIdx?_eq_some_iff_getElem.mp hi
    rw [beq_iff_eq] at hisx
    have hkey : f.params[i]? = some x := by rw [List.getElem?_eq_getElem hlt, hisx]
    have hvalue : args[i]? = some args[i] := List.getElem?_eq_getElem (hargs ▸ hlt)
    refine ⟨i, args[i], hi, ?_, ?_⟩
    · rw [List.getElem?_append_left (hargs ▸ hlt)]
      exact hvalue
    · exact Dict.find?_insertAll_zip honce hkey hvalue _
  env := fun _ _ hg hkept => find?_calleeEnv hw hf h.globals args hg (hname ▸ hkept)
  globals := h.globals
  outermost := nofun
  strict := h.strict
  readOnly := h.readOnly
  permissions := h.permissions
  depth := h.depth
  fuel := h.fuel

end Aligned

/-! ## 3. Following a step -/

variable [Host σ]

/-- What the end of a run has to be when a step comes to no value. A `Return` leaves the seat, and an
end of the run is the end of both; it never comes from too small a bound. The machine may also fail at
a condition that is no truth value; the host has not been asked then for what the step still asks for. -/
structure Otherwise {α : Type} (p : BytecodeProgram) (Q : MachineEnd σ → Prop) (c : Machine.Seat)
    (r : Outcome α × Activation σ) : Prop where
  returned : ∀ v, r.1 = .returned v → After p Q (c.leave p v) r.2.session
  halted : ∀ e, e ≠ .outOfFuel → r.1 = .halted e → ∀ u : Activation σ,
    r.2.session.Agree u.session → Q (.error (.ended e), u)
  odd : ∀ v name (u : Activation σ), v.kind ≠ .bool →
    HostReaches u.session.host r.2.session.host →
    Q (.error (.failed (Settles.oddCondition v name)), u)
  shallow : ∀ limit id, r.1 ≠ .halted (.fault (.depthExceeded limit id))

/-- The machine, from `start` to `stop`, does what the step does, and pushes the operands of its
value. -/
def Follows {α : Type} (w : World) (fuel : Nat) (c : Machine.Seat) (start stop : Nat)
    (bound locals bound' locals' : List String) (step : Eval σ α) (operands : α → List Value) :
    Prop :=
  ∀ (Q : MachineEnd σ → Prop) (ops slots : List Value) (t : Activation σ), AcceptsLimits Q →
    Aligned w fuel c bound locals slots t → Otherwise w.program Q c (step t) →
    (∀ a u slots', step t = (.value a, u) → Aligned w fuel c bound' locals' slots' u →
      Settles w.program Q (c.machine stop slots' (ops ++ operands a)) u.session) →
    Settles w.program Q (c.machine start slots ops) t.session

/-- What the end of a run has to be inside a call, from what it has to be behind it. -/
theorem Otherwise.inside {p : BytecodeProgram} {Q : MachineEnd σ → Prop} {c c' : Machine.Seat}
    {o : Outcome Value} {t u : Activation σ}
    (ho : Otherwise p Q c (Eval.catchReturn (fun _ => (o, u.leaveCall)) t))
    (hreturn : ∀ v, o = .returned v → After p Q (c'.leave p v) u.session) :
    Otherwise p Q c' (o, u) := by
  cases o with
  | value v => exact ⟨nofun, fun _ _ => nofun, ho.odd, nofun⟩
  | returned v => exact ⟨fun v' hv' => hreturn v' hv', fun _ _ => nofun, ho.odd, nofun⟩
  | halted e =>
    refine ⟨nofun, fun e' hfuel he' u' hu' => ?_, ho.odd, ho.shallow⟩
    exact ho.halted e' hfuel he' u' ⟨hu'.host, hu'.replay?, hu'.permissions⟩

/-- A step that is followed, and what the machine does behind it when there is a value. -/
theorem Follows.bind {α β : Type} {w : World} {fuel : Nat} {c : Machine.Seat} {start stop : Nat}
    {bound locals bound' locals' : List String} {step : Eval σ α} {operands : α → List Value}
    (h : Follows w fuel c start stop bound locals bound' locals' step operands)
    {f : α → Eval σ β} (hf : ∀ a, Eval.Keeps Restores (f a)) {Q : MachineEnd σ → Prop}
    {ops slots : List Value} {t : Activation σ} (hQ : AcceptsLimits Q)
    (ht : Aligned w fuel c bound locals slots t) (ho : Otherwise w.program Q c ((step >>= f) t))
    (hnext : ∀ a u slots', (step >>= f) t = f a u → Otherwise w.program Q c (f a u) →
      step t = (.value a, u) → Aligned w fuel c bound' locals' slots' u →
      Settles w.program Q (c.machine stop slots' (ops ++ operands a)) u.session) :
    Settles w.program Q (c.machine start slots ops) t.session := by
  have hbind := Eval.bind_def step f t
  refine h Q ops slots t hQ ht ?_ fun a u slots' hstep hu => ?_
  · rcases hstep : step t with ⟨o, u⟩
    rw [hstep] at hbind
    cases o with
    | value a =>
      -- the step is not the last one, so only the host of the end has to be reached
      rw [hbind] at ho
      refine ⟨nofun, fun _ _ => nofun, fun v name u' hv hreach => ?_, nofun⟩
      exact ho.odd v name u' hv (hreach.trans (hf a u).host)
    | returned v =>
      rw [hbind] at ho
      refine ⟨fun v' hv' => ho.returned v' ?_, fun _ _ => nofun, ho.odd, nofun⟩
      cases hv'
      rfl
    | halted e =>
      rw [hbind] at ho
      refine ⟨nofun, fun e' hfuel he' => ho.halted e' hfuel ?_, ho.odd, fun limit id he => ?_⟩
      · cases he'
        rfl
      · cases he
        exact ho.shallow limit id rfl
  · rw [hstep] at hbind
    rw [hbind] at ho
    exact hnext a u slots' hbind ho hstep hu

end

end Arbor.Compiler
