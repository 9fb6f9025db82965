import Arbor.Proofs.Compilation.Inert

/-!
# The simulation

The machine follows evaluation on all nodes that compile (`correct_eval`). The proof is by induction
on the bound of evaluation, with one lemma for each form; the lemmas take the evaluation of nodes,
`self`, as an argument, as the evaluator does.
-/

namespace Arbor.Compiler

open Eval

variable {σ : Type} [Host σ] {w : World} {fuel : Nat} {c : Machine.Seat} {bound : List String}
  {start : Nat} {s s' : Scope} {n : Node}

/-- The machine follows the evaluation of every node, wherever its code stands. -/
def Correct (w : World) (fuel : Nat) (self : Node → Eval σ Value) : Prop :=
  ∀ {n : Node} {c : Machine.Seat} {start : Nat} {s s' : Scope} {code : List Instruction}
    {bound : List String}, Compiles w.functions start n s code s' → n.Scoped bound →
    n.Plain w.functions (w.kept c.function.name) w.permissions → Site w c start code s' →
    Follows w fuel c start (start + code.length) bound s.locals (n.binds ++ bound) s'.locals
      (self n) ([·])

variable {self : Node → Eval σ Value} (h : Correct w fuel self)
  (hself : ∀ n, Keeps Restores (self n))

/-! ## 1. Operands and sequences -/

theorem follows_pushVoid {locals : List String} (hsite : Site w c start [.of .pushVoid] s) :
    Follows w fuel c start (start + 1) bound locals bound locals (pure .void : Eval σ Value)
      ([·]) := by
  intro Q ops slots t hQ ht ho hnext
  exact Settles.pushVoid hQ hsite.seated.function hsite.placed.head.1 (hnext .void t slots rfl ht)

include h hself

theorem follows_operands {ns : List Node} {codes : List (List Instruction)}
    (hcode : CompilesAll w.functions 0 start ns s codes s') (hscoped : ∀ n ∈ ns, n.Scoped bound)
    (hplain : ∀ n ∈ ns, n.Plain w.functions (w.kept c.function.name) w.permissions)
    (hsite : Site w c start codes.flatten s') :
    Follows w fuel c start (start + codes.flatten.length) bound s.locals bound s'.locals
      (operands self ns) id := by
  induction ns generalizing start s codes with
  | nil =>
    cases hcode
    intro Q ops slots t hQ ht ho hnext
    have hend := hnext [] t slots rfl ht
    rwa [id, List.append_nil] at hend
  | cons n ns ih =>
    cases hcode with
    | cons hn hns =>
      rename_i code s₁ codes
      rw [List.flatten_cons] at hsite
      obtain ⟨hfirst, hrest⟩ := hsite.placed.append
      have hnode := h hn (hscoped n List.mem_cons_self) (hplain n List.mem_cons_self)
        (hsite.part hfirst hns.grows)
      have hmore := ih hns (fun m hm => hscoped m (List.mem_cons_of_mem n hm))
        (fun m hm => hplain m (List.mem_cons_of_mem n hm)) (hsite.part hrest (.refl _))
      intro Q ops slots t hQ ht ho hnext
      refine hnode.bind (fun v => invariant_restores.bind (invariant_restores.operands fun n _ => hself n)
        fun vs => invariant_restores.pure _) hQ ht ho fun v u slots' hrun ho' _ hu => ?_
      -- the operands of the rest come on top of the first one
      refine hmore.bind (fun vs => invariant_restores.pure _) hQ
        (hu.mono (List.subset_append_right _ _) (List.prefix_refl _)) ho'
        fun vs u' slots'' hrun' _ _ hu' => ?_
      have hend := hnext (v :: vs) u' slots'' (hrun.trans hrun') hu'
      rw [List.flatten_cons, List.length_append, ← Nat.add_assoc] at hend
      simpa using hend

theorem follows_statements {ns : List Node} {codes : List (List Instruction)} {l : Value}
    {stop : Nat} (hcode : CompilesAll w.functions 2 start (n :: ns) s codes s')
    (hscoped : Node.ScopedStatements bound (n :: ns))
    (hplain : ∀ m ∈ n :: ns, m.Plain w.functions (w.kept c.function.name) w.permissions)
    (hstop : stop = start + sequenceLength codes)
    (hsite : Site w c start (joinStatements stop codes) s') :
    Follows w fuel c start stop bound s.locals bound s'.locals (sequence self l (n :: ns))
      ([·]) := by
  induction ns generalizing start s codes bound n l with
  -- the last statement: its value is that of the sequence, whether it is an error or not
  | nil =>
    cases hcode with
    | cons hn hns =>
      cases hns
      rename_i code
      rw [Node.scopedStatements_cons] at hscoped
      have hnode := h hn hscoped.1 (hplain n List.mem_cons_self) hsite
      intro Q ops slots t hQ ht ho hnext
      refine hnode.bind (fun v => ?_) hQ ht ho fun v u slots' hrun _ _ hu => ?_
      · split <;> exact invariant_restores.pure _
      · rw [hstop, sequenceLength_singleton] at hnext
        refine hnext v u slots' ?_ (hu.mono (List.subset_append_right _ _) (List.prefix_refl _))
        rw [show sequence self l [n] t = _ from hrun]
        split <;> rfl
  | cons m ns ih =>
    cases hcode with
    | cons hn hns =>
      rename_i code s₁ rest
      obtain ⟨next, more, rfl⟩ : ∃ next more, rest = next :: more := by
        cases hns
        exact ⟨_, _, rfl⟩
      rw [Node.scopedStatements_cons] at hscoped
      rw [joinStatements_cons] at hsite
      rw [sequenceLength_cons] at hstop
      have hlength := length_joinStatements stop (next :: more)
      have hend : stop ≤ c.function.code.size := by
        have hle := hsite.placed.le_size
        rw [List.length_append, List.length_cons, List.length_cons, hlength] at hle
        omega
      obtain ⟨hfirst, hrest⟩ := hsite.placed.append
      obtain ⟨hjump, hrest⟩ := hrest.head
      obtain ⟨hpop, hrest⟩ := hrest.head
      have hnode := h hn hscoped.1 (hplain n List.mem_cons_self) (hsite.part hfirst hns.grows)
      have hmore (v : Value) := ih (l := v) hns hscoped.2
        (fun m hm => hplain m (List.mem_cons_of_mem n hm)) (by omega) (hsite.part hrest (.refl _))
      intro Q ops slots t hQ ht ho hnext
      refine hnode.bind (fun v => ?_) hQ ht ho fun v u slots' hrun ho' _ hu => ?_
      · split
        · exact invariant_restores.pure _
        · exact invariant_restores.sequence _ fun n _ => hself n
      -- an error node ends the sequence with it, any other value is dropped
      refine Settles.jumpIfErr hsite.seated.function hend hsite.seated.size hjump ?_ ?_
      · intro herr
        refine hnext v u slots' ?_ (hu.mono (List.subset_append_right _ _) hns.grows.locals)
        rw [show sequence self l (n :: m :: ns) t = _ from hrun, if_pos herr]
        rfl
      · intro hgood
        rw [if_neg (by simp [hgood])] at ho' hrun
        refine Settles.pop hsite.seated.function hpop ?_
        refine hmore v Q ops slots' u hQ hu ho' fun v' u' slots'' hrun' hu' => ?_
        exact hnext v' u' slots'' (hrun.trans hrun')
          (hu'.mono (List.subset_append_right _ _) (List.prefix_refl _))

theorem follows_sequence {ns : List Node} {codes : List (List Instruction)}
    (hcode : CompilesAll w.functions 2 start ns s codes s')
    (hscoped : Node.ScopedStatements bound ns)
    (hplain : ∀ m ∈ ns, m.Plain w.functions (w.kept c.function.name) w.permissions)
    (hsite : Site w c start (sequenceCode start codes) s') :
    Follows w fuel c start (start + (sequenceCode start codes).length) bound s.locals bound s'.locals
      (sequence self .void ns) ([·]) := by
  cases ns with
  | nil =>
    cases hcode
    exact follows_pushVoid hsite
  | cons n ns =>
    rw [length_sequenceCode]
    exact follows_statements h hself hcode hscoped hplain rfl hsite

/-! ## 2. Forms -/

omit hself in
theorem follows_bind {name : String} {child : Node} {code : List Instruction}
    (hname : n.ident? "name" = some name) (hchildren : n.children = [child])
    (hcode : Compiles w.functions start child s code s') (hscoped : child.Scoped bound)
    (hplain : child.Plain w.functions (w.kept c.function.name) w.permissions)
    (hfree : ¬w.kept c.function.name name)
    (hsite : Site w c start
      (code ++ [.of .storeLocal (saturateCount (s'.resolve name).1), .of .pushVoid])
      (s'.resolve name).2) :
    Follows w fuel c start (start + (code.length + 2)) bound s.locals (name :: bound)
      (s'.resolve name).2.locals (evalBind (Eval.bound self) n) ([·]) := by
  have hgrows := s'.grows_resolve name
  have hslot := s'.findIdx?_resolve name
  obtain ⟨hfirst, hrest⟩ := hsite.placed.append
  obtain ⟨hstore, hrest⟩ := hrest.head
  have hnode := h hcode hscoped hplain (hsite.part hfirst hgrows)
  intro Q ops slots t hQ ht ho hnext
  have hstep : evalBind (Eval.bound self) n t =
      (self child >>= fun v => bindName name v >>= fun _ => pure Value.void) t := by
    unfold evalBind
    rw [hname, hchildren]
    show (if t.session.readOnly.contains name then fault (.readOnlyBinding name n.id) else
      Eval.bound self child name >>= fun v => bindName name v >>= fun _ => pure Value.void) t = _
    rw [ht.readOnly]
    unfold Eval.bound
    -- what compiles is no `Fn`, so the child is evaluated like any node
    rw [hcode.isFn_eq_false]
    rfl
  rw [hstep] at ho hnext
  refine hnode.bind (fun v => invariant_restores.bind (invariant_restores.bindName name v) fun _ =>
    invariant_restores.pure _) hQ ht ho fun v u slots' hrun _ _ hu => ?_
  have hlt : (s'.resolve name).1 < slots'.length := by
    rw [hu.length]
    exact hsite.lt_slotCount hslot
  have hsize : slots'.length < 2147483648 := by
    rw [hu.length]
    exact hsite.seated.slotCount
  refine Settles.storeLocal hsite.seated.function hlt hsize hstore ?_
  refine Settles.pushVoid hQ hsite.seated.function hrest.head.1 ?_
  -- the binding changes nothing that the rest of the run depends on but its slot
  refine Settles.of_agree (Session.agree_mapEnv u fun env => env.insert name v) ?_
  have hbound := hu.mono (List.subset_append_right _ _) hgrows.locals
  exact hnext .void _ _ hrun (hbound.assign hslot hlt hfree v)

omit h hself in
theorem follows_var {name : String} {slot : Nat} (hname : n.ident? "name" = some name)
    (hslot : s.locals.findIdx? (· == name) = some slot) (hbound : name ∈ bound)
    (hsite : Site w c start [.of .loadLocal (saturateCount slot)] s) :
    Follows w fuel c start (start + 1) bound s.locals bound s.locals (evalVar n : Eval σ Value)
      ([·]) := by
  intro Q ops slots t hQ ht ho hnext
  have hvariable : name ∈ c.function.locals := by
    obtain ⟨hlt, hname', -⟩ := List.findIdx?_eq_some_iff_getElem.mp hslot
    rw [beq_iff_eq] at hname'
    exact hsite.locals.subset (hname' ▸ List.getElem_mem hlt)
  obtain ⟨i, v, hi, hv, henv⟩ := ht.vars name hbound hvariable
  obtain rfl : slot = i := Option.some.inj (hslot.symm.trans hi)
  have hsize : slots.length < 2147483648 := by
    rw [ht.length]
    exact hsite.seated.slotCount
  refine Settles.loadLocal hQ hsite.seated.function hv hsize hsite.placed.head.1 ?_
  refine hnext v t slots ?_ ht
  unfold evalVar
  rw [hname]
  show (Outcome.value ((t.env.find? name).getD .unknown), t) = _
  rw [henv]
  rfl

omit h hself in
/-- The code of a literal pushes its value. -/
theorem follows_lit {code : List Instruction} (hw : w.Sound) (hform : n.form? = some .lit)
    (hcode : Compiles w.functions start n s code s') (hsite : Site w c start code s') :
    Follows w fuel c start (start + code.length) bound s.locals bound s'.locals
      (pure n.literal : Eval σ Value) ([·]) := by
  have hfunction := hsite.seated.function
  intro Q ops slots t hQ ht ho hnext
  have hend := hnext n.literal t slots rfl (ht.mono (List.Subset.refl _) hcode.grows.locals)
  unfold Node.literal at hend
  cases hcode with
  | text hlit hvalue =>
    rename_i text
    rw [hvalue] at hend
    obtain ⟨more, hmore⟩ := hsite.constants
    have hindex := s.constants_constant text
    have hconstant : w.program.constants[(s.constant (.str text)).1]? = some (.str text) := by
      rw [← hmore, List.getElem?_append_left (List.getElem?_eq_some_iff.mp hindex).1]
      exact hindex
    exact Settles.const hQ hfunction hconstant hw.constants hsite.placed.head.1 hend
  | int hlit hvalue =>
    rw [hvalue] at hend
    exact Settles.pushInt hQ hfunction hsite.placed.head.1 hend
  | bool hlit hvalue =>
    rw [hvalue] at hend
    exact Settles.pushBool hQ hfunction hsite.placed.head.1 hend
  | sequence hother => rcases hother with hother | hother <;> simp [hform] at hother
  | _ => simp_all

omit [Host σ] h hself in
theorem length_operands {ns : List Node} {t u : Activation σ} {vs : List Value}
    (hrun : operands self ns t = (.value vs, u)) : vs.length = ns.length := by
  induction ns generalizing t vs u with
  | nil =>
    cases hrun
    rfl
  | cons n ns ih =>
    rw [operands, bind_def] at hrun
    rcases hn : self n t with ⟨o, t'⟩
    rw [hn] at hrun
    cases o with
    | returned v => cases hrun
    | halted e => cases hrun
    | value v =>
      dsimp only at hrun
      rw [bind_def] at hrun
      rcases hns : operands self ns t' with ⟨o, t''⟩
      rw [hns] at hrun
      cases o with
      | returned v' => cases hrun
      | halted e => cases hrun
      | value vs' =>
        cases hrun
        exact congrArg (· + 1) (ih hns)

theorem follows_operator {op : Operator} {codes : List (List Instruction)}
    (hlength : n.children.length = op.arity)
    (hcode : CompilesAll w.functions 0 start n.children s codes s')
    (hscoped : ∀ m ∈ n.children, m.Scoped bound)
    (hplain : ∀ m ∈ n.children, m.Plain w.functions (w.kept c.function.name) w.permissions)
    (hsite : Site w c start (codes.flatten ++ [.of (.operator op)]) s') :
    Follows w fuel c start (start + (codes.flatten.length + 1)) bound s.locals bound s'.locals
      (evalOperator self op n) ([·]) := by
  obtain ⟨hfirst, hrest⟩ := hsite.placed.append
  have hargs := follows_operands h hself hcode hscoped hplain (hsite.part hfirst (.refl _))
  have hstep : evalOperator self op n =
      operands self n.children >>= fun args => pure (op.apply args) := by
    unfold evalOperator
    rw [if_neg (by simpa using hlength)]
  rw [hstep]
  intro Q ops slots t hQ ht ho hnext
  refine hargs.bind (fun args => invariant_restores.pure _) hQ ht ho
    fun args u slots' hrun _ hvalues hu => ?_
  refine Settles.operator hQ hsite.seated.function ?_ hrest.head.1 (hnext _ u slots' hrun hu)
  show args.length = op.arity
  rw [length_operands hvalues, hlength]

/-- A branch, given that the machine follows what is done when the condition is false. -/
theorem follows_branch {condition thenArm : Node} {elseStep : Eval σ Value} {s₁ s₂ : Scope}
    {code thenCode elseCode : List Instruction}
    (hcondition : Compiles w.functions start condition s code s₁)
    (hthen : Compiles w.functions (start + code.length + 1) thenArm s₁ thenCode s₂)
    (hgrows : s₂.Grows s')
    (helse : Follows w fuel c (start + code.length + 1 + thenCode.length + 1)
      (start + code.length + 1 + thenCode.length + 1 + elseCode.length) bound s₂.locals bound
      s'.locals elseStep ([·]))
    (hkeeps : Keeps Restores elseStep)
    (hscoped : condition.Scoped bound ∧ thenArm.Scoped bound)
    (hplain : condition.Plain w.functions (w.kept c.function.name) w.permissions ∧
      thenArm.Plain w.functions (w.kept c.function.name) w.permissions)
    (hsite : Site w c start (branchCode start code thenCode elseCode) s') :
    Follows w fuel c start (start + (branchCode start code thenCode elseCode).length) bound s.locals
      bound s'.locals (self condition >>= choose (self thenArm) elseStep) ([·]) := by
  obtain ⟨hfirst, hskip, hsecond, hjump, -, hend⟩ := placed_branch hsite.placed
  have hfunction := hsite.seated.function
  have hsize := hsite.seated.size
  have hnode := h hcondition hscoped.1 hplain.1 (hsite.part hfirst (hthen.grows.trans hgrows))
  have harm := h hthen hscoped.2 hplain.2 (hsite.part hsecond hgrows)
  have hsubset (n : Node) : bound ⊆ n.binds ++ bound := List.subset_append_right _ _
  intro Q ops slots t hQ ht ho hnext
  rw [length_branchCode] at hnext
  refine hnode.bind (fun v => invariant_restores.choose (hself thenArm) hkeeps v) hQ ht ho
    fun v u slots' hrun ho' _ hu => ?_
  refine Settles.jumpIfFalse hfunction (by omega) hsize hskip ?_ ?_ ?_
  · rintro rfl
    refine helse Q ops slots' u hQ (hu.mono (hsubset condition) hthen.grows.locals) ho'
      fun v u' slots'' hstep hu' => ?_
    exact hnext v u' slots'' (hrun.trans hstep) hu'
  · rintro rfl
    refine harm Q ops slots' u hQ (hu.mono (hsubset condition) (List.prefix_refl _)) ho'
      fun v u' slots'' hstep hu' => ?_
    refine Settles.jump hfunction hend hsize hjump ?_
    exact hnext v u' slots'' (hrun.trans hstep) (hu'.mono (hsubset thenArm) hgrows.locals)
  · -- evaluation goes on with an unknown value, the machine fails
    intro hv u' hagree
    have hunknown : choose (self thenArm) elseStep v = pure .unknown := by
      cases v with
      | bool b => exact absurd rfl hv
      | _ => rfl
    rw [hunknown] at ho'
    refine ho'.odd v _ u' hv ?_
    rw [← hagree.host]
    exact .refl

omit hself in
theorem follows_leave {child : Node} {more : List Node} {code : List Instruction}
    (hchildren : n.children = child :: more)
    (hcode : Compiles w.functions start child s code s') (hscoped : child.Scoped bound)
    (hplain : child.Plain w.functions (w.kept c.function.name) w.permissions)
    (hsite : Site w c start (code ++ [.of .ret]) s') {stop : Nat} {bound' locals' : List String} :
    Follows w fuel c start stop bound s.locals bound' locals' (evalLeave self n) ([·]) := by
  obtain ⟨hfirst, hrest⟩ := hsite.placed.append
  have hnode := h hcode hscoped hplain (hsite.part hfirst (.refl _))
  have hstep : evalLeave self n = self child >>= unwind := by
    unfold evalLeave
    rw [hchildren]
  rw [hstep]
  intro Q ops slots t hQ ht ho hnext
  refine hnode.bind (f := unwind) (fun v t => invariant_restores.refl t) hQ ht ho
    fun v u slots' hrun ho' _ hu => ?_
  exact Settles.ret hsite.seated.function hrest.head.1 (ho'.returned v rfl)

omit h hself in
theorem follows_leaveVoid (hchildren : n.children = [])
    (hsite : Site w c start [.of .pushVoid, .of .ret] s) {stop : Nat}
    {bound' locals' : List String} :
    Follows w fuel c start stop bound s.locals bound' locals' (evalLeave self n) ([·]) := by
  obtain ⟨hpush, hrest⟩ := hsite.placed.head
  have hstep : evalLeave self n = unwind .void := by
    unfold evalLeave
    rw [hchildren]
  rw [hstep]
  intro Q ops slots t hQ ht ho hnext
  refine Settles.pushVoid hQ hsite.seated.function hpush ?_
  exact Settles.ret hsite.seated.function hrest.head.1 (ho.returned .void rfl)

/-! ## 3. Calls -/

/-- A capability that evaluates nothing is called alike by both, when its permission is held. -/
theorem follows_held {target : String} {contract : Contract} {codes : List (List Instruction)}
    (htarget : n.ident? "target" = some target) (hlookup : Contract.lookup? target = some contract)
    (hrunning : target ∉ runningTargets) (hheld : contract.permission ∈ w.permissions)
    (hcode : CompilesAll w.functions 0 start n.children s codes s')
    (hscoped : ∀ m ∈ n.children, m.Scoped bound)
    (hplain : ∀ m ∈ n.children, m.Plain w.functions (w.kept c.function.name) w.permissions)
    (hcount : n.children.length < 2147483648)
    (hsite : Site w c start
      (codes.flatten ++ [.of .callSys (saturateCount n.children.length) target]) s') :
    Follows w fuel c start (start + (codes.flatten.length + 1)) bound s.locals bound s'.locals
      (evalCall self (callCapability self fuel fuel) (callClosure self) n) ([·]) := by
  obtain ⟨hfirst, hrest⟩ := hsite.placed.append
  have hargs := follows_operands h hself hcode hscoped hplain (hsite.part hfirst (.refl _))
  intro Q ops slots t hQ ht ho hnext
  have hstep : evalCall self (callCapability self fuel fuel) (callClosure self) n t =
      (operands self n.children >>= callCapability self fuel fuel target) t := by
    unfold evalCall
    rw [htarget]
    dsimp only
    rw [hlookup]
    show (if t.session.hasPermission contract.permission then
      operands self n.children >>= callCapability self fuel fuel target else _) t = _
    -- the permission is held, so evaluation asks no further
    rw [if_pos]
    exact Session.hasPermission_iff.mpr (ht.permissions ▸ hheld)
  -- the bound is positive, for the depth is below it
  obtain ⟨nesting, hfuel⟩ : ∃ k, fuel = k + 1 := by
    have := ht.depth
    have := ht.fuel
    exact ⟨fuel - 1, by omega⟩
  have hkeeps (args : List Value) := invariant_restores.callCapability hself fuel fuel target args
  rw [hstep] at ho hnext
  refine hargs.bind hkeeps hQ ht ho fun args u slots' hrun ho' hvalues hu => ?_
  have hlength : args.length = n.children.length := length_operands hvalues
  rcases hcall : callCapability self fuel fuel target args u with ⟨o, u'⟩
  have hrestores : Restores u u' := (hkeeps args u).of_eq hcall
  rw [hcall] at ho' hrun
  obtain ⟨-, -, hframes, hglobals, -⟩ :=
    callCapability_agree hrunning rfl self self fuel fuel (Iff.refl (fuel = 0)) u u (.refl _)
  rw [hcall] at hframes hglobals
  have hinst := hrest.head.1
  rw [← hlength] at hinst hcount
  have hanswer : callCapability self fuel (nesting + 1) target args u = (o, u') := hfuel ▸ hcall
  refine Settles.callSys hsite.seated.function hcount hinst (.inl hrunning) hQ.after hanswer ?_ ?_
  · rintro v rfl
    exact hnext v u' slots' hrun (hu.of_restores hrestores hframes hglobals)
  · exact fun e hfuel he => ho'.halted e hfuel he

omit h hself in
/-- Without the permission evaluation does not look at the arguments, and the machine makes nothing of
them. -/
theorem follows_denied (hw : w.Sound) {target : String} {contract : Contract}
    {codes : List (List Instruction)} (htarget : n.ident? "target" = some target)
    (hlookup : Contract.lookup? target = some contract)
    (hdenied : contract.permission ∉ w.permissions)
    (hinert : ∀ m ∈ n.children, m.Inert w.permissions)
    (hcode : CompilesAll w.functions 0 start n.children s codes s')
    (hsite : Site w c start
      (codes.flatten ++ [.of .callSys (saturateCount n.children.length) target]) s') :
    Follows w fuel c start (start + (codes.flatten.length + 1)) bound s.locals bound s'.locals
      (evalCall self (callCapability self fuel fuel) (callClosure self) n) ([·]) := by
  intro Q ops slots t hQ ht ho hnext
  have hpermissions := ht.permissions
  rw [← hpermissions] at hdenied hinert
  rw [evalCall_denied htarget hlookup hdenied] at ho hnext
  have hfailures : AcceptsFailures Q t.session := by
    refine ⟨fun e u he _ => hQ e u he, fun v name u hv hu => ho.odd v name u hv ?_⟩
    rw [← hu.host]
    exact .refl
  refine settles_denied hlookup hdenied hinert hcode (hsite.home hw) hsite.placed hfailures
    ht.length ?_
  -- the call is only recorded
  have hu : Aligned w fuel c bound s'.locals slots (t.recordDenied contract) :=
    (ht.mono (List.Subset.refl _) hcode.grows.locals).of_restores
      (.of_eq rfl rfl rfl rfl rfl rfl rfl .refl) rfl rfl
  exact Settles.of_agree (s := (t.recordDenied contract).session) ⟨rfl, rfl, rfl⟩
    (hnext .unknown _ slots rfl hu)

theorem follows_callSys (hw : w.Sound) {target : String} {contract : Contract}
    {codes : List (List Instruction)} (htarget : n.ident? "target" = some target)
    (hlookup : Contract.lookup? target = some contract)
    (hcode : CompilesAll w.functions 0 start n.children s codes s')
    (hscoped : ∀ m ∈ n.children, m.Scoped bound) (hform : n.form? = some .call)
    (hplain : n.Plain w.functions (w.kept c.function.name) w.permissions)
    (hsite : Site w c start
      (codes.flatten ++ [.of .callSys (saturateCount n.children.length) target]) s') :
    Follows w fuel c start (start + (codes.flatten.length + 1)) bound s.locals bound s'.locals
      (evalCall self (callCapability self fuel fuel) (callClosure self) n) ([·]) := by
  rcases hplain.here.capability hform target htarget contract hlookup with
    ⟨hrunning, hheld⟩ | ⟨hdenied, hinert⟩
  · exact follows_held h hself htarget hlookup hrunning hheld hcode hscoped hplain.children
      (argumentCount_lt hcode (hsite.home hw) hsite.placed) hsite
  · exact follows_denied hw htarget hlookup hdenied hinert hcode hsite

/-- A call of a function, once its arguments are on the stack. -/
theorem settles_call (hw : w.Sound) {target : String} {f : Closure Value}
    (hf : (target, f) ∈ w.closures) {args : List Value} (hcount : args.length < 2147483648)
    {pc : Nat} (hsite : Site w c pc [.of .call (saturateCount args.length) target] s)
    {Q : MachineEnd σ → Prop} (hQ : AcceptsLimits Q) {locals : List String} {slots ops : List Value}
    {u : Activation σ} (hu : Aligned w fuel c bound locals slots u)
    (ho : Otherwise w.program Q c (callClosure self f args u))
    (hnext : ∀ v u', callClosure self f args u = (.value v, u') →
      Aligned w fuel c bound locals slots u' →
      Settles w.program Q (c.machine (pc + 1) slots (ops ++ [v])) u'.session) :
    Settles w.program Q (c.machine pc slots (ops ++ args)) u.session := by
  obtain ⟨index, callee, constants, codes, s₁, hr⟩ := hw.realized target f hf
  obtain ⟨hinst, -⟩ := hsite.placed.head
  refine Settles.call hQ hsite.seated.function hr.found hr.seated.function hcount hinst
    (fun hfit => ?_) fun hmiss => ?_
  · rw [hr.params] at hfit
    obtain ⟨bound', hscoped, hbound'⟩ := hw.bound target f hf
    obtain ⟨hbody, hret⟩ := placed_body hr.code
    have hplace : Site w (c.callee (pc + 1) slots ops index callee) 0 (sequenceCode 0 codes) s₁ :=
      ⟨hr.seated, hbody, hr.locals ▸ List.prefix_refl _, hr.constants⟩
    have hplain := hw.plain target f hf
    rw [← hr.named] at hplain
    have hfollows := h (.sequence (.inr (hw.block target f hf)) hr.compiles) hscoped hplain hplace
    have hstart : Aligned w fuel (c.callee (pc + 1) slots ops index callee) bound' f.params _ _ :=
      hu.enter hw hf hfit.symm hr.params hr.named
        (fun x hx hvariable => hbound' x hx (hr.slot hvariable)) (f.name?.getD "<fn>")
    rcases hrun : self f.body
      (u.enterCall (f.name?.getD "<fn>") (calleeEnv u.session.globals f args)) with ⟨o, u₁⟩
    have hend := callClosure_of_fit hfit.symm hrun
    have hrestores := (hself f.body _).of_eq hrun
    have hback : Aligned w fuel c bound locals slots u₁.leaveCall :=
      hu.of_restores (invariant_restores.call hrestores) hrestores.outer
        (hrestores.globals (List.cons_ne_nil _ _))
    -- the value goes to the operands of the caller, by a `Return` or at the end of the body
    have hreturn (v : Value) (hv : callClosure self f args u = (.value v, u₁.leaveCall)) :
        After w.program Q ((c.callee (pc + 1) slots ops index callee).leave w.program v)
          u₁.session :=
      After.leave_callee hQ (Settles.of_agree (s := u₁.leaveCall.session) ⟨rfl, rfl, rfl⟩
        (hnext v _ hv hback))
    rw [hend] at ho
    refine Settles.of_agree (s := (u.enterCall (f.name?.getD "<fn>")
      (calleeEnv u.session.globals f args)).session) ⟨rfl, rfl, rfl⟩ ?_
    refine hfollows Q [] _ _ hQ hstart ?_ fun v u' slots' hv _ => ?_
    · rw [hrun]
      refine ho.inside fun v hv => hreturn v ?_
      rw [hend, hv]
      rfl
    · rw [hrun] at hv
      cases hv
      exact Settles.ret hr.seated.function hret (hreturn v hend)
  · rw [hr.params] at hmiss
    exact hnext .unknown u (callClosure_of_ne (Ne.symm hmiss) u) hu

theorem follows_call (hw : w.Sound) {target : String} {codes : List (List Instruction)}
    (htarget : n.ident? "target" = some target) (hlookup : Contract.lookup? target = none)
    (hmem : target ∈ w.functions)
    (hcode : CompilesAll w.functions 0 start n.children s codes s')
    (hscoped : ∀ m ∈ n.children, m.Scoped bound) (hform : n.form? = some .call)
    (hplain : n.Plain w.functions (w.kept c.function.name) w.permissions)
    (hsite : Site w c start
      (codes.flatten ++ [.of .call (saturateCount n.children.length) target]) s') :
    Follows w fuel c start (start + (codes.flatten.length + 1)) bound s.locals bound s'.locals
      (evalCall self (callCapability self fuel fuel) (callClosure self) n) ([·]) := by
  have hkept := hplain.here.callee hform target htarget hlookup hmem
  obtain ⟨⟨name, f⟩, hf, rfl⟩ := List.mem_map.mp hmem
  have hcount := argumentCount_lt hcode (hsite.home hw) hsite.placed
  obtain ⟨hfirst, hrest⟩ := hsite.placed.append
  have hargs := follows_operands h hself hcode hscoped hplain.children (hsite.part hfirst (.refl _))
  intro Q ops slots t hQ ht ho hnext
  have hstep : evalCall self (callCapability self fuel fuel) (callClosure self) n t =
      (operands self n.children >>= callClosure self f) t := by
    unfold evalCall
    rw [htarget]
    dsimp only
    rw [hlookup]
    simp only [bind_def, currentEnv, getSession]
    -- the name is kept, so it finds the closure
    rw [ht.env name f hf hkept]
    rfl
  rw [hstep] at ho hnext
  refine hargs.bind (invariant_restores.callClosure hself f) hQ ht ho
    fun args u slots' hrun ho' hvalues hu => ?_
  have hlength : args.length = n.children.length := length_operands hvalues
  have hcall := hsite.part hrest (.refl _)
  rw [← hlength] at hcount hcall
  exact settles_call h hself hw hf hcount hcall hQ hu ho' fun v u' hv hu' =>
    hnext v u' slots' (hrun.trans hv) hu'

/-! ## 4. All nodes -/

theorem follows_evalForm (hw : w.Sound) {code : List Instruction}
    (hcode : Compiles w.functions start n s code s') (hscoped : n.Scoped bound)
    (hplain : n.Plain w.functions (w.kept c.function.name) w.permissions)
    (hsite : Site w c start code s') :
    Follows w fuel c start (start + code.length) bound s.locals (n.binds ++ bound) s'.locals
      (evalForm self fuel n) ([·]) := by
  have hbinds {form : Form} (hform : n.form? = some form) (hne : form ≠ .bind) :
      n.binds ++ bound = bound := by
    rw [Node.binds_of_ne hform hne]
    rfl
  have hchildren {form : Form} (hform : n.form? = some form)
      (hsimple : form ≠ .program ∧ form ≠ .block ∧ form ≠ .fn) := hscoped.children hform hsimple
  unfold evalForm
  cases hcode with
  | sequence hform hcodes =>
    have hstatements := hscoped.statements hform
    rcases hform with hform | hform <;> rw [hform, hbinds hform (by decide)] <;>
      exact follows_sequence h hself hcodes hstatements hplain.children hsite
  | bind hform hname hone hchild =>
    rename_i name child code s₁
    have hmem : child ∈ n.children := hone ▸ List.mem_cons_self
    have hfree := hplain.here.bind
    rw [Node.binds_bind hform hname] at hfree ⊢
    rw [hform, List.length_append]
    exact follows_bind h hname hone hchild (hchildren hform (by decide) child hmem)
      (hplain.children child hmem) (hfree name List.mem_cons_self) hsite
  | var hform hname hslot =>
    rw [hform, hbinds hform (by decide)]
    exact follows_var hname hslot (hscoped.var hform hname) hsite
  | text hform hvalue =>
    rw [hform, hbinds hform (by decide)]
    exact follows_lit hw hform (.text hform hvalue) hsite
  | int hform hvalue =>
    rw [hform, hbinds hform (by decide)]
    exact follows_lit hw hform (.int hform hvalue) hsite
  | bool hform hvalue =>
    rw [hform, hbinds hform (by decide)]
    exact follows_lit hw hform (.bool hform hvalue) hsite
  | callSys hform htarget hlookup hcodes =>
    obtain ⟨contract, hcontract⟩ := Option.isSome_iff_exists.mp hlookup
    rw [hform, hbinds hform (by decide), List.length_append]
    exact follows_callSys h hself hw htarget hcontract hcodes (hchildren hform (by decide)) hform hplain
      hsite
  | call hform htarget hlookup hmem hcodes =>
    rw [hform, hbinds hform (by decide), List.length_append]
    exact follows_call h hself hw htarget hlookup hmem hcodes (hchildren hform (by decide)) hform
      hplain hsite
  | branch hform htwo hcondition hthen =>
    rename_i condition thenArm code s₁ thenCode
    have hmem : condition ∈ n.children ∧ thenArm ∈ n.children := by simp [htwo]
    have hscope := hchildren hform (by decide)
    obtain ⟨-, -, -, -, helse, -⟩ := placed_branch hsite.placed
    rw [hform, hbinds hform (by decide)]
    unfold evalBranch
    rw [htwo]
    exact follows_branch h hself hcondition hthen (.refl _)
      (follows_pushVoid (hsite.part helse (.refl _))) (invariant_restores.pure _)
      ⟨hscope _ hmem.1, hscope _ hmem.2⟩ ⟨hplain.children _ hmem.1, hplain.children _ hmem.2⟩ hsite
  | branchElse hform hthree hcondition hthen helse =>
    rename_i condition thenArm elseArm code s₁ thenCode s₂ elseCode
    have hmem : condition ∈ n.children ∧ thenArm ∈ n.children ∧ elseArm ∈ n.children := by
      simp [hthree]
    have hscope := hchildren hform (by decide)
    obtain ⟨-, -, -, -, hplaced, -⟩ := placed_branch hsite.placed
    have harm := h helse (hscope _ hmem.2.2) (hplain.children _ hmem.2.2)
      (hsite.part hplaced (.refl _))
    rw [hform, hbinds hform (by decide)]
    unfold evalBranch
    rw [hthree]
    refine follows_branch h hself hcondition hthen helse.grows ?_ (hself elseArm)
      ⟨hscope _ hmem.1, hscope _ hmem.2.1⟩ ⟨hplain.children _ hmem.1, hplain.children _ hmem.2.1⟩
      hsite
    intro Q ops slots t hQ ht ho hnext
    exact harm Q ops slots t hQ ht ho fun v u slots' hv hu =>
      hnext v u slots' hv (hu.mono (List.subset_append_right _ _) (List.prefix_refl _))
  | leaveVoid hform hnone =>
    rw [hform]
    exact follows_leaveVoid hnone hsite
  | leave hform hsome hchild =>
    rename_i child more code
    have hmem : child ∈ n.children := hsome ▸ List.mem_cons_self
    rw [hform]
    exact follows_leave h hsome hchild (hchildren hform (by decide) child hmem)
      (hplain.children child hmem) hsite
  | operator hform harity hcodes =>
    rw [hform, hbinds hform (by simp), List.length_append]
    exact follows_operator h hself harity hcodes (hchildren hform (by simp)) hplain.children hsite

theorem Correct.succ (hw : w.Sound) : Correct w (fuel + 1) (evalWith self fuel) := by
  intro n c start s s' code bound hcode hscoped hplain hsite Q ops slots t hQ ht ho hnext
  by_cases hdepth : t.session.maxDepth ≤ t.session.depth
  -- a node deeper than the session allows ends the run at the limit
  · rw [evalWith_of_le hdepth] at ho
    exact absurd rfl (ho.shallow _ _)
  · rw [Nat.not_le] at hdepth
    have hfollows := follows_evalForm h hself hw hcode hscoped hplain hsite
    rcases hform : evalForm self fuel n (t.noteStep n).deepen with ⟨o, u⟩
    have hrun := evalWith_of_lt hself hdepth ht.strict hform
    have hagree : u.session.Agree u.surface.session := ⟨rfl, rfl, rfl⟩
    rw [hrun] at ho hnext
    refine Settles.of_agree (s := (t.noteStep n).deepen.session) ⟨rfl, rfl, rfl⟩ ?_
    refine hfollows Q ops slots _ hQ (ht.deepen hdepth n) ?_ fun v u' slots' hv hu => ?_
    · rw [hform]
      refine ⟨fun v hv => ?_, fun e hfuel he u' hu' => ?_, ho.odd, ho.shallow⟩
      · exact After.of_agree hagree (ho.returned v hv)
      · exact ho.halted e hfuel he u' ⟨hu'.host, hu'.replay?, hu'.permissions⟩
    · rw [hform] at hv
      cases hv
      exact Settles.of_agree hagree (hnext v u.surface slots' rfl hu.surface)

omit h hself in
/-- The machine follows evaluation, whatever the bound on it. -/
theorem correct_eval (hw : w.Sound) (fuel : Nat) : Correct w fuel (eval fuel : Node → Eval σ Value) := by
  induction fuel with
  | zero =>
    -- the depth that the session allows is below the bound
    intro n c start s s' code bound _ _ _ _ Q ops slots t _ ht _ _
    have := ht.depth
    have := ht.fuel
    omega
  | succ fuel ih => exact ih.succ (fun n => invariant_restores.eval fuel n) hw

end Arbor.Compiler
