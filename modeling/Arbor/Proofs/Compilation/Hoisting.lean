import Arbor.Proofs.Compilation.Resolution
import Arbor.Proofs.Compilation.SideBySide

/-!
# Moving definitions to the front

Compilation takes the definitions of a program out of its statements, so a program and the one with its
definitions in front have the same code (`compile_hoisted`). Evaluation comes to a definition where it
stands. It makes no difference to a program whose statements are independent of the definitions behind
them: its run and that of the hoisted program are two runs side by side, in which the closures of a
definition are twins (`hoist_definitions`).
-/

namespace Arbor

open Compiler Eval

/-! ## 1. The code -/

/-- The program with its definitions in front of its other statements. -/
def hoisted (root : Node) : Node :=
  { root with
    children := root.children.filter (fun n => (definition? n).isSome) ++
      root.children.filter fun n => (definition? n).isNone }

theorem filterMap_filter_definitions (ns : List Node) :
    (ns.filter fun n => (definition? n).isSome).filterMap definition? = ns.filterMap definition? := by
  induction ns with
  | nil => rfl
  | cons n ns ih =>
    cases hn : definition? n with
    | none => simp [hn, ih]
    | some d => simp [hn, ih]

theorem checkNames_filter_definitions (ns : List Node) :
    checkNames (ns.filter fun n => (definition? n).isSome) = checkNames ns := by
  induction ns with
  | nil => rfl
  | cons n ns ih =>
    cases hn : definition? n with
    | none =>
      rw [List.filter_cons_of_neg (by simp [hn]), ih]
      conv_rhs => unfold checkNames
      rw [hn]
    | some d =>
      rw [List.filter_cons_of_pos (by simp [hn])]
      unfold checkNames
      rw [hn, ih]

theorem definitionCodes_filter_definitions (functions : List String) (ns : List Node)
    (constants : List Value) :
    definitionCodes functions (ns.filter fun n => (definition? n).isSome) constants =
      definitionCodes functions ns constants := by
  induction ns generalizing constants with
  | nil => rfl
  | cons n ns ih =>
    cases hn : definition? n with
    | none =>
      rw [List.filter_cons_of_neg (by simp [hn]), ih]
      conv_rhs => unfold definitionCodes
      rw [hn]
    | some d =>
      rw [List.filter_cons_of_pos (by simp [hn])]
      unfold definitionCodes
      rw [hn]
      simp only [ih]

theorem filter_isSome_hoisted (root : Node) :
    (hoisted root).children.filter (fun n => (definition? n).isSome) =
      root.children.filter fun n => (definition? n).isSome := by
  unfold hoisted
  simp [List.filter_append, List.filter_filter, Option.isSome_iff_ne_none]

theorem filter_isNone_hoisted (root : Node) :
    (hoisted root).children.filter (fun n => (definition? n).isNone) =
      root.children.filter fun n => (definition? n).isNone := by
  unfold hoisted
  simp [List.filter_append, List.filter_filter]

/-- The definitions have the same code wherever they stand. -/
theorem compile_hoisted (root : Node) : compile (hoisted root) = compile root := by
  have hnames : checkNames (hoisted root).children = checkNames root.children := by
    rw [← checkNames_filter_definitions, filter_isSome_hoisted, checkNames_filter_definitions]
  have hdefinitions : (hoisted root).children.filterMap definition? =
      root.children.filterMap definition? := by
    rw [← filterMap_filter_definitions, filter_isSome_hoisted, filterMap_filter_definitions]
  have hcodes (functions : List String) :
      definitionCodes functions (hoisted root).children [] =
        definitionCodes functions root.children [] := by
    rw [← definitionCodes_filter_definitions, filter_isSome_hoisted,
      definitionCodes_filter_definitions]
  unfold compile
  rw [hnames, hdefinitions]
  simp only [hcodes, filter_isNone_hoisted]
  rfl

/-! ## 2. Definitions at two points -/

/-- What the definitions bind one after the other, with these bindings and this serial number to start
with. -/
def defineAll : List (String × Node) → Env → Nat → Env
  | [], env, _ => env
  | d :: ds, env, serial =>
    defineAll ds (env.insert d.1 (definedValue d env serial)) (serialBehind d serial)

theorem find?_defineAll_of_notMem {ds : List (String × Node)} {x : String}
    (hx : ∀ d ∈ ds, d.1 ≠ x) (env : Env) (serial : Nat) :
    (defineAll ds env serial).find? x = env.find? x := by
  induction ds generalizing env serial with
  | nil => rfl
  | cons d ds ih =>
    rw [defineAll, ih fun e he => hx e (List.mem_cons_of_mem d he)]
    exact Dict.find?_insert_of_ne _ (hx d List.mem_cons_self).symm _

/-- Where what is free in its function is visible, a definition makes twins. -/
theorem twins_definedValue {settled : String → Prop} {runs : Node → Prop} {d : String × Node}
    (hform : d.2.form? = some .fn) {body : Node} (hbody : d.2.children = [body]) (hruns : runs body)
    {env env' : Env} (h : ∀ x ∈ d.2.free, Visible settled runs env env' x) (serial : Nat) :
    Twins settled runs (definedValue d env serial) (definedValue d env' serial) := by
  have hentries (e : Env) (x : String) : (Dict.ofList e.entries).find? x = e.find? x := by
    unfold Dict.ofList
    rw [Dict.find?_insertAll_entries]
    exact Option.or_none
  unfold definedValue
  rw [hbody]
  cases hparams : d.2.text? "params" with
  | none => exact .unknown
  | some params =>
    let f : Closure Value := ⟨Text.splitNames params, body, env.entries, some d.1, serial⟩
    have hvisible : ∀ x ∈ f.outside, Visible settled runs env env' x := by
      intro x hx
      refine h x ?_
      rw [Node.free_fn hform, hparams, hbody]
      show x ∈ (body.free ++ []).filter _
      rw [List.append_nil]
      exact hx
    refine .closure (f := f) hruns (fun x hx => ?_) (fun x hx hnone => ?_)
      fun x hx v w hv hw => ?_
    all_goals have hrel := hvisible x hx
    · show ((Dict.ofList env.entries).find? x).isSome = _
      rw [hentries, hentries]
      obtain ⟨hrel, -⟩ := hrel
      generalize env.find? x = o at hrel ⊢
      generalize env'.find? x = o' at hrel ⊢
      cases hrel <;> rfl
    · exact hrel.2 ((hentries env x).symm.trans hnone)
    · have hv' : env.find? x = some v := (hentries env x).symm.trans hv
      have hw' : env'.find? x = some w := (hentries env' x).symm.trans hw
      obtain ⟨hrel, -⟩ := hrel
      rw [hv', hw'] at hrel
      cases hrel with
      | some htwins => exact htwins

/-- The nodes that the definitions of the program can have for bodies. -/
abbrev Runs (root : Node) (permissions : List String) : Node → Prop :=
  Runnable ((definitions root).map Prod.fst) permissions

/-- The same definitions have bound what is in the two environments, each pair of them at points that
agree on what is free in the function. -/
inductive Paired (root : Node) : Env → Env → Prop
  | empty : Paired root ∅ ∅
  | define {M M' env : Env} {d : String × Node} {serial : Nat} : Paired root M M' →
    d ∈ definitions root → (∀ x ∈ d.2.free, env.find? x = M.find? x) →
    Paired root (M.insert d.1 (definedValue d env serial)) (M'.insert d.1 (definedValue d M' serial))

/-- A function that the program defines has one block that can be run for its body. -/
def Bodied (root : Node) (permissions : List String) : Prop :=
  ∀ d ∈ definitions root, d.2.form? = some .fn ∧
    ∃ body, d.2.children = [body] ∧ body.isBlock = true ∧ Runs root permissions body

/-- Names that depend on settled names only are bound to twins, or to nothing. -/
theorem Paired.rel {root : Node} {permissions : List String} (hbodied : Bodied root permissions)
    {settled : String → Prop} (hclosed : ∀ {x y}, settled x → Uses root x y → settled y) {M M' : Env}
    (h : Paired root M M') {x : String} (hx : settled x) :
    Option.Rel (Twins settled (Runs root permissions)) (M.find? x) (M'.find? x) := by
  induction h generalizing x with
  | empty => exact .none
  | @define M M' env d serial _ hd henv ih =>
    by_cases hname : x = d.1
    · subst hname
      rw [Dict.find?_insert_self, Dict.find?_insert_self]
      obtain ⟨hform, body, hbody, -, hruns⟩ := hbodied d hd
      refine .some (twins_definedValue hform hbody hruns (fun y hy => ?_) serial)
      have hy' : settled y := hclosed hx ⟨d, hd, rfl, hy⟩
      unfold Visible
      rw [henv y hy]
      exact ⟨ih hy', fun _ => hy'⟩
    · rw [Dict.find?_insert_of_ne _ hname, Dict.find?_insert_of_ne _ hname]
      exact ih hx

/-! ## 3. Between two definitions -/

/-- The statement binds the name, wherever in it. -/
def Node.Assigns (n : Node) (x : String) : Prop := ∃ m ∈ n.walk, x ∈ m.binds

instance (n : Node) (x : String) : Decidable (n.Assigns x) :=
  inferInstanceAs (Decidable (∃ m ∈ n.walk, x ∈ m.binds))

/-- It makes no difference to the statement whether the definition comes before it, nor to the
definition whether the statement does. -/
structure Independent (root n : Node) (d : String × Node) : Prop where
  /-- What the statement looks up does not depend on the definition. -/
  reach : ∀ x ∈ n.free, ¬Reaches root x d.1
  name : ¬n.Assigns d.1
  /-- The statement binds nothing that the function can capture. -/
  captured : ∀ x ∈ d.2.free, ¬n.Assigns x

/-- Evaluating the program and evaluating it with its definitions in front come to the same. -/
structure Hoistable (permissions : List String) (strict : Bool) (root : Node) : Prop where
  /-- No call evaluates a program. -/
  calls : ∀ m ∈ root.walk, m.form? = some .call → ∀ target ∈ m.ident? "target",
    Idle permissions target
  /-- Each statement is independent of the definitions behind it. -/
  independent : root.children.Pairwise fun n m => definition? n = none →
    ∀ d ∈ definition? m, Independent root n d
  /-- Where an unknown value is a fault, each definition makes a closure. -/
  params : strict = true → ∀ d ∈ definitions root, (d.2.text? "params").isSome = true

variable {root : Node} {permissions : List String} {before behind : List Node}

/-- The name does not depend on the definitions that are still to come. -/
def Settled (root : Node) (behind : List Node) (x : String) : Prop :=
  ∀ d ∈ behind.filterMap definition?, ¬Reaches root x d.1

/-- A statement has bound the name. -/
def Assigned (before : List Node) (x : String) : Prop :=
  ∃ n ∈ before, definition? n = none ∧ n.Assigns x

theorem Settled.uses {x y : String} (hx : Settled root behind x) (h : Uses root x y) :
    Settled root behind y :=
  fun d hd hreaches => hx d hd (.head h hreaches)

/-- Between the nodes `before` and `behind` of the program, its definitions so far have bound what is in
`M`, and all definitions together, in front of its statements, what is in `M'`. -/
structure Midway (root : Node) (before behind : List Node) (serial : Nat) (M M' : Env) : Prop where
  children : root.children = before ++ behind
  paired : ∃ M₀, Paired root M M₀ ∧ defineAll (behind.filterMap definition?) M₀ serial = M'

/-- What is settled means the same to the definitions so far and to all of them. -/
theorem Midway.rel (hbodied : Bodied root permissions) {serial : Nat} {M M' : Env}
    (h : Midway root before behind serial M M') {x : String} (hx : Settled root behind x) :
    Option.Rel (Twins (Settled root behind) (Runs root permissions)) (M.find? x) (M'.find? x) := by
  obtain ⟨M₀, hpaired, rfl⟩ := h.paired
  have hnot : ∀ d ∈ behind.filterMap definition?, d.1 ≠ x :=
    fun d hd hname => hx d hd (hname ▸ .refl)
  rw [find?_defineAll_of_notMem hnot]
  exact hpaired.rel hbodied Settled.uses hx

/-- The stage between the nodes `before` and `behind`. A name is bound as the definitions bind it, or a
statement has bound it to twins. -/
def stage (hbodied : Bodied root permissions) {serial : Nat} {M M' : Env}
    (h : Midway root before behind serial M M') (statements : List Node) : Stage where
  functions := (definitions root).map Prod.fst
  permissions := permissions
  serial := serial
  settled := Settled root behind
  bindable := Assigned statements
  Global x o o' := o = M.find? x ∧ o' = M'.find? x ∨ Assigned statements x ∧
    Option.Rel (Twins (Settled root behind) (Runs root permissions)) o o'
  rel hx hglobal := by
    rcases hglobal with ⟨rfl, rfl⟩ | ⟨-, hrel⟩
    · exact h.rel hbodied hx
    · exact hrel
  assign hx hvw := .inr ⟨hx, .some hvw⟩

section Steps

variable {σ : Type} {serial : Nat} {M M' : Env} {n : Node} {t u : Activation σ}

theorem Settled.of_cons {x : String} (h : Settled root (n :: behind) x) : Settled root behind x := by
  intro d hd
  refine h d ?_
  obtain ⟨m, hm, hdefinition⟩ := List.mem_filterMap.mp hd
  exact List.mem_filterMap.mpr ⟨m, List.mem_cons_of_mem n hm, hdefinition⟩

theorem Assigned.append {x : String} (h : Assigned before x) (n : Node) :
    Assigned (before ++ [n]) x := by
  obtain ⟨m, hm, hassigned⟩ := h
  exact ⟨m, List.mem_append_left _ hm, hassigned⟩

/-- Behind a statement the definitions have bound what they had bound before it. -/
theorem Midway.statement (h : Midway root before (n :: behind) serial M M')
    (hn : definition? n = none) : Midway root (before ++ [n]) behind serial M M' := by
  obtain ⟨M₀, hpaired, hall⟩ := h.paired
  rw [List.filterMap_cons_none hn] at hall
  exact ⟨by rw [h.children, List.append_assoc]; rfl, M₀, hpaired, hall⟩

/-- A statement starts where all that is free in it is visible. -/
theorem close_statement (hbodied : Bodied root permissions) {strict : Bool}
    (hroot : Hoistable permissions strict root) (h : Midway root before (n :: behind) serial M M')
    (hn : definition? n = none) (hclose : (stage hbodied h before).Close True [] t u) :
    (stage hbodied (h.statement hn) (before ++ [n])).Close True n.free t u := by
  have hweaken : (stage hbodied (h.statement hn) (before ++ [n])).Close True [] t u := by
    refine hclose.weaken rfl rfl fun x o o' hglobal => ?_
    rcases hglobal with hglobal | ⟨hassigned, hrel⟩
    · exact .inl hglobal
    · refine .inr ⟨hassigned.append n, ?_⟩
      exact Twins.mono_rel (fun _ => Settled.of_cons) hrel
  refine hweaken.settled trivial fun x hx d hd => ?_
  have hpairwise := hroot.independent
  rw [h.children, List.pairwise_append, List.pairwise_cons] at hpairwise
  obtain ⟨m, hm, hdefinition⟩ := List.mem_filterMap.mp hd
  exact (hpairwise.2.1.1 m hm hn d hdefinition).reach x hx

/-- No statement in front of a definition has bound its name or what it can capture. -/
theorem not_assigned {strict : Bool} (hroot : Hoistable permissions strict root)
    (h : Midway root before (n :: behind) serial M M') {d : String × Node}
    (hn : definition? n = some d) {x : String} (hx : x = d.1 ∨ x ∈ d.2.free) :
    ¬Assigned before x := by
  rintro ⟨m, hm, hstatement, hassigns⟩
  have hpairwise := hroot.independent
  rw [h.children, List.pairwise_append] at hpairwise
  have hindependent := hpairwise.2.2 m hm n List.mem_cons_self hstatement d hn
  rcases hx with rfl | hx
  · exact hindependent.name hassigns
  · exact hindependent.captured x hx hassigns

/-- Behind a definition, its name is bound on both sides: in the first session just now. -/
theorem Midway.definition {strict : Bool} (hbodied : Bodied root permissions)
    (hroot : Hoistable permissions strict root) (h : Midway root before (n :: behind) serial M M')
    {d : String × Node} (hn : definition? n = some d)
    (hclose : (stage hbodied h before).Close True [] t u) :
    Midway root (before ++ [n]) behind (serialBehind d serial)
      (M.insert d.1 (definedValue d t.session.globals serial)) M' := by
  obtain ⟨M₀, hpaired, hall⟩ := h.paired
  rw [List.filterMap_cons_some hn, defineAll] at hall
  have hmem : n ∈ root.children := by
    rw [h.children]
    exact List.mem_append_right _ List.mem_cons_self
  refine ⟨by rw [h.children, List.append_assoc]; rfl, _, .define hpaired ?_ fun x hx => ?_, hall⟩
  · exact List.mem_filterMap.mpr ⟨n, hmem, hn⟩
  -- what the function can capture is bound as the definitions so far have bound it
  · rcases hclose.globals x with ⟨hglobal, -⟩ | ⟨hassigned, -⟩
    · exact hglobal
    · exact absurd hassigned (not_assigned hroot h hn (.inr hx))

/-- Evaluating a definition in the first session, where the second one has done so before, keeps the two
close. -/
theorem close_definition {strict : Bool} (hbodied : Bodied root permissions)
    (hroot : Hoistable permissions strict root) (h : Midway root before (n :: behind) serial M M')
    {d : String × Node} (hn : definition? n = some d)
    (hclose : (stage hbodied h before).Close True [] t u) [Host σ] {t' : Activation σ}
    (ht : Restores t t') (hagree : t.session.Agree t'.session)
    (hglobals : t'.session.globals =
      t.session.globals.insert d.1 (definedValue d t.session.globals t.session.nextSerial))
    (hserial : t'.session.nextSerial = serialBehind d t.session.nextSerial) :
    (stage hbodied (h.definition hbodied hroot hn hclose) (before ++ [n])).Close True [] t' u := by
  have hserial' : t.session.nextSerial = serial := hclose.serial
  refine ⟨hagree.symm.trans hclose.agree, ht.permissions.trans hclose.permissions,
    ht.strict.trans hclose.strict, ht.maxDepth.trans hclose.maxDepth, ht.depth.trans hclose.depth,
    ht.readOnly.trans hclose.readOnly, hclose.readOnly', ?_, ht.framed.trans hclose.frames,
    hclose.frames', fun x => ?_, fun _ hx => absurd hx List.not_mem_nil⟩
  · rw [hserial, hserial']
    rfl
  · have hglobal := hclose.globals x
    rw [hglobals, hserial']
    -- the second session has had the name bound all along, and no statement has bound it since
    by_cases hx : x = d.1
    · rcases hglobal with ⟨-, hglobal'⟩ | ⟨hassigned, -⟩
      · subst hx
        refine .inl ⟨?_, hglobal'⟩
        rw [Dict.find?_insert_self, Dict.find?_insert_self]
      · exact absurd hassigned (not_assigned hroot h hn (.inl hx))
    · rw [Dict.find?_insert_of_ne _ hx]
      rcases hglobal with ⟨hglobal, hglobal'⟩ | ⟨hassigned, hrel⟩
      · exact .inl ⟨hglobal.trans (Dict.find?_insert_of_ne M hx _).symm, hglobal'⟩
      · refine .inr ⟨hassigned.append n, ?_⟩
        exact Twins.mono_rel (fun _ => Settled.of_cons) hrel

end Steps

/-! ## 4. Whole runs -/

/-- The last child of the program is a definition. -/
def EndsInDefinition (root : Node) : Prop := ∃ n ∈ root.children.getLast?, (definition? n).isSome = true

variable {σ : Type}

/-- The statements end alike: with the same value up to what closures have captured, or with that of a
definition at the end of the one program. -/
inductive EndAlike (root : Node) : Outcome Value × Activation σ → Outcome Value × Activation σ → Prop
  | value {v w t u} : v.uncaptured = w.uncaptured → t.session.Agree u.session →
    t.session.strict = u.session.strict → EndAlike root (.value v, t) (.value w, u)
  | definition {w t u} : EndsInDefinition root → (u.session.strict = true → w.isUnknown = false) →
    t.session.Agree u.session → t.session.strict = u.session.strict →
    EndAlike root (.value .void, t) (.value w, u)
  | returned {v w t u} : v.uncaptured = w.uncaptured → t.session.Agree u.session →
    EndAlike root (.returned v, t) (.returned w, u)
  | halted {e t u} : t.session.Agree u.session → EndAlike root (.halted e, t) (.halted e, u)
  | deep {limit id id' t u} : t.session.Agree u.session →
    EndAlike root (.halted (.fault (.depthExceeded limit id)), t)
      (.halted (.fault (.depthExceeded limit id')), u)

variable [Host σ] {strict : Bool}

/-- In a strict session no node comes to an unknown value. -/
theorem isUnknown_of_eval {fuel : Nat} {n : Node} {t u : Activation σ} {v : Value}
    (hrun : eval fuel n t = (.value v, u)) (hstrict : u.session.strict = true) :
    v.isUnknown = false := by
  cases fuel with
  | zero => cases hrun
  | succ fuel =>
    rw [eval_succ] at hrun
    by_cases hdepth : t.session.maxDepth ≤ t.session.depth
    · rw [evalWith_of_le hdepth] at hrun
      cases hrun
    · rw [evalWith_eq (by omega), bind_def] at hrun
      generalize nested (evalForm (eval fuel) fuel n) (t.noteStep n) = x at hrun
      obtain ⟨o, t'⟩ := x
      cases o with
      | returned w => cases hrun
      | halted e => cases hrun
      | value w =>
        dsimp only at hrun
        unfold known at hrun
        split at hrun
        · cases hrun
        · next hfault =>
          cases hrun
          rw [hstrict, Bool.and_true, Bool.not_eq_true] at hfault
          exact hfault

/-- From any point on, the program and its statements alone end alike, where the second session has all
definitions already. -/
theorem sequence_alike (hbodied : Bodied root permissions) (hroot : Hoistable permissions strict root)
    (hruns : ∀ n ∈ root.children, definition? n = none → Runs root permissions n) (fuel : Nat)
    {serial : Nat} {M M' : Env} (h : Midway root before behind serial M M') {t u : Activation σ}
    (hclose : (stage hbodied h before).Close True [] t u)
    (hdepth : t.session.depth < t.session.maxDepth) (hstrict : t.session.strict = strict)
    {last last' : Value} (hlast : behind = [] →
      last.uncaptured = last'.uncaptured ∨ last = .void ∧ EndsInDefinition root)
    (hknown : strict = true → last'.isUnknown = false) :
    EndAlike root (sequence (eval (fuel + 1)) last behind t)
      (sequence (eval (fuel + 1)) last' (behind.filter fun n => (definition? n).isNone) u) := by
  -- `Midway` carries what the definitions have bound on both sides, `Close` all the rest
  induction behind generalizing before serial M t u last last' with
  | nil =>
    obtain hsame | ⟨rfl, hends⟩ := hlast rfl
    · exact .value hsame hclose.agree hclose.strict
    · exact .definition hends (fun hu => hknown (hstrict.symm.trans (hclose.strict.trans hu)))
        hclose.agree hclose.strict
  | cons n behind ih =>
    have hmem : n ∈ root.children := by
      rw [h.children]
      exact List.mem_append_right _ List.mem_cons_self
    have hrestores (a : Activation σ) : Restores a (eval (fuel + 1) n a).2 :=
      invariant_restores.eval (fuel + 1) n a
    have hstep (v : Value) (ns : List Node) (a : Activation σ) :
        sequence (eval (fuel + 1)) v (n :: ns) a = (eval (fuel + 1) n >>= fun v =>
          if v.isErr then pure v else sequence (eval (fuel + 1)) v ns) a := rfl
    cases hn : definition? n with
    -- a definition: only the first session comes to it here
    | some d =>
      obtain ⟨-, body, hbody, hblock, -⟩ := hbodied d (List.mem_filterMap.mpr ⟨n, hmem, hn⟩)
      obtain ⟨t', hrun, hframes, hglobals, hserial, hagree⟩ :=
        evalWith_definition (eval fuel) fuel hn hbody hblock
          (hclose.frames.mpr trivial) hclose.readOnly hdepth fun hs =>
            hroot.params (hstrict.symm.trans hs) d (List.mem_filterMap.mpr ⟨n, hmem, hn⟩)
      have ht' : Restores t t' := (invariant_restores.eval (fuel + 1) n t).of_eq hrun
      have hends : behind = [] → EndsInDefinition root := by
        rintro rfl
        exact ⟨n, by simp [h.children], by rw [hn]; rfl⟩
      rw [List.filter_cons_of_neg (by simp [hn]), hstep, bind_def,
        eval_succ, hrun]
      exact ih (h.definition hbodied hroot hn hclose)
        (close_definition hbodied hroot h hn hclose ht' hagree hglobals hserial)
        (by rw [ht'.depth, ht'.maxDepth]; exact hdepth) (ht'.strict.trans hstrict)
        (fun hnil => .inr ⟨rfl, hends hnil⟩) hknown
    -- another statement: both sessions do
    | none =>
      let S := stage hbodied (h.statement hn) (before ++ [n])
      have hfits : S.Fits True n :=
        ⟨hruns n hmem hn, fun _ m hm x hx =>
          ⟨n, List.mem_append_right _ List.mem_cons_self, hn, m, hm, hx⟩⟩
      have hends : S.Ends True (n.binds ++ n.free) S.Values (eval (fuel + 1) n t)
          (eval (fuel + 1) n u) :=
        S.correct_eval (fuel + 1) hfits (List.Subset.refl _) (close_statement hbodied hroot h hn hclose)
      rw [List.filter_cons_of_pos (by simp [hn]), hstep, hstep, bind_def, bind_def]
      have hrest := hrestores t
      rcases ht : eval (fuel + 1) n t with ⟨o, t'⟩
      rcases hu : eval (fuel + 1) n u with ⟨o', u'⟩
      rw [ht, hu] at hends
      rw [ht] at hrest
      cases hends with
      | returned hv hclose' => exact .returned hv.uncaptured hclose'.agree
      | halted hclose' => exact .halted hclose'.agree
      | @value v w _ _ hvw hclose' =>
        dsimp only
        rw [hvw.isErr]
        split
        · exact .value hvw.uncaptured hclose'.agree hclose'.strict
        · refine ih (h.statement hn) (hclose'.mono (List.nil_subset _))
            (by rw [hrest.depth, hrest.maxDepth]; exact hdepth) (hrest.strict.trans hstrict)
            (fun _ => .inl hvw.uncaptured) fun hs => ?_
          refine isUnknown_of_eval hu ?_
          rw [← hclose'.strict, hrest.strict, hstrict, hs]

/-- Definitions in front of other statements bind their names one after the other. -/
theorem sequence_front (hbodied : Bodied root permissions)
    (hparams : strict = true → ∀ d ∈ definitions root, (d.2.text? "params").isSome = true)
    (fuel : Nat) {defs : List Node} (rest : List Node)
    (hdefs : ∀ n ∈ defs, ∃ d ∈ definitions root, definition? n = some d) {t : Activation σ}
    (hframes : t.frames = []) (hreadOnly : t.session.readOnly = [])
    (hdepth : t.session.depth < t.session.maxDepth) (hstrict : t.session.strict = strict) :
    ∃ u, sequence (eval (fuel + 1)) .void (defs ++ rest) t =
        sequence (eval (fuel + 1)) .void rest u ∧ Restores t u ∧ t.session.Agree u.session ∧
      u.session.globals =
        defineAll (defs.filterMap definition?) t.session.globals t.session.nextSerial := by
  induction defs generalizing t with
  | nil => exact ⟨t, rfl, .refl t, .refl _, rfl⟩
  | cons n defs ih =>
    obtain ⟨d, hd, hn⟩ := hdefs n List.mem_cons_self
    obtain ⟨-, body, hbody, hblock, -⟩ := hbodied d hd
    obtain ⟨u, hrun, hframes', hglobals, hserial, hagree⟩ :=
      evalWith_definition (eval fuel) fuel hn hbody hblock hframes hreadOnly hdepth
        fun hs => hparams (hstrict.symm.trans hs) d hd
    have hu : Restores t u := (invariant_restores.eval (fuel + 1) n t).of_eq hrun
    obtain ⟨u', hseq, hu', hagree', hglobals'⟩ := ih (fun m hm => hdefs m (List.mem_cons_of_mem n hm))
      hframes' (hu.readOnly.trans hreadOnly) (by rw [hu.depth, hu.maxDepth]; exact hdepth)
      (hu.strict.trans hstrict)
    refine ⟨u', ?_, hu.trans hu', hagree.trans hagree', ?_⟩
    · rw [← hseq, List.cons_append, Eval.sequence, bind_def, eval_succ, hrun]
      rfl
    · rw [hglobals', hglobals, hserial, List.filterMap_cons_some hn, defineAll]

/-- Where the second session has all definitions and the first one has none yet, the two are close. -/
theorem close_front (hbodied : Bodied root permissions) {s : Session σ} {u : Activation σ}
    (h : Midway root [] root.children s.nextSerial ∅ u.session.globals) (hglobals : s.globals = ∅)
    (hreadOnly : s.readOnly = []) (hu : Restores (s.entering (hoisted root)) u)
    (hagree : (s.entering root).session.Agree u.session)
    (hpermissions : s.permissions = permissions) :
    (stage hbodied h []).Close True [] (s.entering root) u where
  agree := hagree
  permissions := hpermissions
  strict := hu.strict.symm
  maxDepth := hu.maxDepth.symm
  depth := hu.depth.symm
  readOnly := hreadOnly
  readOnly' := hu.readOnly.trans hreadOnly
  serial := rfl
  frames := iff_true_intro rfl
  frames' := iff_true_intro (hu.framed.mpr rfl)
  globals x := .inl ⟨congrArg (Dict.find? · x) hglobals, rfl⟩
  visible _ hx := absurd hx List.not_mem_nil

theorem mem_hoisted {n : Node} : n ∈ (hoisted root).children ↔ n ∈ root.children := by
  unfold hoisted
  rw [List.mem_append, List.mem_filter, List.mem_filter]
  cases hn : definition? n <;> simp

/-- The children of the program and those of the hoisted one end alike. -/
theorem sequence_hoisted {s : Session σ} (hbodied : Bodied root s.permissions)
    (hroot : Hoistable s.permissions s.strict root)
    (hruns : ∀ n ∈ root.children, definition? n = none → Runs root s.permissions n)
    (hglobals : s.globals = ∅) (hreadOnly : s.readOnly = []) (fuel : Nat) :
    EndAlike root (sequence (eval fuel) .void root.children (s.entering root))
      (sequence (eval fuel) .void (hoisted root).children (s.entering (hoisted root))) := by
  have hagree : (s.entering root).session.Agree (s.entering (hoisted root)).session := ⟨rfl, rfl, rfl⟩
  by_cases hnil : root.children = []
  -- there is nothing to move
  · have hnil' : (hoisted root).children = [] := by
      unfold hoisted
      rw [hnil]
      rfl
    rw [hnil, hnil']
    exact .value rfl hagree rfl
  obtain ⟨n, ns, hns⟩ := List.exists_cons_of_ne_nil hnil
  obtain ⟨m, ms, hms⟩ : ∃ m ms, (hoisted root).children = m :: ms := by
    refine List.exists_cons_of_ne_nil (List.ne_nil_of_mem (a := n) (mem_hoisted.mpr ?_))
    rw [hns]
    exact List.mem_cons_self
  cases fuel with
  | zero =>
    rw [hns, hms]
    exact .halted hagree
  | succ fuel =>
    by_cases hdeep : (s.entering root).session.maxDepth ≤ (s.entering root).session.depth
    -- already the first child is too deep
    · have hdeep' : (s.entering (hoisted root)).session.maxDepth ≤
          (s.entering (hoisted root)).session.depth := hdeep
      rw [hns, hms, sequence_of_le hdeep, sequence_of_le hdeep']
      exact .deep hagree
    · rw [Nat.not_le] at hdeep
      have hdefs : ∀ n ∈ root.children.filter (fun n => (definition? n).isSome),
          ∃ d ∈ definitions root, definition? n = some d := by
        intro n hn
        obtain ⟨hchild, hsome⟩ := List.mem_filter.mp hn
        obtain ⟨d, hd⟩ := Option.isSome_iff_exists.mp hsome
        exact ⟨d, List.mem_filterMap.mpr ⟨n, hchild, hd⟩, hd⟩
      obtain ⟨u, hseq, hu, hagree', hall⟩ := sequence_front (t := s.entering (hoisted root)) hbodied
        hroot.params fuel (root.children.filter fun n => (definition? n).isNone) hdefs rfl hreadOnly
        hdeep rfl
      have hall' : defineAll (root.children.filterMap definition?) ∅ s.nextSerial =
          u.session.globals := by
        rw [hall, filterMap_filter_definitions, show (s.entering (hoisted root)).session.globals = ∅
          from hglobals]
        rfl
      have hmidway : Midway root [] root.children s.nextSerial ∅ u.session.globals :=
        ⟨rfl, ∅, .empty, hall'⟩
      have hclose : (stage hbodied hmidway []).Close True [] (s.entering root) u :=
        close_front hbodied hmidway hglobals hreadOnly hu (hagree.trans hagree') rfl
      show EndAlike root _ (sequence (eval (fuel + 1)) .void (_ ++ _) (s.entering (hoisted root)))
      rw [hseq]
      exact sequence_alike hbodied hroot hruns fuel hmidway hclose hdeep rfl (fun _ => .inl rfl)
        fun _ => rfl

/-- How a run of the program and one of the hoisted program end. -/
inductive HoistedAlike (root : Node) : Except Halt Value → Except Halt Value → Prop
  /-- Both come to the same value, up to what it has captured if it is a function. -/
  | same {v w} : v.uncaptured = w.uncaptured → HoistedAlike root (.ok v) (.ok w)
  /-- The program ends with a definition, and its value is that of the definition. -/
  | definition {w} : EndsInDefinition root → HoistedAlike root (.ok .void) (.ok w)
  | halted {e} : HoistedAlike root (.error e) (.error e)
  /-- The session does not allow to evaluate the children of the program. -/
  | deep {limit id id'} : HoistedAlike root (.error (.fault (.depthExceeded limit id)))
    (.error (.fault (.depthExceeded limit id')))

omit [Host σ] in
/-- The end of a program is that of its children, unless an unknown value is a fault. -/
theorem HoistedAlike.of_endAlike {root' : Node} (hid : root'.id = root.id) {step step' : Eval σ Value}
    {t u : Activation σ} (h : EndAlike root (step t.deepen) (step' u.deepen)) :
    HoistedAlike root (Session.conclude ((nested step >>= known root) t).1)
        (Session.conclude ((nested step' >>= known root') u).1) ∧
      ((nested step >>= known root) t).2.session.Agree
        ((nested step' >>= known root') u).2.session := by
  rw [bind_def, bind_def]
  unfold nested between
  generalize step t.deepen = x at h ⊢
  generalize step' u.deepen = y at h ⊢
  cases h with
  | @value v w t' u' hvw hagree hstrict =>
    have hunknown : v.isUnknown = w.isUnknown := by
      have hmap := congrArg Value.isUnknown hvw
      rwa [Value.uncaptured, Value.isUnknown_mapClosure, Value.isUnknown_mapClosure] at hmap
    have hagree' : t'.surface.session.Agree u'.surface.session :=
      ⟨hagree.host, hagree.replay?, hagree.permissions⟩
    dsimp only
    unfold known
    rw [hunknown, show t'.surface.session.strict = u'.surface.session.strict from hstrict, hid]
    split
    · exact ⟨.halted, hagree'⟩
    · exact ⟨.same hvw, hagree'⟩
  | @definition w t' u' hends hknown hagree hstrict =>
    have hnot : ¬(w.isUnknown && u'.surface.session.strict) = true := by
      intro hfault
      obtain ⟨hunknown, hu⟩ := (Bool.and_eq_true _ _).mp hfault
      rw [hknown hu] at hunknown
      cases hunknown
    dsimp only
    unfold known
    rw [if_neg hnot, if_neg (by simp [Value.isUnknown])]
    exact ⟨.definition hends, hagree.host, hagree.replay?, hagree.permissions⟩
  | returned hvw hagree => exact ⟨.same hvw, hagree.host, hagree.replay?, hagree.permissions⟩
  | halted hagree => exact ⟨.halted, hagree.host, hagree.replay?, hagree.permissions⟩
  | deep hagree => exact ⟨.deep, hagree.host, hagree.replay?, hagree.permissions⟩

/-- What compiles can be run: the bodies of the functions, and the other statements. -/
theorem runs_of_compile {p : BytecodeProgram} (hcompiled : compile root = .ok p)
    (hcalls : ∀ m ∈ root.walk, m.form? = some .call → ∀ target ∈ m.ident? "target",
      Idle permissions target) :
    Bodied root permissions ∧
      ∀ n ∈ root.children, definition? n = none → Runs root permissions n := by
  obtain ⟨main, fs, before, codes, scope, ha⟩ := assembled_of_compile hcompiled
  refine ⟨fun d hd => ?_, fun n hn hnone => ⟨?_, fun m hm => ?_⟩⟩
  · obtain ⟨f, -, body, constants, codes', scope', hdefines⟩ := ha.function d hd
    obtain ⟨n, -, hdefinition⟩ := mem_definitions hd
    obtain ⟨-, -, hfn, -⟩ := definition?_eq_some hdefinition
    have hbody : body ∈ d.2.children := by
      rw [hdefines.children]
      exact List.mem_cons_self
    have hblock : body.form? = some .block := Node.form?_of_isBlock hdefines.block
    refine ⟨Node.form?_of_isFn hfn, body, hdefines.children, hdefines.block,
      ⟨0, _, _, _, .sequence (.inr hblock) hdefines.built.compiles⟩, fun m hm => ?_⟩
    exact hcalls m (mem_walk_of_definition hd (Node.mem_walk_of_mem_children hbody hm))
  · refine ha.statements.compiles.exists_compiles n (List.mem_filter.mpr ⟨hn, ?_⟩)
    rw [hnone]
    rfl
  · exact hcalls m (Node.mem_walk_of_mem_children hn hm)

/-- Names that depend only on each other do not depend on a further one. -/
theorem not_reaches {names : List String}
    (hclosed : ∀ d ∈ definitions root, d.1 ∈ names → ∀ y ∈ d.2.free, y ∈ names) {x y : String}
    (hx : x ∈ names) (hy : y ∉ names) : ¬Reaches root x y := by
  have hmem {z : String} (hreaches : Reaches root x z) : z ∈ names := by
    induction hreaches with
    | refl => exact hx
    | tail _ huses ih =>
      obtain ⟨d, hd, rfl, hfree⟩ := huses
      exact hclosed d hd ih _ hfree
  exact fun hreaches => hy (hmem hreaches)

/-- A `Let` of another node than a function. -/
def bindTo (name : String) (child : Node) : Node where
  kind := "Let"
  id := "l"
  attrs := attrs [("name", .identifier name)]
  children := [child]

/-- Between its two functions the program calls the first one, and behind both the second one. -/
def interleaved : Node :=
  programOf [define "seven" "" [callInts "math.add" [3, 4]], bindTo "a" (callInts "seven" []),
    define "twice" "x" [{ kind := "Add", id := "s", children := [readVar "x", readVar "x"] }],
    { callInts "twice" [] with children := [readVar "a"] }]

def interleavedFunctions : Array BytecodeFunction := #[
  { name := "main", params := [], locals := ["a"]
    code := #[.of .call (saturateCount 0) "seven", .of .storeLocal (saturateCount 0), .of .pushVoid,
      .of .jumpIfErr (saturateCount 7), .of .pop, .of .loadLocal (saturateCount 0),
      .of .call (saturateCount 1) "twice", .of .ret] },
  { name := "seven", params := [], locals := []
    code := #[.of .pushInt 3, .of .pushInt 4, .of .callSys (saturateCount 2) "math.add", .of .ret] },
  { name := "twice", params := ["x"], locals := ["x"]
    code := #[.of .loadLocal (saturateCount 0), .of .loadLocal (saturateCount 0),
      .of (.operator .add), .of .ret] }]

theorem hoistable_interleaved : Hoistable (Session.fresh "").permissions false interleaved where
  calls := by
    have hrunning : ∀ m ∈ interleaved.walk, ∀ target ∈ m.ident? "target", target ∉ runningTargets := by
      decide +kernel
    exact fun m hm _ target htarget => .inl (hrunning m hm target htarget)
  independent := by
    have hlet : ∀ x ∈ (bindTo "a" (callInts "seven" [])).free, ¬Reaches interleaved x "twice" := by
      intro x hx
      have hmem : x ∈ ["seven"] := by
        revert x
        decide +kernel
      exact not_reaches (by decide +kernel) hmem (by decide)
    refine .cons ?_ (.cons ?_ (.cons ?_ (.cons ?_ .nil)))
    · exact fun m _ hn => absurd hn (by decide +kernel)
    · intro m hm _ d hd
      rcases List.mem_cons.mp hm with rfl | hm
      · obtain rfl : _ = d := Option.some.inj hd
        exact ⟨hlet, by decide +kernel, by decide +kernel⟩
      · obtain rfl := List.mem_singleton.mp hm
        cases hd
    · exact fun m _ hn => absurd hn (by decide +kernel)
    · exact fun m hm => absurd hm List.not_mem_nil
  params := nofun

/-- What a program comes to, as a text. -/
def resultText (s : Session LocalHost) (root : Node) : Option String :=
  (s.evaluate 4097 root).1.toOption.map Value.formatResult

/-- The program compiles, and comes to the first text where the hoisted one comes to the second. -/
def Changes (s : Session LocalHost) (root : Node) (text text' : Option String) : Prop :=
  (compile root).isOk = true ∧ resultText s root = text ∧ resultText s (hoisted root) = text'

instance (s : Session LocalHost) (root : Node) (text text' : Option String) :
    Decidable (Changes s root text text') := inferInstanceAs (Decidable (_ ∧ _ ∧ _))

def litInt (i : Int32) : Node where
  kind := "Lit"
  id := "a"
  attrs := attrs [("value", .int i)]

/-- The value of a definition at the end is that of the program. -/
def definedLast : Node := programOf [litInt 5, define "f" "" [litInt 1]]

/-- The function that the first statement calls comes behind it. -/
def calledFirst : Node :=
  programOf [bindTo "r" (callInts "f" []), define "f" "" [litInt 7], readVar "r"]

/-- A statement takes the name of a function away before another function captures it. -/
def capturedLate : Node :=
  programOf [define "g" "" [litInt 1], bindTo "g" (litInt 5), define "f" "" [callInts "g" []],
    callInts "f" []]

/-- The function takes over the name of a variable. -/
def takenOver : Node :=
  programOf [bindTo "f" (litInt 1), define "f" "" [litInt 7], callInts "f" []]

/-- The first statement runs a program that calls the function behind it. -/
def ranFirst : Node :=
  let source : Node :=
    { kind := "Lit", id := "a", attrs := attrs [("value", .string "Program#q \x7b Call#c(target=f) \x7d")] }
  let parsed : Node :=
    { kind := "Call", id := "c", attrs := attrs [("target", .identifier "compiler.parse")]
      children := [source] }
  programOf [bindTo "r" { kind := "Call", id := "c"
                          attrs := attrs [("target", .identifier "compiler.run")], children := [parsed] },
    define "f" "" [litInt 7], readVar "r"]

/-- The function has no parameters as a text, so its definition comes to an unknown value; but the
program has ended before. -/
def faultyLast : Node :=
  programOf [{ kind := "Return", id := "r", children := [litInt 1] },
    bindTo "f" { kind := "Fn", id := "g", children := [{ kind := "Block", id := "b" }] }]

end Arbor
