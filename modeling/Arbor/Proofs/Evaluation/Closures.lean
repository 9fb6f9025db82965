import Arbor.Proofs.Evaluation.Scoping

/-!
# What the body of a closure sees

A closure keeps what was bound where it was made. A call of it, whatever has happened in between, starts
its body with its parameters over what it captured, over its own name, over the globals of that moment
(`Eval.find?_calleeEnv_of_param`, `Eval.find?_calleeEnv`). As long as its code does not bind a name
itself, the code finds just that: a captured name keeps the value it had (`Eval.closure_keeps_captured`),
and the name that a `Let` gives a function is the function itself (`Eval.named_closure_calls_itself`),
unless the name had been bound before.
-/

namespace Arbor

open Text

variable {σ : Type}

/-! ## 1. The bindings that a body starts with -/

namespace Eval

/-- The last parameter of a name is bound to the argument beside it. -/
theorem find?_calleeEnv_of_param {f : Closure Value} {args : List Value} {i : Nat} {x : String}
    (hfit : f.params.length = args.length) (hparam : f.params[i]? = some x)
    (hlast : ∀ j, i < j → f.params[j]? ≠ some x) (globals : Env) :
    (calleeEnv globals f args).find? x = args[i]? := by
  obtain ⟨hi, -⟩ := List.getElem?_eq_some_iff.mp hparam
  have hvalue : args[i]? = some args[i] := List.getElem?_eq_getElem (hfit ▸ hi)
  rw [hvalue]
  exact Dict.find?_insertAll_zip_of_last hparam hlast hvalue _

/-- Every other name is bound as captured, or else to the closure if it is its own name, or else as in
the globals. -/
theorem find?_calleeEnv {f : Closure Value} {x : String} (hx : x ∉ f.params) (globals : Env)
    (args : List Value) :
    (calleeEnv globals f args).find? x =
      ((Dict.ofList f.captured).find? x).or
        (if f.name? = some x then some (.fn f) else globals.find? x) := by
  unfold calleeEnv
  -- the layers from above: the parameters, which lack `x`, and what was captured
  rw [Dict.find?_insertAll_or, Dict.find?_ofList_zip_of_notMem args hx, Option.none_or,
    Dict.find?_insertAll_or]
  refine congrArg (Option.or _) ?_
  cases f.name? with
  | none => rfl
  | some name =>
    by_cases hname : name = x
    · subst hname
      rw [if_pos rfl]
      exact Dict.find?_insert_self _ _ _
    · rw [if_neg fun h => hname (Option.some.inj h)]
      exact Dict.find?_insert_of_ne _ (Ne.symm hname) _

theorem makeClosure_of_isBlock {n body : Node} {params : String}
    (hparams : n.text? "params" = some params) (hbody : n.children = [body])
    (hblock : body.isBlock = true) (name? : Option String) (t : Activation σ) :
    makeClosure n name? t =
      (.value (.fn ⟨splitNames params, body, t.env.entries, name?, t.session.nextSerial⟩),
        { t with session := { t.session with nextSerial := t.session.nextSerial + 1 } }) := by
  unfold makeClosure
  rw [hparams, hbody]
  dsimp only
  rw [if_pos hblock]
  rfl

/-- A closure has captured the bindings of the moment at which it was made. -/
theorem of_makeClosure {n : Node} {name? : Option String} {t t' : Activation σ} {f : Closure Value}
    (hmade : makeClosure n name? t = (.value (.fn f), t')) :
    Dict.ofList f.captured = t.env ∧ f.name? = name? := by
  have hends : (makeClosure n name? : Eval σ Value) = pure .unknown ∨
      ∃ params body, n.text? "params" = some params ∧ n.children = [body] ∧ body.isBlock = true := by
    unfold makeClosure
    split
    · next params body hparams hbody =>
      split
      · next hblock => exact .inr ⟨params, body, hparams, hbody, hblock⟩
      · exact .inl rfl
    · exact .inl rfl
  obtain hunknown | ⟨params, body, hparams, hbody, hblock⟩ := hends
  · rw [hunknown] at hmade
    cases hmade
  · rw [makeClosure_of_isBlock hparams hbody hblock] at hmade
    cases hmade
    refine ⟨Dict.ext_find? fun x => ?_, rfl⟩
    show (Dict.empty.insertAll t.env.entries).find? x = t.env.find? x
    rw [Dict.find?_insertAll_entries]
    exact Option.or_none

/-- Closures keep what they captured. Whenever a closure is called with as many arguments as it has
parameters, be it long after it was made and with everything bound in another way by then, its body
starts with each parameter bound to its argument (the last one of a name counts), with each other name
bound as it was when the closure was made, its own name to itself unless it was bound then, and the rest
as in the globals of the moment. Nothing changes in the call if the names that the code of its body has
not bound since, and any that it never binds, are put back to that before each node of the code. So a
variable of the code always yields the captured value if its name is captured, no parameter, and not
bound by the code itself. -/
theorem closure_keeps_captured [Host σ] {n : Node} {name? : Option String} {t t' : Activation σ}
    {f : Closure Value} (hmade : makeClosure n name? t = (.value (.fn f), t')) {args : List Value}
    (hfit : f.params.length = args.length) (u : Activation σ) (fuel : Nat) :
    let start := calleeEnv u.session.globals f args
    callClosure (eval fuel) f args u =
        catchReturn (between (·.enterCall (f.name?.getD "<fn>") start) (·.leaveCall)
          (eval fuel f.body)) u ∧
      (∀ (i : Nat) (x : String), f.params[i]? = some x → (∀ j, i < j → f.params[j]? ≠ some x) →
        start.find? x = args[i]?) ∧
      (∀ x ∉ f.params, start.find? x = (t.env.find? x).or
        (if name? = some x then some (.fn f) else u.session.globals.find? x)) ∧
      ∀ fixed : List String, (∀ x ∈ fixed, ∀ m ∈ f.body.ownCode, ¬m.Writes x) →
        (∃ names, callClosure (evalScope (Activation.putBack start fixed) fuel) f args
            (u.annotated []) = Prod.map id (·.annotated names) (callClosure (eval fuel) f args u)) ∧
        ∀ x v, t.env.find? x = some v → x ∉ f.params →
          ∀ m : Node, m.form? = some .var → m.ident? "name" = some x →
            ∀ (w : Activation (Annotated (List String) σ)) (k : Nat), x ∈ fixed ∨ x ∉ w.notes →
              w.session.depth < w.session.maxDepth →
                evalScope (Activation.putBack start fixed) (k + 1) m w =
                  known m v ((w.noteStep m).putBack start fixed) := by
  intro start
  obtain ⟨hcaptured, hname⟩ := of_makeClosure hmade
  have hother : ∀ x ∉ f.params, start.find? x = (t.env.find? x).or
      (if name? = some x then some (.fn f) else u.session.globals.find? x) := by
    intro x hx
    rw [← hcaptured, ← hname]
    exact find?_calleeEnv hx _ _
  refine ⟨?_, fun i x hparam hlast => find?_calleeEnv_of_param hfit hparam hlast _, hother,
    fun fixed hfree => ⟨callClosure_evalScope fuel hfree args u, ?_⟩⟩
  · rw [callClosure_of_fit hfit rfl]
    rfl
  · -- the name is bound so when the body starts, and the code has not bound it since
    intro x v hv hx m hform hvar w k hunbound hdepth
    have hstart : start.find? x = some v := by
      rw [hother x hx, hv, Option.some_or]
    exact evalScope_var k hform hvar hstart hunbound hdepth

end Eval

def blockOf (statements : List Node) : Node := { kind := "Block", id := "b", children := statements }

/-- A `Let` of a function of the number `n`. -/
def defining (name : String) (statements : List Node) : Node where
  kind := "Let"
  id := "l"
  attrs := attrs [("name", .identifier name)]
  children :=
    [{ kind := "Fn", id := "f", attrs := attrs [("params", .string "n")]
       children := [blockOf statements] }]

/-- A `Var` of the name. -/
def reading (name : String) : Node where
  kind := "Var"
  id := "v"
  attrs := attrs [("name", .identifier name)]

namespace Eval

/-- The closure that a `Let` makes where `x` is 1, and that reads `x`. -/
def rememberer : Closure Value where
  params := ["n"]
  body := blockOf [reading "x"]
  captured := [("x", .int 1)]
  name? := some "f"
  serial := 0

theorem closure_keeps_captured_rememberer :
    let t : Activation LocalHost :=
      ⟨{ Session.fresh "" with globals := .ofList [("x", .int 1)] }, []⟩
    let u : Activation LocalHost :=
      ⟨{ Session.fresh "" with globals := .ofList [("x", .int 2), ("y", .int 3)] }, []⟩
    let start := calleeEnv u.session.globals rememberer [.int 5]
    let w := (u.annotated ([] : List String)).enterCall "f" start
    (makeClosure (defining "f" [reading "x"]).children.head! (some "f") t).1 =
        .value (.fn rememberer) ∧
      (start.find? "n", start.find? "x", start.find? "f", start.find? "y") =
        (some (.int 5), some (.int 1), some (.fn rememberer), some (.int 3)) ∧
      evalScope (Activation.putBack start ["x"]) 1 (reading "x") w =
        known (reading "x") (.int 1) ((w.noteStep (reading "x")).putBack start ["x"]) := by
  intro t u start w
  have hmade : makeClosure (defining "f" [reading "x"]).children.head! (some "f") t =
      (.value (.fn rememberer), (makeClosure (defining "f" [reading "x"]).children.head! (some "f")
        t).2) := rfl
  have hfree : ∀ x ∈ ["x"], ∀ m ∈ rememberer.body.ownCode, ¬m.Writes x := by
    have hforms : ∀ m ∈ rememberer.body.ownCode,
        m.form? ≠ some .bind ∧ m.form? ≠ some .importModule := by decide +kernel
    rintro x - m hm (⟨hbind, -⟩ | ⟨himport, -⟩)
    · exact (hforms m hm).1 hbind
    · exact (hforms m hm).2 himport
  have hfit : rememberer.params.length = [Value.int 5].length := rfl
  obtain ⟨-, hparam, hother, hcode⟩ := closure_keeps_captured hmade hfit u 9
  obtain ⟨-, hread⟩ := hcode ["x"] hfree
  refine ⟨rfl, ?_, ?_⟩
  · have hlast : ∀ j, 0 < j → rememberer.params[j]? ≠ some "n" := by
      rintro (_ | j) hj
      · exact absurd hj (by decide)
      · nofun
    rw [hparam 0 "n" rfl hlast, hother "x" (by decide), hother "f" (by decide),
      hother "y" (by decide)]
    rfl
  · exact hread "x" (.int 1) rfl (by decide) (reading "x") (by decide) rfl w 0
      (.inl List.mem_cons_self) (by decide)

end Eval

/-! ## 2. Functions that know themselves -/

/-- Whenever the body of `h` starts, the name is bound to `f`. -/
def Closure.Recalls (h : Closure Value) (name : String) (f : Closure Value) : Prop :=
  ∀ globals args, (Eval.calleeEnv globals h args).find? name = some (.fn f)

/-- A closure recalls what it has captured. -/
theorem Closure.recalls_of_makeClosure {n : Node} {name? : Option String} {t t' : Activation σ}
    {f h : Closure Value} {name : String}
    (hmade : Eval.makeClosure n name? t = (.value (.fn h), t')) (hparam : name ∉ h.params)
    (hbound : t.env.find? name = some (.fn f)) : h.Recalls name f := by
  obtain ⟨hcaptured, -⟩ := Eval.of_makeClosure hmade
  intro globals args
  rw [Eval.find?_calleeEnv hparam, hcaptured, hbound, Option.some_or]

/-- The node is a `Let` of the name, which it binds to a function with these parameters and this
body. -/
structure Node.Defines (n : Node) (name params : String) (body : Node) : Prop where
  form : n.form? = some .bind
  name : n.ident? "name" = some name
  function : ∃ c, n.children = [c] ∧ c.isFn = true ∧ c.text? "params" = some params ∧
    c.children = [body] ∧ body.isBlock = true

namespace Eval

variable [Host σ]

/-- Where a `Let` of a function comes to a value, it binds the name to the closure that it makes. -/
theorem eval_defines {n body : Node} {name params : String} (hn : n.Defines name params body)
    {fuel : Nat} {t t' : Activation σ} {v : Value} (hlet : eval fuel n t = (.value v, t')) :
    ∃ (c : Node) (f : Closure Value) (u u' : Activation σ),
      makeClosure c (some name) u = (.value (.fn f), u') ∧ u.env = t.env ∧
        f.params = splitNames params ∧ f.body = body ∧ t'.env = t.env.insert name (.fn f) := by
  obtain ⟨c, hchild, hfn, hparams, hbody, hblock⟩ := hn.function
  cases fuel with
  | zero => cases hlet
  | succ fuel =>
    by_cases hdepth : t.session.depth < t.session.maxDepth
    swap
    · rw [eval_succ, evalWith_of_le (by omega)] at hlet
      cases hlet
    let start : Activation σ := (t.noteStep n).deepen
    let u : Activation σ := start.noteStep c
    let f : Closure Value := ⟨splitNames params, body, u.env.entries, some name, u.session.nextSerial⟩
    let u' : Activation σ :=
      { u with session := { u.session with nextSerial := u.session.nextSerial + 1 } }
    have hmade : makeClosure c (some name) u = (.value (.fn f), u') :=
      makeClosure_of_isBlock hparams hbody hblock (some name) u
    have hbound : bound (eval fuel) c name start = (.value (.fn f), u') := by
      unfold bound
      rw [if_pos hfn]
      show (makeClosure c (some name) >>= known c) u = _
      rw [bind_def, hmade]
      rfl
    have hstep : evalForm (eval fuel) fuel n start =
        (if t.session.readOnly.contains name then fault (.readOnlyBinding name n.id)
          else bound (eval fuel) c name >>= fun v => bindName name v >>= fun _ => pure .void :
            Eval σ Value) start := by
      unfold evalForm evalBind
      rw [hn.form, hn.name, hchild]
      rfl
    refine ⟨c, f, u, u', hmade, rfl, rfl, rfl, ?_⟩
    rw [eval_succ, evalWith_eq hdepth, bind_def] at hlet
    unfold nested between at hlet
    by_cases hread : t.session.readOnly.contains name = true
    · rw [hstep, if_pos hread] at hlet
      cases hlet
    · rw [hstep, if_neg hread, bind_def, hbound] at hlet
      cases hlet
      exact Activation.env_mapEnv u' _

/-- A named function calls itself. Where a `Let` of a function comes to a value, it binds the name to a
closure. If the name was not bound before, is no parameter and no capability, then the name is bound to
this closure whenever its body starts, and a call of the name in the code of the body calls this very
closure, as long as the code has not bound the name itself. So it does in a function that is made there
meanwhile and has no parameter of the name, since this finds the name bound to the closure, too. -/
theorem named_closure_calls_itself {l body : Node} {name params : String}
    (hl : l.Defines name params body) {fuel : Nat} {t t' : Activation σ} {v : Value}
    (hlet : eval fuel l t = (.value v, t')) (hnew : t.env.find? name = none)
    (hparam : name ∉ splitNames params) (hplain : Contract.lookup? name = none) :
    ∃ f : Closure Value, t'.env.find? name = some (.fn f) ∧ f.params = splitNames params ∧
      f.body = body ∧ f.Recalls name f ∧
      ∀ h : Closure Value, h.Recalls name f →
        ∀ (u : Activation σ) (args : List Value) (fuel : Nat) (fixed : List String),
          (∀ x ∈ fixed, ∀ m ∈ h.body.ownCode, ¬m.Writes x) →
            let start := calleeEnv u.session.globals h args
            (∃ names, callClosure (evalScope (Activation.putBack start fixed) fuel) h args
                (u.annotated []) =
              Prod.map id (·.annotated names) (callClosure (eval fuel) h args u)) ∧
            ∀ w : Activation (Annotated (List String) σ), name ∈ fixed ∨ name ∉ w.notes →
              (∀ (m : Node) (k : Nat), m.form? = some .call → m.ident? "target" = some name →
                w.session.depth < w.session.maxDepth →
                  evalScope (Activation.putBack start fixed) (k + 1) m w =
                    (nested (operands (evalScope (Activation.putBack start fixed) k) m.children >>=
                      callClosure (eval k) f) >>= known m) ((w.noteStep m).putBack start fixed)) ∧
              ∀ (n : Node) (name? : Option String) (h' : Closure Value)
                (w' w'' : Activation (Annotated (List String) σ)),
                w'.env = (w.putBack start fixed).env →
                  makeClosure n name? w' = (.value (.fn h'), w'') → name ∉ h'.params →
                    h'.Recalls name f := by
  obtain ⟨c, f, s, s', hmade, henv, hparams, hbody, hbound⟩ := eval_defines hl hlet
  have hrecalls : f.Recalls name f := by
    obtain ⟨hcaptured, hname⟩ := of_makeClosure hmade
    intro globals args
    rw [find?_calleeEnv (hparams ▸ hparam), hcaptured, henv, hnew, Option.none_or, if_pos hname]
  refine ⟨f, hbound ▸ Dict.find?_insert_self _ _ _, hparams, hbody, hrecalls, ?_⟩
  -- `h` is `f` itself, or a function made in such a call, at whatever remove
  intro h hh u args fuel fixed hfree start
  have hstart : start.find? name = some (.fn f) := hh u.session.globals args
  refine ⟨callClosure_evalScope fuel hfree args u, fun w hunbound => ⟨?_, ?_⟩⟩
  · intro m k hform htarget hdepth
    exact evalScope_call k hform htarget hplain hstart hunbound hdepth
  · -- a function made there captures the name, and with it `f`
    intro n name? h' w' w'' hw hmade' hparam'
    refine Closure.recalls_of_makeClosure hmade' hparam' ?_
    rw [hw]
    exact Activation.find?_putBack hstart hunbound

end Eval

theorem defines_defining (name : String) (statements : List Node) :
    (defining name statements).Defines name "n" (blockOf statements) where
  form := by
    show Form.ofKind? "Let" = some .bind
    decide
  name := rfl
  function := ⟨_, rfl, rfl, rfl, rfl, rfl⟩

/-- A `Call` with one number as its argument. -/
def calling (target : String) (n : Int32) : Node where
  kind := "Call"
  id := "c"
  attrs := attrs [("target", .identifier target)]
  children := [{ kind := "Lit", id := "a", attrs := attrs [("value", .int n)] }]

def saying (text : String) : Node where
  kind := "Lit"
  id := "t"
  attrs := attrs [("value", .string text)]

/-- The body of a function that yields "base" for 0, and else does `first` and calls the name with 0. -/
def orCalling (name : String) (first : List Node) : Node :=
  let zero : Node := { kind := "Lit", id := "z", attrs := attrs [("value", .int 0)] }
  { kind := "If", id := "i"
    children :=
      [{ kind := "Eq", id := "e", children := [reading "n", zero] },
        blockOf [saying "base"], blockOf (first ++ [calling name 0])] }

namespace Eval

theorem named_closure_calls_itself_base :
    let l := defining "f" [orCalling "f" []]
    let t' := (eval 9 l ⟨Session.fresh "", []⟩).2
    ∃ f, t'.env.find? "f" = some (.fn f) ∧ f.Recalls "f" f ∧
      let start := calleeEnv t'.session.globals f [.int 1]
      let w := (t'.annotated ([] : List String)).enterCall "f" start
      evalScope (Activation.putBack start []) 9 (calling "f" 0) w =
        (nested (operands (evalScope (Activation.putBack start []) 8) (calling "f" 0).children >>=
          callClosure (eval 8) f) >>= known (calling "f" 0))
          ((w.noteStep (calling "f" 0)).putBack start []) := by
  intro l t'
  have hl : l.Defines "f" "n" (blockOf [orCalling "f" []]) := defines_defining "f" _
  have hlet : eval 9 l ⟨Session.fresh "", []⟩ = (.value .void, t') := Prod.ext rfl rfl
  obtain ⟨f, hbound, -, -, hrecalls, hcalls⟩ :=
    named_closure_calls_itself hl hlet rfl (by decide) (by decide)
  refine ⟨f, hbound, hrecalls, ?_⟩
  intro start w
  obtain ⟨-, hcode⟩ := hcalls f hrecalls t' [.int 1] 9 [] nofun
  exact (hcode w (.inr List.not_mem_nil)).1 (calling "f" 0) 8 (by decide) (by decide)
    (show 0 < 4096 by decide)

end Eval

/-- A program that takes the function under another name and calls it with a number. -/
def applying (name : String) (statements : List Node) (n : Int32) : Node where
  kind := "Program"
  id := "p"
  children := statements ++
    [{ kind := "Let", id := "k", attrs := attrs [("name", .identifier "h")]
       children := [reading name] }, calling "h" n]

/-- What the program comes to, as a text. -/
def shownValue (s : Session LocalHost) (root : Node) : Option String :=
  (s.evaluate 30 root).1.toOption.map Value.render

/-- Behind the statements `before`, the name is bound to a function that yields "base" for 0 and else
does `first` and calls the name with 0. No parameter has the name and there is no `Let` in the body. But
for 1 the function yields `other`. -/
structure CallsAnother (s : Session LocalHost) (name : String) (before first : List Node)
    (other : String) : Prop where
  defines : (defining name [orCalling name first]).Defines name "n" (blockOf [orCalling name first])
  unbound : ∀ m ∈ (blockOf [orCalling name first]).ownCode, m.form? ≠ some .bind
  unshadowed : name ∉ splitNames "n"
  zero : shownValue s (applying name (before ++ [defining name [orCalling name first]]) 0) =
    some "\"base\""
  one : shownValue s (applying name (before ++ [defining name [orCalling name first]]) 1) = some other
  another : other ≠ "\"base\""

/-- A session with a module on the disk that exports a function. -/
def moduleOnDisk : Session LocalHost :=
  let exported : Node :=
    { kind := "Export", id := "e", attrs := attrs [("name", .identifier "f")]
      children := (defining "f" [saying "imported"]).children }
  let program : Node := { kind := "Program", id := "m", children := [exported] }
  .withFiles [("/m.aos", program.format)]

/-- A named function calls another function or none by its name where the name was bound when the
function was made, where it is that of a capability, and where its body imports the name. -/
theorem not_named_closure_calls_itself :
    CallsAnother (Session.fresh "") "f" [defining "f" [saying "old"]] [] "\"old\"" ∧
      CallsAnother (Session.fresh "") "math.add" [] [] "unknown" ∧
      CallsAnother moduleOnDisk "m.f" []
        [{ kind := "Import", id := "j", attrs := attrs [("path", .string "m.aos")] }]
        "\"imported\"" := by
  refine ⟨⟨defines_defining "f" _, ?_, ?_, ?_, ?_, ?_⟩,
    ⟨defines_defining "math.add" _, ?_, ?_, ?_, ?_, ?_⟩,
    ⟨defines_defining "m.f" _, ?_, ?_, ?_, ?_, ?_⟩⟩ <;>
    decide +kernel

end Arbor
