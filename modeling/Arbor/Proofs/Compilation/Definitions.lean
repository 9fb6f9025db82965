import Arbor.Proofs.Compilation.Programs
import Arbor.Proofs.Evaluation.Frames
import Mathlib.Data.List.Nodup

/-!
# Evaluating the definitions

The definitions of a program bind closures, each of which captures the closures of the definitions
before it. Evaluating them changes nothing else, unless the session allows no evaluation as deep
(`sequence_definitions`).
-/

namespace Arbor.Compiler

open Eval

variable {σ : Type}

theorem definition?_eq_some {n fn : Node} {name : String} (h : definition? n = some (name, fn)) :
    n.form? = some .bind ∧ n.children = [fn] ∧ fn.isFn = true ∧ n.ident? "name" = some name := by
  unfold definition? at h
  split at h
  · next hform =>
    split at h
    · next child hchildren =>
      split at h
      · next hfn =>
        obtain ⟨name', hname, heq⟩ := Option.map_eq_some_iff.mp h
        cases heq
        exact ⟨hform, hchildren, hfn, hname⟩
      · cases h
    · cases h
  · cases h

theorem mem_definitions {root : Node} {d : String × Node} (hd : d ∈ definitions root) :
    ∃ n ∈ root.children, definition? n = some d := List.mem_filterMap.mp hd

theorem mem_statements {root n : Node}
    (hn : n ∈ root.children.filter fun n => (definition? n).isNone) :
    n ∈ root.children ∧ definition? n = none :=
  (List.mem_filter.mp hn).imp_right Option.isNone_iff_eq_none.mp

theorem mem_walk_of_definition {root : Node} {d : String × Node} (hd : d ∈ definitions root)
    {m : Node} (hm : m ∈ d.2.walk) : m ∈ root.walk := by
  obtain ⟨n, hn, hdefinition⟩ := mem_definitions hd
  obtain ⟨-, hchildren, -⟩ := definition?_eq_some hdefinition
  have hchild : d.2 ∈ n.children := by
    rw [hchildren]
    exact List.mem_cons_self
  exact Node.mem_walk_of_mem_children hn (Node.mem_walk_of_mem_children hchild hm)

/-- Where the definitions come first, they are one part of the program, and the other statements are the
other one. -/
theorem split_definitions {root : Node}
    (h : ∃ defs statements, root.children = defs ++ statements ∧
      (∀ n ∈ defs, (definition? n).isSome) ∧ ∀ n ∈ statements, definition? n = none) :
    ∃ defs rest, root.children = defs ++ rest ∧
      defs.filterMap definition? = definitions root ∧
      root.children.filter (fun n => (definition? n).isNone) = rest ∧
      ∀ n ∈ defs, ∃ d, definition? n = some d ∧ d ∈ definitions root := by
  obtain ⟨defs, rest, hchildren, hdefs, hrest⟩ := h
  have hnone : rest.filterMap definition? = [] := List.filterMap_eq_nil_iff.mpr hrest
  have hds : definitions root = defs.filterMap definition? := by
    unfold definitions
    rw [hchildren, List.filterMap_append, hnone, List.append_nil]
  have hsome : ∀ n ∈ defs, ∃ d, definition? n = some d ∧ d ∈ definitions root := by
    intro n hn
    obtain ⟨d, hd⟩ := Option.isSome_iff_exists.mp (hdefs n hn)
    exact ⟨d, hd, hds ▸ List.mem_filterMap.mpr ⟨n, hn, hd⟩⟩
  have hfilter : root.children.filter (fun n => (definition? n).isNone) = rest := by
    rw [hchildren, List.filter_append, List.filter_eq_nil_iff.mpr, List.nil_append,
      List.filter_eq_self.mpr]
    · exact fun n hn => by rw [hrest n hn]; rfl
    · intro n hn
      obtain ⟨d, hd, -⟩ := hsome n hn
      simp [hd]
  exact ⟨defs, rest, hchildren, hds.symm, hfilter, hsome⟩

/-- The closure is that of the definition. -/
structure Made (d : String × Node) (f : Closure Value) : Prop where
  params : ∃ text, d.2.text? "params" = some text ∧ f.params = Text.splitNames text
  body : d.2.children = [f.body]
  named : f.name? = some d.1

/-- The definitions so far have bound these closures, and nothing else is bound. -/
structure Defined (ds : List (String × Node)) (closures : List (String × Closure Value))
    (t : Activation σ) : Prop where
  frames : t.frames = []
  names : closures.map Prod.fst = ds.map Prod.fst
  bound : ∀ name f, (name, f) ∈ closures → t.session.globals.find? name = some (.fn f)
  only : ∀ e ∈ t.session.globals.entries, ∃ f, e.2 = .fn f ∧ (e.1, f) ∈ closures
  captured : ∀ name f, (name, f) ∈ closures → ∀ e ∈ f.captured,
    ∃ g, e.2 = .fn g ∧ (e.1, g) ∈ closures
  made : ∀ name f, (name, f) ∈ closures → ∃ fn, (name, fn) ∈ ds ∧ Made (name, fn) f

/-- One more definition, under a new name. -/
theorem Defined.snoc {ds : List (String × Node)} {closures : List (String × Closure Value)}
    {t u : Activation σ} (h : Defined ds closures t) {d : String × Node} {f : Closure Value}
    (hnew : d.1 ∉ ds.map Prod.fst) (hmade : Made d f)
    (hcaptured : f.captured = t.session.globals.entries) (hframes : u.frames = [])
    (hglobals : u.session.globals = t.session.globals.insert d.1 (.fn f)) :
    Defined (ds ++ [d]) (closures ++ [(d.1, f)]) u where
  frames := hframes
  names := by rw [List.map_append, List.map_append, h.names]; rfl
  bound := by
    intro name g hg
    rw [hglobals]
    rcases List.mem_append.mp hg with hg | hg
    · have hne : name ≠ d.1 := by
        rintro rfl
        exact hnew (h.names ▸ List.mem_map_of_mem (f := Prod.fst) hg)
      rw [Dict.find?_insert_of_ne _ hne]
      exact h.bound name g hg
    -- the new name is bound last
    · cases List.mem_singleton.mp hg
      exact Dict.find?_insert_self _ _ _
  only := by
    intro e he
    rw [hglobals] at he
    rcases Dict.mem_insertEntry he with rfl | he
    · exact ⟨f, rfl, List.mem_append_right _ List.mem_cons_self⟩
    · obtain ⟨g, hvalue, hg⟩ := h.only e he
      exact ⟨g, hvalue, List.mem_append_left _ hg⟩
  captured := by
    intro name g hg e he
    have hmem : ∃ g', e.2 = .fn g' ∧ (e.1, g') ∈ closures := by
      rcases List.mem_append.mp hg with hg | hg
      · exact h.captured name g hg e he
      · cases List.mem_singleton.mp hg
        -- the new closure captures what was bound before it, itself not included
        rw [hcaptured] at he
        exact h.only e he
    obtain ⟨g', hvalue, hg'⟩ := hmem
    exact ⟨g', hvalue, List.mem_append_left _ hg'⟩
  made := by
    intro name g hg
    rcases List.mem_append.mp hg with hg | hg
    · obtain ⟨fn, hfn, hmade'⟩ := h.made name g hg
      exact ⟨fn, List.mem_append_left _ hfn, hmade'⟩
    · cases List.mem_singleton.mp hg
      exact ⟨d.2, List.mem_append_right _ List.mem_cons_self, hmade⟩

/-- The definition has parameters and a block, so that it makes a closure. -/
def Definable (d : String × Node) : Prop :=
  ∃ text body, d.2.text? "params" = some text ∧ d.2.children = [body] ∧ body.isBlock = true

/-- The value that the definition binds where these bindings and this serial number are the next ones: a
closure, unless its parameters are no text. -/
def definedValue (d : String × Node) (env : Env) (serial : Nat) : Value :=
  match d.2.text? "params", d.2.children with
  | some params, [body] => .fn ⟨Text.splitNames params, body, env.entries, some d.1, serial⟩
  | _, _ => .unknown

/-- The next serial number behind the definition. -/
def serialBehind (d : String × Node) (serial : Nat) : Nat :=
  if (d.2.text? "params").isSome then serial + 1 else serial

variable [Host σ]

omit [Host σ] in
theorem makeClosure_definition {d : String × Node} {body : Node} (hbody : d.2.children = [body])
    (hblock : body.isBlock = true) (t : Activation σ) :
    makeClosure d.2 (some d.1) t =
      (.value (definedValue d t.env t.session.nextSerial),
        { t with session := { t.session with nextSerial := serialBehind d t.session.nextSerial } }) := by
  unfold makeClosure definedValue serialBehind
  rw [hbody]
  cases d.2.text? "params" with
  | none => rfl
  | some params =>
    dsimp only
    rw [if_pos hblock]
    rfl

/-- Evaluating a definition binds its name, unless an unknown value is a fault. -/
theorem evalWith_definition (self : Node → Eval σ Value) (steps : Nat) {n : Node} {d : String × Node}
    (hn : definition? n = some d) {body : Node} (hbody : d.2.children = [body])
    (hblock : body.isBlock = true) {t : Activation σ} (hframes : t.frames = [])
    (hreadOnly : t.session.readOnly = []) (hdepth : t.session.depth < t.session.maxDepth)
    (hstrict : t.session.strict = true → (d.2.text? "params").isSome = true) :
    ∃ u, evalWith self steps n t = (.value .void, u) ∧ u.frames = [] ∧
      u.session.globals =
        t.session.globals.insert d.1 (definedValue d t.session.globals t.session.nextSerial) ∧
      u.session.nextSerial = serialBehind d t.session.nextSerial ∧ t.session.Agree u.session := by
  obtain ⟨hform, hchildren, hfn, hname⟩ := definition?_eq_some hn
  obtain ⟨s, frames⟩ := t
  obtain rfl : frames = [] := hframes
  have hstep : evalForm self steps n =
      (getSession >>= fun s => if s.readOnly.contains d.1 then fault (.readOnlyBinding d.1 n.id)
        else bound self d.2 d.1 >>= fun v => bindName d.1 v >>= fun _ => pure .void) := by
    unfold evalForm
    rw [hform]
    dsimp only
    unfold evalBind
    rw [hname, hchildren]
  let v := definedValue d s.globals s.nextSerial
  let start : Activation σ := ((⟨s, []⟩ : Activation σ).noteStep n).deepen
  let u : Activation σ := start.noteStep d.2
  let u' : Activation σ :=
    { u with session := { u.session with nextSerial := serialBehind d s.nextSerial } }
  have hknown : known d.2 v u' = (.value v, u') := by
    unfold known
    rw [if_neg]
    -- in a strict session the definition makes a closure
    intro hfault
    obtain ⟨hunknown, hstrict'⟩ := (Bool.and_eq_true _ _).mp hfault
    obtain ⟨params, hparams⟩ := Option.isSome_iff_exists.mp (hstrict hstrict')
    unfold v definedValue at hunknown
    rw [hparams, hbody] at hunknown
    cases hunknown
  have hbound : bound self d.2 d.1 start = (.value v, u') := by
    unfold bound
    rw [if_pos hfn]
    show (makeClosure d.2 (some d.1) >>= known d.2) u = _
    rw [bind_def, makeClosure_definition hbody hblock]
    exact hknown
  let u'' : Activation σ := u'.mapEnv fun env => env.insert d.1 v
  have hrun : evalForm self steps n start = (.value .void, u'') := by
    rw [hstep]
    show (if s.readOnly.contains d.1 then fault (.readOnlyBinding d.1 n.id)
      else bound self d.2 d.1 >>= fun v => bindName d.1 v >>= fun _ => pure .void : Eval σ Value)
        start = _
    rw [show s.readOnly = [] from hreadOnly]
    show (bound self d.2 d.1 >>= fun v => bindName d.1 v >>= fun _ => pure .void : Eval σ Value)
      start = _
    rw [bind_def, hbound]
    rfl
  refine ⟨u''.surface, ?_, rfl, rfl, rfl, rfl, rfl, rfl⟩
  rw [evalWith_eq hdepth, bind_def]
  unfold nested between
  rw [hrun]
  rfl

/-- The value of a definition that makes a closure. -/
theorem made_of_definable {d : String × Node} (hd : Definable d) (env : Env) (serial : Nat) :
    ∃ f, definedValue d env serial = .fn f ∧ Made d f ∧ f.captured = env.entries := by
  obtain ⟨text, body, htext, hbody, -⟩ := hd
  refine ⟨⟨Text.splitNames text, body, env.entries, some d.1, serial⟩, ?_,
    ⟨⟨text, htext, rfl⟩, hbody, rfl⟩, rfl⟩
  unfold definedValue
  rw [htext, hbody]

/-- Evaluating the definitions in front of other statements: either the session does not allow an
evaluation as deep, or all of them are bound when the other statements are evaluated. -/
theorem sequence_definitions (fuel : Nat) {defs : List Node} (rest : List Node)
    {ds : List (String × Node)} {closures : List (String × Closure Value)} {t : Activation σ}
    (ht : Defined ds closures t)
    (hdefs : ∀ n ∈ defs, ∃ d, definition? n = some d ∧ Definable d)
    (hdistinct : ((ds ++ defs.filterMap definition?).map Prod.fst).Nodup)
    (hstrict : t.session.strict = false) (hreadOnly : t.session.readOnly = [])
    (hdepth : t.session.depth ≤ t.session.maxDepth)
    (hfuel : t.session.maxDepth < fuel + t.session.depth) :
    (∃ limit id u, sequence (eval fuel) .void (defs ++ rest) t =
      (.halted (.fault (.depthExceeded limit id)), u)) ∨
    ∃ closures' u, Defined (ds ++ defs.filterMap definition?) closures' u ∧
      sequence (eval fuel) .void (defs ++ rest) t = sequence (eval fuel) .void rest u ∧
      t.session.Agree u.session ∧ Restores t u := by
  induction defs generalizing ds closures t with
  | nil =>
    refine .inr ⟨closures, t, ?_, rfl, .refl _, .refl t⟩
    rw [List.filterMap_nil, List.append_nil]
    exact ht
  | cons n defs ih =>
    obtain ⟨d, hn, hd⟩ := hdefs n List.mem_cons_self
    rw [List.filterMap_cons_some hn, List.append_cons] at hdistinct ⊢
    obtain ⟨steps, rfl⟩ : ∃ k, fuel = k + 1 := ⟨fuel - 1, by omega⟩
    have hkeeps (m : Node) : Keeps Restores (eval steps m : Eval σ Value) :=
      invariant_restores.eval steps m
    by_cases hdeep : t.session.maxDepth ≤ t.session.depth
    -- each definition is evaluated one level down, so the first one meets the limit
    · exact .inl ⟨_, _, t, sequence_of_le hdeep steps .void n (defs ++ rest)⟩
    · rw [Nat.not_le] at hdeep
      obtain ⟨f, hvalue, hmade, hcaptured⟩ :=
        made_of_definable hd t.session.globals t.session.nextSerial
      obtain ⟨text, body, htext, hbody, hblock⟩ := hd
      obtain ⟨u, hrun, hframes, hglobals, -, hagree⟩ :=
        evalWith_definition (eval steps) steps hn hbody hblock ht.frames hreadOnly
          hdeep fun _ => Option.isSome_of_eq_some htext
      rw [hvalue] at hglobals
      have hrestores : Restores t u := (invariant_restores.evalWith hkeeps steps n t).of_eq hrun
      -- names are distinct, so this one is not bound yet
      have hnew : d.1 ∉ ds.map Prod.fst := by
        rw [List.map_append, List.map_append] at hdistinct
        have hdisjoint := List.disjoint_of_nodup_append (List.Nodup.of_append_left hdistinct)
        exact fun hmem => hdisjoint hmem List.mem_cons_self
      have hu := ht.snoc hnew hmade hcaptured hframes hglobals
      rw [List.cons_append, Eval.sequence, bind_def, eval_succ, hrun]
      obtain hdeeper | ⟨closures', u', hu', hseq, hagree', hrestores'⟩ :=
        ih hu (fun m hm => hdefs m (List.mem_cons_of_mem n hm)) hdistinct
          (hrestores.strict.trans hstrict) (hrestores.readOnly.trans hreadOnly)
          (by rw [hrestores.depth, hrestores.maxDepth]; exact hdepth)
          (by rw [hrestores.depth, hrestores.maxDepth]; exact hfuel)
      · exact .inl hdeeper
      · exact .inr ⟨closures', u', hu', hseq, hagree.trans hagree', hrestores.trans hrestores'⟩

end Arbor.Compiler
