import Arbor.Proofs.Compilation.FreeNames

/-!
# Twin values

In two runs that evaluate the same definitions at different points, closures of one definition can have
captured different bindings. They are twins when this makes no difference to their bodies: what a body
takes from outside is either captured by both, and then twins again, or by neither and settled, which
means the same outside of all frames.
-/

namespace Arbor

/-- The names that the body takes from outside. -/
def Closure.outside (f : Closure Value) : List String := f.body.free.filter (· ∉ f.params)

/-- The values are the same but for what closures have captured, which makes no difference to a body
that `runs` when the names that are `settled` mean the same outside of all frames. -/
inductive Twins (settled : String → Prop) (runs : Node → Prop) : Value → Value → Prop
  | same {v : Value} : v.kind ≠ .function → Twins settled runs v v
  | closure {f : Closure Value} {captured : List (String × Value)} : runs f.body →
    (∀ x ∈ f.outside, ((Dict.ofList f.captured).find? x).isSome =
      ((Dict.ofList captured).find? x).isSome) →
    (∀ x ∈ f.outside, (Dict.ofList f.captured).find? x = none → settled x) →
    (∀ x ∈ f.outside, ∀ v w, (Dict.ofList f.captured).find? x = some v →
      (Dict.ofList captured).find? x = some w → Twins settled runs v w) →
    Twins settled runs (.fn f) (.fn { f with captured })

/-- The name is bound to twins in both environments, or in neither and is settled. -/
def Visible (settled : String → Prop) (runs : Node → Prop) (d e : Env) (x : String) : Prop :=
  Option.Rel (Twins settled runs) (d.find? x) (e.find? x) ∧ (d.find? x = none → settled x)

variable {settled settled' : String → Prop} {runs : Node → Prop} {v w : Value}

namespace Twins

theorem unknown : Twins settled runs .unknown .unknown := .same (by decide)

theorem void : Twins settled runs .void .void := .same (by decide)

theorem uncaptured (h : Twins settled runs v w) : v.uncaptured = w.uncaptured := by
  cases h <;> rfl

theorem isUnknown (h : Twins settled runs v w) : v.isUnknown = w.isUnknown := by cases h <;> rfl

theorem isErr (h : Twins settled runs v w) : v.isErr = w.isErr := by cases h <;> rfl

theorem map_uncaptured {vs ws : List Value} (h : List.Forall₂ (Twins settled runs) vs ws) :
    vs.map Value.uncaptured = ws.map Value.uncaptured := by
  rw [← List.forall₂_eq_eq_eq, List.forall₂_map_left_iff, List.forall₂_map_right_iff]
  exact h.imp fun _ _ => uncaptured

/-- Twins stay twins when more names are settled. -/
theorem mono (hle : ∀ x, settled x → settled' x) (h : Twins settled runs v w) :
    Twins settled' runs v w := by
  induction h with
  | same hkind => exact .same hkind
  | closure hruns hdomain hsettled _ ih =>
    exact .closure hruns hdomain (fun x hx hnone => hle x (hsettled x hx hnone)) ih

theorem mono_rel (hle : ∀ x, settled x → settled' x) {o o' : Option Value}
    (h : Option.Rel (Twins settled runs) o o') : Option.Rel (Twins settled' runs) o o' := by
  cases h with
  | none => exact .none
  | some htwins => exact .some (htwins.mono hle)

/-- What twins have captured of the names that their body takes from outside are twins. -/
theorem captured {f g : Closure Value} (h : Twins settled runs (.fn f) (.fn g)) {x : String}
    (hx : x ∈ f.outside) :
    Option.Rel (Twins settled runs) ((Dict.ofList f.captured).find? x)
      ((Dict.ofList g.captured).find? x) := by
  cases h with
  | same hkind => exact absurd rfl hkind
  | @closure _ captured _ hdomain _ hcaptured =>
    have hsome := hdomain x hx
    have htwins := hcaptured x hx
    dsimp only
    generalize (Dict.ofList f.captured).find? x = o at hsome htwins ⊢
    generalize (Dict.ofList captured).find? x = o' at hsome htwins ⊢
    cases o <;> cases o' <;> simp at hsome
    · exact .none
    · exact .some (htwins _ _ rfl rfl)

theorem settled_of_captured {f g : Closure Value} (h : Twins settled runs (.fn f) (.fn g))
    {x : String} (hx : x ∈ f.outside) (hnone : (Dict.ofList f.captured).find? x = none) :
    settled x := by
  cases h with
  | same hkind => exact absurd rfl hkind
  | closure _ _ hsettled _ => exact hsettled x hx hnone

theorem body {f g : Closure Value} (h : Twins settled runs (.fn f) (.fn g)) :
    runs f.body ∧ g.params = f.params ∧ g.body = f.body ∧ g.name? = f.name? := by
  cases h with
  | same hkind => exact absurd rfl hkind
  | closure hruns _ _ _ => exact ⟨hruns, rfl, rfl, rfl⟩

/-- The bodies of twins start in environments in which all that is free in them is visible. -/
theorem visible_calleeEnv {f g : Closure Value} (h : Twins settled runs (.fn f) (.fn g))
    {args args' : List Value} (hargs : List.Forall₂ (Twins settled runs) args args')
    (hlength : f.params.length = args.length) {globals globals' : Env}
    (hglobals : ∀ x, settled x →
      Option.Rel (Twins settled runs) (globals.find? x) (globals'.find? x))
    {x : String} (hx : x ∈ f.body.free) :
    Visible settled runs (Eval.calleeEnv globals f args) (Eval.calleeEnv globals' g args') x := by
  obtain ⟨-, hparams, -, hname⟩ := h.body
  unfold Visible Eval.calleeEnv
  rw [hparams, hname]
  simp only [Dict.find?_insertAll_or _ (f.params.zip args),
    Dict.find?_insertAll_or _ (f.params.zip args'), Dict.find?_insertAll_or _ f.captured,
    Dict.find?_insertAll_or _ g.captured]
  by_cases hparam : x ∈ f.params
  -- an argument hides all else
  · have harg := Dict.rel_ofList_zip f.params hargs x
    have hsome := Dict.isSome_find?_ofList_zip hlength hparam
    generalize (Dict.ofList (f.params.zip args)).find? x = o at harg hsome ⊢
    generalize (Dict.ofList (f.params.zip args')).find? x = o' at harg ⊢
    cases harg with
    | none => cases hsome
    | some htwins => exact ⟨.some htwins, nofun⟩
  · have houtside : x ∈ f.outside := List.mem_filter.mpr ⟨hx, by simpa using hparam⟩
    have hcaptured := h.captured houtside
    have hsettled := h.settled_of_captured houtside
    rw [Dict.find?_ofList_zip_of_notMem args hparam, Dict.find?_ofList_zip_of_notMem args' hparam,
      Option.none_or, Option.none_or]
    generalize (Dict.ofList f.captured).find? x = o at hcaptured hsettled ⊢
    generalize (Dict.ofList g.captured).find? x = o' at hcaptured ⊢
    cases hcaptured with
    | some htwins => exact ⟨.some htwins, nofun⟩
    -- what is not captured is the closure itself, or is settled
    | none =>
      refine ⟨?_, fun _ => hsettled rfl⟩
      rw [Option.none_or, Option.none_or]
      have hglobal := hglobals x (hsettled rfl)
      cases f.name? with
      | none => exact hglobal
      | some name =>
        dsimp only
        by_cases hself : x = name
        · rw [hself, Dict.find?_insert_self, Dict.find?_insert_self]
          exact .some h
        · rw [Dict.find?_insert_of_ne _ hself, Dict.find?_insert_of_ne _ hself]
          exact hglobal

end Twins

namespace Visible

variable {d e : Env} {x : String}

/-- Binding a name to twins hides no name, and makes this one visible. -/
theorem insert {name : String} (hvw : Twins settled runs v w)
    (h : x ≠ name → Visible settled runs d e x) :
    Visible settled runs (d.insert name v) (e.insert name w) x := by
  unfold Visible at h ⊢
  by_cases hname : x = name
  · rw [hname, Dict.find?_insert_self, Dict.find?_insert_self]
    exact ⟨.some hvw, nofun⟩
  · rw [Dict.find?_insert_of_ne _ hname, Dict.find?_insert_of_ne _ hname]
    exact h hname

/-- Looking a name up, one without a binding being unknown. -/
theorem lookup (h : Visible settled runs d e x) :
    Twins settled runs ((d.find? x).getD .unknown) ((e.find? x).getD .unknown) := by
  obtain ⟨hrel, -⟩ := h
  generalize d.find? x = o at hrel ⊢
  generalize e.find? x = o' at hrel ⊢
  cases hrel with
  | none => exact .unknown
  | some htwins => exact htwins

end Visible

end Arbor
