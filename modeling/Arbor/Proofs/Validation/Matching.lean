import Arbor.Evaluation.Evaluator
import Arbor.Proofs.Capability.Answers
import Arbor.Proofs.Dict
import Arbor.Proofs.Validation.Typing

/-!
# Bindings that match a scope

The bindings of a frame match what the flow pass has in scope when each name that both know has a
value of the kind in scope. The pass may know names that the frame does not, such as functions that are
bound later on, and the frame names that the pass does not, such as what an import bound. For these,
and for all names that a run may bind at another time than the pass, the kinds in view decide.

Main facts: what every step of a scope does to a match (`Matches.insert`, `Matches.drift`,
`Matches.back`), and that the body of a closure starts with bindings that match its scope
(`Proper.callee`).
-/

namespace Arbor

/-! ## 1. Scopes and bindings -/

/-- A name that has one kind in view is bound to a value of that kind, if at all. -/
def View.Covers (V : View) (env : Env) : Prop :=
  ∀ ⦃x k v⦄, V.Steady x k → env.find? x = some v → v.Fits k

namespace Flow

open Text

variable {root : Node} {permissions : List String} {V : View} {Γ Γ' : TypeEnv} {env : Env}

/-- The bindings of a frame match the scope, whose view holds what is in view in the program. -/
structure Matches (root : Node) (permissions : List String) (V : View) (Γ : TypeEnv) (env : Env) :
    Prop where
  program : ∀ ⦃x k⦄, (programView root permissions).Binds x k → V.Binds x k
  within : ∀ ⦃x k⦄, Γ.find? x = some k → V.Binds x k
  holds : ∀ ⦃x k v⦄, Γ.find? x = some k → env.find? x = some v → v.Fits k
  missing : ∀ ⦃x k⦄, Γ.find? x = some k → env.find? x = none →
    (programView root permissions).Steady x k
  covers : V.Covers env

namespace Matches

theorem steady_program (h : Matches root permissions V Γ env) {x : String} {k : ValueKind}
    (hsteady : V.Steady x k) : (programView root permissions).Steady x k :=
  fun k' hk' => hsteady k' (h.program hk')

/-- A scope that has drifted is matched as well. -/
theorem drift (h : Matches root permissions V Γ env) (hdrift : Drift V Γ Γ') :
    Matches root permissions V Γ' env where
  program := h.program
  covers := h.covers
  within x k hx := by
    obtain heq | ⟨k', hx', hk', -⟩ := hdrift x
    · exact h.within (heq ▸ hx)
    · obtain rfl := Option.some.inj (hx.symm.trans hx')
      exact hk'
  holds x k v hx hv := by
    obtain heq | ⟨k', hx', hk', hsettled⟩ := hdrift x
    · exact h.holds (heq ▸ hx) hv
    · obtain rfl := Option.some.inj (hx.symm.trans hx')
      exact h.covers (hsettled.steady hk') hv
  missing x k hx hnone := by
    obtain heq | ⟨k', hx', hk', hsettled⟩ := hdrift x
    · exact h.missing (heq ▸ hx) hnone
    · obtain rfl := Option.some.inj (hx.symm.trans hx')
      exact h.steady_program (hsettled.steady hk')

/-- A scope is matched if the one that it drifts to is: what has changed is settled. -/
theorem back {env' : Env} (h : Matches root permissions V Γ env) (hdrift : Drift V Γ Γ')
    (h' : Matches root permissions V Γ' env') : Matches root permissions V Γ env' := by
  -- all that binds a settled name binds it with one kind, also what was in scope before
  have hkept ⦃x : String⦄ ⦃k : ValueKind⦄ (hx : Γ.find? x = some k) : Γ'.find? x = some k := by
    obtain heq | ⟨k', hx', hk', hsettled⟩ := hdrift x
    · exact heq.trans hx
    · obtain rfl := hsettled.steady hk' k (h.within hx)
      exact hx'
  exact ⟨h.program, h.within, fun _ _ _ hx => h'.holds (hkept hx), fun _ _ hx => h'.missing (hkept hx),
    h'.covers⟩

theorem insert (h : Matches root permissions V Γ env) {x : String} {k : ValueKind} (hk : V.Binds x k)
    {v : Value} (hv : v.Fits k) : Matches root permissions V (Γ.insert x k) (env.insert x v) where
  program := h.program
  within y k' hy := by
    by_cases hne : y = x
    · subst hne
      rw [Dict.find?_insert_self] at hy
      exact Option.some.inj hy ▸ hk
    · rw [Dict.find?_insert_of_ne _ hne] at hy
      exact h.within hy
  holds y k' w hy hw := by
    by_cases hne : y = x
    · subst hne
      rw [Dict.find?_insert_self] at hy hw
      exact Option.some.inj hy ▸ Option.some.inj hw ▸ hv
    · rw [Dict.find?_insert_of_ne _ hne] at hy hw
      exact h.holds hy hw
  missing y k' hy hnone := by
    by_cases hne : y = x
    · subst hne
      rw [Dict.find?_insert_self] at hnone
      cases hnone
    · rw [Dict.find?_insert_of_ne _ hne] at hy hnone
      exact h.missing hy hnone
  covers y k' w hsteady hw := by
    by_cases hne : y = x
    · subst hne
      rw [Dict.find?_insert_self] at hw
      exact hsteady k hk ▸ Option.some.inj hw ▸ hv
    · rw [Dict.find?_insert_of_ne _ hne] at hw
      exact h.covers hsteady hw

/-- Names whose kinds cannot be known may be bound to anything. -/
theorem insertAll (h : Matches root permissions V Γ env) {pairs : List (String × Value)}
    (hpairs : ∀ e ∈ pairs, V.Binds e.1 .unknown ∧ V.Settled e.1) :
    Matches root permissions V Γ (env.insertAll pairs) where
  program := h.program
  within := h.within
  holds x k v hx hv := by
    obtain ⟨-, hfind⟩ | ⟨w, hmem, -⟩ := env.find?_insertAll_cases pairs x
    · exact h.holds hx (hfind ▸ hv)
    · obtain ⟨hunknown, hsettled⟩ := hpairs _ hmem
      obtain rfl := hsettled.steady hunknown k (h.within hx)
      exact .any v
  missing x k hx hnone := by
    obtain ⟨-, hfind⟩ | ⟨w, -, hfind⟩ := env.find?_insertAll_cases pairs x
    · exact h.missing hx (hfind ▸ hnone)
    · rw [hfind] at hnone
      cases hnone
  covers x k v hsteady hv := by
    obtain ⟨-, hfind⟩ | ⟨w, hmem, -⟩ := env.find?_insertAll_cases pairs x
    · exact h.covers hsteady (hfind ▸ hv)
    · obtain rfl := hsteady .unknown (hpairs _ hmem).1
      exact .any v

end Matches

/-- At the start of a program only its functions are in scope, and nothing is bound. -/
theorem matches_start (hfunctions : ∀ x ∈ root.walk.filterMap declaredFunction?,
      (programView root permissions).Settled x) :
    Matches root permissions (programView root permissions) (predeclare root ∅) ∅ := by
  have hfunction ⦃x : String⦄ ⦃k : ValueKind⦄ (hx : (predeclare root ∅).find? x = some k) :
      x ∈ root.walk.filterMap declaredFunction? ∧ k = .function := by
    unfold predeclare at hx
    obtain ⟨-, hfind⟩ | ⟨k', hmem, hfind⟩ := Dict.find?_insertAll_cases (∅ : TypeEnv)
      ((root.walk.filterMap declaredFunction?).map (·, ValueKind.function)) x
    · rw [hfind] at hx
      cases hx
    · obtain rfl := Option.some.inj (hx.symm.trans hfind)
      obtain ⟨y, hy, heq⟩ := List.mem_map.mp hmem
      cases heq
      exact ⟨hy, rfl⟩
  have hbound ⦃x : String⦄ ⦃k : ValueKind⦄ (hx : (predeclare root ∅).find? x = some k) :
      (programView root permissions).Binds x k := by
    obtain ⟨hmem, rfl⟩ := hfunction hx
    exact .inl (List.mem_append_left _ (List.mem_map_of_mem hmem))
  exact {
    program := fun _ _ hx => hx
    within := fun _ _ hx => hbound hx
    holds := fun _ _ _ _ hv => by cases hv
    missing := fun x _ hx _ => (hfunctions x (hfunction hx).1).steady (hbound hx)
    covers := fun _ _ _ _ hv => by cases hv }

/-! ## 2. Closures -/

theorem find?_paramScope (Γ : TypeEnv) (params : List String) (x : String) :
    x ∉ params ∧ (paramScope Γ params).find? x = Γ.find? x ∨
      x ∈ params ∧ (paramScope Γ params).find? x = some .unknown := by
  obtain ⟨hnot, hfind⟩ | ⟨k, hmem, hfind⟩ :=
    Γ.find?_insertAll_cases (params.map (·, ValueKind.unknown)) x
  · rw [List.map_map] at hnot
    refine .inl ⟨fun hx => hnot ?_, hfind⟩
    exact List.mem_map_of_mem (f := Prod.fst ∘ (·, ValueKind.unknown)) hx
  · obtain ⟨y, hy, heq⟩ := List.mem_map.mp hmem
    cases heq
    exact .inr ⟨hy, hfind⟩

/-- Parameters may be bound to anything. -/
theorem Matches.params (h : Matches root permissions V Γ env) {V' : View} {params : List String}
    {args : List Value} (hfit : params.length = args.length)
    (hview : ∀ ⦃x k⦄, V.Binds x k → V'.Binds x k) (hparams : ∀ x ∈ params, V'.Binds x .unknown) :
    Matches root permissions V' (paramScope Γ params) (env.insertAll (params.zip args)) where
  program _ _ hx := hview (h.program hx)
  within x k hx := by
    obtain ⟨-, hfind⟩ | ⟨hmem, hfind⟩ := find?_paramScope Γ params x
    · exact hview (h.within (hfind ▸ hx))
    · exact Option.some.inj (hx.symm.trans hfind) ▸ hparams x hmem
  holds x k v hx hv := by
    obtain ⟨hnot, hfind⟩ | ⟨-, hfind⟩ := find?_paramScope Γ params x
    · obtain ⟨-, hbound⟩ | ⟨w, hmem, -⟩ := env.find?_insertAll_cases (params.zip args) x
      · exact h.holds (hfind ▸ hx) (hbound ▸ hv)
      · exact absurd (List.of_mem_zip hmem).1 hnot
    · obtain rfl := Option.some.inj (hx.symm.trans hfind)
      exact .any v
  missing x k hx hnone := by
    obtain ⟨hnot, hbound⟩ | ⟨w, -, hbound⟩ := env.find?_insertAll_cases (params.zip args) x
    · rw [List.map_fst_zip (Nat.le_of_eq hfit)] at hnot
      obtain ⟨-, hfind⟩ | ⟨hmem, -⟩ := find?_paramScope Γ params x
      · exact h.missing (hfind ▸ hx) (hbound ▸ hnone)
      · exact absurd hmem hnot
    · rw [hbound] at hnone
      cases hnone
  covers x k v hsteady hv := by
    obtain ⟨-, hbound⟩ | ⟨w, hmem, -⟩ := env.find?_insertAll_cases (params.zip args) x
    · exact h.covers (fun k' hk' => hsteady k' (hview hk')) (hbound ▸ hv)
    · obtain rfl := hsteady .unknown (hparams x (List.of_mem_zip hmem).1)
      exact .any v

/-- What a closure captured matches its scope with the globals, and its own name, behind it. -/
theorem Matches.captured (h : Matches root permissions V Γ env) {name? : Option String}
    (hlearns : ∀ x, name? = some x → V.Learns x) {outer : Env}
    (houter : ∀ ⦃x v⦄, outer.find? x = some v → name? = some x ∧ v.kind = .function ∨
      ∀ k, (programView root permissions).Steady x k → v.Fits k) :
    Matches root permissions V Γ (outer.insertAll env.entries) where
  program := h.program
  within := h.within
  holds x k v hx hv := by
    rw [Dict.find?_insertAll_entries] at hv
    cases hfind : env.find? x with
    | some w =>
      rw [hfind, Option.some_or] at hv
      exact h.holds hx (hfind.trans hv)
    | none =>
      -- what was not captured is the closure itself or a global
      rw [hfind, Option.none_or] at hv
      obtain ⟨hname, hkind⟩ | hfits := houter hv
      · obtain ⟨hfunction, hsettled⟩ := hlearns x hname
        exact .of_kind (hkind.trans (hsettled.steady (h.within hx) .function hfunction))
      · exact hfits k (h.missing hx hfind)
  missing x k hx hnone := by
    rw [Dict.find?_insertAll_entries] at hnone
    exact h.missing hx (Option.or_eq_none_iff.mp hnone).1
  covers x k v hsteady hv := by
    rw [Dict.find?_insertAll_entries] at hv
    cases hfind : env.find? x with
    | some w =>
      rw [hfind, Option.some_or] at hv
      exact h.covers hsteady (hfind.trans hv)
    | none =>
      rw [hfind, Option.none_or] at hv
      obtain ⟨hname, hkind⟩ | hfits := houter hv
      · exact .of_kind (hkind.trans (hsteady .function (hlearns x hname).1))
      · exact hfits k (h.steady_program hsteady)

/-- A closure that a function of the program came to: it captured bindings that match the scope of the
function, and knows only a name that it may learn. -/
inductive Proper (root : Node) (permissions : List String) : Closure Value → Prop where
  | mk {V : View} {Γ Γ' : TypeEnv} {env : Env} {n body : Node} {params : String} {k : ValueKind}
      {name? : Option String} {serial : Nat} :
    Matches root permissions V Γ env → n.text? "params" = some params →
    Typed root permissions (bodyView root permissions V n body) true
      (paramScope Γ (splitNames ((n.text? "params").getD ""))) body k Γ' →
    (∀ x, name? = some x → V.Learns x) →
    Proper root permissions ⟨splitNames params, body, env.entries, name?, serial⟩

/-- The body of a proper closure starts with bindings that match its scope, if the globals do. -/
theorem Proper.callee {f : Closure Value} (hf : Proper root permissions f) {globals : Env}
    {args : List Value} (hglobals : (programView root permissions).Covers globals)
    (hfit : f.params.length = args.length) :
    ∃ V Γ k Γ', Typed root permissions V true Γ f.body k Γ' ∧
      Matches root permissions V Γ (Eval.calleeEnv globals f args) := by
  cases hf with
  | mk hmatches hparams htyped hlearns =>
    rw [hparams, Option.getD_some] at htyped
    refine ⟨_, _, _, _, htyped, ?_⟩
    refine Matches.params (hmatches.captured hlearns fun x v hv => ?_) hfit
      (fun _ _ hx => binds_bodyView _ _ hx) fun x hx => binds_param _ ?_
    · dsimp only at hv
      split at hv
      · next name =>
        by_cases hne : x = name
        · subst hne
          rw [Dict.find?_insert_self] at hv
          exact .inl ⟨rfl, Option.some.inj hv ▸ rfl⟩
        · rw [Dict.find?_insert_of_ne _ hne] at hv
          exact .inr fun k hsteady => hglobals hsteady hv
      · exact .inr fun k hsteady => hglobals hsteady hv
    · rw [hparams]
      exact hx

end Flow

end Arbor
