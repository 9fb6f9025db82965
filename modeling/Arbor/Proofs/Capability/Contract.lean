import Arbor.Capability.Table
import Arbor.Value
import Mathlib.Data.List.Forall2

/-!
# When arguments fit a contract

The check of a contract finds nothing exactly when the kinds are as many as the contract asks for and
each fits its place. Values that are known then have exactly the kinds that the contract names.
`Allowed` is a call of the host that passes all checks.
-/

namespace Arbor

namespace ValueKind

theorem fits_iff {actual expected : ValueKind} :
    actual.fits expected = true ↔ actual = expected ∨ actual = unknown := by
  simp [fits]

end ValueKind

namespace Value

theorem kind_eq_unknown_iff {v : Value} : v.kind = .unknown ↔ v.isUnknown = true := by
  cases v <;> simp [kind, isUnknown]

theorem str_of_kind {v : Value} (h : v.kind = .string) : ∃ s, v = .str s := by
  cases v <;> cases h
  exact ⟨_, rfl⟩

theorem int_of_kind {v : Value} (h : v.kind = .int) : ∃ i, v = .int i := by
  cases v <;> cases h
  exact ⟨_, rfl⟩

theorem bool_of_kind {v : Value} (h : v.kind = .bool) : ∃ b, v = .bool b := by
  cases v <;> cases h
  exact ⟨_, rfl⟩

theorem node_of_kind {v : Value} (h : v.kind = .node) : ∃ n, v = .node n := by
  cases v <;> cases h
  exact ⟨_, rfl⟩

theorem isUnknown_of_kind {v : Value} {k : ValueKind} (h : v.kind = k) (hk : k ≠ .unknown) :
    v.isUnknown = false :=
  Bool.eq_false_iff.mpr fun hunknown => hk (h.symm.trans (kind_eq_unknown_iff.mpr hunknown))

end Value

namespace Contract

theorem mismatches_eq_nil_iff {c : Contract} {position : Nat} {specs : List ArgSpec}
    {kinds : List ValueKind} (hlength : kinds.length = specs.length) :
    c.mismatches position specs kinds = [] ↔
      List.Forall₂ (fun kind spec => kind.fits spec.kind = true) kinds specs := by
  induction specs generalizing position kinds with
  | nil =>
    obtain rfl := List.length_eq_zero_iff.mp hlength
    simp [mismatches]
  | cons spec specs ih =>
    obtain _ | ⟨kind, kinds⟩ := kinds
    · simp at hlength
    · have hrest : kinds.length = specs.length := by simpa using hlength
      rw [List.forall₂_cons, mismatches]
      by_cases hfits : kind.fits spec.kind = true
      · simp only [hfits, ↓reduceIte, true_and]
        exact ih hrest
      · simp [hfits]

theorem check_eq_nil_iff {c : Contract} {kinds : List ValueKind} :
    c.check kinds = [] ↔
      List.Forall₂ (fun kind spec => kind.fits spec.kind = true) kinds c.args := by
  unfold check
  split
  · next hlength =>
    simp only [List.cons_ne_self, false_iff]
    exact fun hfits => hlength hfits.length_eq
  · next hlength =>
    exact mismatches_eq_nil_iff (by simpa [arity] using hlength)

/-- Known values that fit have the very kinds that the contract asks for. -/
theorem kinds_eq_of_check {c : Contract} {args : List Value}
    (hknown : ∀ v ∈ args, v.isUnknown = false) (hcheck : c.check (args.map Value.kind) = []) :
    args.map Value.kind = c.args.map ArgSpec.kind := by
  rw [check_eq_nil_iff, List.forall₂_map_left_iff] at hcheck
  generalize c.args = specs at hcheck ⊢
  induction hcheck with
  | nil => rfl
  | @cons v spec args specs hfits _ ih =>
    have hv : v.isUnknown = false := hknown v List.mem_cons_self
    have hkind : v.kind ≠ .unknown := by
      rw [Ne, Value.kind_eq_unknown_iff, hv]
      exact Bool.false_ne_true
    rw [List.map_cons, List.map_cons, ih fun w hw => hknown w (List.mem_cons_of_mem v hw),
      (ValueKind.fits_iff.mp hfits).resolve_right hkind]

/-- Values that pass the checks before a call have the kinds that the contract asks for. -/
theorem kinds_eq_of_fit {c : Contract} {args : List Value}
    (hfit : ¬(args.any Value.isUnknown || !(c.check (args.map Value.kind)).isEmpty) = true) :
    (∀ v ∈ args, v.isUnknown = false) ∧ args.map Value.kind = c.args.map ArgSpec.kind := by
  simp only [Bool.or_eq_true, Bool.not_eq_true', not_or, Bool.not_eq_false, List.isEmpty_iff] at hfit
  have hknown : ∀ v ∈ args, v.isUnknown = false := by simpa using hfit.1
  exact ⟨hknown, kinds_eq_of_check hknown hfit.2⟩

theorem mem_table_of_lookup? {target : String} {c : Contract} (h : lookup? target = some c) :
    c ∈ table ∧ c.target = target := by
  unfold lookup? at h
  exact ⟨List.mem_of_find?_eq_some h, by simpa using List.find?_some h⟩

/-- The target of a capability is a name under a namespace without a dot. -/
theorem count_dot_target : ∀ c ∈ table, c.target.toList.count '.' = 1 := by
  decide +kernel

/-- No capability takes a function. -/
theorem arg_kind_ne_function : ∀ c ∈ table, ∀ spec ∈ c.args, spec.kind ≠ .function := by
  decide

theorem kind_ne_function_of_fit {c : Contract} {target : String} {args : List Value}
    (hlookup : lookup? target = some c) (hkinds : args.map Value.kind = c.args.map ArgSpec.kind) :
    ∀ v ∈ args, v.kind ≠ .function := by
  intro v hv
  have hmem : v.kind ∈ c.args.map ArgSpec.kind := by
    rw [← hkinds]
    exact List.mem_map_of_mem hv
  obtain ⟨spec, hspec, heq⟩ := List.mem_map.mp hmem
  rw [← heq]
  exact arg_kind_ne_function c (mem_table_of_lookup? hlookup).1 spec hspec

end Contract

/-- A call of the host that the capability table allows: the target has a contract that the host
serves, its permission is held, and the arguments have exactly the kinds that the contract asks
for. -/
structure Allowed (permissions : List String) (target : String) (args : List Value) : Prop where
  contract : ∃ c, Contract.lookup? target = some c ∧ c.isMeta = false ∧ c.permission ∈ permissions ∧
    args.map Value.kind = c.args.map ArgSpec.kind
  known : ∀ v ∈ args, v.isUnknown = false

end Arbor
