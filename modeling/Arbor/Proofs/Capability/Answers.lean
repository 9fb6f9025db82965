import Arbor.Evaluation.Evaluator
import Arbor.Proofs.Capability.Actions
import Arbor.Proofs.Capability.Contract
import Arbor.Proofs.Evaluation.Imports

/-!
# What capability calls come to

A capability call answers with a value of the kind that its contract names, or with an unknown one:
`Eval.callCapability_fits`. For the capabilities that the host serves this is a fact about the action
behind each target, and for those that evaluation serves about each of their answers.
-/

namespace Arbor

/-- Can a value be taken for one of the kind? Nothing can be said about an unknown value or kind, and
an error node stands in for any value. -/
def Value.Fits (v : Value) (k : ValueKind) : Prop :=
  v.kind = k ∨ v.kind = .unknown ∨ k = .unknown ∨ v.isErr = true

namespace Value.Fits

theorem of_kind {v : Value} {k : ValueKind} (h : v.kind = k) : v.Fits k := .inl h

theorem unknown (k : ValueKind) : Value.unknown.Fits k := .inr (.inl rfl)

theorem any (v : Value) : v.Fits .unknown := .inr (.inr (.inl rfl))

theorem of_isErr {v : Value} (h : v.isErr = true) (k : ValueKind) : v.Fits k := .inr (.inr (.inr h))

end Value.Fits

/-! ## 1. The host -/

/-- Every value that the action can come to has the kind. -/
def Action.Yields (k : ValueKind) : Action → Prop
  | .value v => v.kind = k
  | .call c f => ∀ reply : c.Reply, (f reply).kind = k
  | .replayed => k = .node

namespace Dispatch

/-- The action, if there is one, yields values of the kind only. -/
def Gives (k : ValueKind) (r : Except HostError Action) : Prop := ∀ a, r = .ok a → a.Yields k

theorem Gives.pure {k : ValueKind} {a : Action} (h : a.Yields k) : Gives k (Pure.pure a) :=
  Only.pure h

theorem Gives.error {k : ValueKind} (e : HostError) : Gives k (.error e) := Only.error e

theorem Gives.bind {k : ValueKind} {α : Type} {r : Except HostError α}
    {f : α → Except HostError Action} (h : ∀ x, Gives k (f x)) : Gives k (r >>= f) :=
  Only.bind h

/-- All drawing commands give nothing back, but three targets of the same group are no commands. -/
theorem drawCommand_returns : ∀ c ∈ Contract.table, drawCommand? c.target ≠ none →
    c.returns = .void ∨
      c.target ∈ ["sys.ui_createWindow", "sys.ui_pollEvent", "sys.ui_getWindowSize"] := by
  decide +kernel

/-- The action behind a target yields what the contract of the target names. -/
theorem gives_action {target : String} {c : Contract} (hlookup : Contract.lookup? target = some c)
    (replaying : Bool) (args : List Value) : Gives c.returns (action replaying target args) := by
  obtain ⟨hmem, htarget⟩ := Contract.mem_table_of_lookup? hlookup
  have hreturns := congrArg (Option.map Contract.returns) hlookup
  have hdraw := drawCommand_returns c hmem
  rw [htarget] at hdraw
  rw [Option.map_some] at hreturns
  generalize c.returns = k at hreturns hdraw ⊢
  unfold action
  dsimp only
  -- each target that is named has its contract in the table; then come polling, which may be
  -- replayed, and the drawing commands
  split
  all_goals try
    cases hreturns
    repeat' refine Gives.bind fun _ => ?_
    first
    | exact .pure rfl
    | exact .pure fun _ => rfl
  · cases hreturns
    split
    · exact .pure rfl
    · exact .bind fun _ => .pure fun _ => rfl
  · split
    · next command hcommand =>
      obtain rfl : k = .void := by
        refine (hdraw (by rw [hcommand]; exact Option.some_ne_none _)).resolve_right fun h => ?_
        simp only [List.mem_cons, List.not_mem_nil, or_false] at h
        obtain h | h | h := h
        · exact ‹target = "sys.ui_createWindow" → False› h
        · exact ‹target = "sys.ui_pollEvent" → False› h
        · exact ‹target = "sys.ui_getWindowSize" → False› h
      exact .bind fun _ => .pure fun _ => rfl
    · exact .error _

/-- What a host gives back has the kind that the contract names. -/
theorem kind_of_given {σ : Type} [Host σ] {target : String} {c : Contract}
    (hlookup : Contract.lookup? target = some c) {host : σ} {replay? : Option Replay}
    {args : List Value} {v : Value} (h : (invoke host replay? target args).answer = .given v) :
    v.kind = c.returns := by
  have hgives := gives_action hlookup replay?.isSome args
  unfold invoke at h
  generalize action replay?.isSome target args = r at h hgives
  cases r with
  | error e => cases h
  | ok a =>
    have hyields := hgives a rfl
    cases a with
    | value w =>
      cases h
      exact hyields
    | replayed =>
      rw [show c.returns = .node from hyields]
      cases replay? <;> cases h <;> rfl
    | call call f =>
      dsimp only at h
      split at h
      · cases h
        exact hyields _
      · cases h
      · cases h

end Dispatch

/-! ## 2. Evaluation -/

namespace Eval

variable {σ α β : Type}

/-- A sequence of steps that yields a value has yielded one before. -/
theorem value_of_bind {step : Eval σ α} {f : α → Eval σ β} {t : Activation σ} {b : β}
    (h : ((step >>= f) t).1 = .value b) :
    ∃ a, (step t).1 = .value a ∧ (f a (step t).2).1 = .value b := by
  rw [bind_def] at h
  generalize step t = x at h ⊢
  obtain ⟨o, u⟩ := x
  cases o with
  | value a => exact ⟨a, rfl, h⟩
  | returned v => cases h
  | halted e => cases h

theorem fits_parsedValue (text : String) : (parsedValue text).Fits .node := by
  unfold parsedValue
  dsimp only
  split
  · exact .of_kind rfl
  · exact .of_kind rfl
  · exact .unknown _

variable [Host σ]

omit [Host σ] in
theorem serveMeta_fits {target : String} {c : Contract} (hlookup : Contract.lookup? target = some c)
    {self : Node → Eval σ Value} {call : String → List Value → Eval σ Value} {steps : Nat}
    {args : List Value} {t : Activation σ} {v : Value}
    (h : (serveMeta self call steps target args t).1 = .value v) : v.Fits c.returns := by
  have hreturns := congrArg (Option.map Contract.returns) hlookup
  rw [Option.map_some] at hreturns
  generalize c.returns = k at hreturns
  unfold serveMeta at h
  split at h
  · cases hreturns
    cases h
    exact fits_parsedValue _
  · cases hreturns
    cases h
    exact .of_kind rfl
  · cases hreturns
    obtain ⟨s, -, h⟩ := value_of_bind h
    cases h
    exact .of_kind rfl
  · cases hreturns
    cases h
    exact .of_kind rfl
  -- what a program comes to when it is run may be anything
  · cases hreturns
    exact .any v
  · cases hreturns
    exact .any v
  · cases h
    exact .unknown k

theorem serveHost_kind {target : String} {c : Contract}
    (hlookup : Contract.lookup? target = some c) {args : List Value} {t : Activation σ} {v : Value}
    (h : (serveHost target args t).1 = .value v) : v.kind = c.returns := by
  unfold serveHost at h
  dsimp only at h
  split at h
  · next w hgiven =>
    cases h
    exact Dispatch.kind_of_given hlookup hgiven
  · cases h
  · cases h

theorem callChecked_fits {target : String} {c : Contract}
    (hlookup : Contract.lookup? target = some c) {serve : String → List Value → Eval σ Value}
    (hserve : ∀ {args t v}, (serve target args t).1 = .value v → v.Fits c.returns)
    {args : List Value} {t : Activation σ} {v : Value}
    (h : (callChecked serve target args t).1 = .value v) : v.Fits c.returns := by
  unfold callChecked at h
  rw [hlookup] at h
  obtain ⟨s, -, h⟩ := value_of_bind h
  split at h
  · obtain ⟨-, -, h⟩ := value_of_bind h
    cases h
    exact .unknown _
  split at h
  · obtain ⟨-, -, h⟩ := value_of_bind h
    cases h
    exact .unknown _
  split at h
  · obtain ⟨w, hw, h⟩ := value_of_bind h
    obtain ⟨-, -, h⟩ := value_of_bind h
    cases h
    exact hserve hw
  · exact .of_kind (serveHost_kind hlookup h)

/-- A capability call comes to a value of the kind that the contract names. -/
theorem callCapability_fits {target : String} {c : Contract}
    (hlookup : Contract.lookup? target = some c) {self : Node → Eval σ Value} {steps nesting : Nat}
    {args : List Value} {t : Activation σ} {v : Value}
    (h : (callCapability self steps nesting target args t).1 = .value v) : v.Fits c.returns := by
  cases nesting with
  | zero => exact callChecked_fits hlookup (fun hhalt => by cases hhalt) h
  | succ nesting => exact callChecked_fits hlookup (serveMeta_fits hlookup) h

/-! ## 3. Imports and operators -/

omit [Host σ] in
/-- Only an error node settles an import as an error. -/
theorem isErr_of_settleModule {path : String} {ran : Outcome Value × Exports} {t : Activation σ}
    {e : Node} (h : (settleModule path ran t).1 = .value (.error e)) : e.isErr = true := by
  obtain ⟨o, exports⟩ := ran
  cases o with
  | value v =>
    cases v with
    | node n =>
      unfold settleModule at h
      dsimp only at h
      split at h
      · next herr =>
        cases h
        exact herr
      · cases h
    | _ => cases h
  | returned v => cases h
  | halted e => cases h

/-- What keeps a module from being loaded is an error node. -/
theorem isErr_of_importModule {self : Node → Eval σ Value} {path importId : String}
    {t : Activation σ} {e : Node}
    (h : (importModule self path importId t).1 = .value (.error e)) : e.isErr = true := by
  rw [importModule_eq] at h
  generalize t.session.modules.standing path = standing at h
  cases standing with
  | loaded exports => cases h
  | underWay => cases h
  | fresh =>
    unfold importAs at h
    obtain ⟨reply, -, h⟩ := value_of_bind h
    cases reply with
    | error refusal =>
      cases h
      rfl
    | ok text =>
      dsimp only at h
      generalize moduleProgram path text = program at h
      cases program with
      | error refusal =>
        cases h
        rfl
      | ok program =>
        obtain ⟨ran, -, h⟩ := value_of_bind h
        exact isErr_of_settleModule h

end Eval

theorem Operator.ofAttr_fits {n : Node} {index : Int32} {f : String → AttrValue → Option Value}
    {k : ValueKind} (hf : ∀ key value v, f key value = some v → v.kind = k) :
    (ofAttr n index f).Fits k := by
  unfold ofAttr
  cases hfound : (n.attrAt? index).bind fun attr => f attr.1 attr.2 with
  | none => exact .unknown k
  | some v =>
    obtain ⟨a, -, hv⟩ := Option.bind_eq_some_iff.mp hfound
    exact .of_kind (hf _ _ v hv)

/-- An operator comes to a value of the kind that the flow pass computes for it. -/
theorem Operator.apply_fits (op : Operator) (args : List Value) :
    (op.apply args).Fits (Flow.resultKind op) := by
  unfold Operator.apply
  split
  · unfold equal
    split
    · exact .unknown _
    · exact .of_kind rfl
  all_goals try exact .of_kind rfl
  · exact ofAttr_fits fun _ _ _ h => by cases h; rfl
  · exact ofAttr_fits fun _ _ _ h => by cases h; rfl
  · exact ofAttr_fits fun _ value _ h => by cases value <;> cases h <;> rfl
  · exact ofAttr_fits fun _ value _ h => by (cases value <;> cases h); rfl
  · exact ofAttr_fits fun _ value _ h => by (cases value <;> cases h); rfl
  · next n i =>
    cases n.childAt? i with
    | none => exact .unknown _
    | some child => exact .of_kind rfl
  · exact .unknown _

end Arbor
