import Arbor.Proofs.Dict
import Arbor.Proofs.Form
import Arbor.Proofs.Validation.Tracking

/-!
# Validation that knows less

Two passes over one tree, the second of which knows less about the names that are bound before. As
long as the second one knows of every function that it is one, it reports nothing that the first one
does not report (`Flow.blurring_check`, by induction on the tree). Of a name whose kind is unknown no
call is accepted: that is the one report that knowing less can add (`Flow.validate_forget`).
-/

namespace Arbor

open Text

/-- What is said of a value is either kept or given up. Whether it may be given up that the value is a
function depends on `lossy`. -/
def ValueKind.Blurs (lossy : Prop) (k k' : ValueKind) : Prop :=
  k' = k ∨ k' = .unknown ∧ (k = .function → lossy)

namespace ValueKind.Blurs

variable {lossy : Prop} {k k' : ValueKind}

theorem refl (k : ValueKind) : k.Blurs lossy k := .inl rfl

/-- What fits still fits when less is known of it. -/
theorem fits (h : k.Blurs lossy k') {expected : ValueKind} (hfits : k.fits expected = true) :
    k'.fits expected = true := by
  obtain rfl | ⟨rfl, -⟩ := h
  · exact hfits
  · exact Bool.or_true _

end ValueKind.Blurs

namespace Flow

/-- Gives up the kinds of the chosen names. -/
def forget (chosen : String → Bool) (env : TypeEnv) : TypeEnv :=
  env.mapEntries fun x k => if chosen x then .unknown else k

/-- The name by which a call looks for a function: it has no namespace, and no capability has it. -/
def calledFunction? (n : Node) : Option String :=
  if n.form? = some .call then
    (n.text? "target").filter fun x =>
      !isBlankText x && (Contract.lookup? x).isNone && (namespace? x).isNone
  else none

/-- Is this the report that a call in the tree finds no function of the name it calls? -/
def missesFunction (root : Node) (d : Diagnostic) : Bool :=
  root.walk.any fun n => (calledFunction? n).any fun x => d = (Issue.unknownTarget x).report n

/-! ## 1. Checks of single nodes -/

variable {lossy : Prop}

/-- An issue that is found under a condition is found under no weaker one. -/
theorem sublist_unless {α : Type} {ok ok' : Bool} (issues : List α) (h : ok = true → ok' = true) :
    (if ok' then [] else issues).Sublist (if ok then [] else issues) := by
  cases ok with
  | true =>
    obtain rfl := h rfl
    exact List.Sublist.refl _
  | false =>
    cases ok' with
    | true => exact List.nil_sublist _
    | false => exact List.Sublist.refl _

section Kinds

variable {ks ks' : List ValueKind} (hks : List.Forall₂ (ValueKind.Blurs lossy) ks ks')
include hks

theorem operandFits_of_blurs {index : Nat} {expected : ValueKind}
    (h : operandFits ks index expected = true) : operandFits ks' index expected = true := by
  unfold operandFits at h ⊢
  induction hks generalizing index with
  | nil => rfl
  | cons hk _ ih =>
    cases index with
    | zero => exact hk.fits h
    | succ index => exact ih h

theorem mismatches_of_blurs (c : Contract) (position : Nat) (specs : List ArgSpec) :
    (c.mismatches position specs ks').Sublist (c.mismatches position specs ks) := by
  induction hks generalizing position specs with
  | nil => exact List.Sublist.refl _
  | @cons k k' ks ks' hk _ ih =>
    cases specs with
    | nil => exact List.Sublist.refl _
    | cons spec specs =>
      have hrest := ih (position + 1) specs
      unfold Contract.mismatches
      by_cases hfits : k.fits spec.kind = true
      · rw [if_pos hfits, if_pos (hk.fits hfits)]
        exact hrest
      · rw [if_neg hfits]
        split
        · exact hrest.cons _
        · exact hrest.cons_cons _

theorem check_of_blurs (c : Contract) : (c.check ks').Sublist (c.check ks) := by
  unfold Contract.check
  rw [← hks.length_eq]
  split
  · exact List.Sublist.refl _
  · exact mismatches_of_blurs hks c 1 c.args

theorem operandIssues_of_blurs (op : Operator) :
    (operandIssues op ks').Sublist (operandIssues op ks) := by
  have hfits {index : Nat} {expected : ValueKind} :
      operandFits ks index expected = true → operandFits ks' index expected = true :=
    operandFits_of_blurs hks
  have hall (indices : List Nat) (h : indices.all (operandFits ks · .string) = true) :
      indices.all (operandFits ks' · .string) = true :=
    List.all_eq_true.mpr fun i hi => hfits (List.all_eq_true.mp h i hi)
  cases op with
  | eq =>
    cases hks with
    | nil => exact List.Sublist.refl _
    | cons hleft hrest =>
      cases hrest with
      | nil => exact List.Sublist.refl _
      | cons hright hrest =>
        cases hrest with
        | cons _ _ => exact List.Sublist.refl _
        | nil =>
          -- operands of one kind stay so, and an unknown one is compared with anything
          refine sublist_unless _ fun h => ?_
          obtain rfl | ⟨rfl, -⟩ := hleft
          · obtain rfl | ⟨rfl, -⟩ := hright
            · exact h
            · simp
          · simp
  | add | strConcat | attrKey | attrValueKind | attrValueString | attrValueInt | attrValueBool
  | childAt => exact (sublist_unless _ hfits).append (sublist_unless _ hfits)
  | toText =>
    refine sublist_unless _ fun h => ?_
    rw [Bool.or_eq_true] at h ⊢
    exact h.imp hfits hfits
  | strEscape | nodeKind | nodeId | attrCount | childCount | makeBlock =>
    exact sublist_unless _ hfits
  | appendChild =>
    refine sublist_unless _ fun h => ?_
    rw [Bool.and_eq_true] at h ⊢
    exact h.imp hfits hfits
  | makeErr | makeLitString => exact sublist_unless _ (hall _)

theorem operatorIssues_of_blurs (op : Operator) :
    (operatorIssues op ks').Sublist (operatorIssues op ks) := by
  unfold operatorIssues
  rw [← hks.length_eq]
  split
  · exact operandIssues_of_blurs hks op
  · exact List.Sublist.refl _

theorem last_of_blurs {k k' : ValueKind} (hk : k.Blurs lossy k') :
    (ks.getLast?.getD k).Blurs lossy (ks'.getLast?.getD k') := by
  induction hks generalizing k k' with
  | nil => exact hk
  | cons hfirst _ ih =>
    rw [List.getLast?_cons, List.getLast?_cons]
    exact ih hfirst

end Kinds

/-- A call of which less is known has the same issues or fewer, unless its target was known to be a
function and is not any more. Its kind does not depend on what is known. -/
theorem callIssues_of_blurs (ctx : Context) {env env' : TypeEnv} {target : String}
    {args args' : List ValueKind}
    (henv : Option.Rel (ValueKind.Blurs lossy) (env.find? target) (env'.find? target))
    (hargs : List.Forall₂ (ValueKind.Blurs lossy) args args') :
    (callIssues ctx env' target args').2 = (callIssues ctx env target args).2 ∧
      ((callIssues ctx env' target args').1.Sublist (callIssues ctx env target args).1 ∨
        lossy ∧ (callIssues ctx env' target args').1 = [.unknownTarget target] ∧
          isBlankText target = false ∧
          Contract.lookup? target = none ∧ namespace? target = none) := by
  unfold callIssues
  cases hblank : isBlankText target with
  | true => exact ⟨rfl, .inl (List.Sublist.refl _)⟩
  | false =>
    cases hlookup : Contract.lookup? target with
    | some contract =>
      exact ⟨rfl, .inl ((List.Sublist.refl _).append ((check_of_blurs hargs contract).map _))⟩
    | none =>
      simp only [Bool.false_eq_true, if_false]
      cases hspace : namespace? target with
      | some ns => exact ⟨rfl, .inl (List.Sublist.refl _)⟩
      | none =>
        -- without a namespace, the target is none that is imported
        have himports : ctx.imports target = false := by
          unfold Context.imports
          rw [hspace]
        rw [himports]
        generalize env.find? target = known at henv
        generalize env'.find? target = known' at henv
        cases henv with
        | none => exact ⟨rfl, .inl (List.Sublist.refl _)⟩
        | @some k k' hk =>
          obtain rfl | ⟨rfl, hlossy⟩ := hk
          · exact ⟨rfl, .inl (List.Sublist.refl _)⟩
          · -- only what is known to be a function may be called
            by_cases hfunction : k = .function
            · subst hfunction
              exact ⟨rfl, .inr ⟨hlossy rfl, rfl, trivial, trivial, rfl⟩⟩
            · have hother : (some k == some ValueKind.function) = false := by simpa using hfunction
              rw [hother]
              exact ⟨rfl, .inl (List.Sublist.refl _)⟩

/-! ## 2. Two passes side by side -/

/-- What the second pass has, standing in the other state where the first one stands in this: it knows
of each name what the first one knows, or less, and has found nothing besides but what is excused. -/
structure Blurred (lossy : Prop) (excused : Diagnostic → Bool) (s s' : State) : Prop where
  env : ∀ x, Option.Rel (ValueKind.Blurs lossy) (s.env.find? x) (s'.env.find? x)
  seen : s'.seen = s.seen
  findings : (s'.findings.toList.filter (!excused ·)).Sublist s.findings.toList

/-- Side by side, the two steps come to related results, and the second pass keeps knowing less. -/
def Blurring {α β : Type} (lossy : Prop) (excused : Diagnostic → Bool) (r : α → β → Prop)
    (step : Check α) (step' : Check β) : Prop :=
  ∀ s s', Blurred lossy excused s s' →
    r (step s).1 (step' s').1 ∧ Blurred lossy excused (step s).2 (step' s').2

theorem reportAll_eq (n : Node) (is : List Issue) (s : State) :
    (reportAll n is s).2 = { s with findings := s.findings ++ (is.map (·.report n)).toArray } := by
  induction is generalizing s with
  | nil =>
    show s = { s with findings := s.findings ++ #[] }
    rw [Array.append_empty]
  | cons i is ih =>
    show (reportAll n is { s with findings := s.findings.push (i.report n) }).2 = _
    rw [ih]
    simp

/-- The kind that two arms agree on. -/
def join (thenKind elseKind : ValueKind) : ValueKind :=
  if thenKind = elseKind then thenKind else .unknown

theorem branchKind_eq (n : Node) (thenKind elseKind : ValueKind) :
    branchKind n thenKind elseKind = (do
      reportIf (decide (thenKind ≠ elseKind ∧ thenKind ≠ .unknown ∧ elseKind ≠ .unknown)) n
        .branchKinds
      pure (join thenKind elseKind)) := by
  unfold branchKind join
  by_cases heq : thenKind = elseKind
  · rw [if_pos heq, if_pos heq, decide_eq_false fun h => h.1 heq]
    rfl
  · rw [if_neg heq, if_neg heq]
    by_cases hunknown : thenKind = .unknown ∨ elseKind = .unknown
    · rw [if_pos (by simpa using hunknown), decide_eq_false fun h => hunknown.elim h.2.1 h.2.2]
      rfl
    · rw [if_neg (by simpa using hunknown), decide_eq_true ⟨heq, not_or.mp hunknown⟩]
      rfl

theorem join_of_blurs {thenKind thenKind' elseKind elseKind' : ValueKind}
    (hthen : thenKind.Blurs lossy thenKind') (helse : elseKind.Blurs lossy elseKind') :
    (join thenKind elseKind).Blurs lossy (join thenKind' elseKind') := by
  unfold join
  obtain rfl | ⟨rfl, hlossy⟩ := hthen
  · obtain rfl | ⟨rfl, hlossy⟩ := helse
    · exact .refl _
    · refine .inr ⟨ite_eq_right_iff.mpr id, fun hjoin => hlossy ?_⟩
      split at hjoin
      · next heq => exact heq ▸ hjoin
      · cases hjoin
  · refine .inr ⟨ite_self _, fun hjoin => hlossy ?_⟩
    split at hjoin
    · exact hjoin
    · cases hjoin

namespace Blurring

variable {α β γ δ : Type} {excused : Diagnostic → Bool} {r : α → β → Prop} {q : γ → δ → Prop}

theorem pure {a : α} {b : β} (h : r a b) :
    Blurring lossy excused r (Pure.pure a : Check α) (Pure.pure b) :=
  fun _ _ hs => ⟨h, hs⟩

theorem bind {step : Check α} {step' : Check β} {f : α → Check γ} {f' : β → Check δ}
    (hstep : Blurring lossy excused r step step')
    (hf : ∀ a b, r a b → Blurring lossy excused q (f a) (f' b)) :
    Blurring lossy excused q (step >>= f) (step' >>= f') := by
  intro s s' hs
  obtain ⟨hresult, hafter⟩ := hstep s s' hs
  exact hf _ _ hresult _ _ hafter

/-- A step that looks at the state, and goes on depending on what it sees there. -/
theorem get {f : State → Check α} {f' : State → Check β}
    (h : ∀ s s', Blurred lossy excused s s' → Blurring lossy excused r (f s) (f' s')) :
    Blurring lossy excused r (MonadState.get >>= f) (MonadState.get >>= f') :=
  fun s s' hs => h s s' hs s s' hs

theorem reportAll (n : Node) {is is' : List Issue}
    (h : ((is'.map (·.report n)).filter (!excused ·)).Sublist (is.map (·.report n))) :
    Blurring lossy excused Eq (Flow.reportAll n is) (Flow.reportAll n is') := by
  refine fun s s' hs => ⟨rfl, ?_⟩
  rw [reportAll_eq, reportAll_eq]
  refine ⟨hs.env, hs.seen, ?_⟩
  rw [Array.toList_append, Array.toList_append, List.filter_append]
  exact hs.findings.append h

/-- Fewer issues of a node make fewer findings, excused or not. -/
theorem reportAll_sublist (n : Node) {is is' : List Issue} (h : is'.Sublist is) :
    Blurring lossy excused Eq (Flow.reportAll n is) (Flow.reportAll n is') :=
  reportAll n (List.filter_sublist.trans (h.map _))

theorem reportIf {condition condition' : Bool} (n : Node) (i : Issue)
    (h : condition' = true → condition = true) :
    Blurring lossy excused Eq (Flow.reportIf condition n i) (Flow.reportIf condition' n i) := by
  have hsublist : (if condition' then [i] else []).Sublist (if condition then [i] else []) := by
    cases condition' with
    | true => rw [h rfl]
    | false => exact List.nil_sublist _
  -- a report under a condition is one of a single issue or of none
  have hone (c : Bool) : Flow.reportIf c n i = Flow.reportAll n (if c then [i] else []) := by
    cases c <;> rfl
  rw [hone, hone]
  exact reportAll_sublist n hsublist

theorem scope (f f' : TypeEnv → TypeEnv)
    (h : ∀ env env' : TypeEnv,
      (∀ x, Option.Rel (ValueKind.Blurs lossy) (env.find? x) (env'.find? x)) →
      ∀ x, Option.Rel (ValueKind.Blurs lossy) ((f env).find? x) ((f' env').find? x)) :
    Blurring lossy excused Eq (modify fun s : State => { s with env := f s.env })
      (modify fun s : State => { s with env := f' s.env }) :=
  fun _ _ hs => ⟨rfl, h _ _ hs.env, hs.seen, hs.findings⟩

theorem bindName (x : String) {k k' : ValueKind} (hk : k.Blurs lossy k') :
    Blurring lossy excused Eq (Flow.bind x k) (Flow.bind x k') := by
  refine scope (·.insert x k) (·.insert x k') fun env env' henv y => ?_
  by_cases hy : y = x
  · rw [hy, Dict.find?_insert_self, Dict.find?_insert_self]
    exact .some hk
  · rw [Dict.find?_insert_of_ne _ hy, Dict.find?_insert_of_ne _ hy]
    exact henv y

theorem declare (x : String) (child : Node) :
    Blurring lossy excused Eq (Flow.declare x child) (Flow.declare x child) := by
  unfold Flow.declare
  split
  · exact bindName x (.refl _)
  · exact pure rfl

theorem env_insertAll {env env' : TypeEnv} (pairs : List (String × ValueKind))
    (henv : ∀ x, Option.Rel (ValueKind.Blurs lossy) (env.find? x) (env'.find? x)) (x : String) :
    Option.Rel (ValueKind.Blurs lossy) ((env.insertAll pairs).find? x)
      ((env'.insertAll pairs).find? x) := by
  rw [Dict.find?_insertAll_or, Dict.find?_insertAll_or]
  cases (Dict.ofList pairs).find? x with
  | none => exact henv x
  | some k => exact .some (.refl k)

theorem bindParams (n : Node) :
    Blurring lossy excused Eq (Flow.bindParams n) (Flow.bindParams n) := by
  generalize hpairs : (splitNames ((n.text? "params").getD "")).map (·, ValueKind.unknown) = pairs
  unfold Flow.bindParams
  rw [hpairs]
  exact scope (·.insertAll pairs) (·.insertAll pairs) fun _ _ => env_insertAll pairs

theorem inCopy {step : Check α} {step' : Check β} (hstep : Blurring lossy excused r step step') :
    Blurring lossy excused r (Flow.inCopy step) (Flow.inCopy step') := by
  intro s s' hs
  obtain ⟨hresult, hafter⟩ := hstep s s' hs
  exact ⟨hresult, hs.env, hafter.seen, hafter.findings⟩

theorem branchKind (n : Node) {thenKind thenKind' elseKind elseKind' : ValueKind}
    (hthen : thenKind.Blurs lossy thenKind') (helse : elseKind.Blurs lossy elseKind') :
    Blurring lossy excused (ValueKind.Blurs lossy) (Flow.branchKind n thenKind elseKind)
      (Flow.branchKind n thenKind' elseKind') := by
  rw [branchKind_eq, branchKind_eq]
  refine bind (reportIf n .branchKinds fun h => ?_) fun _ _ _ => pure (join_of_blurs hthen helse)
  obtain ⟨hne, hthen', helse'⟩ := of_decide_eq_true h
  -- what is still known is what was known
  obtain rfl | ⟨rfl, -⟩ := hthen
  · obtain rfl | ⟨rfl, -⟩ := helse
    · exact h
    · exact absurd rfl helse'
  · exact absurd rfl hthen'

theorem varKind (ctx : Context) (n : Node) :
    Blurring lossy excused (ValueKind.Blurs lossy) (Flow.varKind ctx n) (Flow.varKind ctx n) := by
  unfold Flow.varKind
  split
  · exact pure (.refl _)
  · next x _ =>
    refine get fun s s' hs => ?_
    have hx := hs.env x
    generalize s.env.find? x = known at hx
    generalize s'.env.find? x = known' at hx
    cases hx with
    | some hk => exact pure hk
    | none => exact bind (reportIf n _ id) fun _ _ _ => pure (.refl _)

/-- Is the report excused that a call finds no function of its name? -/
def Excuses (lossy : Prop) (excused : Diagnostic → Bool) (n : Node) : Prop :=
  lossy → ∀ x, calledFunction? n = some x → excused ((Issue.unknownTarget x).report n) = true

theorem callKind (ctx : Context) {n : Node} (hform : n.form? = some .call)
    (hexcuses : Excuses lossy excused n) {args args' : List ValueKind}
    (hargs : List.Forall₂ (ValueKind.Blurs lossy) args args') :
    Blurring lossy excused (ValueKind.Blurs lossy) (Flow.callKind ctx n args)
      (Flow.callKind ctx n args') := by
  refine get fun s s' hs => ?_
  obtain ⟨hkind, hissues⟩ :=
    callIssues_of_blurs ctx (hs.env ((n.text? "target").getD "")) hargs
  dsimp only
  rw [hkind]
  refine bind (r := Eq) ?_ fun _ _ _ => pure (.refl _)
  obtain hless | ⟨hlossy, hone, hblank, hlookup, hspace⟩ := hissues
  · exact reportAll_sublist n hless
  · -- the report that is added is excused
    refine reportAll n ?_
    have hcalled : calledFunction? n = some ((n.text? "target").getD "") := by
      unfold calledFunction?
      rw [if_pos hform]
      cases htarget : n.text? "target" with
      | none =>
        rw [htarget] at hblank
        cases hblank
      | some target =>
        rw [htarget, Option.getD_some] at hblank hlookup hspace
        simp [hblank, hlookup, hspace]
    rw [hone]
    simp [hexcuses hlossy _ hcalled]

section Children

variable {children : List Child}
  (hchildren : ∀ c ∈ children, Blurring lossy excused (ValueKind.Blurs lossy) c.check c.check)
include hchildren

theorem checkAll :
    Blurring lossy excused (List.Forall₂ (ValueKind.Blurs lossy)) (Flow.checkAll children)
      (Flow.checkAll children) := by
  induction children with
  | nil => exact pure .nil
  | cons c cs ih =>
    obtain ⟨hc, hcs⟩ := List.forall_mem_cons.mp hchildren
    exact bind hc fun _ _ hk => bind (ih hcs) fun _ _ hks => pure (.cons hk hks)

theorem checkBind (n : Node) :
    Blurring lossy excused (ValueKind.Blurs lossy) (Flow.checkBind n children)
      (Flow.checkBind n children) := by
  unfold Flow.checkBind
  split
  · next child =>
    have hchild := hchildren child List.mem_cons_self
    split
    · next x _ =>
      exact bind (declare x _) fun _ _ _ => bind hchild fun _ _ hk =>
        bind (bindName x hk) fun _ _ _ => pure (.refl _)
    · exact bind hchild fun _ _ _ => pure (.refl _)
  · split
    · next x _ => exact bind (bindName x (.refl _)) fun _ _ _ => pure (.refl _)
    · exact pure (.refl _)

theorem checkFn (n : Node) :
    Blurring lossy excused (ValueKind.Blurs lossy) (Flow.checkFn n children)
      (Flow.checkFn n children) := by
  unfold Flow.checkFn
  split
  · next body =>
    have hbody := hchildren body List.mem_cons_self
    exact bind (reportIf n _ id) fun _ _ _ =>
      bind (inCopy (bind (bindParams n) fun _ _ _ => hbody)) fun _ _ _ => pure (.refl _)
  · exact pure (.refl _)

theorem checkBranch (n : Node) :
    Blurring lossy excused (ValueKind.Blurs lossy) (Flow.checkBranch n children)
      (Flow.checkBranch n children) := by
  -- a condition that fits still does when less is known of it
  have hcondition {k k' : ValueKind} (hk : k.Blurs lossy k') :
      Blurring lossy excused Eq (Flow.reportIf (!k.fits .bool) n .conditionKind)
        (Flow.reportIf (!k'.fits .bool) n .conditionKind) :=
    reportIf n _ fun h => by
      rw [Bool.not_eq_true'] at h ⊢
      exact Bool.eq_false_iff.mpr fun hfits => Bool.eq_false_iff.mp h (hk.fits hfits)
  unfold Flow.checkBranch
  split
  · exact pure (.refl _)
  · next condition =>
    exact bind (hchildren condition (by simp)) fun _ _ hk => bind (hcondition hk) fun _ _ _ =>
      pure (.refl _)
  · next condition thenArm =>
    have hthen := hchildren thenArm (by simp)
    exact bind (hchildren condition (by simp)) fun _ _ hk => bind (hcondition hk) fun _ _ _ =>
      bind (reportIf n _ id) fun _ _ _ => bind (inCopy hthen) fun _ _ _ => pure (.refl _)
  · next condition thenArm elseArm _ =>
    have hthen := hchildren thenArm (by simp)
    have helse := hchildren elseArm (by simp)
    exact bind (hchildren condition (by simp)) fun _ _ hk => bind (hcondition hk) fun _ _ _ =>
      bind (reportIf n _ id) fun _ _ _ => bind (reportIf n _ id) fun _ _ _ =>
      bind (inCopy hthen) fun _ _ hk => bind (inCopy helse) fun _ _ hk' => branchKind n hk hk'

theorem checkLeave :
    Blurring lossy excused (ValueKind.Blurs lossy) (Flow.checkLeave children)
      (Flow.checkLeave children) := by
  unfold Flow.checkLeave
  split
  · exact pure (.refl _)
  · next child _ => exact hchildren child List.mem_cons_self

theorem checkExport (n : Node) :
    Blurring lossy excused (ValueKind.Blurs lossy) (Flow.checkExport n children)
      (Flow.checkExport n children) := by
  unfold Flow.checkExport
  split
  · next child _ => exact bind (hchildren child List.mem_cons_self) fun _ _ _ => pure (.refl _)
  · split
    · next x _ =>
      refine get fun s s' hs => bind (reportIf n _ fun h => ?_) fun _ _ _ => pure (.refl _)
      have hx := hs.env x
      unfold Dict.contains at h ⊢
      generalize s.env.find? x = known at hx
      generalize s'.env.find? x = known' at hx h
      cases hx with
      | some _ => exact h
      | none => exact h
    · exact pure (.refl _)

theorem checkForm (ctx : Context) {n : Node} (hexcuses : Excuses lossy excused n) :
    Blurring lossy excused (ValueKind.Blurs lossy) (Flow.checkForm ctx n children)
      (Flow.checkForm ctx n children) := by
  unfold Flow.checkForm
  split
  · exact pure (.refl _)
  · exact bind (checkAll hchildren) fun _ _ _ => pure (.refl _)
  · exact bind (checkAll hchildren) fun _ _ hks => pure (last_of_blurs hks (.refl _))
  · exact checkBind hchildren n
  · exact varKind ctx n
  · exact pure (.refl _)
  · next hform => exact bind (checkAll hchildren) fun _ _ hks => callKind ctx hform hexcuses hks
  · exact checkFn hchildren n
  · exact checkBranch hchildren n
  · exact checkLeave hchildren
  · exact pure (.refl _)
  · exact checkExport hchildren n
  · next op _ =>
    exact bind (checkAll hchildren) fun _ _ hks =>
      bind (reportAll_sublist n (operatorIssues_of_blurs hks op)) fun _ _ _ => pure (.refl _)

end Children

theorem noteId (n : Node) : Blurring lossy excused Eq (Flow.noteId n) (Flow.noteId n) := by
  intro s s' hs
  refine ⟨rfl, ?_⟩
  rw [noteId_eq, noteId_eq, hs.seen]
  split
  · exact (reportAll_sublist n (List.Sublist.refl [.duplicateId n.id]) s s' hs).2
  · exact ⟨hs.env, rfl, hs.findings⟩

theorem visit (n : Node) {form : Check ValueKind}
    (hform : Blurring lossy excused (ValueKind.Blurs lossy) form form) :
    Blurring lossy excused (ValueKind.Blurs lossy) (Flow.visit n form) (Flow.visit n form) :=
  bind (noteId n) fun _ _ _ => bind (reportAll_sublist n (List.Sublist.refl _)) fun _ _ _ =>
    bind hform fun _ _ hk _ _ hs => ⟨hk, hs.env, hs.seen, hs.findings⟩

end Blurring

mutual

/-- Side by side on one tree, the second pass keeps knowing less. -/
theorem blurring_check {excused : Diagnostic → Bool} (ctx : Context) :
    ∀ n : Node, (∀ m ∈ n.walk, Blurring.Excuses lossy excused m) →
      Blurring lossy excused (ValueKind.Blurs lossy) (check ctx n) (check ctx n)
  | ⟨kind, id, attrs, children, span⟩, hexcuses => by
    rw [Node.walk] at hexcuses
    obtain ⟨hself, hbelow⟩ := List.forall_mem_cons.mp hexcuses
    exact Blurring.visit _ (Blurring.checkForm (blurring_checks ctx children hbelow) ctx hself)

theorem blurring_checks {excused : Diagnostic → Bool} (ctx : Context) :
    ∀ ns : List Node, (∀ m ∈ Node.walkList ns, Blurring.Excuses lossy excused m) →
      ∀ c ∈ checks ctx ns, Blurring lossy excused (ValueKind.Blurs lossy) c.check c.check
  | [], _ => fun _ hc => absurd hc List.not_mem_nil
  | n :: ns, hexcuses => by
    rw [Node.walkList] at hexcuses
    obtain ⟨hn, hns⟩ := List.forall_mem_append.mp hexcuses
    exact List.forall_mem_cons.mpr ⟨blurring_check ctx n hn, blurring_checks ctx ns hns⟩

end

/-! ## 3. Whole validations -/

theorem find?_forget (chosen : String → Bool) (env : TypeEnv) (x : String) :
    (forget chosen env).find? x =
      (env.find? x).map fun k => if chosen x then .unknown else k :=
  Dict.find?_mapEntries _ env x

/-- What two validations of a tree find, when the second one knows less. -/
theorem validate_of_blurs (excused : Diagnostic → Bool) (root : Node) {env env' : TypeEnv}
    (permissions : List String) (structural : Bool)
    (henv : ∀ x, Option.Rel (ValueKind.Blurs lossy) (env.find? x) (env'.find? x))
    (hexcuses : ∀ m ∈ root.walk, Blurring.Excuses lossy excused m) :
    ((validate root env' permissions structural).filter (!excused ·)).Sublist
      (validate root env permissions structural) := by
  unfold validate
  -- the structural pass does not look at the scope
  generalize (if structural then structuralReport root else []) = broken
  cases broken with
  | cons d ds => exact List.filter_sublist
  | nil =>
    have hstart : Blurred lossy excused ⟨predeclare root env, [], #[], []⟩
        ⟨predeclare root env', [], #[], []⟩ :=
      ⟨Blurring.env_insertAll _ henv, rfl, List.Sublist.refl _⟩
    exact (blurring_check _ root hexcuses _ _ hstart).2.findings

/-- A call of a name without arguments. -/
def soleCall (x : String) : Node where
  kind := "Call"
  id := "c"
  attrs := attrs [("target", .identifier x)]

/-- The program that calls a name. -/
def callProgram (x : String) : Node where
  kind := "Program"
  id := "p"
  children := [soleCall x]

theorem validate_callProgram (x : String) (env : TypeEnv) (permissions : List String)
    (structural : Bool) : validate (callProgram x) env permissions structural =
      (callIssues ⟨[], permissions⟩ env x []).1.map (·.report (soleCall x)) := by
  have hshape : structuralReport (callProgram x) = [] := rfl
  have hrun : (run (callProgram x) env permissions).findings =
      (reportAll (soleCall x) (callIssues ⟨[], permissions⟩ env x []).1
        ⟨env, ["c", "p"], #[], []⟩).2.findings := rfl
  unfold validate
  rw [hshape, ite_self, hrun, reportAll_eq]
  simp

/-- To give up what is known of names adds no finding but one: a call of a name that was known to be a
function, and is not any more, is reported as a call of nothing. So nothing is added when the functions
stay known; and the report is made for every name that a call finds no capability and no import by. -/
theorem validate_forget (root : Node) (env : TypeEnv) (chosen : String → Bool)
    (permissions : List String) (structural : Bool) :
    ((validate root (forget chosen env) permissions structural).filter
        (!missesFunction root ·)).Sublist (validate root env permissions structural) ∧
      ((∀ x, env.find? x = some .function → chosen x = false) →
        (validate root (forget chosen env) permissions structural).Sublist
          (validate root env permissions structural)) ∧
      ∀ x, env.find? x = some .function → chosen x = true → isBlankText x = false →
        Contract.lookup? x = none → namespace? x = none →
        validate (callProgram x) env permissions structural = [] ∧
        validate (callProgram x) (forget chosen env) permissions structural =
          [(Issue.unknownTarget x).report (soleCall x)] := by
  have henv (lossy : Prop)
      (hkept : ∀ x, env.find? x = some .function → chosen x = true → lossy) (x : String) :
      Option.Rel (ValueKind.Blurs lossy) (env.find? x) ((forget chosen env).find? x) := by
    rw [find?_forget]
    cases hx : env.find? x with
    | none => exact .none
    | some k =>
      refine .some ?_
      cases hchosen : chosen x with
      | false => exact .refl k
      | true => exact .inr ⟨rfl, fun hk => hkept x (hk ▸ hx) hchosen⟩
  refine ⟨?_, fun hkept => ?_, fun x hx hchosen hblank hlookup hspace => ?_⟩
  · refine validate_of_blurs (missesFunction root) root permissions structural
      (henv True fun _ _ _ => trivial) fun m hm _ x hx => ?_
    refine List.any_eq_true.mpr ⟨m, hm, ?_⟩
    rw [hx]
    exact decide_eq_true rfl
  · have hfunctions (x : String) (hx : env.find? x = some .function) (hchosen : chosen x = true) :
        False := Bool.false_ne_true ((hkept x hx).symm.trans hchosen)
    have hall := validate_of_blurs (fun _ => false) root permissions structural
      (henv False hfunctions) fun _ _ hlossy => hlossy.elim
    simpa using hall
  · have hforgotten : (forget chosen env).find? x = some .unknown := by
      rw [find?_forget, hx, Option.map_some, hchosen, if_pos rfl]
    rw [validate_callProgram, validate_callProgram]
    unfold callIssues
    rw [hblank, hlookup, hspace, hx, hforgotten]
    refine ⟨rfl, ?_⟩
    have himports : Context.imports ⟨[], permissions⟩ x = false := by
      unfold Context.imports
      rw [hspace]
    rw [himports]
    rfl

/-- Adds a number to `n`, and calls `f` with the sum. -/
def useBoth : Node where
  kind := "Program"
  id := "p"
  children := [
    { kind := "Call", id := "c", attrs := attrs [("target", .identifier "f")], children := [
      { kind := "Add", id := "a", children := [
        { kind := "Var", id := "v", attrs := attrs [("name", .identifier "n")] },
        { kind := "Lit", id := "i", attrs := attrs [("value", .int 1)] }] }] }]

/-- A function `f` and a text `n`. -/
def textAndFunction : TypeEnv := (Dict.empty.insert "f" .function).insert "n" .string

/-- The sum is a finding only as long as `n` is known to be a text. -/
theorem validate_forget_useBoth :
    (validate useBoth (forget (· == "n") textAndFunction) [] true).Sublist
        (validate useBoth textAndFunction [] true) ∧
      validate useBoth (forget (· == "n") textAndFunction) [] true = [] ∧
      (validate useBoth textAndFunction [] true).map Diagnostic.code = ["VAL052"] := by
  refine ⟨(validate_forget useBoth textAndFunction (· == "n") [] true).2.1 ?_, rfl, rfl⟩
  intro x hx
  refine beq_false_of_ne ?_
  rintro rfl
  cases hx

/-- So it is not so that to know less of names never adds a finding. -/
theorem not_validate_forget : ¬∀ (root : Node) (env : TypeEnv) (chosen : String → Bool)
    (permissions : List String) (structural : Bool),
    ∀ d ∈ validate root (forget chosen env) permissions structural,
      d ∈ validate root env permissions structural := by
  intro h
  have hd := h (callProgram "f") (Dict.empty.insert "f" .function) (· == "f") ["math"] true
    ((Issue.unknownTarget "f").report (soleCall "f")) List.mem_cons_self
  cases hd

end Flow

end Arbor
