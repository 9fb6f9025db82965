import Arbor.Proofs.Validation.Attribution

/-!
# Granting permissions

The permissions matter to the flow pass in one place, where it reports that one of them is missing. So
two passes that differ in their permissions come to the same kinds and scopes throughout, and where the
second one has all the permissions of the first, it has the same findings but for the denials of what it
may do (`Flow.validate_grant`).
-/

namespace Arbor.Flow

/-- Does the finding say that one of the permissions is missing? -/
def denies (permissions : List String) (d : Diagnostic) : Bool :=
  d.code == "VAL040" && permissions.any fun p => d.message == (Issue.denied p).message

section Denies

variable {Q : List String} {n : Node}

/-- The message of a denial names the permission. -/
theorem denied_message_inj {p q : String} (h : (Issue.denied p).message = (Issue.denied q).message) :
    p = q := by
  have hchars := congrArg String.toList h
  unfold Issue.message at hchars
  exact String.toList_inj.mp (by simpa using hchars)

theorem denies_denied (p : String) : denies Q ((Issue.denied p).report n) = Q.contains p := by
  have hcode : ((Issue.denied p).report n).code = "VAL040" := rfl
  have hmessage : ((Issue.denied p).report n).message = (Issue.denied p).message := rfl
  unfold denies
  rw [hcode, hmessage, beq_self_eq_true, Bool.true_and, List.contains_eq_any_beq]
  refine congrArg Q.any (funext fun q => Bool.eq_iff_iff.mpr ?_)
  rw [beq_iff_eq, beq_iff_eq]
  exact ⟨denied_message_inj, fun h => h ▸ rfl⟩

theorem denies_eq_false {i : Issue} (hcode : i.code ≠ "VAL040") :
    denies Q (i.report n) = false := by
  have hne : ((i.report n).code == "VAL040") = false := beq_false_of_ne hcode
  unfold denies
  rw [hne, Bool.false_and]

end Denies

/-! ## Two passes -/

/-- What the second pass has where the first one has this: the same, but for the denials of permissions
that it holds. Passes that keep kinds under the same marks have kept the same ones. -/
structure Granted (Q : List String) (mark mark' : Node → String) (s s' : State) : Prop where
  env : s'.env = s.env
  seen : s'.seen = s.seen
  findings : s'.findings.toList = s.findings.toList.filter (!denies Q ·)
  kinds : mark' = mark → s'.kinds = s.kinds

/-- Side by side, the two steps come to the same result, and the second pass has what it had. -/
def Granting (Q : List String) (mark mark' : Node → String) (α : Type) (_ : List Node)
    (step step' : Check α) : Prop :=
  ∀ s s', Granted Q mark mark' s s' →
    (step' s').1 = (step s).1 ∧ Granted Q mark mark' (step s).2 (step' s').2

section Granting

variable {Q : List String} {mark mark' : Node → String} {n : Node} {s s' : State}

/-- Both passes report the issues. -/
theorem Granted.reportAll (h : Granted Q mark mark' s s') {is : List Issue}
    (his : ∀ i ∈ is, i.code ≠ "VAL040") :
    Granted Q mark mark' (reportAll n is s).2 (reportAll n is s').2 := by
  have hkept : (is.map (·.report n)).filter (!denies Q ·) = is.map (·.report n) := by
    refine List.filter_eq_self.mpr fun d hd => ?_
    obtain ⟨i, hi, rfl⟩ := List.mem_map.mp hd
    rw [denies_eq_false (his i hi)]
    rfl
  rw [reportAll_eq, reportAll_eq]
  refine ⟨h.env, h.seen, ?_, h.kinds⟩
  rw [Array.toList_append, Array.toList_append, List.filter_append, h.findings, hkept]

theorem Granted.report (h : Granted Q mark mark' s s') {i : Issue} (hi : i.code ≠ "VAL040") :
    Granted Q mark mark' (report n i s).2 (report n i s').2 := by
  have hone : ∀ j ∈ [i], j.code ≠ "VAL040" := List.forall_mem_singleton.mpr hi
  exact h.reportAll hone

theorem Granted.denial (h : Granted Q mark mark' s s') {P : List String} (hPQ : P ⊆ Q) (p : String) :
    Granted Q mark mark' (reportIf (!P.contains p) n (.denied p) s).2
      (reportIf (!Q.contains p) n (.denied p) s').2 := by
  by_cases hP : p ∈ P
  · -- what the first pass may do, the second one may do, too
    have hQ := hPQ hP
    rw [List.contains_iff_mem.mpr hP, List.contains_iff_mem.mpr hQ]
    exact h
  · have hdenies := denies_denied (Q := Q) (n := n) p
    rw [Bool.eq_false_iff.mpr fun hheld => hP (List.contains_iff_mem.mp hheld)]
    have hpushed : (reportIf (!false) n (.denied p) s).2.findings.toList =
        s.findings.toList ++ [(Issue.denied p).report n] := by
      show (s.findings.push _).toList = _
      rw [Array.toList_push]
    refine ⟨?_, ?_, ?_, ?_⟩
    · cases Q.contains p <;> exact h.env
    · cases Q.contains p <;> exact h.seen
    · rw [hpushed, List.filter_append, ← h.findings]
      cases hQ : Q.contains p with
      | true =>
        rw [List.filter_cons_of_neg (by rw [hdenies, hQ]; decide), List.filter_nil, List.append_nil]
        rfl
      | false =>
        rw [List.filter_cons_of_pos (by rw [hdenies, hQ]; decide), List.filter_nil]
        exact Array.toList_push
    · cases Q.contains p <;> exact h.kinds

theorem Granted.noteId (h : Granted Q mark mark' s s') :
    Granted Q mark mark' (noteId n s).2 (noteId n s').2 := by
  rw [noteId_eq, noteId_eq, h.seen]
  split
  · exact h.report (show "VAL001" ≠ "VAL040" by decide)
  · exact ⟨h.env, rfl, h.findings, h.kinds⟩

theorem traversal_granting {ctx : Context} {nodes : List Node} (hPQ : ctx.permissions ⊆ Q) :
    Traversal ctx Q mark mark' nodes (Granting Q mark mark') where
  pure _ _ _ h := ⟨rfl, h⟩
  bind {_ _ _ _ step step' f f'} hstep hf s s' h := by
    obtain ⟨hresult, hafter⟩ := hstep s s' h
    show (f' (step' s').1 (step' s').2).1 = (f (step s).1 (step s).2).1 ∧
      Granted Q mark mark' (f (step s).1 (step s).2).2 (f' (step' s').1 (step' s').2).2
    rw [hresult]
    exact hf _ _ _ hafter
  get hf s s' h := hf s s' h.env s s' h
  scope f s s' h := ⟨rfl, congrArg f h.env, h.seen, h.findings, h.kinds⟩
  report _ hi s s' h := ⟨rfl, h.report (hi.code_ne (by decide) (by decide) (by decide))⟩
  denial {n p} _ _ s s' h := ⟨rfl, h.denial hPQ p⟩
  visit {n _ form form'} _ hform s s' h := by
    have hshape : ∀ i ∈ n.shapeIssues, i.code ≠ "VAL040" := ne_of_mem_shapeIssues (by decide)
    obtain ⟨hresult, hafter⟩ := hform _ _ (h.noteId.reportAll hshape)
    refine ⟨hresult, hafter.env, hafter.seen, hafter.findings, fun hmark => ?_⟩
    exact congrArg₂ List.cons (Prod.ext (congrFun hmark n) hresult) (hafter.kinds hmark)

end Granting

/-! ## Whole validations -/

theorem granted_check {P Q : List String} (hPQ : P ⊆ Q) (mark mark' : Node → String) (root : Node)
    (env : TypeEnv) :
    Granted Q mark mark' (checkAs (contextOf root P) mark root (start root env)).2
      (checkAs (contextOf root Q) mark' root (start root env)).2 := by
  have htraversal : Traversal (contextOf root P) Q mark mark' root.walk (Granting Q mark mark') :=
    traversal_granting hPQ
  have hstart : Granted Q mark mark' (start root env) (start root env) :=
    ⟨rfl, rfl, rfl, fun _ => rfl⟩
  exact (htraversal.check (List.Subset.refl root.walk) _ _ hstart).2

/-- A finding that says that one of the permissions is missing is about a call that needs it. -/
theorem exists_needs_of_denies {P Q : List String} {root : Node} {d : Diagnostic}
    (hd : Found (contextOf root P) root.walk d) (hdenies : denies Q d = true) :
    ∃ m ∈ root.walk, ∃ p ∈ Q, m.Needs p ∧ p ∉ P ∧ d = (Issue.denied p).report m := by
  obtain ⟨m, hm, i, hi, rfl⟩ := hd
  have hcode : i.code = "VAL040" := by
    by_contra hne
    rw [denies_eq_false hne] at hdenies
    cases hdenies
  obtain ⟨p, rfl, hneeds, hmissing⟩ := hi.denied_of_code hcode
  rw [denies_denied, List.contains_iff_mem] at hdenies
  exact ⟨m, hm, p, hdenies, hneeds, hmissing, rfl⟩

/-- Granting permissions only removes denials. Under more permissions a validation has the same findings
in the same order, but for the denials of what is now permitted. These are the reports of the missing
permission at calls that need one of the permissions granted. The kinds that the pass computes, node by
node, are the same. -/
theorem validate_grant {P Q : List String} (hPQ : P ⊆ Q) (root : Node) (env : TypeEnv)
    (structural : Bool) :
    validate root env Q structural =
        (validate root env P structural).filter (!denies Q ·) ∧
      (∀ d ∈ validate root env P structural, denies Q d = true ↔
        ∃ m ∈ root.walk, ∃ p ∈ Q, m.Needs p ∧ p ∉ P ∧ d = (Issue.denied p).report m) ∧
      (run root env Q).kinds = (run root env P).kinds := by
  have hgranted : Granted Q Node.id Node.id (run root env P) (run root env Q) := by
    rw [run_eq, run_eq]
    exact granted_check hPQ Node.id Node.id root env
  refine ⟨?_, fun d hd => ⟨fun hdenies => ?_, ?_⟩, hgranted.kinds rfl⟩
  · -- the structural pass does not look at the permissions, and denies nothing
    have hbroken : ∀ d ∈ structuralReport root, denies Q d = false := by
      intro d hd
      obtain ⟨m, -, hd⟩ := List.mem_flatMap.mp hd
      obtain ⟨i, hi, rfl⟩ := List.mem_map.mp hd
      exact denies_eq_false (ne_of_mem_shapeIssues (by decide) i hi)
    unfold validate
    cases structural with
    | false => exact hgranted.findings
    | true =>
      dsimp only
      rw [if_pos rfl]
      by_cases hnone : (structuralReport root).isEmpty = true
      · rw [if_pos hnone, if_pos hnone]
        exact hgranted.findings
      · rw [if_neg hnone, if_neg hnone]
        refine (List.filter_eq_self.mpr fun d hd => ?_).symm
        rw [hbroken d hd, Bool.not_false]
  · exact exists_needs_of_denies (found_of_mem_validate d hd) hdenies
  · rintro ⟨m, -, p, hp, -, -, rfl⟩
    rw [denies_denied]
    exact List.contains_iff_mem.mpr hp

/-- Prints the value of a name that is not bound, and then adds two numbers. -/
def printAndAdd : Node where
  kind := "Program"
  id := "p"
  children := [
    { kind := "Call", id := "c", attrs := attrs [("target", .identifier "console.print")], children := [
      { kind := "Var", id := "v", attrs := attrs [("name", .identifier "n")] }] },
    { kind := "Call", id := "d", attrs := attrs [("target", .identifier "math.add")], children := [
      { kind := "Lit", id := "a", attrs := attrs [("value", .int 1)] },
      { kind := "Lit", id := "b", attrs := attrs [("value", .int 2)] }] }]

/-- Both calls are denied at first, and only the printing is permitted then. -/
theorem validate_grant_printAndAdd :
    (validate printAndAdd ∅ [] true).map Diagnostic.code = ["VAL010", "VAL040", "VAL040"] ∧
      (validate printAndAdd ∅ ["console"] true).map Diagnostic.code = ["VAL010", "VAL040"] ∧
      validate printAndAdd ∅ ["console"] true =
        (validate printAndAdd ∅ [] true).filter (!denies ["console"] ·) :=
  ⟨by decide, by decide, (validate_grant (List.nil_subset _) printAndAdd ∅ true).1⟩

end Arbor.Flow
