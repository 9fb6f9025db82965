import Arbor.Proofs.Validation.Traversal

/-!
# What the findings are about

Every finding is the report of an issue about a node of the tree (`Flow.found_of_mem_validate`). Its code
tells which kind of issue that is, for no operator and no contract of a capability uses the code of an
issue that has one of its own.
-/

namespace Arbor.Flow

/-! ## 1. Codes -/

/-- The codes that stand for one kind of issue each, whatever operators and contracts there are. -/
def ownCodes : List String :=
  ["VAL001", "VAL002", "VAL003", "VAL010", "VAL036", "VAL040", "VAL999"]

theorem code_of_mem_operatorIssues {op : Operator} {kinds : List ValueKind} :
    ∀ i ∈ operatorIssues op kinds, i.code ∉ ownCodes := by
  have hone {ok : Bool} {code message : String} (hcode : code ∉ ownCodes) :
      ∀ i ∈ (if ok then [] else [Issue.operand code message]), i.code ∉ ownCodes := by
    intro i hi
    cases ok with
    | true => cases hi
    | false => rwa [List.mem_singleton.mp hi]
  unfold operatorIssues
  split
  · unfold operandIssues
    cases op with
    | eq =>
      dsimp only
      split
      · exact hone (by decide)
      · simp
    | add | strConcat | attrKey | attrValueKind | attrValueString | attrValueInt | attrValueBool
    | childAt => exact List.forall_mem_append.mpr ⟨hone (by decide), hone (by decide)⟩
    | toText | strEscape | nodeKind | nodeId | attrCount | childCount | makeBlock | appendChild
    | makeErr | makeLitString => exact hone (by decide)
  · simp

theorem exists_of_mem_mismatches {c : Contract} {v : Violation} {position : Nat}
    {specs : List ArgSpec} {kinds : List ValueKind} (hv : v ∈ c.mismatches position specs kinds) :
    ∃ spec ∈ specs, v.code = spec.code := by
  induction specs generalizing position kinds with
  | nil =>
    unfold Contract.mismatches at hv
    cases hv
  | cons spec specs ih =>
    cases kinds with
    | nil =>
      unfold Contract.mismatches at hv
      cases hv
    | cons kind kinds =>
      rw [Contract.mismatches] at hv
      have hrest (hv : v ∈ c.mismatches (position + 1) specs kinds) :
          ∃ s ∈ spec :: specs, v.code = s.code := by
        obtain ⟨s, hs, hcode⟩ := ih hv
        exact ⟨s, List.mem_cons_of_mem _ hs, hcode⟩
      split at hv
      · exact hrest hv
      · obtain rfl | hv := List.mem_cons.mp hv
        · exact ⟨spec, List.mem_cons_self, rfl⟩
        · exact hrest hv

theorem code_of_mem_check {target : String} {c : Contract} (hlookup : Contract.lookup? target = some c)
    {kinds : List ValueKind} {v : Violation} (hv : v ∈ c.check kinds) : v.code ∉ ownCodes := by
  have hall : ∀ c ∈ Contract.table,
      c.arityCode ∉ ownCodes ∧ ∀ spec ∈ c.args, spec.code ∉ ownCodes := by decide
  obtain ⟨harity, hspecs⟩ := hall c (Contract.mem_table_of_lookup? hlookup).1
  unfold Contract.check at hv
  split at hv
  · rwa [List.mem_singleton.mp hv]
  · obtain ⟨spec, hspec, hcode⟩ := exists_of_mem_mismatches hv
    exact hcode ▸ hspecs spec hspec

/-- What is raised at a node with a code of its own is about a name that is not bound. -/
theorem Raises.of_ownCode {ctx : Context} {n : Node} {i : Issue} (h : Raises ctx n i)
    (hcode : i.code ∈ ownCodes) :
    (∃ name, i = .unknownVariable name ∧
      (n.form? = some .var ∧ n.ident? "name" = some name ∧ ctx.imports name = false ∨
        n.form? = some .exportName)) ∨
    ∃ target, i = .unknownTarget target ∧ n.form? = some .call ∧
      n.text? "target" = some target ∧ ctx.imports target = false := by
  cases h with
  | unbound hform hname himports => exact .inl ⟨_, rfl, .inl ⟨hform, hname, himports⟩⟩
  | exported hform hname => exact .inl ⟨_, rfl, .inr hform⟩
  | target hform htarget himports => exact .inr ⟨_, rfl, hform, htarget, himports⟩
  | body => exact absurd hcode (by decide)
  | noTarget => exact absurd hcode (by decide)
  | branch _ hi =>
    have hother : ∀ i ∈ [Issue.conditionKind, .thenNotBlock, .elseNotBlock, .branchKinds],
        i.code ∉ ownCodes := by decide
    exact absurd hcode (hother i hi)
  | operand _ hi => exact absurd hcode (code_of_mem_operatorIssues i hi)
  | contract _ hlookup hv => exact absurd hcode (code_of_mem_check hlookup hv)

theorem Raises.code_ne {ctx : Context} {n : Node} {i : Issue} (h : Raises ctx n i) {code : String}
    (hown : code ∈ ownCodes) (hunbound : code ≠ "VAL010") (htarget : code ≠ "VAL036") :
    i.code ≠ code := by
  rintro rfl
  obtain ⟨name, rfl, -⟩ | ⟨target, rfl, -⟩ := h.of_ownCode hown
  · exact hunbound rfl
  · exact htarget rfl

/-- The codes of what can be wrong with the shape of a node. -/
def shapeCodes : List String := ["VAL002", "VAL003", "VAL999"]

theorem code_of_mem_shapeIssues {n : Node} : ∀ i ∈ n.shapeIssues, i.code ∈ shapeCodes := by
  unfold Node.shapeIssues
  split
  · refine List.forall_mem_append.mpr ⟨?_, ?_⟩
    · intro i hi
      obtain ⟨key, -, rfl⟩ := List.mem_map.mp hi
      exact List.mem_cons_self
    · split
      · simp
      · simp [Issue.code, shapeCodes]
  · simp [Issue.code, shapeCodes]

theorem ne_of_mem_shapeIssues {n : Node} {code : String} (hother : code ∉ shapeCodes) :
    ∀ i ∈ n.shapeIssues, i.code ≠ code :=
  fun i hi heq => hother (heq ▸ code_of_mem_shapeIssues i hi)

/-! ## 2. Findings -/

/-- What the pass finds about a node. -/
inductive Finds (ctx : Context) (n : Node) : Issue → Prop
  | shape {i : Issue} : i ∈ n.shapeIssues → Finds ctx n i
  | duplicate : Finds ctx n (.duplicateId n.id)
  | denied {p : String} : n.Needs p → p ∉ ctx.permissions → Finds ctx n (.denied p)
  | raised {i : Issue} : Raises ctx n i → Finds ctx n i

namespace Finds

variable {ctx : Context} {n : Node} {i : Issue}

theorem shape_of_code (h : Finds ctx n i) (hcode : i.code ∈ shapeCodes) : i ∈ n.shapeIssues := by
  cases h with
  | shape hi => exact hi
  | duplicate => exact absurd hcode (show "VAL001" ∉ shapeCodes by decide)
  | denied _ _ => exact absurd hcode (show "VAL040" ∉ shapeCodes by decide)
  | raised hi =>
    obtain ⟨name, rfl, -⟩ | ⟨target, rfl, -⟩ :=
      hi.of_ownCode ((show shapeCodes ⊆ ownCodes by decide) hcode)
    · exact absurd hcode (show "VAL010" ∉ shapeCodes by decide)
    · exact absurd hcode (show "VAL036" ∉ shapeCodes by decide)

theorem denied_of_code (h : Finds ctx n i) (hcode : i.code = "VAL040") :
    ∃ p, i = .denied p ∧ n.Needs p ∧ p ∉ ctx.permissions := by
  cases h with
  | denied hneeds hmissing => exact ⟨_, rfl, hneeds, hmissing⟩
  | shape hi => exact absurd hcode (ne_of_mem_shapeIssues (by decide) i hi)
  | duplicate => exact absurd hcode (show "VAL001" ≠ "VAL040" by decide)
  | raised hi => exact absurd hcode (hi.code_ne (by decide) (by decide) (by decide))

/-- What is found with these codes is about a name that is not bound. -/
theorem unbound_of_code (h : Finds ctx n i) (hcode : i.code = "VAL010" ∨ i.code = "VAL036") :
    (∃ name, i = .unknownVariable name ∧
      (n.form? = some .var ∧ n.ident? "name" = some name ∧ ctx.imports name = false ∨
        n.form? = some .exportName)) ∨
    ∃ target, i = .unknownTarget target ∧ n.form? = some .call ∧
      n.text? "target" = some target ∧ ctx.imports target = false := by
  have hmem : i.code ∈ ["VAL010", "VAL036"] := by simpa using hcode
  cases h with
  | shape hi =>
    have hshape := code_of_mem_shapeIssues i hi
    exact absurd hmem ((show ∀ code ∈ shapeCodes, code ∉ ["VAL010", "VAL036"] by decide) _ hshape)
  | duplicate => exact absurd hmem (show "VAL001" ∉ ["VAL010", "VAL036"] by decide)
  | denied _ _ => exact absurd hmem (show "VAL040" ∉ ["VAL010", "VAL036"] by decide)
  | raised hi => exact hi.of_ownCode ((show ["VAL010", "VAL036"] ⊆ ownCodes by decide) hmem)

end Finds

/-- The diagnostic reports what the pass finds about one of the nodes. -/
def Found (ctx : Context) (nodes : List Node) (d : Diagnostic) : Prop :=
  ∃ m ∈ nodes, ∃ i, Finds ctx m i ∧ d = i.report m

/-- The step adds only findings about the nodes. -/
def Attributed (ctx : Context) (nodes : List Node) (α : Type) (_ : List Node)
    (step _ : Check α) : Prop :=
  ∀ s : State, (∀ d ∈ s.findings.toList, Found ctx nodes d) →
    ∀ d ∈ (step s).2.findings.toList, Found ctx nodes d

section

variable {ctx : Context} {nodes : List Node} {n : Node} {s : State}

theorem found_reportAll (hn : n ∈ nodes) {is : List Issue} (his : ∀ i ∈ is, Finds ctx n i)
    (hs : ∀ d ∈ s.findings.toList, Found ctx nodes d) :
    ∀ d ∈ (reportAll n is s).2.findings.toList, Found ctx nodes d := by
  rw [reportAll_eq]
  dsimp only
  rw [Array.toList_append]
  refine List.forall_mem_append.mpr ⟨hs, fun d hd => ?_⟩
  obtain ⟨i, hi, rfl⟩ := List.mem_map.mp hd
  exact ⟨n, hn, i, his i hi, rfl⟩

theorem found_report (hn : n ∈ nodes) {i : Issue} (hi : Finds ctx n i)
    (hs : ∀ d ∈ s.findings.toList, Found ctx nodes d) :
    ∀ d ∈ (report n i s).2.findings.toList, Found ctx nodes d := by
  have hone : ∀ j ∈ [i], Finds ctx n j := List.forall_mem_singleton.mpr hi
  exact found_reportAll hn hone hs

theorem traversal_attributed (mark : Node → String) :
    Traversal ctx ctx.permissions mark mark nodes (Attributed ctx nodes) where
  pure _ _ hs := hs
  bind hstep hf s hs := hf _ _ (hstep s hs)
  get hf s hs := hf s s rfl s hs
  scope _ _ hs := hs
  report hn hi s hs := found_report hn (.raised hi) hs
  denial {n p} hn hneeds s hs := by
    cases hheld : ctx.permissions.contains p with
    | true => exact hs
    | false => exact found_report hn (.denied hneeds (by simpa using hheld)) hs
  visit {n _ form _} hn hform s hs := by
    have hnoted : ∀ d ∈ (noteId n s).2.findings.toList, Found ctx nodes d := by
      rw [noteId_eq]
      split
      · exact found_report hn .duplicate hs
      · exact hs
    exact hform _ (found_reportAll hn (fun i hi => .shape hi) hnoted)

end

/-- The context in which a tree is checked. -/
def contextOf (root : Node) (permissions : List String) : Context :=
  ⟨root.walk.filterMap importedNamespace?, permissions⟩

/-- What the pass has at its start. -/
def start (root : Node) (env : TypeEnv) : State := ⟨predeclare root env, [], #[], []⟩

theorem run_eq (root : Node) (env : TypeEnv) (permissions : List String) :
    run root env permissions =
      (checkAs (contextOf root permissions) Node.id root (start root env)).2 := by
  rw [checkAs_id]
  rfl

/-- The findings of a validation are those of the structural pass, if there are any, and else those of
the flow pass. -/
theorem validate_cases (root : Node) (env : TypeEnv) (permissions : List String) (structural : Bool) :
    validate root env permissions structural = structuralReport root ∨
      validate root env permissions structural = (run root env permissions).findings.toList := by
  unfold validate
  cases structural with
  | false => exact .inr rfl
  | true =>
    rw [if_pos rfl]
    dsimp only
    split
    · exact .inr rfl
    · exact .inl rfl

/-- Every finding of a validation reports something about a node of the tree. -/
theorem found_of_mem_validate {root : Node} {env : TypeEnv} {permissions : List String}
    {structural : Bool} :
    ∀ d ∈ validate root env permissions structural, Found (contextOf root permissions) root.walk d := by
  obtain heq | heq := validate_cases root env permissions structural
  · rw [heq]
    intro d hd
    obtain ⟨n, hn, hd⟩ := List.mem_flatMap.mp hd
    obtain ⟨i, hi, rfl⟩ := List.mem_map.mp hd
    exact ⟨n, hn, i, .shape hi, rfl⟩
  · rw [heq, run_eq]
    have htraversal : Traversal (contextOf root permissions) permissions Node.id Node.id root.walk
        (Attributed (contextOf root permissions) root.walk) := traversal_attributed Node.id
    exact htraversal.check (List.Subset.refl root.walk) (start root env) (fun _ hd => by cases hd)

end Arbor.Flow
