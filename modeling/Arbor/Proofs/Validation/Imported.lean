import Arbor.Proofs.Evaluation.Origins
import Arbor.Proofs.Validation.Attribution

/-!
# Names that an import binds

An `Import` binds what a module exports under names that start with a namespace. The validator knows the
namespaces and looks at what stands before the first dot of a name. So it trusts these names as long as
there is no dot in the namespace itself, and only then (`Flow.validate_imported`).
-/

namespace Arbor

open Text

/-! ## 1. Namespaces -/

/-- The namespace that the validator expects is the one that the evaluation of the import uses, as long
as the path comes to a file of the same name. -/
theorem moduleNamespace_of_fileName {path resolved : String}
    (hname : Path.fileName? resolved = Path.fileName? path) (alias? : Option String) :
    Eval.moduleNamespace resolved alias? = alias?.getD (Path.stem path) := by
  unfold Eval.moduleNamespace Path.stem
  rw [hname]

namespace Flow

variable {root n : Node} {path resolved : String}

/-- The namespace is known to the validator. -/
theorem mem_namespaces (hn : n ∈ root.walk) (hform : n.form? = some .importModule)
    (hpath : n.text? "path" = some path)
    (hname : Path.fileName? resolved = Path.fileName? path) (permissions : List String) :
    Eval.moduleNamespace resolved (n.text? "as") ∈ (contextOf root permissions).namespaces := by
  refine List.mem_filterMap.mpr ⟨n, hn, ?_⟩
  unfold importedNamespace?
  rw [if_pos hform, hpath, moduleNamespace_of_fileName hname]
  rfl

/-- A name under a namespace that is known and has no dot is taken for imported. -/
theorem imports_qualified {ctx : Context} {ns : String} (hns : ns ∈ ctx.namespaces)
    (hdot : '.' ∉ ns.toList) (name : String) : ctx.imports (ns ++ "." ++ name) = true := by
  unfold Context.imports
  rw [namespace?_of_notMem hdot]
  exact List.contains_iff_mem.mpr hns

/-- A name under a namespace with a dot is not, if no other namespace is known. -/
theorem not_imports_qualified {ctx : Context} {ns : String} (honly : ∀ other ∈ ctx.namespaces, other = ns)
    (hdot : '.' ∈ ns.toList) (name : String) : ctx.imports (ns ++ "." ++ name) = false := by
  have hne := namespace?_of_mem hdot name
  unfold Context.imports
  cases hspace : namespace? (ns ++ "." ++ name) with
  | none => rfl
  | some other =>
    rw [hspace] at hne
    refine Bool.eq_false_iff.mpr fun hmem => hne ?_
    rw [honly other (List.contains_iff_mem.mp hmem)]

/-- The target of a capability has one dot. -/
theorem lookup?_of_dotted {ns : String} (hdot : '.' ∈ ns.toList) (name : String) :
    Contract.lookup? (ns ++ "." ++ name) = none := by
  have hcount : 1 < (ns ++ "." ++ name).toList.count '.' := by
    have hns := List.count_pos_iff.mpr hdot
    simp only [String.toList_append, List.count_append]
    have hone : ".".toList.count '.' = 1 := by decide
    omega
  cases hlookup : Contract.lookup? (ns ++ "." ++ name) with
  | none => rfl
  | some c =>
    obtain ⟨hmem, htarget⟩ := Contract.mem_table_of_lookup? hlookup
    have hone := Contract.count_dot_target c hmem
    rw [htarget] at hone
    omega

/-! ## 2. Variables and calls -/

section Steps

variable {ctx : Context} {m : Node} {x : String} {s : State}

/-- A variable is reported if its name is neither bound nor imported. -/
theorem varKind_snd (hname : m.ident? "name" = some x) :
    (varKind ctx m s).2 =
      if s.env.find? x = none ∧ ctx.imports x = false then (report m (.unknownVariable x) s).2
      else s := by
  have hget (f : State → Check ValueKind) : (get >>= f) s = f s s := rfl
  unfold varKind
  rw [hname]
  dsimp only
  rw [hget]
  cases s.env.find? x with
  | some kind => rfl
  | none => cases ctx.imports x <;> rfl

/-- A call reports what is wrong with its target and its arguments. -/
theorem callKind_snd (htarget : m.text? "target" = some x) (args : List ValueKind) :
    (callKind ctx m args s).2 = (reportAll m (callIssues ctx s.env x args).1 s).2 := by
  rw [callKind_eq, htarget]
  rfl

/-- What the call of an imported name reports is not that there is no such function. -/
theorem code_of_call (himports : ctx.imports x = true) (hblank : isBlankText x = false)
    {env : TypeEnv} {args : List ValueKind} :
    ∀ i ∈ (callIssues ctx env x args).1, i.code ≠ "VAL010" ∧ i.code ≠ "VAL036" := by
  cases hlookup : Contract.lookup? x with
  | some c =>
    rw [callIssues_of_lookup hlookup]
    refine List.forall_mem_append.mpr ⟨?_, fun i hi => ?_⟩
    · split
      · simp
      · simp [Issue.code]
    · obtain ⟨v, hv, rfl⟩ := List.mem_map.mp hi
      have hown := code_of_mem_check hlookup hv
      refine ⟨fun heq => hown ?_, fun heq => hown ?_⟩
      · rw [show v.code = "VAL010" from heq]
        decide
      · rw [show v.code = "VAL036" from heq]
        decide
  | none =>
    have hissues : (callIssues ctx env x args).1 = [] := by
      unfold callIssues
      rw [hblank, hlookup, himports]
      cases (namespace? x).isNone && env.find? x == some .function <;> rfl
    rw [hissues]
    simp

/-- The call of a name that is neither a capability nor imported, and has a namespace, is reported. -/
theorem callIssues_of_not_imports (himports : ctx.imports x = false) (hblank : isBlankText x = false)
    (hlookup : Contract.lookup? x = none) (hspace : (namespace? x).isSome = true) (env : TypeEnv)
    (args : List ValueKind) : callIssues ctx env x args = ([.unknownTarget x], .unknown) := by
  obtain ⟨ns, hns⟩ := Option.isSome_iff_exists.mp hspace
  unfold callIssues
  rw [hblank, hlookup, himports, hns]
  rfl

/-- The call of an imported name adds no report of an unknown name. -/
theorem code_of_mem_callKind (himports : ctx.imports x = true) (hblank : isBlankText x = false)
    (htarget : m.text? "target" = some x) (args : List ValueKind) :
    ∀ d ∈ (callKind ctx m args s).2.findings.toList,
      d ∈ s.findings.toList ∨ d.code ≠ "VAL010" ∧ d.code ≠ "VAL036" := by
  intro d hd
  rw [callKind_snd htarget, reportAll_eq] at hd
  dsimp only at hd
  rw [Array.toList_append, List.mem_append] at hd
  refine hd.imp_right fun hnew => ?_
  obtain ⟨i, hi, rfl⟩ := List.mem_map.mp hnew
  exact code_of_call himports hblank i hi

end Steps

/-! ## 3. Imported names -/

/-- The node stands for the value of the name, or calls it. -/
def Mentions (m : Node) (x : String) : Prop :=
  m.form? = some .var ∧ m.ident? "name" = some x ∨ m.form? = some .call ∧ m.text? "target" = some x

/-- What is reported for an unknown name is not about an imported one. -/
theorem Finds.not_mentions {ctx : Context} {m : Node} {i : Issue} {x : String} (h : Finds ctx m i)
    (hcode : i.code = "VAL010" ∨ i.code = "VAL036") (himports : ctx.imports x = true) :
    ¬Mentions m x := by
  have himported {y : String} (hy : ctx.imports y = false) : y ≠ x := by
    rintro rfl
    rw [himports] at hy
    cases hy
  rintro (⟨hvar, hname⟩ | ⟨hcall, htarget⟩)
  · obtain ⟨y, -, ⟨-, hy, hnot⟩ | hexport⟩ | ⟨y, -, hother, -⟩ := h.unbound_of_code hcode
    · exact himported hnot (Option.some.inj (hy.symm.trans hname))
    · rw [hvar] at hexport
      cases hexport
    · rw [hvar] at hother
      cases hother
  · obtain ⟨y, -, ⟨hother, -⟩ | hother⟩ | ⟨y, -, -, hy, hnot⟩ := h.unbound_of_code hcode
    · rw [hcall] at hother
      cases hother
    · rw [hcall] at hother
      cases hother
    · exact himported hnot (Option.some.inj (hy.symm.trans htarget))

/-- The validator trusts the names that an import binds, if there is no dot in their namespace. The
evaluation of an import binds each export under a name that starts with the namespace. If there is no dot
in this, then no variable of such a name and no call of it is reported for being unknown, whatever else is
in scope, so that all reports of the kind in a validation are about other nodes. If there is a dot, the
validator takes the namespace for a shorter one: where the tree has no import with that, a variable of
the name is reported unless it is bound, and a call is always. -/
theorem validate_imported {σ : Type} {root n : Node} (hn : n ∈ root.walk)
    (hform : n.form? = some .importModule) {path resolved : String} (hpath : n.text? "path" = some path)
    (hfile : Path.fileName? resolved = Path.fileName? path) (name : String) (env : TypeEnv)
    (permissions : List String) (structural : Bool) :
    let ns := Eval.moduleNamespace resolved (n.text? "as")
    let x := ns ++ "." ++ name
    let ctx := contextOf root permissions
    (∀ (t : Activation σ) (exports : Exports) (v : Value), exports.find? name = some v →
        (Eval.bindImport ns (.ok exports) t).2.env.find? x = some v) ∧
      ('.' ∉ ns.toList →
        (∀ m s, m.ident? "name" = some x → (varKind ctx m s).2 = s) ∧
        (∀ m s args, m.text? "target" = some x → ∀ d ∈ (callKind ctx m args s).2.findings.toList,
          d ∈ s.findings.toList ∨ d.code ≠ "VAL010" ∧ d.code ≠ "VAL036") ∧
        ∀ d ∈ validate root env permissions structural, d.code = "VAL010" ∨ d.code = "VAL036" →
          ∃ m ∈ root.walk, ¬Mentions m x ∧ ∃ i, Finds ctx m i ∧ d = i.report m) ∧
      ('.' ∈ ns.toList → (∀ other ∈ ctx.namespaces, other = ns) →
        (∀ m s, m.ident? "name" = some x → s.env.find? x = none →
          (varKind ctx m s).2 = (report m (.unknownVariable x) s).2) ∧
        ∀ m s args, m.text? "target" = some x →
          (callKind ctx m args s).2 = (report m (.unknownTarget x) s).2) := by
  intro ns x ctx
  have hblank : isBlankText x = false := not_isBlankText_of_dot (dot_mem_qualified ns name)
  refine ⟨fun t exports v hexport => Eval.find?_bindExports ns hexport t, fun hdot => ?_,
    fun hdot honly => ?_⟩
  · have himports : ctx.imports x = true :=
      imports_qualified (mem_namespaces hn hform hpath hfile permissions) hdot name
    refine ⟨fun m s hname => ?_, fun m s args htarget => ?_, fun d hd hcode => ?_⟩
    · rw [varKind_snd hname, if_neg (by simp [himports])]
    · exact code_of_mem_callKind himports hblank htarget args
    · obtain ⟨m, hm, i, hi, rfl⟩ := found_of_mem_validate d hd
      exact ⟨m, hm, hi.not_mentions hcode himports, i, hi, rfl⟩
  · have himports : ctx.imports x = false := not_imports_qualified honly hdot name
    have hspace : (namespace? x).isSome = true := by
      rw [namespace?_eq]
      rfl
    refine ⟨fun m s hname hnew => ?_, fun m s args htarget => ?_⟩
    · rw [varKind_snd hname, if_pos ⟨hnew, himports⟩]
    · have hissues := callIssues_of_not_imports himports hblank (lookup?_of_dotted hdot name) hspace
        s.env args
      rw [callKind_snd htarget, hissues]
      rfl

/-- An import of the module `m` under a name. -/
def importAs (ns : String) : Node where
  kind := "Import"
  id := "i"
  attrs := attrs [("path", .string "m.aos"), ("as", .identifier ns)]

/-- A variable that stands for the name. -/
def varOf (x : String) : Node := { kind := "Var", id := "v", attrs := attrs [("name", .identifier x)] }

/-- A program that imports the module under a name, and then uses another name and calls it. -/
def importAndUse (ns x : String) : Node where
  kind := "Program"
  id := "p"
  children := [importAs ns, varOf x, soleCall x]

/-- There is nothing to report about a name of the module under the name `lib`. -/
theorem validate_imported_lib :
    importAs "lib" ∈ (importAndUse "lib" "lib.x").walk ∧
      Path.fileName? "/m.aos" = Path.fileName? "m.aos" ∧
      validate (importAndUse "lib" "lib.x") ∅ [] true = [] ∧
      ∀ (m : Node) (s : State), m.ident? "name" = some "lib.x" →
        (varKind (contextOf (importAndUse "lib" "lib.x") []) m s).2 = s := by
  have hmem : importAs "lib" ∈ (importAndUse "lib" "lib.x").walk := by decide
  have hfile : Path.fileName? "/m.aos" = Path.fileName? "m.aos" := by decide
  have hns : Eval.moduleNamespace "/m.aos" ((importAs "lib").text? "as") = "lib" := by decide
  obtain ⟨-, htrusted, -⟩ := validate_imported (σ := Unit) hmem (by decide) (by decide) hfile "x" ∅ [] true
  rw [hns] at htrusted
  exact ⟨hmem, hfile, by decide, (htrusted (by decide)).1⟩

/-- Under a name with a dot the names of the module are reported. -/
theorem not_validate_imported :
    ¬∀ (root n : Node) (path resolved name : String) (env : TypeEnv) (permissions : List String)
        (structural : Bool), n ∈ root.walk → n.form? = some .importModule →
      n.text? "path" = some path → Path.fileName? resolved = Path.fileName? path →
      let x := Eval.moduleNamespace resolved (n.text? "as") ++ "." ++ name
      ∀ m ∈ root.walk, Mentions m x →
        (Issue.unknownVariable x).report m ∉ validate root env permissions structural ∧
        (Issue.unknownTarget x).report m ∉ validate root env permissions structural := by
  intro hall
  have hx : Eval.moduleNamespace "/m.aos" ((importAs "a.b").text? "as") ++ "." ++ "x" = "a.b.x" := by
    decide
  have hrefuted := hall (importAndUse "a.b" "a.b.x") (importAs "a.b") "m.aos" "/m.aos" "x" ∅ [] true
    (by decide) (by decide) (by decide) (by decide)
  rw [hx] at hrefuted
  obtain ⟨hunreported, -⟩ := hrefuted (varOf "a.b.x") (by decide) (.inl ⟨by decide, by decide⟩)
  exact hunreported (by decide)

end Flow

end Arbor
