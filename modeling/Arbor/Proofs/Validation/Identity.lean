import Arbor.Proofs.Validation.Granting

/-!
# Ids that occur more than once

The pass notes the id of each node that it visits and reports those it has noted before. In a tree of
well-formed nodes it visits every node once, in pre-order, so it reports each occurrence of an id behind
the first one (`Flow.validate_repeats`).
-/

namespace Arbor.Flow

/-! ## 1. Repeated ids in a list of nodes -/

/-- The nodes whose id was seen, or is the id of a node before them. -/
def repeats (seen : List String) : List Node → List Node
  | [] => []
  | n :: ns => (if n.id ∈ seen then [n] else []) ++ repeats (n.id :: seen) ns

/-- Which ids were seen matters, and not in which order. -/
theorem repeats_congr {seen seen' : List String} (h : ∀ id, id ∈ seen ↔ id ∈ seen') (ns : List Node) :
    repeats seen ns = repeats seen' ns := by
  induction ns generalizing seen seen' with
  | nil => rfl
  | cons n ns ih =>
    have hrest : repeats (n.id :: seen) ns = repeats (n.id :: seen') ns :=
      ih fun id => by rw [List.mem_cons, List.mem_cons, h]
    rw [repeats, repeats, hrest]
    simp only [h]

theorem repeats_append (seen : List String) (ns ms : List Node) :
    repeats seen (ns ++ ms) = repeats seen ns ++ repeats (seen ++ ns.map Node.id) ms := by
  induction ns generalizing seen with
  | nil => simp [repeats]
  | cons n ns ih =>
    have hseen : repeats (n.id :: seen ++ ns.map Node.id) ms =
        repeats (seen ++ (n :: ns).map Node.id) ms :=
      repeats_congr (fun id => by simp only [List.mem_append, List.mem_cons, List.map_cons]; tauto) ms
    rw [List.cons_append, repeats, repeats, ih, hseen, List.append_assoc]

/-- Of the nodes with one id all are repeated but the first one, and that too if the id was seen. -/
theorem filter_repeats (id : String) (seen : List String) (ns : List Node) :
    (repeats seen ns).filter (·.id == id) =
      if id ∈ seen then ns.filter (·.id == id) else (ns.filter (·.id == id)).tail := by
  induction ns generalizing seen with
  | nil => simp [repeats]
  | cons n ns ih =>
    rw [repeats, List.filter_append, ih]
    by_cases hid : n.id = id
    · -- behind this node, the id is one that was seen
      subst hid
      have hself : (n :: ns).filter (·.id == n.id) = n :: ns.filter (·.id == n.id) := by
        rw [List.filter_cons, if_pos (beq_self_eq_true n.id)]
      rw [if_pos List.mem_cons_self, hself]
      by_cases hseen : n.id ∈ seen
      · rw [if_pos hseen, if_pos hseen, List.filter_singleton, beq_self_eq_true]
        rfl
      · rw [if_neg hseen, if_neg hseen]
        rfl
    · have hne : (n.id == id) = false := by simpa using hid
      have hself : (n :: ns).filter (·.id == id) = ns.filter (·.id == id) := by
        rw [List.filter_cons, hne]
        rfl
      have hnone : (if n.id ∈ seen then [n] else []).filter (·.id == id) = [] := by
        split
        · rw [List.filter_singleton, hne]
          rfl
        · rfl
      have hseen : id ∈ n.id :: seen ↔ id ∈ seen := by simp [Ne.symm hid]
      rw [hnone, hself, List.nil_append]
      simp only [hseen]

/-! ## 2. The pass -/

/-- The report of a node whose id was noted before. -/
def repeatReport (n : Node) : Diagnostic := (Issue.duplicateId n.id).report n

/-- The findings about ids that were noted before. -/
def State.repetitions (s : State) : List Diagnostic := s.findings.toList.filter (·.code == "VAL001")

/-- Between the two states the pass has visited the nodes: it has noted their ids, reported those that
were noted before, and kept a kind for each node. -/
structure Visits (mark : Node → String) (ns : List Node) (s u : State) : Prop where
  seen : ∀ id, id ∈ u.seen ↔ id ∈ s.seen ∨ id ∈ ns.map Node.id
  repetitions : u.repetitions = s.repetitions ++ (repeats s.seen ns).map repeatReport
  kinds : ∃ new, u.kinds = new ++ s.kinds ∧ (new.map Prod.fst).Perm (ns.map mark)

namespace Visits

variable {mark : Node → String} {n : Node} {ns ms : List Node} {s u v : State}

/-- Where no id is noted and no kind is kept, nothing is visited. -/
theorem of_eq (hseen : u.seen = s.seen) (hrepetitions : u.repetitions = s.repetitions)
    (hkinds : u.kinds = s.kinds) : Visits mark [] s u :=
  ⟨by simp [hseen], by simp [repeats, hrepetitions], [], hkinds, .refl _⟩

theorem refl (s : State) : Visits mark [] s s := of_eq rfl rfl rfl

theorem trans (h : Visits mark ns s u) (h' : Visits mark ms u v) : Visits mark (ns ++ ms) s v where
  seen id := by rw [h'.seen, h.seen, List.map_append, List.mem_append, or_assoc]
  repetitions := by
    have hseen : repeats u.seen ms = repeats (s.seen ++ ns.map Node.id) ms :=
      repeats_congr (fun id => by rw [h.seen, List.mem_append]) ms
    rw [h'.repetitions, h.repetitions, repeats_append, List.map_append, hseen, List.append_assoc]
  kinds := by
    obtain ⟨first, hfirst, hperm⟩ := h.kinds
    obtain ⟨second, hsecond, hperm'⟩ := h'.kinds
    refine ⟨second ++ first, by rw [hsecond, hfirst, List.append_assoc], ?_⟩
    rw [List.map_append, List.map_append]
    exact List.perm_append_comm.trans (hperm.append hperm')

theorem reportAll {is : List Issue} (his : ∀ i ∈ is, i.code ≠ "VAL001") (s : State) :
    Visits mark [] s (Flow.reportAll n is s).2 := by
  have hnone : (is.map (·.report n)).filter (·.code == "VAL001") = [] := by
    refine List.filter_eq_nil_iff.mpr fun d hd => ?_
    obtain ⟨i, hi, rfl⟩ := List.mem_map.mp hd
    exact ne_true_of_eq_false (beq_false_of_ne (his i hi))
  rw [reportAll_eq]
  refine of_eq rfl ?_ rfl
  unfold State.repetitions
  rw [Array.toList_append, List.filter_append, hnone, List.append_nil]

theorem report {i : Issue} (hi : i.code ≠ "VAL001") (s : State) :
    Visits mark [] s (Flow.report n i s).2 := by
  have hone : ∀ j ∈ [i], j.code ≠ "VAL001" := List.forall_mem_singleton.mpr hi
  exact reportAll hone s

/-- The visit of a node notes its id first, and reports the node if the id was noted before. -/
theorem noteId (n : Node) (s : State) :
    (∀ id, id ∈ (Flow.noteId n s).2.seen ↔ id ∈ n.id :: s.seen) ∧
      (Flow.noteId n s).2.repetitions =
        s.repetitions ++ (if n.id ∈ s.seen then [n] else []).map repeatReport ∧
      (Flow.noteId n s).2.kinds = s.kinds := by
  rw [noteId_eq]
  by_cases hseen : n.id ∈ s.seen
  · rw [if_pos (List.contains_iff_mem.mpr hseen), if_pos hseen]
    refine ⟨fun id => ⟨List.mem_cons_of_mem _, fun hid => ?_⟩, ?_, rfl⟩
    · obtain rfl | hid := List.mem_cons.mp hid
      · exact hseen
      · exact hid
    · unfold State.repetitions
      rw [report_findings, Array.toList_push, List.filter_append]
      rfl
  · rw [if_neg fun hmem => hseen (List.contains_iff_mem.mp hmem), if_neg hseen]
    exact ⟨fun id => .rfl, (List.append_nil _).symm, rfl⟩

theorem visitAs {form : Check ValueKind} (hform : ∀ s, Visits mark ns s (form s).2) (s : State) :
    Visits mark (n :: ns) s (Flow.visitAs mark n form s).2 := by
  obtain ⟨hseen, hrepetitions, hkinds⟩ := noteId n s
  have hshape : ∀ i ∈ n.shapeIssues, i.code ≠ "VAL001" := ne_of_mem_shapeIssues (by decide)
  have hbelow := (reportAll (n := n) hshape (Flow.noteId n s).2).trans (hform _)
  rw [List.nil_append] at hbelow
  obtain ⟨new, hnew, hperm⟩ := hbelow.kinds
  refine ⟨fun id => ?_, ?_, (mark n, _) :: new, congrArg _ (hnew.trans (congrArg _ hkinds)),
    hperm.cons (mark n)⟩
  · have hid := hbelow.seen id
    rw [hseen, List.mem_cons] at hid
    rw [List.map_cons, List.mem_cons, or_left_comm, ← or_assoc]
    exact hid
  · have hrest : repeats (Flow.noteId n s).2.seen ns = repeats (n.id :: s.seen) ns :=
      repeats_congr hseen ns
    have hall := hbelow.repetitions
    rw [hrepetitions, hrest, List.append_assoc, ← List.map_append] at hall
    exact hall

end Visits

theorem traversal_visits {ctx : Context} (mark : Node → String) (nodes : List Node) :
    Traversal ctx ctx.permissions mark mark nodes
      (fun _ ns step _ => ∀ s, Visits mark ns s (step s).2) where
  pure _ s := .refl s
  bind hstep hf s := (hstep s).trans (hf _ _)
  get hf s := hf s s rfl s
  scope _ _ := .of_eq rfl rfl rfl
  report _ hi s := Visits.report (hi.code_ne (by decide) (by decide) (by decide)) s
  denial {n p} _ _ s := by
    cases ctx.permissions.contains p with
    | true => exact .refl s
    | false => exact Visits.report (i := .denied p) (show "VAL040" ≠ "VAL001" by decide) s
  visit _ hform s := Visits.visitAs hform s

/-! ## 3. Whole validations -/

/-- A validation has the findings of the pass, where the structural pass finds nothing. -/
theorem validate_of_wellFormed {root : Node} (hshape : structuralReport root = []) (env : TypeEnv)
    (permissions : List String) (structural : Bool) :
    validate root env permissions structural = (run root env permissions).findings.toList := by
  unfold validate
  rw [hshape, ite_self]
  rfl

/-- The pass with marks has the findings of the pass. -/
theorem findings_checkAs (root : Node) (env : TypeEnv) (permissions : List String)
    (mark : Node → String) :
    (checkAs (contextOf root permissions) mark root (start root env)).2.findings.toList =
      (run root env permissions).findings.toList := by
  have hgranted := granted_check (List.Subset.refl permissions) Node.id mark root env
  rw [← run_eq] at hgranted
  rw [hgranted.findings]
  refine List.filter_eq_self.mpr fun d hd => ?_
  have hmem : d ∈ validate root env permissions false := hd
  cases hdenies : denies permissions d with
  | false => rfl
  | true =>
    -- what is permitted is not denied
    obtain ⟨m, -, p, hheld, -, hmissing, -⟩ := exists_needs_of_denies
      (found_of_mem_validate d hmem) hdenies
    exact absurd hheld hmissing

theorem visits_check {root : Node} (hshape : structuralReport root = []) (env : TypeEnv)
    (permissions : List String) (mark : Node → String) :
    Visits mark root.walk (start root env)
      (checkAs (contextOf root permissions) mark root (start root env)).2 := by
  have htraversal : Traversal (contextOf root permissions) permissions mark mark root.walk
      (fun _ ns step _ => ∀ s, Visits mark ns s (step s).2) := traversal_visits mark root.walk
  rw [← visited_eq_walk (shapeIssues_of_structuralReport hshape)]
  exact htraversal.check (List.Subset.refl root.walk) (start root env)

/-- Ids that occur more than once are reported exactly. In a tree of well-formed nodes, the reports about
ids are those of the nodes whose id a node before them has, in pre-order. So for each id these are the
reports of its occurrences behind the first one, in order, which is one less than there are. There are no
findings about the shape of nodes. And the pass visits every node once: whatever the nodes are marked
with, keeping kinds under the marks it keeps one for each node, and finds the same. -/
theorem validate_repeats {root : Node} (hshape : structuralReport root = []) (env : TypeEnv)
    (permissions : List String) (structural : Bool) :
    let found := validate root env permissions structural
    found.filter (·.code == "VAL001") = (repeats [] root.walk).map repeatReport ∧
      (∀ id, (found.filter (·.code == "VAL001")).filter (·.nodeId? == some id) =
          (root.walk.filter (·.id == id)).tail.map repeatReport ∧
        ((found.filter (·.code == "VAL001")).filter (·.nodeId? == some id)).length =
          root.walk.countP (·.id == id) - 1) ∧
      (∀ d ∈ found, d.code ∉ ["VAL002", "VAL003", "VAL999"]) ∧
      ∀ mark : Node → String,
        let s := (checkAs (contextOf root permissions) mark root (start root env)).2
        s.findings.toList = found ∧ (s.kinds.map Prod.fst).Perm (root.walk.map mark) := by
  intro found
  have hfound : found = (run root env permissions).findings.toList :=
    validate_of_wellFormed hshape env permissions structural
  have hall : found.filter (·.code == "VAL001") = (repeats [] root.walk).map repeatReport := by
    have hvisits := (visits_check hshape env permissions Node.id).repetitions
    rw [← run_eq] at hvisits
    rw [hfound]
    exact hvisits
  have hone (id : String) : (found.filter (·.code == "VAL001")).filter (·.nodeId? == some id) =
      (root.walk.filter (·.id == id)).tail.map repeatReport := by
    have hfilter := filter_repeats id [] root.walk
    rw [if_neg List.not_mem_nil] at hfilter
    rw [hall, List.filter_map, ← hfilter]
    rfl
  refine ⟨hall, fun id => ⟨hone id, ?_⟩, fun d hd hcode => ?_, fun mark => ⟨?_, ?_⟩⟩
  · rw [hone, List.length_map, List.length_tail, List.countP_eq_length_filter]
  · obtain ⟨m, hm, i, hi, rfl⟩ := found_of_mem_validate d hd
    have hnone := hi.shape_of_code hcode
    rw [shapeIssues_of_structuralReport hshape m hm] at hnone
    cases hnone
  · rw [hfound]
    exact findings_checkAs root env permissions mark
  · obtain ⟨new, hnew, hperm⟩ := (visits_check hshape env permissions mark).kinds
    rw [hnew]
    exact (List.append_nil new).symm ▸ hperm

/-- A program in which the id `a` occurs three times, once inside of another node with it. -/
def thrice : Node :=
  let lit (id : String) : Node := { kind := "Lit", id, attrs := attrs [("value", .int 1)] }
  { kind := "Program"
    id := "p"
    children := [{ kind := "Block", id := "a", children := [lit "a", lit "b"] }, lit "a"] }

theorem validate_repeats_thrice :
    structuralReport thrice = [] ∧
      (((validate thrice ∅ [] true).filter (·.code == "VAL001")).filter
        (·.nodeId? == some "a")).length = 2 ∧
      ∀ mark : Node → String, ((checkAs (contextOf thrice []) mark thrice (start thrice ∅)).2.kinds.map
        Prod.fst).Perm (thrice.walk.map mark) := by
  have hshape : structuralReport thrice = [] := by decide
  obtain ⟨-, hone, -, hvisits⟩ := validate_repeats hshape ∅ [] true
  have hcount : thrice.walk.countP (·.id == "a") = 3 := by decide
  have hlength := (hone "a").2
  rw [hcount] at hlength
  exact ⟨hshape, hlength, fun mark => (hvisits mark).2⟩

end Arbor.Flow
