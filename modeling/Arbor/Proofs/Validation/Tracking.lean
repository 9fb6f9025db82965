import Arbor.Validation.Flow

/-!
# What the flow pass keeps track of

The pass only ever adds findings. As long as it finds nothing, every id that it notes is new, and it
keeps one kind for each: `Flow.tracks_check`, by induction on the tree.
-/

namespace Arbor.Flow

variable {α β : Type}

/-! ## 1. What every step keeps track of -/

/-- From the first state to the second the pass added findings, or it found nothing, noted ids and kept
a kind for each id that it noted in between. -/
structure Tracks (s s' : State) : Prop where
  findings : s.findings.toList <+: s'.findings.toList
  kinds : s'.findings = s.findings → ∃ new, s'.kinds = new ++ s.kinds ∧ (new.map Prod.fst).Nodup ∧
    (∀ id ∈ new.map Prod.fst, id ∉ s.seen ∧ id ∈ s'.seen)
  seen : s.seen ⊆ s'.seen

namespace Tracks

theorem of_eq {s s' : State} (hfindings : s.findings.toList <+: s'.findings.toList)
    (hkinds : s'.kinds = s.kinds) (hseen : s.seen ⊆ s'.seen) : Tracks s s' :=
  ⟨hfindings, fun _ => ⟨[], hkinds, .nil, by simp⟩, hseen⟩

theorem refl (s : State) : Tracks s s := of_eq (List.prefix_refl _) rfl (List.Subset.refl _)

/-- Where nothing was found from one state to the last, nothing was found up to one in between. -/
theorem clean {s u v : State} (h : Tracks s u) (h' : Tracks u v) (hclean : v.findings = s.findings) :
    u.findings = s.findings ∧ v.findings = u.findings := by
  have hsu := h.findings
  have huv := h'.findings
  rw [hclean] at huv
  have heq : u.findings = s.findings :=
    Array.toList_inj.mp (huv.eq_of_length (Nat.le_antisymm huv.length_le hsu.length_le))
  exact ⟨heq, hclean.trans heq.symm⟩

theorem trans {s u v : State} (h : Tracks s u) (h' : Tracks u v) : Tracks s v where
  findings := h.findings.trans h'.findings
  seen := List.Subset.trans h.seen h'.seen
  kinds hclean := by
    obtain ⟨hsu, huv⟩ := h.clean h' hclean
    obtain ⟨first, hfirst, hnodup, hids⟩ := h.kinds hsu
    obtain ⟨second, hsecond, hnodup', hids'⟩ := h'.kinds huv
    refine ⟨second ++ first, by rw [hsecond, hfirst, List.append_assoc], ?_, ?_⟩
    · rw [List.map_append]
      -- what was noted later was not noted earlier
      refine List.nodup_append.mpr ⟨hnodup', hnodup, ?_⟩
      rintro id hid _ hid' rfl
      exact (hids' id hid).1 (hids id hid').2
    · intro id hid
      rw [List.map_append, List.mem_append] at hid
      obtain hid | hid := hid
      · exact ⟨fun hmem => (hids' id hid).1 (h.seen hmem), (hids' id hid).2⟩
      · exact ⟨(hids id hid).1, h'.seen (hids id hid).2⟩

end Tracks

/-- The step keeps track wherever it starts. -/
def Tracked (step : Check α) : Prop := ∀ s, Tracks s (step s).2

namespace Tracked

theorem pure (a : α) : Tracked (Pure.pure a : Check α) := fun s => .refl s

theorem bind {step : Check α} {f : α → Check β} (hstep : Tracked step) (hf : ∀ a, Tracked (f a)) :
    Tracked (step >>= f) :=
  fun s => (hstep s).trans (hf _ _)

theorem report (n : Node) (i : Issue) : Tracked (Flow.report n i) := by
  refine fun s => .of_eq ?_ rfl (List.Subset.refl _)
  show s.findings.toList <+: (s.findings.push (i.report n)).toList
  rw [Array.toList_push]
  exact List.prefix_append _ _

theorem reportAll (n : Node) (is : List Issue) : Tracked (Flow.reportAll n is) := by
  induction is with
  | nil => exact pure ()
  | cons i is ih => exact bind (report n i) fun _ => ih

theorem reportIf (condition : Bool) (n : Node) (i : Issue) :
    Tracked (Flow.reportIf condition n i) := by
  unfold Flow.reportIf
  split
  · exact report n i
  · exact pure ()

theorem scope (f : TypeEnv → TypeEnv) :
    Tracked (modify fun s : State => { s with env := f s.env }) :=
  fun _ => .of_eq (List.prefix_refl _) rfl (List.Subset.refl _)

theorem get : Tracked (get : Check State) := fun s => .refl s

theorem inCopy {step : Check α} (hstep : Tracked step) : Tracked (Flow.inCopy step) :=
  bind get fun s => bind hstep fun a => bind (scope fun _ => s.env) fun _ => pure a

theorem bindName (name : String) (kind : ValueKind) : Tracked (Flow.bind name kind) :=
  scope fun env => env.insert name kind

theorem declare (name : String) (child : Node) : Tracked (Flow.declare name child) := by
  unfold Flow.declare
  split
  · exact bindName _ _
  · exact pure ()

theorem bindParams (n : Node) : Tracked (Flow.bindParams n) :=
  scope fun env => env.insertAll _

theorem branchKind (n : Node) (thenKind elseKind : ValueKind) :
    Tracked (Flow.branchKind n thenKind elseKind) := by
  unfold Flow.branchKind
  split
  · exact pure _
  · split
    · exact pure _
    · exact bind (report n _) fun _ => pure _

theorem varKind (ctx : Context) (n : Node) : Tracked (Flow.varKind ctx n) := by
  unfold Flow.varKind
  split
  · exact pure _
  · refine bind get fun s => ?_
    split
    · exact pure _
    · exact bind (reportIf _ _ _) fun _ => pure _

theorem callKind (ctx : Context) (n : Node) (args : List ValueKind) :
    Tracked (Flow.callKind ctx n args) :=
  bind get fun _ => bind (reportAll n _) fun _ => pure _

section Children

variable {children : List Child} (hchildren : ∀ c ∈ children, Tracked c.check)
include hchildren

theorem checkAll : Tracked (Flow.checkAll children) := by
  induction children with
  | nil => exact pure []
  | cons c cs ih =>
    obtain ⟨hc, hcs⟩ := List.forall_mem_cons.mp hchildren
    exact bind hc fun _ => bind (ih hcs) fun _ => pure _

theorem checkBind (n : Node) : Tracked (Flow.checkBind n children) := by
  unfold Flow.checkBind
  split
  · next child =>
    have hchild := hchildren child List.mem_cons_self
    split
    · exact bind (declare _ _) fun _ => bind hchild fun _ => bind (bindName _ _) fun _ => pure _
    · exact bind hchild fun _ => pure _
  · split
    · exact bind (bindName _ _) fun _ => pure _
    · exact pure _

theorem checkFn (n : Node) : Tracked (Flow.checkFn n children) := by
  unfold Flow.checkFn
  split
  · next body =>
    have hbody := hchildren body List.mem_cons_self
    exact bind (reportIf _ _ _) fun _ => bind (inCopy (bind (bindParams n) fun _ => hbody)) fun _ =>
      pure _
  · exact pure _

theorem checkBranch (n : Node) : Tracked (Flow.checkBranch n children) := by
  unfold Flow.checkBranch
  split
  · exact pure _
  · next condition =>
    exact bind (hchildren condition (by simp)) fun _ => bind (reportIf _ _ _) fun _ => pure _
  · next condition thenArm =>
    have hthen := hchildren thenArm (by simp)
    exact bind (hchildren condition (by simp)) fun _ => bind (reportIf _ _ _) fun _ =>
      bind (reportIf _ _ _) fun _ => bind (inCopy hthen) fun _ => pure _
  · next condition thenArm elseArm _ =>
    have hthen := hchildren thenArm (by simp)
    have helse := hchildren elseArm (by simp)
    exact bind (hchildren condition (by simp)) fun _ => bind (reportIf _ _ _) fun _ =>
      bind (reportIf _ _ _) fun _ => bind (reportIf _ _ _) fun _ => bind (inCopy hthen) fun _ =>
      bind (inCopy helse) fun _ => branchKind n _ _

theorem checkLeave : Tracked (Flow.checkLeave children) := by
  unfold Flow.checkLeave
  split
  · exact pure _
  · next child _ => exact hchildren child List.mem_cons_self

theorem checkExport (n : Node) : Tracked (Flow.checkExport n children) := by
  unfold Flow.checkExport
  split
  · next child _ => exact bind (hchildren child List.mem_cons_self) fun _ => pure _
  · split
    · exact bind get fun _ => bind (reportIf _ _ _) fun _ => pure _
    · exact pure _

theorem checkForm (ctx : Context) (n : Node) : Tracked (Flow.checkForm ctx n children) := by
  unfold Flow.checkForm
  split
  · exact pure _
  · exact bind (checkAll hchildren) fun _ => pure _
  · exact bind (checkAll hchildren) fun _ => pure _
  · exact checkBind hchildren n
  · exact varKind ctx n
  · exact pure _
  · exact bind (checkAll hchildren) fun _ => callKind ctx n _
  · exact checkFn hchildren n
  · exact checkBranch hchildren n
  · exact checkLeave hchildren
  · exact pure _
  · exact checkExport hchildren n
  · exact bind (checkAll hchildren) fun _ => bind (reportAll n _) fun _ => pure _

end Children

end Tracked

theorem noteId_eq (n : Node) (s : State) :
    (noteId n s).2 =
      if s.seen.contains n.id then (report n (.duplicateId n.id) s).2
      else { s with seen := n.id :: s.seen } := by
  show ((if s.seen.contains n.id then report n (.duplicateId n.id)
    else set { s with seen := n.id :: s.seen } : Check Unit) s).2 = _
  split <;> rfl

theorem report_findings (n : Node) (i : Issue) (s : State) :
    (report n i s).2.findings = s.findings.push (i.report n) := rfl

/-- A report is a finding. -/
theorem report_ne (n : Node) (i : Issue) (s : State) : (report n i s).2.findings ≠ s.findings := by
  intro h
  have hsize := congrArg Array.size h
  rw [report_findings, Array.size_push] at hsize
  omega

/-- When the pass finds nothing new at a node, the id of the node is a new one. -/
theorem noteId_clean {n : Node} {s : State} (h : (noteId n s).2.findings = s.findings) :
    n.id ∉ s.seen ∧ (noteId n s).2 = { s with seen := n.id :: s.seen } := by
  rw [noteId_eq] at h ⊢
  by_cases hseen : s.seen.contains n.id = true
  · rw [if_pos hseen] at h
    exact absurd h (report_ne n _ s)
  · rw [if_neg hseen]
    exact ⟨by simpa using hseen, rfl⟩

theorem tracks_noteId (n : Node) (s : State) : Tracks s (noteId n s).2 := by
  rw [noteId_eq]
  split
  · exact Tracked.report n _ s
  · exact .of_eq (List.prefix_refl _) rfl (List.subset_cons_self _ _)

/-- The visit of a node notes its id before what is below it, and keeps its kind after that. -/
theorem tracked_visit (n : Node) {form : Check ValueKind} (hform : Tracked form) :
    Tracked (visit n form) := by
  intro s
  have hnoted := tracks_noteId n s
  have hbelow := Tracked.bind (Tracked.reportAll n n.shapeIssues) (fun _ => hform) (noteId n s).2
  have hclean := noteId_clean (n := n) (s := s)
  show Tracks s (keep n.id ((reportAll n n.shapeIssues >>= fun _ => form) (noteId n s).2).1
    ((reportAll n n.shapeIssues >>= fun _ => form) (noteId n s).2).2).2
  generalize (reportAll n n.shapeIssues >>= fun _ => form) (noteId n s).2 = below at hbelow ⊢
  generalize (noteId n s).2 = u at hnoted hbelow hclean
  obtain ⟨k, v⟩ := below
  show Tracks s { v with kinds := (n.id, k) :: v.kinds }
  have hall := hnoted.trans hbelow
  refine ⟨hall.findings, fun hv => ?_, hall.seen⟩
  obtain ⟨hsu, huv⟩ := hnoted.clean hbelow hv
  obtain ⟨hnew, rfl⟩ := hclean hsu
  obtain ⟨new, hkinds, hnodup, hids⟩ := hbelow.kinds huv
  refine ⟨(n.id, k) :: new, congrArg _ hkinds, ?_, ?_⟩
  · exact List.nodup_cons.mpr ⟨fun hid => (hids n.id hid).1 List.mem_cons_self, hnodup⟩
  · intro id hid
    obtain rfl | hid := List.mem_cons.mp hid
    · exact ⟨hnew, hbelow.seen List.mem_cons_self⟩
    · exact ⟨fun hmem => (hids id hid).1 (List.mem_cons_of_mem _ hmem), (hids id hid).2⟩

mutual

theorem tracked_check (ctx : Context) : ∀ n, Tracked (check ctx n)
  | ⟨kind, id, attrs, children, span⟩ =>
    tracked_visit ⟨kind, id, attrs, children, span⟩
      (.checkForm (tracked_checks ctx children) ctx ⟨kind, id, attrs, children, span⟩)

theorem tracked_checks (ctx : Context) : ∀ ns, ∀ c ∈ checks ctx ns, Tracked c.check
  | [] => fun _ hc => absurd hc List.not_mem_nil
  | n :: ns => List.forall_mem_cons.mpr ⟨tracked_check ctx n, tracked_checks ctx ns⟩

end

/-! ## 2. Passing without a finding -/

/-- From the first state to the second the step comes to `a` and finds nothing. All the kinds kept by
then are in `final`, where those of the whole pass are. -/
structure Passes (final : List (String × ValueKind)) (step : Check α) (s : State) (a : α)
    (s' : State) : Prop where
  eq : step s = (a, s')
  clean : s'.findings = s.findings
  kept : s'.kinds <:+ final

namespace Passes

variable {final : List (String × ValueKind)} {s s' : State}

theorem bind {step : Check α} {f : α → Check β} {b : β} (hstep : Tracked step)
    (hf : ∀ a, Tracked (f a)) (h : Passes final (step >>= f) s b s') :
    ∃ a u, Passes final step s a u ∧ Passes final (f a) u b s' := by
  obtain ⟨heq, hclean, hkept⟩ := h
  have hfirst := hstep s
  have hsecond := hf (step s).1 (step s).2
  have hrest : f (step s).1 (step s).2 = (b, s') := heq
  rw [hrest] at hsecond
  obtain ⟨hsu, hus⟩ := hfirst.clean hsecond hclean
  obtain ⟨new, hnew, -⟩ := hsecond.kinds hus
  exact ⟨_, _, ⟨rfl, hsu, .trans ⟨new, hnew.symm⟩ hkept⟩, ⟨hrest, hus, hkept⟩⟩

theorem pure {a b : α} (h : Passes final (Pure.pure a) s b s') : b = a ∧ s' = s := by
  obtain ⟨heq, -, -⟩ := h
  cases heq
  exact ⟨rfl, rfl⟩

theorem report {n : Node} {i : Issue} {u : Unit} (h : Passes final (Flow.report n i) s u s') :
    False :=
  report_ne n i s (congrArg Prod.snd h.eq ▸ h.clean)

theorem reportIf {condition : Bool} {n : Node} {i : Issue} {u : Unit}
    (h : Passes final (Flow.reportIf condition n i) s u s') : condition = false ∧ s' = s := by
  cases condition with
  | false => exact ⟨rfl, h.pure.2⟩
  | true => exact (report h).elim

theorem reportAll {n : Node} {is : List Issue} {u : Unit}
    (h : Passes final (Flow.reportAll n is) s u s') : is = [] ∧ s' = s := by
  cases is with
  | nil => exact ⟨rfl, h.pure.2⟩
  | cons i is =>
    obtain ⟨_, _, hreport, -⟩ := h.bind (.report n i) fun _ => .reportAll n is
    exact hreport.report.elim

/-- What passes behind a report passes by itself. -/
theorem unreported {condition : Bool} {n : Node} {i : Issue} {step : Check α} {a : α}
    (hstep : Tracked step)
    (h : Passes final (Flow.reportIf condition n i >>= fun _ => step) s a s') :
    Passes final step s a s' := by
  obtain ⟨_, u, hreport, hrest⟩ := h.bind (.reportIf _ _ _) fun _ => hstep
  obtain ⟨-, rfl⟩ := hreport.reportIf
  exact hrest

theorem inCopy {step : Check α} {a : α} (hstep : Tracked step)
    (h : Passes final (Flow.inCopy step) s a s') :
    s'.env = s.env ∧ ∃ u, Passes final step s a u := by
  obtain ⟨_, v, hget, h⟩ := h.bind .get fun s => .bind hstep fun a =>
    .bind (.scope fun _ => s.env) fun _ => .pure a
  cases hget.eq
  obtain ⟨b, u, hu, h⟩ := h.bind hstep fun a => .bind (.scope fun _ => s.env) fun _ => .pure a
  obtain ⟨_, w, hset, h⟩ := h.bind (.scope fun _ => s.env) fun _ => .pure b
  cases hset.eq
  obtain ⟨rfl, rfl⟩ := h.pure
  exact ⟨rfl, u, hu⟩

theorem declare {name : String} {child : Node} {u : Unit}
    (h : Passes final (Flow.declare name child) s u s') :
    s'.env = if child.isFn then s.env.insert name .function else s.env := by
  unfold Flow.declare at h
  cases hfn : child.isFn with
  | true =>
    rw [hfn] at h
    cases h.eq
    rfl
  | false =>
    rw [hfn] at h
    rw [h.pure.2]
    rfl

theorem varKind {ctx : Context} {n : Node} {k : ValueKind}
    (h : Passes final (Flow.varKind ctx n) s k s') :
    s' = s ∧ k = ((n.ident? "name").bind s.env.find?).getD .unknown := by
  unfold Flow.varKind at h
  split at h
  · next hname =>
    obtain ⟨rfl, rfl⟩ := h.pure
    rw [hname]
    exact ⟨rfl, rfl⟩
  · next name hname =>
    rw [hname, Option.bind_some]
    obtain ⟨_, u, hget, h⟩ := h.bind .get fun s => by
      cases s.env.find? name with
      | some kind => exact .pure kind
      | none => exact .bind (.reportIf _ _ _) fun _ => .pure _
    cases hget.eq
    cases hfind : s.env.find? name with
    | some kind =>
      rw [hfind] at h
      obtain ⟨rfl, rfl⟩ := h.pure
      exact ⟨rfl, rfl⟩
    | none =>
      rw [hfind] at h
      dsimp only at h
      obtain ⟨rfl, rfl⟩ := (h.unreported (.pure _)).pure
      exact ⟨rfl, rfl⟩

theorem branchKind {n : Node} {thenKind elseKind k : ValueKind}
    (h : Passes final (Flow.branchKind n thenKind elseKind) s k s') :
    s' = s ∧ (k = .unknown ∨ k = thenKind ∧ k = elseKind) := by
  unfold Flow.branchKind at h
  split at h
  · next heq =>
    obtain ⟨rfl, rfl⟩ := h.pure
    exact ⟨rfl, .inr ⟨rfl, heq⟩⟩
  · split at h
    · obtain ⟨rfl, rfl⟩ := h.pure
      exact ⟨rfl, .inl rfl⟩
    · obtain ⟨_, _, hreport, -⟩ := h.bind (.report n _) fun _ => .pure _
      exact hreport.report.elim

section Branches

variable {n : Node} {condition thenArm elseArm : Child} {k : ValueKind}
  (hcondition : Tracked condition.check) (hthen : Tracked thenArm.check)
include hcondition hthen

/-- The arm of a branch without an else passes in the scope behind the condition, which is the scope
behind the branch as well. -/
theorem branchThen (h : Passes final (Flow.checkBranch n [condition, thenArm]) s k s') :
    k = .void ∧ ∃ conditionKind thenKind u v, Passes final condition.check s conditionKind u ∧
      Passes final thenArm.check u thenKind v ∧ s'.env = u.env := by
  have hlast : Tracked (do
      let _ ← Flow.inCopy thenArm.check
      Pure.pure ValueKind.void) := .bind (.inCopy hthen) fun _ => .pure _
  obtain ⟨conditionKind, u, hfirst, h⟩ := h.bind hcondition fun _ =>
    .bind (.reportIf _ _ _) fun _ => .bind (.reportIf _ _ _) fun _ => hlast
  have h := (h.unreported (.bind (.reportIf _ _ _) fun _ => hlast)).unreported hlast
  obtain ⟨thenKind, u', hcopy, h⟩ := h.bind (.inCopy hthen) fun _ => .pure _
  obtain ⟨rfl, rfl⟩ := h.pure
  obtain ⟨hscope, v, hsecond⟩ := hcopy.inCopy hthen
  exact ⟨rfl, conditionKind, thenKind, u, v, hfirst, hsecond, hscope⟩

/-- Both arms of a branch pass in the scope behind the condition, which may be a truth value, and the
kinds of the arms are joined there. -/
theorem branchElse (helse : Tracked elseArm.check)
    (h : Passes final (Flow.checkBranch n [condition, thenArm, elseArm]) s k s') :
    ∃ conditionKind thenKind elseKind u u' v w, Passes final condition.check s conditionKind u ∧
      conditionKind.fits .bool = true ∧ Passes final thenArm.check u thenKind v ∧
      Passes final elseArm.check u' elseKind w ∧ u'.env = u.env ∧ s'.env = u.env ∧
      Passes final (Flow.branchKind n thenKind elseKind) s' k s' := by
  have hlast : Tracked (do
      let thenKind ← Flow.inCopy thenArm.check
      let elseKind ← Flow.inCopy elseArm.check
      Flow.branchKind n thenKind elseKind) :=
    .bind (.inCopy hthen) fun _ => .bind (.inCopy helse) fun _ => .branchKind n _ _
  have hreports := Tracked.bind (.reportIf (!elseArm.node.isBlock) n .elseNotBlock) fun _ => hlast
  have hreports' := Tracked.bind (.reportIf (!thenArm.node.isBlock) n .thenNotBlock) fun _ => hreports
  obtain ⟨conditionKind, u, hfirst, hrest⟩ := h.bind hcondition fun _ => .bind (.reportIf _ _ _)
    fun _ => hreports'
  have hfits : conditionKind.fits .bool = true := by
    obtain ⟨_, _, hreport, -⟩ := hrest.bind (.reportIf _ _ _) fun _ => hreports'
    simpa using hreport.reportIf.1
  have h := ((hrest.unreported hreports').unreported hreports).unreported hlast
  obtain ⟨thenKind, u', hcopy, h⟩ := h.bind (.inCopy hthen) fun _ =>
    .bind (.inCopy helse) fun _ => .branchKind n _ _
  obtain ⟨elseKind, u'', hcopy', h⟩ := h.bind (.inCopy helse) fun _ => .branchKind n _ _
  obtain rfl := h.branchKind.1
  obtain ⟨hscope, v, hsecond⟩ := hcopy.inCopy hthen
  obtain ⟨hscope', w, hthird⟩ := hcopy'.inCopy helse
  exact ⟨conditionKind, thenKind, elseKind, u, u', v, w, hfirst, hfits, hsecond,
    hthird, hscope, hscope'.trans hscope, h⟩

end Branches

theorem callKind {ctx : Context} {n : Node} {args : List ValueKind} {k : ValueKind}
    (h : Passes final (Flow.callKind ctx n args) s k s') :
    s' = s ∧ callIssues ctx s.env ((n.text? "target").getD "") args = ([], k) := by
  obtain ⟨_, u, hget, h⟩ := h.bind .get fun _ => .bind (.reportAll n _) fun _ => .pure _
  cases hget.eq
  obtain ⟨_, v, hreport, h⟩ := h.bind (.reportAll n _) fun _ => .pure _
  obtain ⟨hissues, rfl⟩ := hreport.reportAll
  obtain ⟨rfl, rfl⟩ := h.pure
  exact ⟨rfl, Prod.ext hissues rfl⟩

theorem visit {n : Node} {form : Check ValueKind} {k : ValueKind} (hform : Tracked form)
    (h : Passes final (Flow.visit n form) s k s') :
    n.shapeIssues = [] ∧ (n.id, k) ∈ final ∧
      ∃ u u', u.env = s.env ∧ u'.env = s'.env ∧ Passes final form u k u' := by
  obtain ⟨heq, hclean, hkept⟩ := h
  have hnoted := tracks_noteId n s
  have hbelow := Tracked.bind (Tracked.reportAll n n.shapeIssues) (fun _ => hform) (noteId n s).2
  have hid := noteId_clean (n := n) (s := s)
  change keep n.id ((Flow.reportAll n n.shapeIssues >>= fun _ => form) (noteId n s).2).1
    ((Flow.reportAll n n.shapeIssues >>= fun _ => form) (noteId n s).2).2 = (k, s') at heq
  generalize (noteId n s).2 = u at hnoted hbelow hid heq
  rcases hrest : (Flow.reportAll n n.shapeIssues >>= fun _ => form) u with ⟨k', v⟩
  rw [hrest] at hbelow heq
  obtain ⟨rfl, rfl⟩ := Prod.mk.inj heq
  obtain ⟨hsu, huv⟩ := hnoted.clean hbelow hclean
  have hpasses : Passes final (Flow.reportAll n n.shapeIssues >>= fun _ => form) u k' v :=
    ⟨hrest, huv, (List.suffix_cons _ _).trans hkept⟩
  obtain ⟨_, w, hreport, hlast⟩ := hpasses.bind (.reportAll n _) fun _ => hform
  obtain ⟨hshape, rfl⟩ := hreport.reportAll
  exact ⟨hshape, hkept.mem List.mem_cons_self, w, v, by rw [(hid hsu).2], rfl, hlast⟩

end Passes

end Arbor.Flow
