import Arbor.Patch

/-!
# Batches of operations

An operation looks at all that it needs before it edits the tree, so one that fails leaves the tree as
it was (`Patch.unchanged_of_error`). A batch is therefore the sequence of its operations, each applied
by itself, and the operations that succeed come to the same tree alone (`applyPatch_batch`).
-/

namespace Arbor

namespace Patch

/-! ## 1. Operations that fail -/

/-- The edit of the tree succeeds, or it leaves the tree as it was. -/
def AllOrNothing {α : Type} (e : Edit α) (root : Node) : Prop :=
  ∀ f, (e.on root).1 = .error f → (e.on root).2 = root

namespace AllOrNothing

variable {α : Type} {root : Node}

theorem get {f : Node → Edit α} (h : AllOrNothing (f root) root) :
    AllOrNothing (MonadState.get >>= f) root := h

theorem set (root' : Node) : AllOrNothing (MonadState.set root') root := by
  rintro f ⟨⟩

theorem throw (f : Failure) : AllOrNothing (MonadExcept.throw f : Edit α) root := fun _ _ => rfl

theorem fulfil (r : Request) : AllOrNothing (Patch.fulfil r) root := by
  cases r with
  | replace id replacement =>
    refine .get ?_
    split
    · exact .set _
    · split
      · exact .set _
      · exact .throw _
  | delete id =>
    refine .get ?_
    split
    · exact .throw _
    · split
      · exact .set _
      · exact .throw _
  | insert parentId slot index child =>
    refine .get ?_
    split
    · exact .throw _
    · split
      · exact .throw _
      · split
        · exact .throw _
        · dsimp only
          split
          · exact .set _
          · exact .throw _

end AllOrNothing

theorem on_applyOp (op root : Node) :
    (applyOp op).on root =
      match request op with
      | .ok r => (fulfil r).on root
      | .error f => (.error f, root) := by
  unfold applyOp
  cases request op <;> rfl

/-- An operation that fails leaves the tree as it was. -/
theorem unchanged_of_error {op root root' : Node} {f : Failure}
    (h : (applyOp op).on root = (.error f, root')) : root' = root := by
  rw [on_applyOp] at h
  cases hrequest : request op with
  | error g =>
    rw [hrequest] at h
    cases h
    rfl
  | ok r =>
    rw [hrequest] at h
    have hnothing : AllOrNothing (fulfil r) root := .fulfil r
    dsimp only at h
    have hunchanged := hnothing f
    rw [h] at hunchanged
    exact hunchanged rfl

/-! ## 2. Batches -/

/-- The operations of a batch that succeed, each in its place in the batch. -/
def succeeded (root : Node) : List Node → List Node
  | [] => []
  | op :: ops =>
    match (applyOp op).on root with
    | (.ok (), root') => op :: succeeded root' ops
    | (.error _, root') => succeeded root' ops

/-- The tree after the operations, each applied in a call of its own, and all reports in order. -/
def applyEach (root : Node) (ops : List Node) : Node × List Diagnostic :=
  ops.foldl
    (fun done op =>
      let (root', reports) := applyPatch done.1 [op]
      (root', done.2 ++ reports))
    (root, [])

end Patch

open Patch

theorem applyPatch_of_ok {op root root' : Node} (h : (applyOp op).on root = (.ok (), root'))
    (ops : List Node) : applyPatch root (op :: ops) = applyPatch root' ops := by
  rw [applyPatch, h]

theorem applyPatch_of_error {op root root' : Node} {f : Failure}
    (h : (applyOp op).on root = (.error f, root')) (ops : List Node) :
    applyPatch root (op :: ops) =
      ((applyPatch root ops).1, f.report root op :: (applyPatch root ops).2) := by
  rw [applyPatch, h, unchanged_of_error h]

/-- The first operation of a batch can be applied by itself, and the others to what it leaves. -/
theorem applyPatch_cons (root op : Node) (ops : List Node) :
    applyPatch root (op :: ops) =
      ((applyPatch (applyPatch root [op]).1 ops).1,
        (applyPatch root [op]).2 ++ (applyPatch (applyPatch root [op]).1 ops).2) := by
  obtain ⟨outcome, root', h⟩ : ∃ outcome root', (applyOp op).on root = (outcome, root') :=
    ⟨_, _, rfl⟩
  cases outcome with
  | ok u => rw [applyPatch_of_ok h, applyPatch_of_ok h]; rfl
  | error f => rw [applyPatch_of_error h, applyPatch_of_error h]; rfl

theorem applyEach_from (ops : List Node) (root : Node) (reports : List Diagnostic) :
    ops.foldl
        (fun (done : Node × List Diagnostic) op =>
          ((applyPatch done.1 [op]).1, done.2 ++ (applyPatch done.1 [op]).2)) (root, reports) =
      ((applyPatch root ops).1, reports ++ (applyPatch root ops).2) := by
  -- the reports so far stand in front of those of the operations to come
  induction ops generalizing root reports with
  | nil => rw [List.foldl_nil, applyPatch, List.append_nil]
  | cons op ops ih =>
    rw [List.foldl_cons, ih, applyPatch_cons root op ops, List.append_assoc]

theorem applyPatch_succeeded (root : Node) (ops : List Node) :
    applyPatch root (succeeded root ops) = ((applyPatch root ops).1, []) := by
  induction ops generalizing root with
  | nil => rfl
  | cons op ops ih =>
    obtain ⟨outcome, root', h⟩ : ∃ outcome root', (applyOp op).on root = (outcome, root') :=
      ⟨_, _, rfl⟩
    rw [succeeded, h]
    cases outcome with
    | ok u => rw [applyPatch_of_ok h, applyPatch_of_ok h, ih]
    | error f =>
      -- the tree that the failed operation leaves is the one it was applied to
      obtain rfl := unchanged_of_error h
      rw [applyPatch_of_error h, ih]

/-- A batch of any operations is the sequence of those that succeed. An operation that fails leaves the
tree as it was and makes one report, and one that succeeds makes none. The batch comes to the tree and
the reports of its operations in calls of their own, one after the other. And the operations that
succeed in it, applied alone, all succeed and come to the same tree. -/
theorem applyPatch_batch (root : Node) (ops : List Node) :
    (∀ tree op, match (applyOp op).on tree with
      | (.ok (), tree') => applyPatch tree [op] = (tree', [])
      | (.error f, tree') => tree' = tree ∧ applyPatch tree [op] = (tree, [f.report tree op])) ∧
      applyPatch root ops = applyEach root ops ∧
      applyPatch root (succeeded root ops) = ((applyPatch root ops).1, []) := by
  refine ⟨fun tree op => ?_, ?_, applyPatch_succeeded root ops⟩
  · split
    · next tree' h => exact applyPatch_of_ok h []
    · next f tree' h => exact ⟨unchanged_of_error h, applyPatch_of_error h []⟩
  · exact (applyEach_from ops root []).symm

end Arbor
