import Arbor.Proofs.Evaluation.Frames
import Arbor.Proofs.Evaluation.Runs

/-!
# What is entered is left

Evaluation enters and leaves calls, modules, scopes of exports and nested evaluations, and it can end
inside any of them: with a value, by a `Return`, or with the whole run at an end. However it ends, all
that was entered has been left (`Eval.balanced_eval`). The trace and the records of the recorder have
only become longer, and no module that the session knew has changed.
-/

namespace Arbor

variable {σ : Type}

namespace Session

/-- What the second session has entered, it has left, and to the notes and modules of the first it has
only added. -/
structure Balanced (s u : Session σ) : Prop where
  callStack : u.callStack = s.callStack
  baseDir : u.baseDir = s.baseDir
  loading : u.modules.loading = s.modules.loading
  scopeCount : u.modules.exportScopes.length = s.modules.exportScopes.length
  outerScopes : u.modules.exportScopes.tail = s.modules.exportScopes.tail
  cache : ∀ path exports, s.modules.cache.find? path = some exports →
    u.modules.cache.find? path = some exports
  trace : u.trace = s.trace
  traceSteps : s.traceSteps.toList <+: u.traceSteps.toList
  recorder? : Option.Rel Recorder.Extends s.recorder? u.recorder?

namespace Balanced

theorem recorder?_refl (r? : Option Recorder) : Option.Rel Recorder.Extends r? r? := by
  cases r? with
  | none => exact .none
  | some r => exact .some (.refl r)

theorem refl (s : Session σ) : s.Balanced s :=
  ⟨rfl, rfl, rfl, rfl, rfl, fun _ _ h => h, rfl, List.prefix_refl _, recorder?_refl _⟩

theorem recorder?_trans {r? s? u? : Option Recorder} (h : Option.Rel Recorder.Extends r? s?)
    (h' : Option.Rel Recorder.Extends s? u?) : Option.Rel Recorder.Extends r? u? := by
  cases h with
  | none => exact h'
  | some h =>
    cases h' with
    | some h' => exact .some (h.trans h')

theorem trans {s u v : Session σ} (h : s.Balanced u) (h' : u.Balanced v) : s.Balanced v where
  callStack := h'.callStack.trans h.callStack
  baseDir := h'.baseDir.trans h.baseDir
  loading := h'.loading.trans h.loading
  scopeCount := h'.scopeCount.trans h.scopeCount
  outerScopes := h'.outerScopes.trans h.outerScopes
  cache path exports hs := h'.cache path exports (h.cache path exports hs)
  trace := h'.trace.trans h.trace
  traceSteps := h.traceSteps.trans h'.traceSteps
  recorder? := recorder?_trans h.recorder? h'.recorder?

theorem record (s : Session σ) {f : Recorder → Recorder} (hf : ∀ r : Recorder, r.Extends (f r)) :
    s.Balanced (s.record f) := by
  refine { refl s with recorder? := ?_ }
  unfold Session.record
  cases s.recorder? with
  | none => exact .none
  | some r => exact .some (hf r)

end Balanced

end Session

namespace Activation

theorem balanced_mapEnv (t : Activation σ) (f : Env → Env) :
    t.session.Balanced (t.mapEnv f).session := by
  unfold mapEnv
  split <;> exact { Session.Balanced.refl t.session with }

theorem balanced_noteStep (t : Activation σ) (n : Node) :
    t.session.Balanced (t.noteStep n).session := by
  have hrecorded := Session.Balanced.record t.session fun r =>
    r.extends_recordAstStep n t.env t.session.callStack.reverse
  refine { hrecorded with traceSteps := ?_ }
  unfold noteStep
  dsimp only
  by_cases htrace : t.session.trace = true
  · rw [if_pos htrace]
    exact Recorder.prefix_push _ _
  · rw [if_neg htrace]

theorem balanced_addExport (t : Activation σ) (name : String) (v : Value) :
    t.session.Balanced (t.addExport name v).session := by
  unfold addExport
  split
  · exact .refl _
  · next scope outer hscopes =>
    refine { Session.Balanced.refl t.session with scopeCount := ?_, outerScopes := ?_ }
    · simp [hscopes]
    · simp [hscopes]

theorem balanced_leaveCall {t u : Activation σ} {function : String} {env : Env}
    (h : (t.enterCall function env).session.Balanced u.session) :
    t.session.Balanced u.leaveCall.session := by
  have hstack : u.session.callStack = function :: t.session.callStack := h.callStack
  refine { h with callStack := ?_ }
  show u.session.callStack.tail = t.session.callStack
  rw [hstack, List.tail_cons]

theorem balanced_leaveModule {t u : Activation σ} {path : String}
    (h : (t.enterModule path).session.Balanced u.session) :
    t.session.Balanced (u.leaveModule path t.session.baseDir).session := by
  have hloading : u.session.modules.loading = path :: t.session.modules.loading := h.loading
  have hscopes : u.session.modules.exportScopes.tail = t.session.modules.exportScopes :=
    h.outerScopes
  refine { h with baseDir := rfl, loading := ?_, scopeCount := ?_, outerScopes := ?_ }
  · show u.session.modules.loading.erase path = t.session.modules.loading
    rw [hloading, List.erase_cons_head]
  · exact congrArg List.length hscopes
  · exact congrArg List.tail hscopes

/-- To keep the exports of a module that the session does not know changes none that it knows. -/
theorem balanced_keepExports {t u : Activation σ} {path : String} (exports : Exports)
    (hnew : t.session.modules.cache.find? path = none) (h : t.session.Balanced u.session) :
    t.session.Balanced (u.keepExports path exports).session := by
  refine { h with cache := ?_ }
  intro other found hfound
  have hne : other ≠ path := by
    rintro rfl
    rw [hnew] at hfound
    cases hfound
  show (u.session.modules.cache.insert path exports).find? other = some found
  rw [Dict.find?_insert_of_ne _ hne]
  exact h.cache other found hfound

end Activation

namespace Eval

variable [Host σ]

theorem balanced_ask (call : HostCall) (t : Activation σ) :
    t.session.Balanced (ask call t).2.session := by
  unfold ask
  split <;> exact { Session.Balanced.refl t.session with }

theorem balanced_serveHost (target : String) (args : List Value) (t : Activation σ) :
    t.session.Balanced (serveHost target args t).2.session := by
  have hrecorded (s : Session σ) (v : Value) (phase : CallPhase) :
      s.Balanced (s.recordCall target args v phase) :=
    .record s fun r => r.extends_recordSyscall _ _ _ _
  unfold serveHost
  dsimp only
  split
  · exact { hrecorded t.session _ _ with }
  · exact { hrecorded t.session _ _ with }
  · exact { Session.Balanced.refl t.session with }

theorem invariant_balanced :
    Invariant fun t u : Activation σ => t.session.Balanced u.session where
  refl t := .refl t.session
  trans h h' := h.trans h'
  note t n := t.balanced_noteStep n
  assign t f := t.balanced_mapEnv f
  serial t _ := { Session.Balanced.refl t.session with }
  record t _ hf := .record t.session hf
  exported t name v := t.balanced_addExport name v
  resolve t _ := balanced_ask _ t
  read t _ := balanced_ask _ t
  serve t target args _ := balanced_serveHost target args t
  nest h := { h with }
  isolate h := h
  call h := Activation.balanced_leaveCall h
  load _ hnew h :=
    ⟨Activation.balanced_leaveModule h, fun exports =>
      Activation.balanced_keepExports exports hnew (Activation.balanced_leaveModule h)⟩

end Eval

/-- The evaluation is as deep as before and in the same frames, of which only the innermost can have
changed, in a balanced session under the same limits and permissions. -/
structure Activation.Balanced (t u : Activation σ) : Prop
    extends Session.Balanced t.session u.session where
  depth : u.session.depth = t.session.depth
  frameCount : u.frames.length = t.frames.length
  outerFrames : u.frames.tail = t.frames.tail
  permissions : u.session.permissions = t.session.permissions
  readOnly : u.session.readOnly = t.session.readOnly
  strict : u.session.strict = t.session.strict
  maxDepth : u.session.maxDepth = t.session.maxDepth

variable [Host σ]

theorem Restores.frameCount {t u : Activation σ} (h : Restores t u) :
    u.frames.length = t.frames.length := by
  have houter := congrArg List.length h.outer
  have hframed := h.framed
  rw [← List.length_eq_zero_iff, ← List.length_eq_zero_iff] at hframed
  rw [List.length_tail, List.length_tail] at houter
  omega

theorem Activation.Balanced.of_restores {t u : Activation σ} (h : Restores t u)
    (hsession : t.session.Balanced u.session) : t.Balanced u where
  toBalanced := hsession
  depth := h.depth
  frameCount := h.frameCount
  outerFrames := h.outer
  permissions := h.permissions
  readOnly := h.readOnly
  strict := h.strict
  maxDepth := h.maxDepth

/-- However the evaluation of a node ends, all that it entered has been left. -/
theorem Eval.balanced_eval (fuel : Nat) (n : Node) (t : Activation σ) :
    t.Balanced (Eval.eval fuel n t).2 :=
  .of_restores (restores_eval fuel n t) (invariant_balanced.eval fuel n t)

/-- The same holds of every other run. -/
theorem Run.balanced_step (run : Run) (fuel : Nat) (t : Activation σ) :
    t.Balanced (run.step fuel t).2 :=
  .of_restores (run.keeps Eval.invariant_restores fuel t) (run.keeps Eval.invariant_balanced fuel t)

end Arbor
