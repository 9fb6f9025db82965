import Arbor.Proofs.Evaluation.Oversight

/-!
# Guards and observers are transparent

What limits an evaluation only cuts it short: as long as no limit is met, the evaluation is the same
under wider ones (`Eval.eval_under_wider_guards`). What observes a run makes no difference to it at
all (`Run.perform_unobserved`).

Both hold over every host, and the state of the host behind the run is the same in the two runs. So
they hold over a host that keeps a log of its calls, and the calls are the same in the same order.
-/

namespace Arbor

variable {σ : Type}

/-! ## 1. Guards -/

namespace Fault

/-- The codes of the faults by which a session limits a run: a name that may not be bound, the
depth, and an unknown value in a strict session. -/
def guardCodes : List String := ["RUN001", "RUN002", "RUN003"]

end Fault

/-- The session with guards that let more pass: these names are read-only, this depth is allowed,
and unknown values are. -/
def Session.withGuards (s : Session σ) (readOnly : List String) (maxDepth : Nat) : Session σ :=
  { s with readOnly, maxDepth, strict := false }

/-- The second run has these guards, which are wider than those of the first one. -/
def Laxity.ofGuards (σ : Type) (readOnly : List String) (maxDepth : Nat) : Laxity σ where
  allows o o' := o' = { o with readOnly, maxDepth, strict := false } ∧ readOnly ⊆ o.readOnly ∧
    o.maxDepth ≤ maxDepth
  excuses h := ∃ f, h = .fault f ∧ f.code ∈ Fault.guardCodes
  note := by
    rintro t o ⟨rfl, hreadOnly, hdepth⟩ n
    exact ⟨rfl, hreadOnly, hdepth⟩
  record := by
    rintro s o ⟨rfl, hreadOnly, hdepth⟩ f
    exact ⟨rfl, hreadOnly, hdepth⟩
  readOnly := by
    rintro o o' ⟨rfl, hreadOnly, _⟩
    exact .inr ⟨hreadOnly, fun name id => ⟨_, rfl, by simp [Fault.code, Fault.guardCodes]⟩⟩
  strict := by
    rintro o o' ⟨rfl, _, _⟩
    exact .inr ⟨rfl, fun id => ⟨_, rfl, by simp [Fault.code, Fault.guardCodes]⟩⟩
  depth := by
    rintro o o' ⟨rfl, _, hdepth⟩
    exact .inr ⟨hdepth, fun limit id => ⟨_, rfl, by simp [Fault.code, Fault.guardCodes]⟩⟩

namespace Eval

variable [Host σ]

/-- Guards only cut evaluations short. An evaluation that runs no bytecode, and that does not end in
the fault of a guard, ends alike under wider guards, and leaves the same activation but for them. -/
theorem eval_under_wider_guards (fuel : Nat) (n : Node) (t : Activation σ) (readOnly : List String)
    (maxDepth : Nat) (hreadOnly : readOnly ⊆ t.session.readOnly)
    (hdepth : t.session.maxDepth ≤ maxDepth) (hmachine : RunsOnly (fun _ _ => false) fuel n t)
    (hguards : ∀ f, (eval fuel n t).1 = .halted (.fault f) → f.code ∉ Fault.guardCodes) :
    eval fuel n ⟨t.session.withGuards readOnly maxDepth, t.frames⟩ =
      ((eval fuel n t).1,
        ⟨(eval fuel n t).2.session.withGuards readOnly maxDepth, (eval fuel n t).2.frames⟩) := by
  let L : Laxity σ := .ofGuards σ readOnly maxDepth
  -- the alarm is a fault that is excused, so what comes after it does not matter
  have halarm : L.excuses (.fault (.strictUnknown "")) :=
    ⟨_, rfl, by simp [Fault.code, Fault.guardCodes]⟩
  have hrun {call call' : String → List Value → Eval σ Value} {steps steps' : Nat}
      (_ : ∀ target args, L.Retraces (call target args) (call' target args))
      (_ : L.Lasts steps steps') (level : Nat) (bytecode : Node) (entry : String)
      (callArgs : Node) :
      L.Retraces
        (vettedRun (fun _ _ => false) (fault (.strictUnknown "")) level call steps bytecode entry
          callArgs)
        (vettedRun (fun _ _ => true) (fault (.strictUnknown "")) level call' steps' bytecode entry
          callArgs) :=
    .of_excused halarm _
  have hends := Laxity.Retraces.vetted hrun (.inl rfl : L.Lasts fuel fuel) n
    (show L.allows t.session.oversight _ from ⟨rfl, hreadOnly, hdepth⟩)
  rw [vetted_of_all, hmachine] at hends
  generalize eval fuel n t = x at hends hguards
  have hsame : t.under { t.session.oversight with readOnly, maxDepth, strict := false } =
      ⟨t.session.withGuards readOnly maxDepth, t.frames⟩ := rfl
  rw [hsame] at hends
  generalize eval fuel n ⟨t.session.withGuards readOnly maxDepth, t.frames⟩ = y at hends ⊢
  cases hends with
  | cut hexcused =>
    obtain ⟨f, rfl, hcode⟩ := hexcused
    exact absurd hcode (hguards f rfl)
  | same hallowed =>
    obtain ⟨rfl, _⟩ := hallowed
    rfl

/-- A program that binds a name and compares it. -/
def bindAndCompare : Node :=
  let one (id : String) : Node := { kind := "Lit", id, attrs := attrs [("value", .int 1)] }
  let name : Attrs := attrs [("name", .identifier "x")]
  { kind := "Program", id := "p"
    children :=
      [{ kind := "Let", id := "l", attrs := name, children := [one "i"] },
       { kind := "Eq", id := "e"
         children := [{ kind := "Var", id := "v", attrs := name }, one "j"] }] }

/-- A strict session in which evaluations nest three deep and `y` is read-only. -/
def guardedSession : Session LocalHost :=
  { Session.fresh "" with strict := true, maxDepth := 3, readOnly := ["y"] }

theorem eval_under_wider_guards_bindAndCompare :
    (eval 4 bindAndCompare ⟨guardedSession, []⟩).1 = .value (.bool true) ∧
      eval 4 bindAndCompare ⟨guardedSession.withGuards [] 4096, []⟩ =
        (.value (.bool true),
          ⟨(eval 4 bindAndCompare ⟨guardedSession, []⟩).2.session.withGuards [] 4096,
            (eval 4 bindAndCompare ⟨guardedSession, []⟩).2.frames⟩) := by
  have hvalue : (eval 4 bindAndCompare ⟨guardedSession, []⟩).1 = .value (.bool true) := rfl
  have hmachine : RunsOnly (fun _ _ => false) 4 bindAndCompare ⟨guardedSession, []⟩ := fun _ => rfl
  have hwider := eval_under_wider_guards 4 bindAndCompare ⟨guardedSession, []⟩ [] 4096 (by simp)
    (by decide) hmachine (by rw [hvalue]; nofun)
  rw [hvalue] at hwider
  exact ⟨hvalue, hwider⟩

end Eval

/-! ## 2. Observers -/

/-- The session without trace and recorder. -/
def Session.unobserved (s : Session σ) : Session σ :=
  { s with trace := false, traceSteps := #[], recorder? := none }

/-- The second run is not observed. -/
def Laxity.ofObservers (σ : Type) : Laxity σ where
  allows o o' := o' = { o with trace := false, traceSteps := #[], recorder? := none }
  excuses _ := False
  note := by
    rintro t o rfl n
    rfl
  record := by
    rintro s o rfl f
    rfl
  readOnly := by
    rintro o o' rfl
    exact .inl rfl
  strict := by
    rintro o o' rfl
    exact .inl rfl
  depth := by
    rintro o o' rfl
    exact .inl rfl

/-- Observers are transparent. Whatever runs in a session, nodes or bytecode with all that is nested
inside, comes to the same without the trace and the recorder as with them, in the same frame, and
leaves the same session but for what they show. -/
theorem Run.perform_unobserved [Host σ] (run : Run) (fuel : Nat) (s : Session σ) :
    run.perform fuel s.unobserved =
      ((run.perform fuel s).1, (run.perform fuel s).2.1, (run.perform fuel s).2.2.unobserved) := by
  have hlasts : (Laxity.ofObservers σ).Lasts fuel fuel := .inl rfl
  have hends := Laxity.retraces_step (fun _ => id) hlasts run (t := ⟨s, run.frames⟩) rfl
  have hsame : Activation.under ⟨s, run.frames⟩
      { s.oversight with trace := false, traceSteps := #[], recorder? := none } =
      ⟨s.unobserved, run.frames⟩ := rfl
  rw [hsame] at hends
  rw [perform_eq, perform_eq]
  generalize run.step fuel ⟨s, run.frames⟩ = x at hends ⊢
  generalize run.step fuel ⟨s.unobserved, run.frames⟩ = y at hends ⊢
  cases hends with
  | cut hexcused => exact hexcused.elim
  | same hallowed =>
    subst hallowed
    rfl

end Arbor
