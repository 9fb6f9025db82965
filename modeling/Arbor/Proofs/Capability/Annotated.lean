import Arbor.Proofs.Capability.Boundary

/-!
# Hosts with notes

An `Annotated` host has notes beside it, of whatever type an observer keeps them in. Calls go to the
host and leave the notes alone, so only an evaluation that is written to take notes changes them, and
such an evaluation is like one that takes none (`Likeness.ofAnnotated`).
-/

namespace Arbor

/-- A host, and the notes of an observer. -/
structure Annotated (ν σ : Type) where
  host : σ
  notes : ν

variable {ν σ α β : Type}

instance [Host σ] : Host (Annotated ν σ) where
  perform call a :=
    let (answer, host) := Host.perform call a.host
    (answer, { a with host })

namespace Session

/-- The session over its host with notes beside it. -/
def annotated (s : Session σ) (notes : ν) : Session (Annotated ν σ) := s.withHost ⟨s.host, notes⟩

/-- The session over the host alone. -/
def bare (s : Session (Annotated ν σ)) : Session σ := s.withHost s.host.host

end Session

namespace Activation

def notes (t : Activation (Annotated ν σ)) : ν := t.session.host.notes

/-- Changes the notes. -/
def annotate (t : Activation (Annotated ν σ)) (f : ν → ν) : Activation (Annotated ν σ) :=
  { t with session := { t.session with host := { t.session.host with notes := f t.notes } } }

end Activation

/-- Changes the notes, which is all that the step does. -/
def Eval.annotating (f : ν → ν) : Eval (Annotated ν σ) Unit := fun t => (.value (), t.annotate f)

/-! ## 1. The host does not see the notes -/

variable [Host σ]

namespace Annotated

theorem invoke (a : Annotated ν σ) (replay? : Option Replay) (target : String) (args : List Value) :
    Dispatch.invoke a replay? target args =
      { answer := (Dispatch.invoke a.host replay? target args).answer
        host := { a with host := (Dispatch.invoke a.host replay? target args).host }
        replay? := (Dispatch.invoke a.host replay? target args).replay? } :=
  Dispatch.invoke_lift (fun host => { a with host }) (fun _ => rfl) replay? target args

theorem notes_ask (call : HostCall) (t : Activation (Annotated ν σ)) :
    (Eval.ask call t).2.notes = t.notes := by
  have hnotes : (Host.perform call t.session.host).2.notes = t.notes := rfl
  unfold Eval.ask
  split <;> next heq =>
    rw [heq] at hnotes
    exact hnotes

theorem notes_serveHost (target : String) (args : List Value) (t : Activation (Annotated ν σ)) :
    (Eval.serveHost target args t).2.notes = t.notes := by
  have hnotes : (Dispatch.invoke t.session.host t.session.replay? target args).host.notes =
      t.notes := by
    rw [invoke]
    rfl
  unfold Eval.serveHost
  dsimp only
  split <;> exact hnotes

end Annotated

/-! ## 2. The notes make no difference -/

namespace Likeness

/-- Runs with and without notes are the same but for these. -/
def ofAnnotated (ν : Type) (permissions : List String) : Likeness σ (Annotated ν σ) :=
  .ofHosts (fun host a => a.host = host) permissions
    (fun h path => by subst h; exact ⟨rfl, rfl⟩)
    (fun h path => by subst h; exact ⟨rfl, rfl⟩)
    (fun h replay? target args _ => by
      subst h
      rw [Annotated.invoke]
      exact ⟨rfl, rfl, rfl⟩)

variable {L : Likeness σ (Annotated ν σ)}

/-- Hosts are alike whatever the notes are. -/
def IgnoresNotes (L : Likeness σ (Annotated ν σ)) : Prop :=
  ∀ ⦃host a⦄, L.hosts host a → ∀ notes, L.hosts host { a with notes }

theorem ofAnnotated_ignoresNotes (permissions : List String) :
    (ofAnnotated ν permissions : Likeness σ _).IgnoresNotes := fun _ _ h _ => h

namespace IgnoresNotes

variable (hnotes : L.IgnoresNotes)
include hnotes

theorem annotate {t : Activation σ} {u : Activation (Annotated ν σ)} (h : L.Activations t u)
    (f : ν → ν) : L.Activations t (u.annotate f) :=
  ⟨{ h.session with host := hnotes h.session.host _ }, h.frames⟩

/-- Notes may be taken before a step. -/
theorem annotating {r : α → β → Prop} {step : Eval σ α} {step' : Eval (Annotated ν σ) β} (f : ν → ν)
    (hstep : L.Steps r step step') : L.Steps r step (Eval.annotating f >>= fun _ => step') :=
  fun _ _ ht => hstep (hnotes.annotate ht f)

end IgnoresNotes

end Likeness

/-- A step that is like the one of a run, but takes notes, ends as the run does. -/
theorem Run.perform_of_alike (run : Run) (fuel : Nat) (s : Session σ) (notes : ν)
    {L : Likeness σ (Annotated ν σ)} (hL : L = .ofAnnotated ν s.permissions)
    {step : Eval (Annotated ν σ) Value} (halike : L.Steps L.Values (run.step fuel) step) :
    (Session.conclude (step ⟨s.annotated notes, run.frames⟩).1,
        run.frameBehind (step ⟨s.annotated notes, run.frames⟩).2.frames,
        (step ⟨s.annotated notes, run.frames⟩).2.session.bare) = run.perform fuel s := by
  subst hL
  obtain ⟨host, hhost, hrun⟩ := Likeness.step_withHost rfl rfl halike ⟨s, run.frames⟩ ⟨s.host, notes⟩
    rfl rfl
  -- the sessions differ in the notes only, which are taken off again
  have hbare (u : Session σ) (h : host.host = u.host) : (u.withHost host).bare = u := by
    show u.withHost host.host = u
    rw [h]
    rfl
  rw [perform_eq]
  unfold Session.annotated
  rw [hrun]
  dsimp only
  rw [hbare _ hhost]

end Arbor
