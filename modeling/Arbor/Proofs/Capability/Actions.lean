import Arbor.Capability.Dispatch

/-!
# The actions behind targets

`Only` is for what holds of every action that a target may stand for, whatever the arguments. Of all
capabilities only `sys.ui_pollEvent` looks for an event. With recorded events it takes the next one and
does not reach the host; no other call changes what waits.
-/

namespace Arbor

/-- Does the action look for an event, live or recorded? -/
def Action.Polls : Action → Prop
  | .value _ => False
  | .call c _ => ∃ window, c = .uiPollEvent window
  | .replayed => True

namespace Dispatch

/-- The action, if there is one, has the property. -/
def Only (P : Action → Prop) (r : Except HostError Action) : Prop := ∀ a, r = .ok a → P a

namespace Only

variable {P : Action → Prop}

theorem pure {a : Action} (h : P a) : Only P (Pure.pure a) := by
  rintro _ ⟨⟩
  exact h

theorem error (e : HostError) : Only P (.error e) := by
  rintro _ ⟨⟩

theorem bind {α : Type} {r : Except HostError α} {f : α → Except HostError Action}
    (h : ∀ x, Only P (f x)) : Only P (r >>= f) := by
  cases r with
  | error e => exact .error e
  | ok x => exact h x

end Only

/-- No action behind another target looks for an event. -/
theorem not_polls_of_ne {target : String} (htarget : target ≠ "sys.ui_pollEvent") (replaying : Bool)
    (args : List Value) : Only (¬·.Polls) (action replaying target args) := by
  unfold action
  dsimp only
  split
  all_goals
    repeat' refine Only.bind fun _ => ?_
    first
    | exact .pure id
    | exact .pure (by rintro ⟨_, ⟨⟩⟩)
    | skip
  · exact absurd rfl htarget
  · split
    · exact .bind fun _ => .pure (by rintro ⟨_, ⟨⟩⟩)
    · exact .error _

/-- With recorded events no action reaches the host for one. -/
theorem ne_uiPollEvent_of_action {target : String} {args : List Value} {c : HostCall}
    {value : c.Reply → Value} (h : action true target args = .ok (.call c value)) (window : Int32) :
    c ≠ .uiPollEvent window := by
  by_cases htarget : target = "sys.ui_pollEvent"
  · rw [htarget] at h
    cases h
  · exact fun hc => not_polls_of_ne htarget true args _ h ⟨window, hc⟩

variable {σ : Type} [Host σ] (host : σ)

/-- A poll with recorded events is answered with the next one. -/
theorem invoke_poll (r : Replay) (args : List Value) :
    invoke host (some r) "sys.ui_pollEvent" args =
      ⟨.given (.node r.next.1.toNode), host, some r.next.2⟩ := rfl

/-- Only a poll changes what waits of the recorded events. -/
theorem invoke_replay? (replay? : Option Replay) (target : String) (args : List Value) :
    (invoke host replay? target args).replay? =
      if target = "sys.ui_pollEvent" then replay?.map fun r => r.next.2 else replay? := by
  by_cases htarget : target = "sys.ui_pollEvent"
  · rw [if_pos htarget, htarget]
    cases replay? with
    | some r => rfl
    | none =>
      unfold invoke
      split
      · rfl
      · rfl
      · rfl
      · split <;> rfl
  · rw [if_neg htarget]
    have hnone := not_polls_of_ne htarget replay?.isSome args
    unfold invoke
    split
    · rfl
    · rfl
    · next haction => exact absurd trivial (hnone _ haction)
    · split <;> rfl

end Dispatch

end Arbor
