import Arbor.Node

/-!
# Events of the user interface

One event as a poll reports it, and the replay of recorded events in place of live ones.
-/

namespace Arbor

/-- An event of the user interface. -/
structure UiEvent where
  kind : String
  targetId : String
  x : Int32
  y : Int32
  key : String
  text : String
  modifiers : String
  repeated : Bool
  deriving DecidableEq

namespace UiEvent

/-- The event of a poll that finds nothing. -/
def idle : UiEvent := ⟨"none", "", -1, -1, "", "", "", false⟩

/-- The event as a node. -/
def toNode (e : UiEvent) : Node where
  kind := "UiEvent"
  id := "uiEvent"
  attrs := attrs
    [("type", .string e.kind), ("targetId", .string e.targetId), ("x", .int e.x), ("y", .int e.y),
      ("key", .string e.key), ("text", .string e.text), ("modifiers", .string e.modifiers),
      ("repeat", .bool e.repeated)]

end UiEvent

/-- Recorded events that wait to be polled, in order. -/
structure Replay where
  waiting : List UiEvent
  deriving DecidableEq

namespace Replay

/-- The event of the next poll, and what waits after it. -/
def next (r : Replay) : UiEvent × Replay :=
  match r.waiting with
  | [] => (.idle, r)
  | e :: rest => (e, ⟨rest⟩)

/-- The number of events that still wait. -/
def remaining (r : Replay) : Nat := r.waiting.length

end Replay

end Arbor
