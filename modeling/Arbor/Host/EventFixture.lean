import Arbor.Host.Event
import Arbor.Json.Parser

/-!
# Recorded events as JSON

A fixture is an array of events. An event is an object of named fields, or an array of their values in
the order of the fields. Fields that are left out have the values of the event of an empty poll;
members of other names mean nothing.
-/

namespace Arbor.UiEvent

/-- The fields of an event, by their names in a fixture. -/
inductive Field where
  | type | targetId | x | y | key | text | modifiers | repeated
  deriving DecidableEq

namespace Field

/-- The fields in the order in which an array gives them. -/
def all : List Field := [type, targetId, x, y, key, text, modifiers, repeated]

def name : Field → String
  | type => "type"
  | targetId => "targetId"
  | x => "x"
  | y => "y"
  | key => "key"
  | text => "text"
  | modifiers => "modifiers"
  | repeated => "repeat"

def ofName? (name : String) : Option Field := all.find? (·.name == name)

end Field

/-- The 32-bit integer that a JSON value is. -/
def int32? : Json → Option Int32
  | .int n => if -2147483648 ≤ n ∧ n ≤ 2147483647 then some (Int32.ofInt n) else none
  | _ => none

/-- The event with one field set, if the value has the field's type. -/
def set? (e : UiEvent) : Field → Json → Option UiEvent
  | .type, .str (some s) => some { e with kind := s }
  | .targetId, .str (some s) => some { e with targetId := s }
  | .x, v => (int32? v).map fun n => { e with x := n }
  | .y, v => (int32? v).map fun n => { e with y := n }
  | .key, .str (some s) => some { e with key := s }
  | .text, .str (some s) => some { e with text := s }
  | .modifiers, .str (some s) => some { e with modifiers := s }
  | .repeated, .bool b => some { e with repeated := b }
  | _, _ => none

/-- Sets the fields that the members name, each at most once. -/
def setMembers? (e : UiEvent) (seen : List Field) : List (Option String × Json) → Option UiEvent
  | [] => some e
  | (none, _) :: _ => none
  | (some name, value) :: rest =>
    match Field.ofName? name with
    | none => setMembers? e seen rest
    | some field =>
      if field ∈ seen then none
      else (e.set? field value).bind fun e => setMembers? e (field :: seen) rest

/-- Sets the fields in order to the values; more values than fields are refused. -/
def setItems? (e : UiEvent) : List Field → List Json → Option UiEvent
  | _, [] => some e
  | [], _ :: _ => none
  | field :: fields, value :: values =>
    (e.set? field value).bind fun e => setItems? e fields values

/-- The event that a JSON value describes. -/
def ofJson? : Json → Option UiEvent
  | .obj members => setMembers? .idle [] members
  | .arr items => setItems? .idle Field.all items
  | _ => none

end Arbor.UiEvent

namespace Arbor.Replay

/-- The recorded events of a fixture, if it is one. -/
def ofFixture? (text : String) : Option Replay :=
  match Json.parse? text with
  | some (.arr items) => (items.mapM UiEvent.ofJson?).map Replay.mk
  | _ => none

end Arbor.Replay
