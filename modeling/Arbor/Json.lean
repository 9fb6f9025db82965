import Arbor.Node
import Arbor.Text.Decimal
import Arbor.Text.Quoted

/-!
# JSON values and their indented text

The JSON values that the library writes and reads. A number that is no integer literal is only known
to be one; a string that no text can hold, because of an unpaired surrogate, is `none`.
-/

namespace Arbor

open Text

/-- A JSON value. Objects keep the order of their members. -/
inductive Json where
  | null
  | bool (value : Bool)
  | int (value : Int)
  /-- A number with a fraction or an exponent, or negative zero. -/
  | nonInteger
  | str (text? : Option String)
  | arr (items : List Json)
  | obj (members : List (Option String × Json))

namespace Json

/-- The JSON string of a text. -/
def ofText (s : String) : Json := .str (some s)

/-- The object with these members. -/
def ofMembers (members : List (String × Json)) : Json :=
  .obj (members.map fun (key, value) => (some key, value))

/-- The characters that write one character in a JSON string. -/
def escapeJsonChar (c : Char) : List Char :=
  if c = '"' then ['\\', '"']
  else if c = '\\' then ['\\', '\\']
  else if c = '\n' then ['\\', 'n']
  else if c = '\r' then ['\\', 'r']
  else if c = '\t' then ['\\', 't']
  else if c = '\x08' then ['\\', 'b']
  else if c = '\x0c' then ['\\', 'f']
  else if c.toNat < 32 then
    ['\\', 'u', '0', '0', hexDigit (c.toNat / 16), hexDigit (c.toNat % 16)]
  else [c]

/-- The text as a JSON string literal. -/
def quoteJson (text : String) : String :=
  String.ofList ('"' :: text.toList.flatMap escapeJsonChar ++ ['"'])

/-- A line break and two spaces for each level. -/
def newline (level : Nat) : String := String.ofList ('\n' :: List.replicate (2 * level) ' ')

/-- Text between brackets: nothing on one line, or each item on a line of its own. -/
def block (opening closing : String) (level : Nat) (items : List String) : String :=
  match items with
  | [] => opening ++ closing
  | _ =>
    opening ++ newline (level + 1) ++ String.intercalate ("," ++ newline (level + 1)) items ++
      newline level ++ closing

mutual

/-- The indented text of a value that starts at the given level. -/
def render (level : Nat) : Json → String
  | null => "null"
  | bool b => if b then "true" else "false"
  | int n => intText n
  | nonInteger => "0.0"
  | str text? => quoteJson (text?.getD "")
  | arr items => block "[" "]" level (renderItems (level + 1) items)
  | obj members => block "\x7b" "\x7d" level (renderMembers (level + 1) members)

/-- The texts of the items of an array. -/
def renderItems (level : Nat) : List Json → List String
  | [] => []
  | v :: vs => render level v :: renderItems level vs

/-- The texts of the members of an object. -/
def renderMembers (level : Nat) : List (Option String × Json) → List String
  | [] => []
  | (key, v) :: rest =>
    (quoteJson (key.getD "") ++ ": " ++ render level v) :: renderMembers level rest

end

/-- The value as text, two spaces to a level. -/
def pretty (v : Json) : String := v.render 0

end Json

/-- The attribute value as JSON: its kind and its value. -/
def AttrValue.toJson (v : AttrValue) : Json :=
  let value : Json :=
    match v with
    | .string s | .identifier s => .ofText s
    | .int n => .int n.toInt
    | .bool b => .bool b
  .ofMembers [("kind", .ofText v.kindName), ("value", value)]

namespace Node

mutual

/-- The tree as JSON, without spans. -/
def toJson : Node → Json
  | ⟨kind, id, attrs, children, _⟩ =>
    .ofMembers
      [("kind", .ofText kind), ("id", .ofText id),
        ("attrs", .ofMembers (attrs.entries.map fun (key, value) => (key, value.toJson))),
        ("children", .arr (toJsonList children))]

/-- The trees as JSON, one by one. -/
def toJsonList : List Node → List Json
  | [] => []
  | c :: cs => toJson c :: toJsonList cs

end

end Node

end Arbor
