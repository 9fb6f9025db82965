import Arbor.Node.Parser

/-!
# The grammar of trees

The grammar that the parser reads, as a relation between tokens and trees that knows nothing of the
parser:

    Node := Name # Word [ ( Attr* ) ] [ { Node* } ]
    Attr := Name = (String | Bool | Int | Identifier ((. | ,) Word)*)

Beside the tree of a derivation stand the keys that an attribute list repeats.
-/

namespace Arbor

open Text

namespace Grammar

/-! ## 1. Tokens -/

/-- The classes of tokens that a kind or a key can be. -/
def names : List TokenKind := [.identifier, .bool]

/-- The classes of tokens that an id or a later word of a value can be. -/
def words : List TokenKind := [.identifier, .int, .bool]

/-- The classes of tokens that join two words. -/
def joints : List TokenKind := [.dot, .comma]

/-- Where the last of the tokens ends; `stop` when there is none. -/
def stopBehind (stop : Position) (tokens : List Token) : Position :=
  tokens.foldl (fun _ t => t.span.stop) stop

theorem stopBehind_append (stop : Position) (front back : List Token) :
    stopBehind stop (front ++ back) = stopBehind (stopBehind stop front) back := List.foldl_append

theorem stopBehind_concat (stop : Position) (front : List Token) (t : Token) :
    stopBehind stop (front ++ [t]) = t.span.stop := stopBehind_append stop front [t]

/-! ## 2. Attributes -/

/-- Joints, each with a word behind it, and their text. -/
inductive Joined : List Token → String → Prop
  | nil : Joined [] ""
  | cons {joint word : Token} {more : List Token} {text : String} (hjoint : joint.kind ∈ joints)
      (hword : word.kind ∈ words) (hmore : Joined more text) :
      Joined (joint :: word :: more) (joint.text ++ word.text ++ text)

/-- A value of an attribute. -/
inductive Value : List Token → AttrValue → Prop
  | string {t : Token} (hkind : t.kind = .string) : Value [t] (.string t.text)
  | bool {t : Token} (hkind : t.kind = .bool) : Value [t] (.bool (t.text == "true"))
  | int {t : Token} {n : Int32} (hkind : t.kind = .int) (hvalue : readInt32? t.text.toList = some n) :
      Value [t] (.int n)
  | identifier {t : Token} {more : List Token} {text : String} (hkind : t.kind = .identifier)
      (hmore : Joined more text) : Value (t :: more) (.identifier (t.text ++ text))

/-- Attributes one after the other: the key and the value of each. -/
inductive Attributes : List Token → List (Token × AttrValue) → Prop
  | nil : Attributes [] []
  | cons {key mark : Token} {word more : List Token} {value : AttrValue}
      {entries : List (Token × AttrValue)} (hkey : key.kind ∈ names) (hmark : mark.kind = .equals)
      (hvalue : Value word value) (hmore : Attributes more entries) :
      Attributes (key :: mark :: (word ++ more)) ((key, value) :: entries)

/-- An attribute list, which can be absent. -/
inductive AttrList : List Token → List (Token × AttrValue) → Prop
  | absent : AttrList [] []
  | present {opening closing : Token} {word : List Token} {entries : List (Token × AttrValue)}
      (hopening : opening.kind = .leftParen) (hword : Attributes word entries)
      (hclosing : closing.kind = .rightParen) : AttrList (opening :: (word ++ [closing])) entries

/-- The first value of each key. -/
def firstValues : List (Token × AttrValue) → Attrs
  | [] => ∅
  | (key, value) :: entries => (firstValues entries).insert key.text value

/-- The keys that stand behind one of the same text, in order. `seen` are the texts before them. -/
def repeatedKeys (seen : List String) : List (Token × AttrValue) → List Token
  | [] => []
  | (key, _) :: entries =>
    if key.text ∈ seen then key :: repeatedKeys seen entries
    else repeatedKeys (key.text :: seen) entries

/-! ## 3. Nodes -/

section Nodes

variable (Child : List Token → Node → List Token → Prop)

/-- Children one after the other. -/
inductive Children : List Token → List Node → List Token → Prop
  | nil : Children [] [] []
  | cons {word more repeated moreRepeated : List Token} {child : Node} {children : List Node}
      (hchild : Child word child repeated) (hmore : Children more children moreRepeated) :
      Children (word ++ more) (child :: children) (repeated ++ moreRepeated)

/-- A child list, which can be absent. -/
inductive ChildList : List Token → List Node → List Token → Prop
  | absent : ChildList [] [] []
  | present {opening closing : Token} {word repeated : List Token} {children : List Node}
      (hopening : opening.kind = .leftBrace) (hword : Children Child word children repeated)
      (hclosing : closing.kind = .rightBrace) :
      ChildList (opening :: (word ++ [closing])) children repeated

/-- A node whose children are as `Child` says. -/
inductive NodeOver : List Token → Node → List Token → Prop
  | mk {kind hash id : Token} {attrWord childWord repeated : List Token}
      {entries : List (Token × AttrValue)} {children : List Node} (hkind : kind.kind ∈ names)
      (hhash : hash.kind = .hash) (hid : id.kind ∈ words) (hattrs : AttrList attrWord entries)
      (hchildren : ChildList Child childWord children repeated) :
      NodeOver (kind :: hash :: id :: (attrWord ++ childWord))
        ⟨kind.text, id.text, firstValues entries, children,
          ⟨kind.span.start, stopBehind id.span.stop (attrWord ++ childWord)⟩⟩
        (repeatedKeys [] entries ++ repeated)

end Nodes

/-- The tokens derive the node, in which nodes are nested at most so many levels deep. The repeated
attribute keys come with it, in order. -/
def Derives : (levels : Nat) → List Token → Node → List Token → Prop
  | 0 => fun _ _ _ => False
  | levels + 1 => NodeOver (Derives levels)

/-! ## 4. What a phrase begins with -/

/-- The first of the tokens, if there is one, is of none of the classes. -/
def NotLed (kinds : List TokenKind) (tokens : List Token) : Prop :=
  ∀ t, tokens.head? = some t → t.kind ∉ kinds

theorem notLed_nil (kinds : List TokenKind) : NotLed kinds [] := by
  intro t ht
  cases ht

theorem notLed_cons {kinds : List TokenKind} {t : Token} (h : t.kind ∉ kinds)
    (tokens : List Token) : NotLed kinds (t :: tokens) := by
  intro u hu
  cases hu
  exact h

theorem notLed_name {kinds : List TokenKind} (hkinds : ∀ kind ∈ names, kind ∉ kinds) {t : Token}
    (h : t.kind ∈ names) (tokens : List Token) : NotLed kinds (t :: tokens) :=
  notLed_cons (hkinds t.kind h) tokens

theorem Attributes.notLed {word : List Token} {entries : List (Token × AttrValue)}
    (h : Attributes word entries) {closing : Token} (hclosing : closing.kind = .rightParen)
    (rest : List Token) : NotLed joints (word ++ closing :: rest) := by
  cases h with
  | nil => exact notLed_cons (by simp [hclosing, joints]) _
  | cons hkey _ _ _ => exact notLed_name (by decide) hkey _

/-- A derivation begins with a name. -/
theorem Derives.exists_cons {levels : Nat} {word repeated : List Token} {n : Node}
    (h : Derives levels word n repeated) : ∃ t more, word = t :: more ∧ t.kind ∈ names := by
  cases levels with
  | zero => exact h.elim
  | succ levels =>
    cases h with
    | mk hkind _ _ _ _ => exact ⟨_, _, rfl, hkind⟩

end Grammar

end Arbor
