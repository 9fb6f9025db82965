import Arbor.Dict
import Arbor.Span

/-!
# Nodes

The one tagged tree that stands for programs, bytecode, diagnostics and data: a kind, an id,
attributes, children in order, and the span of source text it was read from.

Two nodes are equal when all of this agrees, the span included.
-/

namespace Arbor

/-- The value of an attribute. -/
inductive AttrValue where
  | string (text : String)
  | int (value : Int32)
  | bool (value : Bool)
  /-- A text that is written without quotes, such as the target of a call. -/
  | identifier (text : String)
  deriving DecidableEq

namespace AttrValue

/-- The name of the value's kind, as programs see it. -/
def kindName : AttrValue → String
  | string _ => "string"
  | int _ => "int"
  | bool _ => "bool"
  | identifier _ => "identifier"

/-- The text of a string or an identifier. -/
def text? : AttrValue → Option String
  | string s | identifier s => some s
  | _ => none

/-- The text of an identifier. -/
def identifier? : AttrValue → Option String
  | identifier s => some s
  | _ => none

def int? : AttrValue → Option Int32
  | int n => some n
  | _ => none

def bool? : AttrValue → Option Bool
  | bool b => some b
  | _ => none

end AttrValue

/-- The attributes of a node, by key. -/
abbrev Attrs := Dict AttrValue

/-- The attributes of the listed pairs. -/
def attrs (pairs : List (String × AttrValue)) : Attrs := Dict.ofList pairs

/-- A tagged tree. -/
structure Node where
  kind : String
  id : String
  attrs : Attrs := ∅
  children : List Node := []
  span : Span := .nowhere

namespace Node

instance : Inhabited Node := ⟨⟨"", "", ∅, [], .nowhere⟩⟩

mutual

/-- Do the two trees agree in everything, spans included? -/
def beq : Node → Node → Bool
  | ⟨k, i, a, cs, s⟩, ⟨k', i', a', cs', s'⟩ =>
    decide (k = k') && decide (i = i') && decide (a = a') && decide (s = s') && beqList cs cs'

/-- Do the two lists of trees agree, one by one? -/
def beqList : List Node → List Node → Bool
  | [], [] => true
  | c :: cs, d :: ds => beq c d && beqList cs ds
  | _, _ => false

end

mutual

theorem eq_of_beq : ∀ {m n : Node}, beq m n = true → m = n
  | ⟨k, i, a, cs, s⟩, ⟨k', i', a', cs', s'⟩, h => by
    simp only [beq, Bool.and_eq_true, decide_eq_true_eq] at h
    obtain ⟨⟨⟨⟨hk, hi⟩, ha⟩, hs⟩, hc⟩ := h
    rw [hk, hi, ha, hs, eq_of_beqList hc]

theorem eq_of_beqList : ∀ {l r : List Node}, beqList l r = true → l = r
  | [], [], _ => rfl
  | [], _ :: _, h => by simp [beqList] at h
  | _ :: _, [], h => by simp [beqList] at h
  | c :: cs, d :: ds, h => by
    simp only [beqList, Bool.and_eq_true] at h
    rw [eq_of_beq h.1, eq_of_beqList h.2]

end

mutual

theorem beq_self : ∀ n : Node, beq n n = true
  | ⟨k, i, a, cs, s⟩ => by simp [beq, beqList_self cs]

theorem beqList_self : ∀ l : List Node, beqList l l = true
  | [] => rfl
  | c :: cs => by simp [beqList, beq_self c, beqList_self cs]

end

instance : BEq Node := ⟨beq⟩

instance : LawfulBEq Node where
  eq_of_beq := eq_of_beq
  rfl := beq_self _

instance : DecidableEq Node := fun m n =>
  if h : beq m n = true then isTrue (eq_of_beq h)
  else isFalse fun heq => h (heq ▸ beq_self m)

/-- The value of an attribute. -/
def attr? (n : Node) (key : String) : Option AttrValue := n.attrs.find? key

/-- The text of an attribute whose value is an identifier. -/
def ident? (n : Node) (key : String) : Option String := (n.attr? key).bind AttrValue.identifier?

/-- The text of an attribute whose value is an identifier or a string. -/
def text? (n : Node) (key : String) : Option String := (n.attr? key).bind AttrValue.text?

/-- The integer of an attribute whose value is one. -/
def int? (n : Node) (key : String) : Option Int32 := (n.attr? key).bind AttrValue.int?

/-- Nodes of the kind `Err` carry errors as values. -/
def isErr (n : Node) : Bool := n.kind == "Err"

/-- The element at an index that may be negative or too large. -/
def at? {α : Type} (l : List α) (index : Int32) : Option α :=
  if index < 0 then none else l[index.toInt.toNat]?

/-- The attribute at an index of the key order. -/
def attrAt? (n : Node) (index : Int32) : Option (String × AttrValue) := at? n.attrs.entries index

/-- The child at an index. -/
def childAt? (n : Node) (index : Int32) : Option Node := at? n.children index

end Node

end Arbor
