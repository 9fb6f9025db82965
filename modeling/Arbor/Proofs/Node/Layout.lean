import Arbor.Node.Printer
import Arbor.Proofs.Node.Walk

/-!
# The layout of printed nodes

The canonical text of a node is its kind and id, the texts of its attributes in key order between
parentheses, and the texts of its children in order between braces (`Node.format_eq`).
-/

namespace Arbor

open Text

/-! ## 1. Lists of texts -/

/-- Writes texts in front of `rest`, a space before each. -/
def writeSpaced (texts : List String) (rest : List Char) : List Char :=
  texts.foldr (fun t rest => ' ' :: t.toList ++ rest) rest

theorem writeSpaced_append (texts : List String) (rest more : List Char) :
    writeSpaced texts rest ++ more = writeSpaced texts (rest ++ more) := by
  unfold writeSpaced
  induction texts with
  | nil => rfl
  | cons t texts ih => rw [List.foldr_cons, List.foldr_cons, List.append_assoc, ih]

/-- Texts between two brackets with a space between any two; nothing when there are no texts. -/
def listed (opening closing : String) : List String → String
  | [] => ""
  | t :: more => opening ++ t ++ String.ofList (writeSpaced more closing.toList)

theorem toList_listed_cons (opening closing t : String) (more : List String) (rest : List Char) :
    (listed opening closing (t :: more)).toList ++ rest =
      opening.toList ++ (t.toList ++ writeSpaced more (closing.toList ++ rest)) := by
  rw [listed, String.toList_append, String.toList_append, String.toList_ofList, List.append_assoc,
    List.append_assoc, writeSpaced_append]

/-! ## 2. Attributes -/

namespace AttrValue

/-- The text of the value. -/
def format (value : AttrValue) : String := String.ofList (value.write [])

theorem format_int (n : Int32) : (int n).format = intText n.toInt := by
  unfold format write
  dsimp only
  rw [List.append_nil]
  rfl

theorem format_bool (b : Bool) : (bool b).format = if b then "true" else "false" := by
  cases b <;> rfl

theorem format_identifier (s : String) :
    (identifier s).format = if isBareIdentifier s then s else quote s := by
  unfold format write
  dsimp only
  by_cases hbare : isBareIdentifier s = true
  · rw [if_pos hbare, if_pos hbare, List.append_nil, String.ofList_toList]
  · rw [if_neg hbare, if_neg hbare]
    rfl

theorem write_eq (value : AttrValue) (rest : List Char) :
    value.write rest = value.format.toList ++ rest := by
  unfold format
  rw [String.toList_ofList]
  cases value with
  | identifier s =>
    unfold write
    dsimp only
    by_cases hbare : isBareIdentifier s = true
    · rw [if_pos hbare, if_pos hbare, List.append_nil]
    · rw [if_neg hbare, if_neg hbare]
      simp
  | _ => simp [write]

end AttrValue

namespace Node

/-- The text of an attribute. -/
def formatAttr (e : String × AttrValue) : String := e.1 ++ "=" ++ e.2.format

theorem toList_formatAttr (e : String × AttrValue) (rest : List Char) :
    (formatAttr e).toList ++ rest = e.1.toList ++ '=' :: e.2.write rest := by
  rw [formatAttr, String.toList_append, String.toList_append, e.2.write_eq, List.append_assoc,
    List.append_assoc]
  rfl

theorem writeMoreAttrs_eq (entries : List (String × AttrValue)) (rest : List Char) :
    writeMoreAttrs entries rest = writeSpaced (entries.map formatAttr) rest := by
  induction entries with
  | nil => rfl
  | cons e more ih =>
    rw [writeMoreAttrs, ih, List.cons_append, ← toList_formatAttr]
    rfl

theorem writeAttrs_eq (entries : List (String × AttrValue)) (rest : List Char) :
    writeAttrs entries rest = (listed "(" ")" (entries.map formatAttr)).toList ++ rest := by
  cases entries with
  | nil => rfl
  | cons e more =>
    rw [writeAttrs, writeMoreAttrs_eq, List.map_cons, toList_listed_cons, List.cons_append,
      ← toList_formatAttr]
    rfl

/-! ## 3. Children -/

variable {cs : List Node}

theorem writeMoreChildren_eq (h : ∀ c ∈ cs, ∀ rest, c.write rest = c.format.toList ++ rest)
    (rest : List Char) : writeMoreChildren cs rest = writeSpaced (cs.map format) rest := by
  induction cs with
  | nil => rfl
  | cons c cs ih =>
    rw [writeMoreChildren, h c List.mem_cons_self,
      ih fun d hd => h d (List.mem_cons_of_mem _ hd)]
    rfl

theorem writeBlock_eq (h : ∀ c ∈ cs, ∀ rest, c.write rest = c.format.toList ++ rest)
    (rest : List Char) :
    writeBlock cs rest = (listed " \x7b " " \x7d" (cs.map format)).toList ++ rest := by
  cases cs with
  | nil => rfl
  | cons c cs =>
    rw [writeBlock, h c List.mem_cons_self,
      writeMoreChildren_eq fun d hd => h d (List.mem_cons_of_mem _ hd), List.map_cons,
      toList_listed_cons]
    rfl

theorem write_eq (n : Node) : ∀ rest, n.write rest = n.format.toList ++ rest := by
  refine Node.induction_on n fun n hchildren rest => ?_
  obtain ⟨kind, id, attrs, children, span⟩ := n
  unfold format
  rw [String.toList_ofList, write, write, writeBlock_eq hchildren, writeBlock_eq hchildren,
    writeAttrs_eq, writeAttrs_eq]
  simp only [List.append_assoc, List.append_nil, List.cons_append]

/-- The text of a node, made of the texts of its attributes and of its children. -/
theorem format_eq (n : Node) :
    n.format = n.kind ++ "#" ++ n.id ++ listed "(" ")" (n.attrs.entries.map formatAttr) ++
      listed " \x7b " " \x7d" (n.children.map format) := by
  obtain ⟨kind, id, attrs, children, span⟩ := n
  refine String.toList_injective ?_
  simp only [String.toList_append, List.append_assoc]
  unfold format
  rw [String.toList_ofList, write, writeAttrs_eq, writeBlock_eq fun c _ => c.write_eq,
    List.append_nil]
  simp only [List.append_assoc]
  rfl

end Node

end Arbor
