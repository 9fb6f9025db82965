import Arbor.Text.Alphabetic
import Arbor.Text.Numeric

/-!
# Words and dotted words

The words of the tree format, and the longer identifiers that dots and commas make of them, such as
the target of a call or a parameter list.
-/

namespace Arbor.Text

/-- May the character start a word? -/
def isWordStart (c : Char) : Bool := isAlphabetic c || c == '_'

/-- May the character stand inside a word? -/
def isWordPart (c : Char) : Bool := isAlphabetic c || isNumeric c || c == '_' || c == '-'

/-- Does the character join two words into one identifier? -/
def isJoint (c : Char) : Bool := c == '.' || c == ','

/-- The stretches between the separators; one more than there are separators. -/
def segments (isSeparator : Char → Bool) : List Char → List (List Char)
  | [] => [[]]
  | c :: cs =>
    if isSeparator c then [] :: segments isSeparator cs
    else match segments isSeparator cs with
      | [] => [[c]]
      | first :: rest => (c :: first) :: rest

/-- May the stretch be the first word of an identifier? -/
def isFirstWord : List Char → Bool
  | [] => false
  | c :: cs => isWordStart c && (c :: cs).all isWordPart

/-- May the stretch be a later word of an identifier? Such a word may start like a number. -/
def isLaterWord : List Char → Bool
  | [] => false
  | c :: cs => (isWordStart c || c == '-' || isDigit c) && (c :: cs).all isWordPart

/-- Does the text, written without quotes, read as one identifier? The words `true` and `false` do
not: alone they are truth values. -/
def isBareIdentifier (text : String) : Bool :=
  if text = "" || text = "true" || text = "false" then false
  else match segments isJoint text.toList with
    | [] => false
    | first :: later => isFirstWord first && later.all isLaterWord

end Arbor.Text
