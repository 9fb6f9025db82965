import Arbor.Text.Blank
import Arbor.Text.Word

/-!
# Lists of names and qualified names

A list of names is one text with commas between them, and a qualified name has its namespace before
its first dot.
-/

namespace Arbor.Text

/-- The names of a list: what stands between the commas, without surrounding blanks; empty ones are
dropped. -/
def splitNames (text : String) : List String :=
  (((segments (· == ',') text.toList).map trimBlanks).filter (!·.isEmpty)).map String.ofList

/-- The list of names as one text. -/
def joinNames (names : List String) : String := String.intercalate "," names

/-- What stands before the first dot, if there is one. -/
def namespace? (name : String) : Option String :=
  if name.toList.any (· == '.') then some (String.ofList (name.toList.takeWhile (· != '.'))) else none

/-- Is there nothing but blanks in the text? -/
def isBlankText (text : String) : Bool := text.toList.all isBlank

end Arbor.Text
