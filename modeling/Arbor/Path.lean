import Arbor.Text.Word

/-!
# Paths

Paths are texts with slashes between their components. Empty components and dots mean nothing, except
that a dot at the very start of a relative path is a component.
-/

namespace Arbor.Path

open Text

/-- Does the path start at the root? -/
def isAbsolute (path : String) : Bool := path.toList.head? == some '/'

/-- The path taken from a base directory. An absolute path stays itself. -/
def join (base path : String) : String :=
  if isAbsolute path || base == "" then path
  else if base.toList.getLast? == some '/' then base ++ path
  else base ++ "/" ++ path

/-- What stands between the slashes. -/
def pieces (path : String) : List String := (segments (· == '/') path.toList).map String.ofList

/-- Does the piece mean nothing behind another one? -/
def isIdle (piece : String) : Bool := piece == "" || piece == "."

/-- Drops the pieces at the front of a reversed path that mean nothing; the first piece of the path
stays. -/
def dropIdle : List String → List String
  | [] => []
  | [first] => [first]
  | last :: rest => if isIdle last then dropIdle rest else last :: rest

/-- The name that the path ends in, if it ends in one. -/
def fileName? (path : String) : Option String :=
  match dropIdle (pieces path).reverse with
  | [] => none
  | last :: _ => if isIdle last || last == ".." then none else some last

/-- The name without its extension. A dot at the start begins no extension. -/
def stemOfName (name : String) : String :=
  let before := (name.toList.reverse.dropWhile (· != '.')).drop 1
  if before.isEmpty then name else String.ofList before.reverse

/-- The name that the path ends in, without its extension; empty when it ends in no name. -/
def stem (path : String) : String := ((fileName? path).map stemOfName).getD ""

/-- The path without its last component; none for the root and for the empty path. -/
def parent? (path : String) : Option String :=
  match dropIdle (pieces path).reverse with
  | [] => none
  | [first] => if first == "" then none else some ""
  | _ :: rest =>
    match dropIdle rest with
    | [""] => some "/"
    | kept => some (String.intercalate "/" kept.reverse)

end Arbor.Path
