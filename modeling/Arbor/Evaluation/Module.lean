import Arbor.Form
import Arbor.Node.Parser

/-!
# Module sources

A module is a file that holds a `Program`. What keeps a file from being one comes back as an error
node about the import.
-/

namespace Arbor

/-- Why a file is no module. -/
inductive ModuleError where
  | unreadable (path reason : String)
  | unparsable (path finding : String)
  | notProgram (path kind : String)
  | empty (path : String)

namespace ModuleError

def code : ModuleError → String
  | unreadable .. => "RUN010"
  | _ => "RUN011"

def message : ModuleError → String
  | unreadable path reason => "cannot read module '" ++ path ++ "': " ++ reason
  | unparsable path finding => "module '" ++ path ++ "' failed to parse: " ++ finding
  | notProgram path kind => "module '" ++ path ++ "' must be a Program, found " ++ kind
  | empty path => "module '" ++ path ++ "' is empty"

/-- The error as a node about an import. -/
def toErrNode (e : ModuleError) (importId : String) : Node :=
  errNode "err0" e.code e.message importId

end ModuleError

/-- The program that a module's text holds. -/
def moduleProgram (path text : String) : Except ModuleError Node :=
  let parsed := parse text
  match parsed.diagnostics, parsed.root? with
  | d :: _, _ => .error (.unparsable path d.display)
  | [], some root => if root.isProgram then .ok root else .error (.notProgram path root.kind)
  | [], none => .error (.empty path)

end Arbor
