import Arbor.CommandLine.Words

/-!
# Help texts

How a command and its options are described to a user, and how a refusal is explained.
-/

namespace Arbor.CommandLine

open Text

/-- The texts with the left column as wide as its longest entry. -/
def columns (rows : List (String × String)) : String :=
  let width := (rows.map (·.1.length)).foldl max 0
  let row (left right : String) : String :=
    "  " ++ left ++ String.ofList (List.replicate (width - left.length + 2) ' ') ++ right ++ "\n"
  String.join (rows.map fun (left, right) => row left right)

/-- A section of a help text; nothing when it has no rows. -/
def listing (title : String) (rows : List (String × String)) : String :=
  if rows.isEmpty then "" else "\n" ++ title ++ ":\n" ++ columns rows

namespace OptionSpec

/-- The left column of the option in a list of options. -/
def listed (o : OptionSpec) : String :=
  match o.letter? with
  | some c => String.ofList ['-', c] ++ ", " ++ o.usage
  | none => "    " ++ o.usage

/-- Is it an option of the command's own? -/
def isOwn (o : OptionSpec) : Bool :=
  match o.role with
  | .help | .version => false
  | _ => true

end OptionSpec

namespace Shape

/-- What stands behind the name of a command in its usage line. -/
def usage (s : Shape) : String :=
  (if s.options.any OptionSpec.isOwn then " [OPTIONS]" else "") ++
    String.join (s.operands.map fun operand => " <" ++ operand.label ++ ">") ++
    (s.trailing?.map fun operand => " [-- <" ++ operand.label ++ ">...]").getD ""

/-- The lists of the operands and of the options. -/
def lists (s : Shape) : String :=
  let operands := s.operands.map fun operand => ("<" ++ operand.label ++ ">", operand.about)
  let trailing := s.trailing?.toList.map fun operand => ("[" ++ operand.label ++ "]...", operand.about)
  listing "Arguments" (operands ++ trailing) ++
    listing "Options" (s.options.map fun o => (o.listed, o.about))

end Shape

/-- The text that explains a refusal, before the usage line. -/
def UsageError.message : UsageError → String
  | unexpected word => "unexpected argument '" ++ word ++ "' found"
  | unwantedValue o value =>
    "unexpected value '" ++ value ++ "' for '" ++ o.usage ++ "' found; no more were expected"
  | missingValue usage => "a value is required for '" ++ usage ++ "' but none was supplied"
  | invalidValue o value => "invalid value '" ++ value ++ "' for '" ++ o.usage ++ "'"
  | repeated o => "the argument '" ++ o.usage ++ "' cannot be used multiple times"
  | missingOperands operands =>
    "the following required arguments were not provided:" ++
      String.join (operands.map fun operand => "\n  <" ++ operand.label ++ ">")

/-- The whole text of a refusal. -/
def refusal (message usageLine : String) : String :=
  "error: " ++ message ++ "\n\n" ++ usageLine ++ "\n\nFor more information, try '--help'.\n"

end Arbor.CommandLine
