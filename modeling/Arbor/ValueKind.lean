/-!
# Kinds of values

The static kinds that the validator computes, the capability contracts ask for and values have.
-/

namespace Arbor

/-- The kinds of values. `unknown` stands for "could not be determined". -/
inductive ValueKind where
  | string | int | bool | void | node | function | unknown
  deriving DecidableEq

namespace ValueKind

/-- The name of the kind in messages and results. -/
def name : ValueKind → String
  | string => "string"
  | int => "int"
  | bool => "bool"
  | void => "void"
  | node => "node"
  | function => "function"
  | unknown => "unknown"

/-- May a value of this kind stand where the expected kind is asked for? Unknown may stand anywhere. -/
def fits (actual expected : ValueKind) : Bool := actual == expected || actual == unknown

end ValueKind

end Arbor
