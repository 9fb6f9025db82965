import Arbor.Text.Decimal
import Arbor.ValueKind

/-!
# Capability contracts

A capability is something outside the language that a program may ask for by its target name. Its
contract says which permission that needs, which arguments it takes and what it gives back. The
validator checks contracts against static kinds, and the runtime checks them again against values.
-/

namespace Arbor

open Text

/-- The kind an argument must have, and the diagnostic code of a mismatch. -/
structure ArgSpec where
  kind : ValueKind
  code : String
  deriving DecidableEq

/-- What a capability asks for and gives back. -/
structure Contract where
  target : String
  permission : String
  arityCode : String
  args : List ArgSpec
  returns : ValueKind
  deriving DecidableEq

/-- A way in which arguments break a contract. -/
structure Violation where
  code : String
  message : String
  deriving DecidableEq

namespace Contract

def arity (c : Contract) : Nat := c.args.length

/-- What is wrong with the argument kinds, given the number that the first of them has. -/
def mismatches (c : Contract) : Nat → List ArgSpec → List ValueKind → List Violation
  | position, spec :: specs, actual :: actuals =>
    let rest := mismatches c (position + 1) specs actuals
    if actual.fits spec.kind then rest
    else
      let which := if c.arity = 1 then " arg" else " arg " ++ natText position
      ⟨spec.code, c.target ++ which ++ " must be " ++ spec.kind.name ++ "."⟩ :: rest
  | _, _, _ => []

/-- What is wrong with the argument kinds. When their number is wrong, nothing else is said. -/
def check (c : Contract) (kinds : List ValueKind) : List Violation :=
  if kinds.length ≠ c.arity then
    let noun := if c.arity = 1 then "argument" else "arguments"
    [⟨c.arityCode, c.target ++ " expects " ++ natText c.arity ++ " " ++ noun ++ "."⟩]
  else c.mismatches 1 c.args kinds

/-- Is the capability answered by the runtime itself and not by the host? -/
def isMeta (c : Contract) : Bool :=
  c.target.toList.take 9 == "compiler.".toList || c.target == "sys.vm_run"

end Contract

end Arbor
