/-!
# Saturation

A number that does not fit into a range enters it at the nearest end. So do the numbers of the outside
world that become the 32-bit integers of the language.
-/

namespace Arbor

/-- The 32-bit integer nearest to the number. -/
def saturate (n : Int) : Int32 :=
  if n < -2147483648 then Int32.ofInt (-2147483648)
  else if 2147483647 < n then Int32.ofInt 2147483647
  else Int32.ofInt n

/-- The 32-bit integer nearest to the count. -/
def saturateCount (n : Nat) : Int32 := saturate n

/-- The machine word nearest to the sum. -/
def addSaturating (a b : USize) : USize :=
  USize.ofNat (min (a.toNat + b.toNat) (USize.size - 1))

end Arbor
