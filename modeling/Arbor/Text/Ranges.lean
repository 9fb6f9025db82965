/-!
# Ranges of code points

A character class is a table of closed ranges of code points in ascending order.
-/

namespace Arbor.Text

/-- A closed range of code points. -/
abbrev CodeRange := Nat × Nat

/-- Is the code point in one of the ranges? The ranges ascend, so the search stops at the first one
that ends at or after the code point. -/
def inRanges : List CodeRange → Nat → Bool
  | [], _ => false
  | (first, last) :: rest, n => if n ≤ last then decide (first ≤ n) else inRanges rest n

end Arbor.Text
