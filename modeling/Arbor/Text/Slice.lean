import Arbor.Saturation

/-!
# Parts of a text by character positions

The bounds are 32-bit integers; negative ones count as zero, and ones beyond the end as the end.
-/

namespace Arbor.Text

/-- The position or the count that an integer stands for: none below zero. -/
def position (n : Int32) : USize := (max n 0).toISize.toUSize

/-- As many characters as `length` says, from the one at `start` on. -/
def substring (text : String) (start length : Int32) : String :=
  String.ofList ((text.toList.drop (position start).toNat).take (position length).toNat)

/-- The position behind as many characters as `length` says, from the one at `start` on. -/
def positionAfter (start length : Int32) : USize :=
  addSaturating (position start) (position length)

/-- The characters that stand before a position or from a later one on. -/
def outside (first past : Nat) (cs : List Char) : List Char :=
  (cs.zipIdx.filter fun (_, i) => i < first || past ≤ i).map Prod.fst

/-- The text without the characters at the positions from `start` up to the one behind `length` of
them. -/
def remove (text : String) (start length : Int32) : String :=
  String.ofList
    (outside (position start).toNat (positionAfter start length).toNat text.toList)

end Arbor.Text
