import Arbor.Text.Numeric

/-!
# Decimal numerals

The decimal numeral of a number, and the reading of a numeral with an optional sign. The numeral of a
32-bit integer reads back as that integer.
-/

namespace Arbor.Text

/-- The digit that stands for a number below ten. -/
def digitChar (n : Nat) : Char := Char.ofNat (48 + n)

/-- The number a digit stands for. -/
def digitValue (c : Char) : Nat := c.toNat - 48

/-- The decimal digits of a number, the most significant one first. -/
def natDigits (n : Nat) : List Char :=
  if n < 10 then [digitChar n] else natDigits (n / 10) ++ [digitChar (n % 10)]

/-- The number that a run of digits stands for. -/
def natOfDigits (cs : List Char) : Nat :=
  cs.foldl (fun acc c => acc * 10 + digitValue c) 0

/-- The digits of an integer, behind a minus sign when it is negative. -/
def intDigits : Int → List Char
  | .ofNat n => natDigits n
  | .negSucc n => '-' :: natDigits (n + 1)

/-- The decimal numeral of a number. -/
def natText (n : Nat) : String := String.ofList (natDigits n)

/-- The decimal numeral of an integer. -/
def intText (n : Int) : String := String.ofList (intDigits n)

/-- The number that a non-empty run of digits stands for. -/
def readDigits? (cs : List Char) : Option Nat :=
  if cs.isEmpty || !cs.all isDigit then none else some (natOfDigits cs)

/-- The integer that a numeral with an optional sign stands for. -/
def readInt? : List Char → Option Int
  | '-' :: cs => (readDigits? cs).map fun n => -(n : Int)
  | '+' :: cs => (readDigits? cs).map Int.ofNat
  | cs => (readDigits? cs).map Int.ofNat

/-- The 32-bit integer that a numeral stands for, if it is in range. -/
def readInt32? (cs : List Char) : Option Int32 :=
  (readInt? cs).bind fun n =>
    if -2147483648 ≤ n && n ≤ 2147483647 then some (Int32.ofInt n) else none

/-- The number that a numeral with an optional plus sign stands for, if it takes at most 64 bits. -/
def readCount? (cs : List Char) : Option Nat :=
  let digits :=
    match cs with
    | '+' :: cs => cs
    | cs => cs
  (readDigits? digits).bind fun n => if n ≤ 18446744073709551615 then some n else none

/-- Is the text a run of digits with an optional minus sign? -/
def isIntNumeral : List Char → Bool
  | '-' :: cs => !cs.isEmpty && cs.all isDigit
  | cs => !cs.isEmpty && cs.all isDigit

end Arbor.Text
