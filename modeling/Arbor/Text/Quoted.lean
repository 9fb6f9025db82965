import Arbor.Text.Printable

/-!
# Quoted texts

Two ways to write a text between double quotes. `escape` is the one the tree format reads back: it
escapes the quote, the backslash and the three control characters that have a letter. `inspect` is for
people: it also writes every character that would not show as itself by its code point.
-/

namespace Arbor.Text

/-- The escape letter of a character that a quoted text cannot hold as itself. -/
def escapeLetter? : Char → Option Char
  | '"' => some '"'
  | '\\' => some '\\'
  | '\n' => some 'n'
  | '\r' => some 'r'
  | '\t' => some 't'
  | _ => none

/-- The character that an escape letter stands for. -/
def unescapeLetter? : Char → Option Char
  | '"' => some '"'
  | '\\' => some '\\'
  | 'n' => some '\n'
  | 'r' => some '\r'
  | 't' => some '\t'
  | _ => none

/-- The characters that write one character inside quotes. -/
def escapeChar (c : Char) : List Char :=
  match escapeLetter? c with
  | some letter => ['\\', letter]
  | none => [c]

/-- The characters that write a text inside quotes. -/
def escapeChars (cs : List Char) : List Char := cs.flatMap escapeChar

/-- The text as it stands between the quotes of a quoted text. -/
def escape (text : String) : String := String.ofList (escapeChars text.toList)

/-- The text between quotes. -/
def quote (text : String) : String := String.ofList ('"' :: escapeChars text.toList ++ ['"'])

/-- The lower-case hexadecimal digit of a number below sixteen. -/
def hexDigit (n : Nat) : Char := if n < 10 then Char.ofNat (48 + n) else Char.ofNat (87 + n)

/-- The lower-case hexadecimal digits of a number, without leading zeros. -/
def hexDigits (n : Nat) : List Char :=
  if n < 16 then [hexDigit n] else hexDigits (n / 16) ++ [hexDigit (n % 16)]

/-- One character as a person is shown it inside quotes. -/
def inspectChar (c : Char) : List Char :=
  if c = '\x00' then ['\\', '0']
  else match escapeLetter? c with
    | some letter => ['\\', letter]
    | none =>
      if isExtending c || !isPrintable c then
        ['\\', 'u', '\x7b'] ++ hexDigits c.toNat ++ ['\x7d']
      else [c]

/-- The text between quotes, every character visible. -/
def inspect (text : String) : String :=
  String.ofList ('"' :: text.toList.flatMap inspectChar ++ ['"'])

end Arbor.Text
