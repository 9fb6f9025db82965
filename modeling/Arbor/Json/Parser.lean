import Arbor.Json
import Arbor.Text.Numeric

/-!
# Reading JSON

The JSON grammar, without extensions: one value, surrounded by blanks of the grammar. Reading either
gives the value or nothing; why a text is refused is not told.
-/

namespace Arbor.Json

open Text

/-- The four blank characters of the grammar. -/
def isJsonBlank (c : Char) : Bool := c == ' ' || c == '\n' || c == '\t' || c == '\r'

def skipBlanks (cs : List Char) : List Char := cs.dropWhile isJsonBlank

/-- The value of a hexadecimal digit of either case. -/
def hexValue? (c : Char) : Option Nat :=
  if isDigit c then some (digitValue c)
  else if 'a' ≤ c ∧ c ≤ 'f' then some (c.toNat - 87)
  else if 'A' ≤ c ∧ c ≤ 'F' then some (c.toNat - 55)
  else none

/-- A piece of a string literal: a character, or a code unit written in hexadecimal. -/
inductive Piece where
  | char (c : Char)
  | unit (code : Nat)

/-- The character that a short escape stands for. -/
def shortEscape? : Char → Option Char
  | '"' => some '"'
  | '\\' => some '\\'
  | '/' => some '/'
  | 'b' => some '\x08'
  | 'f' => some '\x0c'
  | 'n' => some '\n'
  | 'r' => some '\r'
  | 't' => some '\t'
  | _ => none

/-- The pieces of a string literal behind its opening quote, last one first, and what follows the
closing quote. -/
def readPieces (done : List Piece) : List Char → Option (List Piece × List Char)
  | '"' :: rest => some (done, rest)
  | '\\' :: 'u' :: a :: b :: c :: d :: rest =>
    match hexValue? a, hexValue? b, hexValue? c, hexValue? d with
    | some a, some b, some c, some d =>
      readPieces (.unit (a * 4096 + b * 256 + c * 16 + d) :: done) rest
    | _, _, _, _ => none
  | '\\' :: letter :: rest =>
    match shortEscape? letter with
    | some c => readPieces (.char c :: done) rest
    | none => none
  | c :: rest => if c.toNat < 32 || c = '\\' then none else readPieces (.char c :: done) rest
  | [] => none

/-- The characters of the pieces: two surrogates that match make one character. None when a surrogate
stays alone. -/
def joinPieces : List Piece → Option (List Char)
  | [] => some []
  | .char c :: rest => (joinPieces rest).map (c :: ·)
  | .unit high :: .unit low :: rest =>
    if 0xD800 ≤ high ∧ high < 0xDC00 then
      if 0xDC00 ≤ low ∧ low < 0xE000 then
        (joinPieces rest).map (Char.ofNat (0x10000 + (high - 0xD800) * 1024 + (low - 0xDC00)) :: ·)
      else none
    else if 0xDC00 ≤ high ∧ high < 0xE000 then none
    else (joinPieces (.unit low :: rest)).map (Char.ofNat high :: ·)
  | .unit code :: rest =>
    if 0xD800 ≤ code ∧ code < 0xE000 then none else (joinPieces rest).map (Char.ofNat code :: ·)

/-- The text of a string literal behind its opening quote, if a text can hold it. -/
def readText (cs : List Char) : Option (Option String × List Char) :=
  (readPieces [] cs).map fun (pieces, rest) =>
    ((joinPieces pieces.reverse).map String.ofList, rest)

/-- Drops a fraction when there is one; a point without a digit behind it is refused. The flag tells
whether there was one. -/
def readFraction : List Char → Option (Bool × List Char)
  | '.' :: d :: rest => if isDigit d then some (true, rest.dropWhile isDigit) else none
  | ['.'] => none
  | cs => some (false, cs)

/-- Drops an exponent when there is one; one without a digit is refused. -/
def readExponent : List Char → Option (Bool × List Char)
  | [] => some (false, [])
  | e :: cs =>
    if e = 'e' ∨ e = 'E' then
      let digits :=
        match cs with
        | '+' :: rest => rest
        | '-' :: rest => rest
        | rest => rest
      match digits with
      | d :: rest => if isDigit d then some (true, rest.dropWhile isDigit) else none
      | [] => none
    else some (false, e :: cs)

/-- A number without its sign. -/
def readNumber (negative : Bool) (cs : List Char) : Option (Json × List Char) :=
  let digits := cs.takeWhile isDigit
  let rest := cs.dropWhile isDigit
  if digits.isEmpty || (digits.length > 1 && digits.head? == some '0') then none
  else do
    let (fraction, rest) ← readFraction rest
    let (exponent, rest) ← readExponent rest
    let n := natOfDigits digits
    if fraction || exponent || (negative && n == 0) then pure (.nonInteger, rest)
    else pure (.int (if negative then -(n : Int) else n), rest)

mutual

/-- A value and what follows it. The first argument bounds the nesting. -/
def readValue : Nat → List Char → Option (Json × List Char)
  | 0, _ => none
  | fuel + 1, cs =>
    match skipBlanks cs with
    | 'n' :: 'u' :: 'l' :: 'l' :: rest => some (.null, rest)
    | 't' :: 'r' :: 'u' :: 'e' :: rest => some (.bool true, rest)
    | 'f' :: 'a' :: 'l' :: 's' :: 'e' :: rest => some (.bool false, rest)
    | '"' :: rest => (readText rest).map fun (text?, rest) => (.str text?, rest)
    | '[' :: rest =>
      match skipBlanks rest with
      | ']' :: rest => some (.arr [], rest)
      | rest => (readItems fuel rest []).map fun (items, rest) => (.arr items.reverse, rest)
    | '{' :: rest =>
      match skipBlanks rest with
      | '}' :: rest => some (.obj [], rest)
      | rest => (readMembers fuel rest []).map fun (members, rest) => (.obj members.reverse, rest)
    | '-' :: rest => readNumber true rest
    | rest => readNumber false rest

/-- The items of an array up to its closing bracket, behind the ones already read, last one first. -/
def readItems : Nat → List Char → List Json → Option (List Json × List Char)
  | 0, _, _ => none
  | fuel + 1, cs, done => do
    let (item, rest) ← readValue fuel cs
    match skipBlanks rest with
    | ',' :: rest => readItems fuel rest (item :: done)
    | ']' :: rest => some (item :: done, rest)
    | _ => none

/-- The members of an object up to its closing brace, behind the ones already read, last one first. -/
def readMembers : Nat → List Char → List (Option String × Json) →
    Option (List (Option String × Json) × List Char)
  | 0, _, _ => none
  | fuel + 1, cs, done =>
    match skipBlanks cs with
    | '"' :: rest => do
      let (key, rest) ← readText rest
      match skipBlanks rest with
      | ':' :: rest =>
        let (value, rest) ← readValue fuel rest
        match skipBlanks rest with
        | ',' :: rest => readMembers fuel rest ((key, value) :: done)
        | '}' :: rest => some ((key, value) :: done, rest)
        | _ => none
      | _ => none
    | _ => none

end

/-- The value that the text is. Each nested value takes at least one character, so the length of the
text bounds the nesting. -/
def parse? (text : String) : Option Json := do
  let cs := text.toList
  let (value, rest) ← readValue (2 * cs.length + 2) cs
  if (skipBlanks rest).isEmpty then some value else none

end Arbor.Json
