import Arbor.Span
import Arbor.Text.Decimal
import Arbor.Text.Quoted

/-!
# Tokens

The words and marks that a source text of the tree format is made of.
-/

namespace Arbor

open Text

/-- The classes of tokens. -/
inductive TokenKind where
  | identifier | hash | leftParen | rightParen | leftBrace | rightBrace | equals
  | string | int | bool | dot | comma
  /-- The end of the input. -/
  | finish
  deriving DecidableEq

/-- The name of the class in messages. -/
def TokenKind.display : TokenKind → String
  | identifier => "identifier"
  | hash => "'#'"
  | leftParen => "'('"
  | rightParen => "')'"
  | leftBrace => "'\x7b'"
  | rightBrace => "'\x7d'"
  | equals => "'='"
  | string => "string"
  | int => "int"
  | bool => "bool"
  | dot => "'.'"
  | comma => "','"
  | finish => "end of input"

/-- A token with its text, in which the escapes of a quoted string are already read. -/
structure Token where
  kind : TokenKind
  text : String
  span : Span
  deriving DecidableEq

/-- The token on one line: where it starts, its class, and its text where it has one. -/
def Token.display (t : Token) : String :=
  let head := natText t.span.start.line ++ ":" ++ natText t.span.start.column ++ " " ++ t.kind.display
  match t.kind with
  | .string => head ++ " " ++ inspect t.text
  | .finish => head
  | _ => head ++ " " ++ t.text

end Arbor
