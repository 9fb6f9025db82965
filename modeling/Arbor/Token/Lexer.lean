import Arbor.Diagnostic
import Arbor.Text.Blank
import Arbor.Text.Quoted
import Arbor.Text.Word
import Arbor.Token

/-!
# From source text to tokens

A source text is cut into lexemes: runs of blanks, comments, tokens and stray characters. Every
character is in exactly one of them, and nothing stops the cutting: what does not fit is reported and
passed over.
-/

namespace Arbor

open Text

/-- A point in a source text and the characters behind it. -/
structure Cursor where
  position : Position
  rest : List Char

namespace Cursor

/-- Behind a run of characters that pass the test. -/
def skipWhile (c : Cursor) (test : Char → Bool) : Cursor :=
  ⟨c.position.after (c.rest.takeWhile test), c.rest.dropWhile test⟩

end Cursor

/-- A piece of a source text. -/
inductive Lexeme where
  /-- A run of blanks or a comment. -/
  | gap (span : Span)
  /-- A token, and what was wrong inside it. -/
  | token (token : Token) (findings : List Diagnostic)
  /-- A character that starts no token. -/
  | stray (char : Char) (span : Span)

namespace Lexeme

def token? : Lexeme → Option Token
  | token t _ => some t
  | _ => none

/-- What there is to report about the lexeme. -/
def findings : Lexeme → List Diagnostic
  | gap _ => []
  | token _ ds => ds
  | stray c span => [.atSpan "TOK001" ("Unexpected character '" ++ c.toString ++ "'.") span]

/-- The class of the token that a single mark makes. -/
def mark? : Char → Option TokenKind
  | '#' => some .hash
  | '(' => some .leftParen
  | ')' => some .rightParen
  | '{' => some .leftBrace
  | '}' => some .rightBrace
  | '=' => some .equals
  | '.' => some .dot
  | ',' => some .comma
  | _ => none

/-- The class of a run of word characters that starts like a word. -/
def wordKind (text : String) : TokenKind :=
  if text = "true" || text = "false" then .bool else .identifier

/-- The class of a run of word characters that starts with a digit or a minus sign. -/
def numeralKind (text : String) : TokenKind :=
  if isIntNumeral text.toList then .int else .identifier

/-- Reads a quoted string behind its opening quote at `start`. `text` holds the characters read so
far and `findings` the reports, both last one first. An escape that does not exist stands for its
letter. -/
def readQuoted (start : Position) (text : List Char) (findings : List Diagnostic) :
    Position → List Char → Lexeme × Cursor
  | here, '"' :: rest =>
    let stop := here.next '"'
    (token ⟨.string, String.ofList text.reverse, ⟨start, stop⟩⟩ findings.reverse, ⟨stop, rest⟩)
  | here, '\\' :: letter :: rest =>
    let stop := (here.next '\\').next letter
    match unescapeLetter? letter with
    | some c => readQuoted start (c :: text) findings stop rest
    | none =>
      let finding := Diagnostic.atSpan "TOK003" ("Invalid escape \\" ++ letter.toString ++ ".")
        ⟨start, stop⟩
      readQuoted start (letter :: text) (finding :: findings) stop rest
  | here, ['\\'] => unterminated (here.next '\\')
  | here, c :: rest => readQuoted start (c :: text) findings (here.next c) rest
  | here, [] => unterminated here
where
  /-- The string that the end of the input cuts off. -/
  unterminated (stop : Position) : Lexeme × Cursor :=
    let finding := Diagnostic.atSpan "TOK004" "Unterminated string literal." ⟨start, stop⟩
    (token ⟨.string, String.ofList text.reverse, ⟨start, stop⟩⟩ (finding :: findings).reverse,
      ⟨stop, []⟩)

/-- A token whose text is `c` and the word characters behind it. -/
def readWord (kindOf : String → TokenKind) (start : Position) (c : Char) (cs : List Char) :
    Lexeme × Cursor :=
  let text := String.ofList (c :: cs.takeWhile isWordPart)
  let next := Cursor.skipWhile ⟨start.next c, cs⟩ isWordPart
  (token ⟨kindOf text, text, ⟨start, next.position⟩⟩ [], next)

/-- The first lexeme of `c :: cs`, and the cursor behind it. -/
def read (start : Position) (c : Char) (cs : List Char) : Lexeme × Cursor :=
  if isBlank c then
    let next := Cursor.skipWhile ⟨start.next c, cs⟩ isBlank
    (gap ⟨start, next.position⟩, next)
  else if c = '/' ∧ cs.head? = some '/' then
    let next := Cursor.skipWhile ⟨start.next c, cs⟩ (· != '\n')
    (gap ⟨start, next.position⟩, next)
  else if isWordStart c then readWord wordKind start c cs
  else if c = '-' ∨ isDigit c then readWord numeralKind start c cs
  else if c = '"' then readQuoted start [] [] (start.next c) cs
  else
    let stop := start.next c
    match mark? c with
    | some kind => (token ⟨kind, c.toString, ⟨start, stop⟩⟩ [], ⟨stop, cs⟩)
    | none => (stray c ⟨start, stop⟩, ⟨stop, cs⟩)

theorem readQuoted_rest_length_le (start : Position) (text : List Char)
    (findings : List Diagnostic) (here : Position) (cs : List Char) :
    (readQuoted start text findings here cs).2.rest.length ≤ cs.length := by
  fun_induction readQuoted start text findings here cs <;>
    simp_all [readQuoted.unterminated] <;> omega

/-- A lexeme takes at least one character. -/
theorem read_rest_length_le (start : Position) (c : Char) (cs : List Char) :
    (read start c cs).2.rest.length ≤ cs.length := by
  have drop (p : Char → Bool) : (cs.dropWhile p).length ≤ cs.length :=
    (List.dropWhile_sublist p).length_le
  unfold read
  split
  · exact drop _
  · split
    · exact drop _
    · split
      · exact drop _
      · split
        · exact drop _
        · split
          · exact readQuoted_rest_length_le ..
          · dsimp only
            split <;> exact Nat.le_refl _

/-- Cuts the rest of the text into lexemes, behind the ones already cut; also the end of the text. -/
def readAll (cursor : Cursor) (done : Array Lexeme) : Array Lexeme × Position :=
  match h : cursor.rest with
  | [] => (done, cursor.position)
  | c :: cs =>
    let step := read cursor.position c cs
    have : step.2.rest.length < cursor.rest.length := by
      rw [h]
      exact Nat.lt_succ_of_le (read_rest_length_le cursor.position c cs)
    readAll step.2 (done.push step.1)
termination_by cursor.rest.length

end Lexeme

/-- The tokens of a source text and what there is to report. -/
structure Tokens where
  tokens : List Token
  findings : List Diagnostic

/-- Cuts a source text into tokens. The last one is always the end of the input. -/
def tokenize (source : String) : Tokens :=
  let (lexemes, stop) := Lexeme.readAll ⟨.first, source.toList⟩ #[]
  { tokens := lexemes.toList.filterMap Lexeme.token? ++ [⟨.finish, "", ⟨stop, stop⟩⟩]
    findings := lexemes.toList.flatMap Lexeme.findings }

end Arbor
