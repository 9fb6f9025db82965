import Arbor.Node
import Arbor.Text.Decimal
import Arbor.Token.Lexer

/-!
# From tokens to a node

The grammar is

    Node := Kind # Id [ ( Attr* ) ] [ { Node* } ]
    Attr := Key = (String | Int | Bool | Identifier)

where words joined by dots and commas make one identifier value. Reading stops at the first token that
does not fit. A repeated attribute key is only reported: its first value counts.

Every reading function returns the tokens it leaves together with the proof that they are fewer, so
the child and attribute loops end; nesting is bounded by `maxNesting`.
-/

namespace Arbor

open Text

/-- How deep nodes may be nested in a source text. -/
def maxNesting : Nat := 1024

/-- What the grammar asks for at a point. -/
inductive Expected where
  | nodeKind | hash | nodeId | attrKey | equals | attrValue | attrsEnd | childrenEnd
  deriving DecidableEq

namespace Expected

def code : Expected → String
  | nodeKind => "PAR001"
  | hash => "PAR002"
  | nodeId => "PAR003"
  | attrKey => "PAR004"
  | equals => "PAR005"
  | attrValue => "PAR006"
  | attrsEnd | childrenEnd => "PAR007"

def message : Expected → String
  | nodeKind => "Expected node kind."
  | hash => "Expected '#' after node kind."
  | nodeId => "Expected node id."
  | attrKey => "Expected attribute name."
  | equals => "Expected '=' after attribute name."
  | attrValue => "Expected attribute value."
  | attrsEnd => "Expected ')' to close attribute list."
  | childrenEnd => "Expected '\x7d' to close child list."

end Expected

/-- Why reading stopped, with the token at which it did. -/
inductive ParseError where
  | expected (what : Expected) (found : Token)
  | intOutOfRange (found : Token)
  | nestingTooDeep (found : Token)
  | afterRoot (found : Token)
  deriving DecidableEq

/-- The report of the error. -/
def ParseError.diagnostic : ParseError → Diagnostic
  | expected what found =>
    .atSpan what.code (what.message ++ " Found " ++ found.kind.display ++ ".") found.span
  | intOutOfRange found =>
    .atSpan "PAR006" ("Int literal '" ++ found.text ++ "' is out of range.") found.span
  | nestingTooDeep found =>
    .atSpan "PAR009" ("Maximum nesting depth (" ++ natText maxNesting ++ ") exceeded.") found.span
  | afterRoot found =>
    .atSpan "PAR008" ("Unexpected " ++ found.kind.display ++ " after root node.") found.span

/-- The outcome of a parse. A root beside diagnostics is not to be trusted. -/
structure Parsed where
  root? : Option Node
  diagnostics : List Diagnostic

namespace Parsed

def isClean (p : Parsed) : Bool := p.root?.isSome && p.diagnostics.isEmpty

/-- The root, when there is nothing to report about it. -/
def clean (p : Parsed) : Except (List Diagnostic) Node :=
  match p.root?, p.diagnostics with
  | some root, [] => .ok root
  | _, ds => .error ds

end Parsed

namespace Parser

/-- A reading that may stop with an error; either way it tells which attribute keys were repeated, in
order. -/
structure Reading (α : Type) where
  repeated : List Token
  outcome : Except ParseError α

namespace Reading

instance : Monad Reading where
  pure a := ⟨[], .ok a⟩
  bind r f :=
    match r.outcome with
    | .ok a => ⟨r.repeated ++ (f a).repeated, (f a).outcome⟩
    | .error e => ⟨r.repeated, .error e⟩

variable {α : Type}

def fail (e : ParseError) : Reading α := ⟨[], .error e⟩

/-- Reports the key of an attribute that the node already has. -/
def report (key : Token) : Reading Unit := ⟨[key], .ok ()⟩

end Reading

/-- What was read from the front of the tokens `input`: a value, the tokens behind it, and where the
last token read ends. -/
structure Front (α : Type) (input : List Token) where
  value : α
  rest : List Token
  stop : Position
  shorter : rest.length < input.length

namespace Front

variable {α β : Type} {input longer : List Token}

/-- The same reading, seen as a reading of a longer input. -/
def widen (f : Front α input) (h : input.length ≤ longer.length) : Front α longer :=
  { f with shorter := Nat.lt_of_lt_of_le f.shorter h }

def map (f : Front α input) (g : α → β) : Front β input := { f with value := g f.value }

end Front

/-- May the token be a node kind or an attribute key? -/
def isName (t : Token) : Bool := t.kind == .identifier || t.kind == .bool

/-- May the token be a node id, or a later word of an identifier value? -/
def isWord (t : Token) : Bool := t.kind == .identifier || t.kind == .int || t.kind == .bool

/-- Does the token join two words of an identifier value? -/
def isJoint (t : Token) : Bool := t.kind == .dot || t.kind == .comma

/-- Reads the words that a dot or a comma joins to the identifier `text`, which ends at `stop`. -/
def readJoined (text : String) (stop : Position) :
    (input : List Token) → { r : String × List Token × Position // r.2.1.length ≤ input.length }
  | joint :: word :: rest =>
    if isJoint joint && isWord word then
      let ⟨r, h⟩ := readJoined (text ++ joint.text ++ word.text) word.span.stop rest
      ⟨r, by simp only [List.length_cons]; omega⟩
    else ⟨(text, joint :: word :: rest, stop), Nat.le_refl _⟩
  | input => ⟨(text, input, stop), Nat.le_refl _⟩

/-- Reads an attribute value. -/
def readAttrValue (finish : Token) (input : List Token) : Reading (Front AttrValue input) :=
  match input with
  | [] => .fail (.expected .attrValue finish)
  | t :: rest =>
    let single (value : AttrValue) : Front AttrValue (t :: rest) :=
      ⟨value, rest, t.span.stop, Nat.lt_succ_self _⟩
    match t.kind with
    | .string => pure (single (.string t.text))
    | .bool => pure (single (.bool (t.text == "true")))
    | .int =>
      match readInt32? t.text.toList with
      | some n => pure (single (.int n))
      | none => .fail (.intOutOfRange t)
    | .identifier =>
      let ⟨(text, rest', stop), h⟩ := readJoined t.text t.span.stop rest
      pure ⟨.identifier text, rest', stop, Nat.lt_succ_of_le h⟩
    | _ => .fail (.expected .attrValue t)

/-- Reads attributes up to and with the closing parenthesis, into the ones already read. -/
def readAttrs (finish : Token) (input : List Token) (attrs : Attrs) : Reading (Front Attrs input) :=
  match input with
  | [] => .fail (.expected .attrsEnd finish)
  | key :: rest =>
    if key.kind = .rightParen then pure ⟨attrs, rest, key.span.stop, Nat.lt_succ_self _⟩
    else if isName key then
      match rest with
      | [] => .fail (.expected .equals finish)
      | mark :: rest' =>
        if mark.kind = .equals then do
          let value ← readAttrValue finish rest'
          have := value.shorter
          if attrs.contains key.text then
            .report key
            let front ← readAttrs finish value.rest attrs
            pure (front.widen (by simp only [List.length_cons]; omega))
          else
            let front ← readAttrs finish value.rest (attrs.insert key.text value.value)
            pure (front.widen (by simp only [List.length_cons]; omega))
        else .fail (.expected .equals mark)
    else .fail (.expected .attrKey key)
termination_by input.length
decreasing_by all_goals simp only [List.length_cons]; omega

/-- Reads children up to and with the closing brace, each with `readChild`. -/
def readChildren (readChild : (input : List Token) → Reading (Front Node input)) (finish : Token)
    (input : List Token) : Reading (Front (List Node) input) :=
  match input with
  | [] => .fail (.expected .childrenEnd finish)
  | t :: rest =>
    if t.kind = .rightBrace then pure ⟨[], rest, t.span.stop, Nat.lt_succ_self _⟩
    else do
      let child ← readChild (t :: rest)
      have := child.shorter
      let siblings ← readChildren readChild finish child.rest
      pure ((siblings.map (child.value :: ·)).widen (Nat.le_of_lt child.shorter))
termination_by input.length
decreasing_by exact this

/-- Reads the attribute list when there is one. `stop` is where the token before ends. -/
def readAttrList (finish : Token) (input : List Token) (stop : Position) :
    Reading { r : Attrs × List Token × Position // r.2.1.length ≤ input.length } :=
  match input with
  | [] => pure ⟨(∅, [], stop), Nat.le_refl _⟩
  | t :: rest =>
    if t.kind = .leftParen then do
      let front ← readAttrs finish rest ∅
      pure ⟨(front.value, front.rest, front.stop),
        Nat.le_of_lt (Nat.lt_succ_of_lt front.shorter)⟩
    else pure ⟨(∅, t :: rest, stop), Nat.le_refl _⟩

/-- Reads the child list when there is one. `stop` is where the token before ends. -/
def readChildList (readChild : (input : List Token) → Reading (Front Node input)) (finish : Token)
    (input : List Token) (stop : Position) :
    Reading { r : List Node × List Token × Position // r.2.1.length ≤ input.length } :=
  match input with
  | [] => pure ⟨([], [], stop), Nat.le_refl _⟩
  | t :: rest =>
    if t.kind = .leftBrace then do
      let front ← readChildren readChild finish rest
      pure ⟨(front.value, front.rest, front.stop),
        Nat.le_of_lt (Nat.lt_succ_of_lt front.shorter)⟩
    else pure ⟨([], t :: rest, stop), Nat.le_refl _⟩

/-- Reads a node whose children are read with `readChild`. -/
def readNodeWith (readChild : (input : List Token) → Reading (Front Node input)) (finish : Token)
    (input : List Token) : Reading (Front Node input) :=
  match input with
  | [] => .fail (.expected .nodeKind finish)
  | kind :: afterKind =>
    if !isName kind then .fail (.expected .nodeKind kind)
    else match afterKind with
      | [] => .fail (.expected .hash finish)
      | hash :: afterHash =>
        if hash.kind != .hash then .fail (.expected .hash hash)
        else match afterHash with
          | [] => .fail (.expected .nodeId finish)
          | id :: afterId =>
            if !isWord id then .fail (.expected .nodeId id)
            else do
              let ⟨(attrs, rest, stop), h⟩ ← readAttrList finish afterId id.span.stop
              let ⟨(children, rest', stop'), h'⟩ ← readChildList readChild finish rest stop
              pure
                { value := ⟨kind.text, id.text, attrs, children, ⟨kind.span.start, stop'⟩⟩
                  rest := rest'
                  stop := stop'
                  shorter := by simp only [List.length_cons] at h h' ⊢; omega }

/-- Reads a node under which at most `nesting` levels of nodes may be nested, itself counted. -/
def readNode (finish : Token) : (nesting : Nat) → (input : List Token) → Reading (Front Node input)
  | 0, [] => .fail (.nestingTooDeep finish)
  | 0, t :: _ => .fail (.nestingTooDeep t)
  | nesting + 1, input => readNodeWith (readNode finish nesting) finish input

/-- The report of a repeated attribute key. -/
def repeatedKey (key : Token) : Diagnostic :=
  .atSpan "PAR010" ("Duplicate attribute '" ++ key.text ++ "'.") key.span

/-- Reads exactly one node from the tokens before the end of the input. -/
def readRoot (finish : Token) (input : List Token) : Reading Node := do
  let front ← readNode finish maxNesting input
  match front.rest with
  | [] => pure front.value
  | t :: _ => .fail (.afterRoot t)

end Parser

/-- The token that ends the input: the first one of that kind, else one at the end of the last
token. -/
def finishToken (tokens : List Token) : Token :=
  match tokens.find? (·.kind == .finish) with
  | some t => t
  | none =>
    let stop := (tokens.getLast?.map (·.span.stop)).getD .nowhere
    ⟨.finish, "", ⟨stop, stop⟩⟩

/-- Reads exactly one node from tokens; what stands behind the end of the input does not count. -/
def parseTokens (tokens : List Token) : Parsed :=
  let reading := Parser.readRoot (finishToken tokens) (tokens.takeWhile (·.kind != .finish))
  let repeated := reading.repeated.map Parser.repeatedKey
  match reading.outcome with
  | .ok root => ⟨some root, repeated⟩
  | .error e => ⟨none, repeated ++ [e.diagnostic]⟩

/-- Reads the node of a source text. What the lexer reports comes first. -/
def parse (source : String) : Parsed :=
  let lexed := tokenize source
  let parsed := parseTokens lexed.tokens
  { parsed with diagnostics := lexed.findings ++ parsed.diagnostics }

end Arbor
