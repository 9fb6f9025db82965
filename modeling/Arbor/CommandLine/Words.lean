import Arbor.Text.Decimal

/-!
# Words of a command line

What a command takes, and the reading of the words behind it. Operands come in a fixed order, options
anywhere among them. Behind a double dash every word is an operand. A word that cannot be taken ends
the reading, as does a call for help.
-/

namespace Arbor.CommandLine

open Text

/-- What a value has to be. -/
inductive ValueRule where
  | any
  | nonEmpty
  /-- A number of at most 64 bits. -/
  | count
  deriving DecidableEq

def ValueRule.accepts (rule : ValueRule) (value : String) : Bool :=
  match rule with
  | any => true
  | nonEmpty => value != ""
  | count => (readCount? value.toList).isSome

/-- What an option does. -/
inductive OptionRole where
  /-- It is given or not, by its long name or by one letter. -/
  | switch (letter? : Option Char)
  /-- It carries a value. -/
  | value (label : String) (rule : ValueRule) (repeatable : Bool)
  | help
  | version
  deriving DecidableEq

/-- An option that a command takes. -/
structure OptionSpec where
  name : String
  role : OptionRole
  about : String
  deriving DecidableEq

namespace OptionSpec

/-- The letter that stands for the option in a word with one dash. -/
def letter? (o : OptionSpec) : Option Char :=
  match o.role with
  | .switch letter? => letter?
  | .value .. => none
  | .help => some 'h'
  | .version => some 'V'

def takesValue (o : OptionSpec) : Bool :=
  match o.role with
  | .value .. => true
  | _ => false

/-- The option with the label of its value. -/
def usage (o : OptionSpec) : String :=
  match o.role with
  | .value label .. => "--" ++ o.name ++ " <" ++ label ++ ">"
  | _ => "--" ++ o.name

end OptionSpec

/-- An operand that a command takes. -/
structure OperandSpec where
  label : String
  about : String
  deriving DecidableEq

/-- The words behind a command, told apart. -/
structure Arguments where
  operands : List String := []
  /-- The options given, by name, each with its value; a switch has an empty one. -/
  options : List (String × String) := []
  /-- The operands behind a double dash, for a command that keeps them apart. -/
  trailing : List String := []
  deriving DecidableEq

namespace Arguments

/-- Is an option given? -/
def has (a : Arguments) (name : String) : Bool := a.options.any (·.1 == name)

/-- The values of an option, in order. -/
def values (a : Arguments) (name : String) : List String :=
  (a.options.filter (·.1 == name)).map Prod.snd

/-- The value of an option. -/
def value? (a : Arguments) (name : String) : Option String := (a.values name).head?

/-- The operand at an index. -/
def operand (a : Arguments) (i : Nat) : String := (a.operands[i]?).getD ""

/-- Adds an option. -/
def addOption (a : Arguments) (name value : String) : Arguments :=
  { a with options := a.options ++ [(name, value)] }

end Arguments

/-- Why the words behind a command are refused. -/
inductive UsageError where
  | unexpected (word : String)
  | unwantedValue (o : OptionSpec) (value : String)
  | missingValue (usage : String)
  | invalidValue (o : OptionSpec) (value : String)
  | repeated (o : OptionSpec)
  | missingOperands (operands : List OperandSpec)
  deriving DecidableEq

/-- What ends the reading early. -/
inductive Interruption where
  | help
  | version
  | refused (e : UsageError)
  deriving DecidableEq

/-- The form of a word. -/
inductive WordForm where
  /-- The double dash. -/
  | escape
  /-- An option by its name, perhaps with a value behind an equals sign. -/
  | long (name : String) (value? : Option String)
  /-- Options by their letters. -/
  | letters (letters : List Char)
  | plain
  deriving DecidableEq

/-- The form of a word. A single dash is a plain word. -/
def WordForm.of (word : String) : WordForm :=
  match word.toList with
  | ['-', '-'] => .escape
  | '-' :: '-' :: cs =>
    let name := String.ofList (cs.takeWhile (· != '='))
    match cs.dropWhile (· != '=') with
    | [] => .long name none
    | _ :: value => .long name (some (String.ofList value))
  | '-' :: c :: cs => .letters (c :: cs)
  | _ => .plain

/-- What a command takes. -/
structure Shape where
  operands : List OperandSpec := []
  /-- The operands that only a double dash introduces; without them, the operands of the command may
  stand there too. -/
  trailing? : Option OperandSpec := none
  options : List OptionSpec := []
  deriving DecidableEq

namespace Shape

/-- A reading that may be interrupted. -/
abbrev Reading (α : Type) : Type := Except Interruption α

/-- Takes an option without a value. -/
def takeSwitch (a : Arguments) (o : OptionSpec) : Reading Arguments :=
  match o.role with
  | .help => .error .help
  | .version => .error .version
  | .value .. => .error (.refused (.missingValue o.usage))
  | .switch _ =>
    if a.has o.name then .error (.refused (.repeated o)) else .ok (a.addOption o.name "")

/-- Takes an option with its value. -/
def takeValue (a : Arguments) (o : OptionSpec) (value : String) : Reading Arguments :=
  match o.role with
  | .value _ rule repeatable =>
    if !rule.accepts value then .error (.refused (.invalidValue o value))
    else if !repeatable && a.has o.name then .error (.refused (.repeated o))
    else .ok (a.addOption o.name value)
  | _ => .error (.refused (.unwantedValue o value))

/-- Takes switches by their letters. -/
def takeLetters (s : Shape) (a : Arguments) : List Char → Reading Arguments
  | [] => .ok a
  | c :: cs =>
    match s.options.find? (·.letter? == some c) with
    | none => .error (.refused (.unexpected (String.ofList ['-', c])))
    | some o => do takeLetters s (← takeSwitch a o) cs

/-- Takes an operand, which must not be empty. -/
def takeOperand (s : Shape) (a : Arguments) (word : String) : Reading Arguments :=
  match s.operands[a.operands.length]? with
  | none => .error (.refused (.unexpected word))
  | some operand =>
    if word = "" then .error (.refused (.missingValue ("<" ++ operand.label ++ ">")))
    else .ok { a with operands := a.operands ++ [word] }

/-- Takes the words behind a double dash. -/
def takeTrailing (s : Shape) (a : Arguments) (words : List String) : Reading Arguments :=
  if s.trailing?.isSome then .ok { a with trailing := words } else words.foldlM s.takeOperand a

/-- Takes words from the left. -/
def takeWords (s : Shape) (a : Arguments) : List String → Reading Arguments
  | [] => .ok a
  | word :: rest =>
    match WordForm.of word with
    | .escape => s.takeTrailing a rest
    | .plain => do takeWords s (← s.takeOperand a word) rest
    | .letters cs => do takeWords s (← s.takeLetters a cs) rest
    | .long name value? =>
      match s.options.find? (·.name == name), value? with
      | none, _ => .error (.refused (.unexpected ("--" ++ name)))
      | some o, some value => do takeWords s (← takeValue a o value) rest
      | some o, none =>
        if o.takesValue then
          match rest with
          | [] => .error (.refused (.missingValue o.usage))
          | value :: rest =>
            if WordForm.of value = .plain then do takeWords s (← takeValue a o value) rest
            else .error (.refused (.missingValue o.usage))
        else do takeWords s (← takeSwitch a o) rest

/-- Reads the words behind a command. -/
def read (s : Shape) (words : List String) : Reading Arguments := do
  let a ← s.takeWords {} words
  match s.operands.drop a.operands.length with
  | [] => .ok a
  | missing => .error (.refused (.missingOperands missing))

end Shape

end Arbor.CommandLine
