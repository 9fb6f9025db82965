import Arbor.CommandLine.Usage
import Arbor.Session

/-!
# The commands

What the program can be asked to do, and the reading of a whole command line into such a request.
-/

namespace Arbor.CommandLine

open Text

/-- How a program is run. -/
structure RunOptions where
  /-- Permissions besides the default ones. -/
  permissions : List String
  strict : Bool
  trace : Bool
  maxDepth : Nat
  /-- The seed of the id of a recorded run; a run without a seed is not recorded. -/
  debugSeed? : Option String
  /-- The file that takes the record. -/
  debugOut? : Option String
  /-- The file with the events that polls report. -/
  events? : Option String
  deriving DecidableEq

/-- A command with what it works on. -/
inductive Command where
  | tokenize (file : String)
  | parse (file : String)
  | format (file : String) (inPlace : Bool)
  | check (file : String) (permissions : List String)
  | run (file : String) (options : RunOptions) (validated : Bool) (argv : List String)
  | emit (file : String)
  | machine (file : String) (options : RunOptions) (entry : String)
  | patch (file patchFile : String) (inPlace : Bool)
  deriving DecidableEq

/-- A command as a user calls it. -/
structure CommandSpec where
  name : String
  about : String
  shape : Shape
  /-- The command that the words behind it make. -/
  build : Arguments → Command

/-- The name of the program. -/
def programName : String := "aos"

/-- The version of the program. -/
def programVersion : String := "0.1.0"

namespace CommandSpec

def helpOption : OptionSpec := ⟨"help", .help, "Print help"⟩

def versionOption : OptionSpec := ⟨"version", .version, "Print version"⟩

def sourceFile : OperandSpec := ⟨"FILE", "Path to .aos file"⟩

def permOption : OptionSpec :=
  ⟨"perm", .value "PERMS" .any true, "Permissions granted in addition to `math`"⟩

def writeOption : OptionSpec := ⟨"write", .switch (some 'w'), "Rewrite the file in place"⟩

/-- The entry function when none is named. -/
def defaultEntry : String := "main"

/-- The options of the commands that run a program. -/
def runOptions : List OptionSpec :=
  [permOption,
    ⟨"strict", .switch none, "Treat any Unknown result as fatal"⟩,
    ⟨"trace", .switch none, "Collect evaluation steps"⟩,
    ⟨"max-depth", .value "MAX_DEPTH" .count false,
      "[default: " ++ natText defaultMaxDepth ++ "]"⟩,
    ⟨"debug-seed", .value "DEBUG_SEED" .any false,
      "Record a debug run with a run id derived from this seed"⟩,
    ⟨"debug-out", .value "DEBUG_OUT" .nonEmpty false,
      "Where to write the debug artifact as JSON (stdout when omitted)"⟩,
    ⟨"events", .value "EVENTS" .nonEmpty false,
      "JSON fixture of UI events served to `sys.ui_pollEvent`"⟩]

/-- The run options that are given. -/
def readRunOptions (a : Arguments) : RunOptions where
  permissions := a.values "perm"
  strict := a.has "strict"
  trace := a.has "trace"
  maxDepth := ((a.value? "max-depth").bind fun value => readCount? value.toList).getD defaultMaxDepth
  debugSeed? := a.value? "debug-seed"
  debugOut? := a.value? "debug-out"
  events? := a.value? "events"

/-- A command on one source file. -/
def ofFile (name about : String) (options : List OptionSpec) (build : Arguments → Command) :
    CommandSpec where
  name := name
  about := about
  shape := { operands := [sourceFile], options := options ++ [helpOption] }
  build := build

def tokenize : CommandSpec :=
  ofFile "tokenize" "Display the token stream (debug)" [] fun a => .tokenize (a.operand 0)

def parse : CommandSpec :=
  ofFile "parse" "Parse and display the tree as JSON" [] fun a => .parse (a.operand 0)

def format : CommandSpec :=
  ofFile "fmt" "Print the canonical form" [writeOption] fun a =>
    .format (a.operand 0) (a.has "write")

def check : CommandSpec :=
  ofFile "check" "Validate structure, types and permissions" [permOption] fun a =>
    .check (a.operand 0) (a.values "perm")

def run : CommandSpec where
  name := "run"
  about := "Evaluate a program with the tree-walking interpreter"
  shape :=
    { operands := [sourceFile]
      trailing? := some ⟨"ARGV", "Arguments exposed through `sys.process_argv`"⟩
      options := runOptions ++
        [⟨"no-validate", .switch none, "Skip validation before running"⟩, helpOption] }
  build a := .run (a.operand 0) (readRunOptions a) (!a.has "no-validate") a.trailing

def emit : CommandSpec :=
  ofFile "emit" "Compile a program to a Bytecode node" [] fun a => .emit (a.operand 0)

def machine : CommandSpec where
  name := "vm"
  about := "Run a program or Bytecode node on the VM"
  shape :=
    { operands := [⟨"FILE", "Path to a .aos program or bytecode file"⟩]
      options := runOptions ++
        [⟨"entry", .value "ENTRY" .any false,
          "Function to start in [default: " ++ defaultEntry ++ "]"⟩, helpOption] }
  build a := .machine (a.operand 0) (readRunOptions a) ((a.value? "entry").getD defaultEntry)

def patch : CommandSpec where
  name := "patch"
  about := "Apply a patch document (`Patch#.. \x7b Op#.. \x7d`) to a program"
  shape :=
    { operands := [sourceFile, ⟨"PATCH", "Path to the patch document"⟩]
      options := [writeOption, helpOption] }
  build a := .patch (a.operand 0) (a.operand 1) (a.has "write")

/-- All commands, in the order in which help lists them. -/
def all : List CommandSpec := [tokenize, parse, format, check, run, emit, machine, patch]

/-- The command of a name. -/
def find? (name : String) : Option CommandSpec := all.find? (·.name == name)

/-- The line that says how the command is called. -/
def usageLine (c : CommandSpec) : String :=
  "Usage: " ++ programName ++ " " ++ c.name ++ c.shape.usage

/-- The help text of the command. -/
def help (c : CommandSpec) : String := c.about ++ "\n\n" ++ c.usageLine ++ "\n" ++ c.shape.lists

end CommandSpec

/-- What a command line asks for. -/
inductive Request where
  | carryOut (c : Command)
  /-- A text about the program itself. -/
  | inform (text : String)
  /-- The command line makes no sense, for this reason. -/
  | reject (text : String)
  deriving DecidableEq

namespace Request

/-- The command that describes the others. -/
def helpName : String := "help"

def helpAbout : String := "Print this message or the help of the given subcommand(s)"

/-- The line that says how the program is called. -/
def usageLine : String := "Usage: " ++ programName ++ " <COMMAND>"

/-- What the program takes in front of a command. -/
def programShape : Shape := { options := [CommandSpec.helpOption, CommandSpec.versionOption] }

/-- The help text of the program. -/
def programHelp : String :=
  "The AOS node-tree language runtime\n\n" ++ usageLine ++ "\n" ++
    listing "Commands"
      (CommandSpec.all.map (fun c => (c.name, c.about)) ++ [(helpName, helpAbout)]) ++
    programShape.lists

/-- The help text of the command that describes the others. -/
def helpHelp : String :=
  helpAbout ++ "\n\nUsage: " ++ programName ++ " " ++ helpName ++ " [COMMAND]...\n" ++
    listing "Arguments" [("[COMMAND]...", "Print help for the subcommand(s)")]

/-- Refuses a word that names no command. -/
def unknownCommand (word : String) : Request :=
  .reject (refusal ("unrecognized subcommand '" ++ word ++ "'") usageLine)

/-- What an interrupted reading asks for. -/
def ofInterruption (help usageLine : String) : Interruption → Request
  | .help => .inform help
  | .version => .inform (programName ++ " " ++ programVersion ++ "\n")
  | .refused e => .reject (refusal e.message usageLine)

/-- What a command with the words behind it asks for. -/
def ofCommand (c : CommandSpec) (words : List String) : Request :=
  match c.shape.read words with
  | .ok a => .carryOut (c.build a)
  | .error i => ofInterruption c.help c.usageLine i

/-- What the words behind `help` ask for. -/
def ofHelp : List String → Request
  | [] => .inform programHelp
  | name :: more =>
    let text? := if name = helpName then some helpHelp else (CommandSpec.find? name).map (·.help)
    match text?, more with
    | none, _ => unknownCommand name
    | some text, [] => .inform text
    | some _, word :: _ => unknownCommand word

/-- What a command line asks for. -/
def ofWords : List String → Request
  | [] => .reject programHelp
  | word :: rest =>
    if word = helpName then ofHelp rest
    else match CommandSpec.find? word with
      | some c => ofCommand c rest
      | none =>
        match programShape.read [word] with
        | .error (.refused (.unexpected w)) =>
          if WordForm.of w = .plain then unknownCommand w
          else ofInterruption programHelp usageLine (.refused (.unexpected w))
        | .error i => ofInterruption programHelp usageLine i
        | .ok _ => .reject (refusal "a subcommand is required" usageLine)

end Request

end Arbor.CommandLine
