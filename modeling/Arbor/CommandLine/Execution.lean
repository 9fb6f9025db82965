import Arbor.CommandLine.Command
import Arbor.Evaluation.Run
import Arbor.Host.EventFixture
import Arbor.Host.Local
import Arbor.Patch
import Arbor.Validation.Flow

/-!
# Carrying out a command

A command works on the local host alone: it reads files from its disk, and what it prints and writes
are effects of the host. It ends with an exit code, unless the host has to know something first or the
bound on the work is too small; then it leaves no exit code.
-/

namespace Arbor.CommandLine

open Text

/-- A part of a command's work. It may end the process. -/
abbrev Job (α : Type) : Type := OptionT (StateM LocalHost) α

namespace Job

variable {α : Type}

/-- Ends the process. -/
def exit (code : Int32) : Job α := do
  modify fun h => { h with exitCode? := some code }
  failure

/-- Writes a line to the standard output. -/
def print (line : String) : Job Unit := modify (·.emit (.output (line ++ "\n")))

/-- Writes a line to the standard error output. -/
def complain (line : String) : Job Unit := modify (·.emit (.errorOutput (line ++ "\n")))

/-- Asks the host. A refusal is explained and leaves nothing. -/
def attempt (call : LocalHost → Answer α × LocalHost) (explain : String → String) :
    Job (Option α) := do
  let (answer, h) := call (← get)
  set h
  match answer with
  | .given a => pure (some a)
  | .refused e => do
    complain ("Error: " ++ explain e.message)
    pure none
  | .stopped => failure

/-- Asks the host. A refusal is explained, and ends the process. -/
def ask (call : LocalHost → Answer α × LocalHost) (explain : String → String) (code : Int32) :
    Job α := do
  match ← attempt call explain with
  | some a => pure a
  | none => exit code

end Job

open Job

/-- The most bytes that a source file may have. -/
def maxSourceSize : Nat := 10 * 1024 * 1024

/-- The text of a source file. -/
def readSource (file : String) : Job String := do
  let explain (reason : String) : String := "cannot read file " ++ file ++ ": " ++ reason
  let size? ← ask (fun h => h.answerDisk (h.disk.size? h.cwd file)) explain 1
  match size? with
  | some size =>
    if maxSourceSize < size then
      complain ("Error: file " ++ file ++ " is too large (" ++ natText size ++ " bytes, max " ++
        natText maxSourceSize ++ " bytes)")
      exit 1
  | none => pure ()
  ask (·.perform (.readText file)) explain 1

/-- Diagnostics as nodes in canonical form, numbered from zero. -/
def diagnosticLines (ds : List Diagnostic) : List String :=
  ds.mapIdx fun i d => (d.toErrNode ("diag" ++ natText i)).format

/-- The node of a source file. Diagnostics about it end the process. -/
def readNode (file : String) : Job Node := do
  match (parse (← readSource file)).clean with
  | .ok root => pure root
  | .error ds => do
    (diagnosticLines ds).forM print
    exit 1

/-- Writes a text back to its file: the exit code. -/
def writeBack (file text : String) : Job Int32 := do
  let explain (reason : String) : String := "cannot write file " ++ file ++ ": " ++ reason
  match ← attempt (·.perform (.writeText file (text ++ "\n"))) explain with
  | some () => pure 0
  | none => pure 1

/-- Writes a text back to its file or prints it: the exit code. -/
def deliver (file text : String) (inPlace : Bool) : Job Int32 := do
  if inPlace then writeBack file text
  else
    print text
    pure 0

/-- The directory that relative imports of a source file start from. -/
def baseDirOf (file : String) : String := (Path.parent? file).getD "."

/-- The session in which a program runs. -/
def openSession (file : String) (options : RunOptions) (argv : List String) :
    Job (Session LocalHost) := do
  let replay? ← options.events?.mapM fun events => do
    let explain (reason : String) : String := "cannot load events " ++ events ++ ": " ++ reason
    let text ← ask (·.perform (.readText events)) explain 1
    match Replay.ofFixture? text with
    | some replay => pure replay
    | none => do
      complain ("Error: " ++ explain (HostError.invalid "event fixture").message)
      exit 1
  pure
    { permissions := defaultPermissions options.permissions
      baseDir := baseDirOf file
      strict := options.strict
      maxDepth := options.maxDepth
      trace := options.trace
      recorder? := options.debugSeed?.map Recorder.ofSeed
      replay?
      host := { ← get with argv } }

/-- Prints the record of a run, or writes it to the file that takes it. -/
def reportRecord (r : Recorder) (options : RunOptions) : Job Unit :=
  let text := r.toJson.pretty
  match options.debugOut? with
  | none => complain text
  | some file =>
    ask (·.perform (.writeText file text)) (fun reason => "cannot write " ++ file ++ ": " ++ reason) 2

/-- Prints the result of a run: the exit code, and the session with the record completed. -/
def reportResult (s : Session LocalHost) (result : Except Halt Value) :
    Job (Int32 × Session LocalHost) := do
  match result with
  | .ok v => do
    print v.formatResult
    pure (if v.isErr then 1 else 0, s)
  | .error (.fault f) => do
    print f.toErrNode.format
    pure (2, s.record fun r => r.recordDiagnostic f.code f.message f.nodeId)
  | .error _ => failure

/-- Reports the result of a run, its trace and its record, and ends the process. -/
def finish (options : RunOptions) (outcome : Except Halt Value × Session LocalHost) : Job Unit := do
  let (result, s) := outcome
  set s.host
  let (code, s) ← reportResult s result
  if options.trace then (s.traceSteps.toList.map Node.format).forM complain
  s.recorder?.forM fun r => reportRecord r options
  exit code

/-- Carries out a command. -/
def Command.perform (fuel : Nat) : Command → Job Unit
  | tokenize file => do
    let lexed := Arbor.tokenize (← readSource file)
    (lexed.tokens.map Token.display).forM print
    (diagnosticLines lexed.findings).forM print
    exit (if lexed.findings.isEmpty then 0 else 1)
  | parse file => do
    print (← readNode file).toJson.pretty
    exit 0
  | format file inPlace => do
    exit (← deliver file (← readNode file).format inPlace)
  | check file permissions => do
    match validate (← readNode file) ∅ (defaultPermissions permissions) true with
    | [] => do
      print (file ++ ": OK")
      exit 0
    | ds => do
      (diagnosticLines ds).forM print
      exit 1
  | run file options validated argv => do
    let root ← readNode file
    let s ← openSession file options argv
    let ds := if validated then validate root ∅ s.permissions true else []
    if ds.isEmpty then
      finish options ((s.record fun r => r.recordEvent "run" file).evaluate fuel root)
    else
      (diagnosticLines ds).forM print
      exit 1
  | emit file => do
    match compile (← readNode file) with
    | .ok p => do
      print p.toNode.format
      exit 0
    | .error e => do
      print e.toErrNode.format
      exit 1
  | machine file options entry => do
    let root ← readNode file
    let loaded :=
      if root.kind = "Bytecode" then (BytecodeProgram.load root).mapError BytecodeError.toErrNode
      else (compile root).mapError CompileError.toErrNode
    match loaded with
    | .error e => do
      print e.format
      exit 1
    | .ok p => do
      let s ← openSession file options []
      finish options ((s.record fun r => r.recordEvent "vm" entry).runProgram fuel p entry [])
  | patch file patchFile inPlace => do
    let root ← readNode file
    let (root, ds) := applyPatchDocument root (← readNode patchFile)
    let code ← deliver file root.format inPlace
    (diagnosticLines ds).forM complain
    exit (if ds.isEmpty then code else 1)

/-- Carries out what a command line asks for. -/
def Request.perform (fuel : Nat) : Request → Job Unit
  | carryOut c => c.perform fuel
  | inform text => do
    modify (·.emit (.output text))
    exit 0
  | reject text => do
    modify (·.emit (.errorOutput text))
    exit 2

/-- Runs the program on its command line, with a bound on the work: the host behind it. -/
def run (fuel : Nat) (words : List String) (h : LocalHost) : LocalHost :=
  ((Request.ofWords words).perform fuel |>.run h).2

/-- The status that a process reports for an exit code. -/
def exitStatus (code : Int32) : Nat := (code.toInt % 256).toNat

end Arbor.CommandLine
