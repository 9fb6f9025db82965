import Arbor.Digest.Sha256
import Arbor.Host.Call
import Arbor.Host.Disk
import Arbor.Saturation

/-!
# The local host

The host of a program that runs by itself: a disk, the standard streams, a clock, the arguments and
the environment of its process. It has no network and no user interface.

What the host does to the world outside is kept in order as effects. What it needs to know of that
world and does not know yet ends the run, and is kept as the wish to be granted before the next try.
-/

namespace Arbor

/-- Something that the host does to the world. -/
inductive Effect where
  | output (text : String)
  | errorOutput (text : String)
  | fileWritten (path text : String)
  | directoryMade (path : String)
  | slept (ms : Nat)

/-- Something that the host has to know before it can answer. -/
inductive Wish where
  /-- What a canonical path names. -/
  | path (path : String)
  /-- The names in the directory with a canonical path. -/
  | listing (path : String)
  /-- The standard input. -/
  | input
  /-- The value of an environment variable. -/
  | variable (name : String)

/-- The state of the local host. -/
structure LocalHost where
  disk : Disk
  /-- The canonical path of the working directory. -/
  cwd : String
  argv : List String
  /-- What is left of the standard input, once it is known. -/
  input? : Option String
  /-- The environment variables that are known; none for one that is not set. -/
  environment : List (String × Option String) := []
  /-- Are all environment variables known? -/
  environmentKnown : Bool := true
  /-- The clock at the start, in milliseconds. -/
  startMs : Int := 0
  /-- How long the program slept so far, in milliseconds. Nothing else takes time. -/
  sleptMs : Nat := 0
  /-- The effects so far, last one first. -/
  effects : List Effect := []
  /-- The exit code, once the process is to end. -/
  exitCode? : Option Int32 := none
  wish? : Option Wish := none

namespace LocalHost

/-- Does something to the world. -/
def emit (h : LocalHost) (e : Effect) : LocalHost := { h with effects := e :: h.effects }

/-- The texts of the effects that `text?` selects, in order. -/
def collect (h : LocalHost) (text? : Effect → Option String) : String :=
  String.join (h.effects.reverse.filterMap text?)

/-- What was written to the standard output. -/
def outputText (h : LocalHost) : String :=
  h.collect fun
    | .output text => some text
    | _ => none

/-- What was written to the standard error output. -/
def errorText (h : LocalHost) : String :=
  h.collect fun
    | .errorOutput text => some text
    | _ => none

/-- Ends the run for something that is not known. -/
def await {α : Type} (h : LocalHost) (w : Wish) : Answer α × LocalHost :=
  (.stopped, { h with wish? := some w })

/-- Answers with a finding about the disk. -/
def answerDisk {α : Type} (h : LocalHost) (r : Except DiskError α) : Answer α × LocalHost :=
  match r with
  | .ok a => (.given a, h)
  | .error (.unexplored path) => h.await (.path path)
  | .error (.unlisted path) => h.await (.listing path)
  | .error e => (.refused (.io e.message), h)

/-- Writes a file. -/
def putFile (h : LocalHost) (path text : String) : Answer Unit × LocalHost :=
  match h.disk.writeText h.cwd path text with
  | .ok (place, disk) => (.given (), { h with disk }.emit (.fileWritten place text))
  | .error e => h.answerDisk (.error e)

/-- Makes a directory and the ones above it. -/
def makeDirs (h : LocalHost) (path : String) : Answer Unit × LocalHost :=
  let making := h.disk.makeDirs h.cwd (path.length + 1) path
  ((making.made.map Effect.directoryMade).foldl emit { h with disk := making.disk }).answerDisk
    making.ended

/-- Is there something at the path that passes the test? -/
def test (h : LocalHost) (path : String) (accepts : DiskPlace → Bool) : Answer Bool × LocalHost :=
  match h.disk.locate h.cwd path with
  | .ok place => (.given (accepts place), h)
  | .error (.unexplored p) => h.await (.path p)
  | .error _ => (.given false, h)

/-- The time of last change that every entry of the disk reports: later than the integers of the
language reach. -/
def mtimeMs : Int32 := saturate 2147483647

/-- The size that a directory reports. -/
def directorySize : Int32 := 4096

/-- What the entry at a path is known by. -/
def statOf (h : LocalHost) (path : String) : Except DiskError FileStat := do
  match ← h.disk.size? h.cwd path with
  | some size => pure ⟨"file", saturateCount size, mtimeMs⟩
  | none => pure ⟨"dir", directorySize, mtimeMs⟩

/-- Splits off the first line; its line feed goes with neither part. -/
def splitLine (input : String) : String × String :=
  let cs := input.toList
  (String.ofList (cs.takeWhile (· != '\n')), String.ofList ((cs.dropWhile (· != '\n')).drop 1))

/-- The line without carriage returns at its end. -/
def trimReturns (line : String) : String :=
  String.ofList (line.toList.reverse.dropWhile (· == '\r')).reverse

/-- Answers with what `f` takes from the standard input. -/
def takeInput (h : LocalHost) (f : String → String × String) : Answer String × LocalHost :=
  match h.input? with
  | none => h.await .input
  | some input =>
    let (taken, rest) := f input
    (.given taken, { h with input? := some rest })

/-- Answers with an environment variable; one that is not set is empty. -/
def envVariable (h : LocalHost) (name : String) : Answer String × LocalHost :=
  match h.environment.lookup name with
  | some value? => (.given (value?.getD ""), h)
  | none => if h.environmentKnown then (.given "", h) else h.await (.variable name)

/-- The system that the host runs on. -/
def platformName : String := "linux"

/-- The processor that the host runs on. -/
def archName : String := "x86_64"

/-- The family of systems and the system. -/
def osVersionName : String := "unix-" ++ platformName

/-- The name and version under which the runtime makes itself known. -/
def runtimeName : String := "aos-rust/0.1.0"

/-- Performs a call. -/
def perform (h : LocalHost) : (c : HostCall) → Answer c.Reply × LocalHost
  | .write text => (.given (), h.emit (.output text))
  | .writeLine text => (.given (), h.emit (.output (text ++ "\n")))
  | .writeErrLine text => (.given (), h.emit (.errorOutput (text ++ "\n")))
  | .readLine =>
    h.takeInput fun input =>
      let (line, rest) := splitLine input
      (trimReturns line, rest)
  | .readAllStdin => h.takeInput fun input => (input, "")
  | .readText path => h.answerDisk (h.disk.readText h.cwd path)
  | .writeText path text => h.putFile path text
  | .fileExists path =>
    h.test path fun
      | .file .. => true
      | _ => false
  | .pathExists path =>
    h.test path fun
      | .vacant _ => false
      | _ => true
  | .makeDir path => h.makeDirs path
  | .readDir path => h.answerDisk (h.disk.names h.cwd path)
  | .stat path => h.answerDisk (h.statOf path)
  | .argv => (.given h.argv, h)
  | .cwd => (.given h.cwd, h)
  | .envGet name => h.envVariable name
  | .exit code => (.stopped, { h with exitCode? := some code })
  | .nowUnixMs => (.given (h.startMs + h.sleptMs : Int), h)
  | .monotonicMs => (.given (h.sleptMs : Int), h)
  | .sleepMs ms =>
    let slept := ms.toInt.toNat
    (.given (), { h with sleptMs := h.sleptMs + slept }.emit (.slept slept))
  | .sha256 text => (.given (Sha256.hexDigest text), h)
  | .hmacSha256 key text => (.given (Sha256.hexHmac key text), h)
  | .platform => (.given platformName, h)
  | .arch => (.given archName, h)
  | .osVersion => (.given osVersionName, h)
  | .runtimeName => (.given runtimeName, h)
  | .canonicalPath path => h.answerDisk (h.disk.canonical h.cwd path)
  | .moduleText path => h.answerDisk (h.disk.readText h.cwd path)
  | c => (.refused (.unsupported c.label), h)

instance : Host LocalHost := ⟨fun c h => perform h c⟩

end LocalHost

end Arbor
