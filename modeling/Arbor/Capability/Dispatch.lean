import Arbor.Capability.Contract
import Arbor.Host.Report
import Arbor.Saturation
import Arbor.Text.Slice

/-!
# From a capability to a call of the host

Which call of the host a target stands for, with its arguments, and which value the answer becomes.
The permission and the argument kinds are checked before this point, so an argument that does not fit
here means that a caller went around the check.
-/

namespace Arbor

/-- What answers a capability call. -/
inductive Action where
  /-- The value itself: no host is needed. -/
  | value (v : Value)
  /-- A call of the host, and the value of its answer. -/
  | call (c : HostCall) (value : c.Reply → Value)
  /-- The next recorded event. -/
  | replayed

namespace Dispatch

/-- The string at a place among the arguments. -/
def textArg (target : String) (args : List Value) (index : Nat) : Except HostError String :=
  match args[index]? with
  | some (.str s) => .ok s
  | _ => .error (.invalid (target ++ " arg " ++ Text.natText (index + 1) ++ " must be string"))

/-- The integer at a place among the arguments. -/
def intArg (target : String) (args : List Value) (index : Nat) : Except HostError Int32 :=
  match args[index]? with
  | some (.int n) => .ok n
  | _ => .error (.invalid (target ++ " arg " ++ Text.natText (index + 1) ++ " must be int"))

/-- A call whose answer says nothing. -/
def void (c : HostCall) : Action := .call c fun _ => .void

/-- The name of a drawing command: the target without its namespace and group. -/
def drawCommand? (target : String) : Option String :=
  let stem := "sys.ui_".toList
  if target.toList.take stem.length = stem then
    some (String.ofList (target.toList.drop stem.length))
  else none

/-- The action behind a target. With `replaying`, polled events are recorded ones. -/
def action (replaying : Bool) (target : String) (args : List Value) : Except HostError Action :=
  let s := textArg target args
  let n := intArg target args
  match target with
  | "math.add" => do pure (.value (.int ((← n 0) + (← n 1))))
  -- console
  | "console.print" | "io.print" | "sys.console_writeLine" | "sys.stdout_writeLine" => do
    pure (void (.writeLine (← s 0)))
  | "io.write" | "sys.console_write" => do pure (void (.write (← s 0)))
  | "sys.console_writeErrLine" => do pure (void (.writeErrLine (← s 0)))
  | "io.readLine" | "sys.console_readLine" => pure (.call .readLine .str)
  | "io.readAllStdin" | "sys.console_readAllStdin" => pure (.call .readAllStdin .str)
  -- files
  | "io.readFile" | "sys.fs_readFile" => do pure (.call (.readText (← s 0)) .str)
  | "io.fileExists" | "sys.fs_fileExists" => do pure (.call (.fileExists (← s 0)) .bool)
  | "io.pathExists" | "sys.fs_pathExists" => do pure (.call (.pathExists (← s 0)) .bool)
  | "io.makeDir" | "sys.fs_makeDir" => do pure (void (.makeDir (← s 0)))
  | "io.writeFile" | "sys.fs_writeFile" => do pure (void (.writeText (← s 0) (← s 1)))
  | "sys.fs_readDir" => do
    pure (.call (.readDir (← s 0)) fun (names : List String) => .node (dirNode names))
  | "sys.fs_stat" => do pure (.call (.stat (← s 0)) fun (st : FileStat) => .node st.toNode)
  -- process
  | "sys.process_argv" => pure (.call .argv fun (values : List String) => .node (argvNode values))
  | "sys.process_cwd" => pure (.call .cwd .str)
  | "sys.process_envGet" => do pure (.call (.envGet (← s 0)) .str)
  | "sys.proc_exit" => do pure (void (.exit (← n 0)))
  -- time
  | "sys.time_nowUnixMs" => pure (.call .nowUnixMs fun (ms : Int) => .int (saturate ms))
  | "sys.time_monotonicMs" => pure (.call .monotonicMs fun (ms : Int) => .int (saturate ms))
  | "sys.time_sleepMs" => do pure (void (.sleepMs (← n 0)))
  -- digests and encodings
  | "sys.crypto_base64Encode" => do pure (.call (.base64Encode (← s 0)) .str)
  | "sys.crypto_base64Decode" => do pure (.call (.base64Decode (← s 0)) .str)
  | "sys.crypto_sha1" => do pure (.call (.sha1 (← s 0)) .str)
  | "sys.crypto_sha256" => do pure (.call (.sha256 (← s 0)) .str)
  | "sys.crypto_hmacSha256" => do pure (.call (.hmacSha256 (← s 0) (← s 1)) .str)
  | "sys.crypto_randomBytes" => do pure (.call (.randomBytes (← n 0)) .str)
  -- strings
  | "sys.str_utf8ByteCount" => do pure (.value (.int (saturateCount (← s 0).utf8ByteSize)))
  | "sys.str_substring" => do pure (.value (.str (Text.substring (← s 0) (← n 1) (← n 2))))
  | "sys.str_remove" => do pure (.value (.str (Text.remove (← s 0) (← n 1) (← n 2))))
  -- platform
  | "sys.http_get" => do pure (.call (.httpGet (← s 0)) .str)
  | "sys.platform" => pure (.call .platform .str)
  | "sys.arch" => pure (.call .arch .str)
  | "sys.os_version" => pure (.call .osVersion .str)
  | "sys.runtime" => pure (.call .runtimeName .str)
  -- network
  | "sys.net_listen" => do pure (.call (.netListen (← n 0)) .int)
  | "sys.net_listen_tls" => do pure (.call (.netListenTls (← n 0) (← s 1) (← s 2)) .int)
  | "sys.net_accept" => do pure (.call (.netAccept (← n 0)) .int)
  | "sys.net_readHeaders" => do pure (.call (.netReadHeaders (← n 0)) .str)
  | "sys.net_write" => do pure (void (.netWrite (← n 0) (← s 1)))
  | "sys.net_close" => do pure (void (.netClose (← n 0)))
  | "sys.net_tcpListen" => do pure (.call (.tcpListen (← s 0) (← n 1)) .int)
  | "sys.net_tcpListenTls" => do
    pure (.call (.tcpListenTls (← s 0) (← n 1) (← s 2) (← s 3)) .int)
  | "sys.net_tcpAccept" => do pure (.call (.tcpAccept (← n 0)) .int)
  | "sys.net_tcpRead" => do pure (.call (.tcpRead (← n 0) (← n 1)) .str)
  | "sys.net_tcpWrite" => do pure (.call (.tcpWrite (← n 0) (← s 1)) .int)
  | "sys.net_udpBind" => do pure (.call (.udpBind (← s 0) (← n 1)) .int)
  | "sys.net_udpRecv" => do
    pure (.call (.udpRecv (← n 0) (← n 1)) fun (p : UdpPacket) => .node p.toNode)
  | "sys.net_udpSend" => do pure (.call (.udpSend (← n 0) (← s 1) (← n 2) (← s 3)) .int)
  -- user interface
  | "sys.ui_createWindow" => do pure (.call (.uiCreateWindow (← s 0) (← n 1) (← n 2)) .int)
  | "sys.ui_beginFrame" => do pure (void (.uiBeginFrame (← n 0)))
  | "sys.ui_endFrame" => do pure (void (.uiEndFrame (← n 0)))
  | "sys.ui_present" => do pure (void (.uiPresent (← n 0)))
  | "sys.ui_closeWindow" => do pure (void (.uiCloseWindow (← n 0)))
  | "sys.ui_pollEvent" =>
    if replaying then pure .replayed
    else do pure (.call (.uiPollEvent (← n 0)) fun (e : UiEvent) => .node e.toNode)
  | "sys.ui_getWindowSize" => do
    pure (.call (.uiWindowSize (← n 0))
      fun (size : Int32 × Int32) => .node (windowSizeNode size.1 size.2))
  | _ =>
    match drawCommand? target with
    | some command => do pure (void (.uiDraw (← n 0) command (args.drop 1)))
    | none => .error (.unsupported target)

/-- What became of a dispatched call: its answer, and the recorded events that still wait. -/
structure Result (σ : Type) where
  answer : Answer Value
  host : σ
  replay? : Option Replay

/-- Performs the action behind a target on the host. -/
def invoke {σ : Type} [Host σ] (host : σ) (replay? : Option Replay) (target : String)
    (args : List Value) : Result σ :=
  match action replay?.isSome target args with
  | .error e => ⟨.refused e, host, replay?⟩
  | .ok (.value v) => ⟨.given v, host, replay?⟩
  | .ok .replayed =>
    match replay? with
    | some replay =>
      let (event, rest) := replay.next
      ⟨.given (.node event.toNode), host, some rest⟩
    | none => ⟨.given (.node UiEvent.idle.toNode), host, none⟩
  | .ok (.call c value) =>
    match Host.perform c host with
    | (.given reply, host') => ⟨.given (value reply), host', replay?⟩
    | (.refused e, host') => ⟨.refused e, host', replay?⟩
    | (.stopped, host') => ⟨.stopped, host', replay?⟩

end Dispatch

end Arbor
