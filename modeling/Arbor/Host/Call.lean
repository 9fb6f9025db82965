import Arbor.Host.Event
import Arbor.Value

/-!
# Calls of the host

What the language can ask of the world around it, and how a host answers. A host is a state together
with a way to perform each call on it. Besides the calls that capabilities make, the runtime itself
asks for two things when it loads a module: the canonical path of a file, and its text.
-/

namespace Arbor

/-- What a file is known by. -/
structure FileStat where
  kind : String
  size : Int32
  mtimeMs : Int32
  deriving DecidableEq

/-- A datagram and where it came from. -/
structure UdpPacket where
  host : String
  port : Int32
  data : String
  deriving DecidableEq

/-- A call of the host. -/
inductive HostCall where
  | write (text : String)
  | writeLine (text : String)
  | writeErrLine (text : String)
  | readLine
  | readAllStdin
  | readText (path : String)
  | writeText (path text : String)
  | fileExists (path : String)
  | pathExists (path : String)
  | makeDir (path : String)
  | readDir (path : String)
  | stat (path : String)
  | argv
  | cwd
  | envGet (name : String)
  | exit (code : Int32)
  | nowUnixMs
  | monotonicMs
  | sleepMs (ms : Int32)
  | base64Encode (text : String)
  | base64Decode (text : String)
  | sha1 (text : String)
  | sha256 (text : String)
  | hmacSha256 (key text : String)
  | randomBytes (count : Int32)
  | httpGet (url : String)
  | platform
  | arch
  | osVersion
  | runtimeName
  | netListen (port : Int32)
  | netListenTls (port : Int32) (certPath keyPath : String)
  | netAccept (listener : Int32)
  | netReadHeaders (connection : Int32)
  | netWrite (connection : Int32) (text : String)
  | netClose (handle : Int32)
  | tcpListen (host : String) (port : Int32)
  | tcpListenTls (host : String) (port : Int32) (certPath keyPath : String)
  | tcpAccept (listener : Int32)
  | tcpRead (connection maxBytes : Int32)
  | tcpWrite (connection : Int32) (data : String)
  | udpBind (host : String) (port : Int32)
  | udpRecv (socket maxBytes : Int32)
  | udpSend (socket : Int32) (host : String) (port : Int32) (data : String)
  | uiCreateWindow (title : String) (width height : Int32)
  | uiBeginFrame (window : Int32)
  /-- Every drawing, painting, grouping and transforming command, by its name. -/
  | uiDraw (window : Int32) (command : String) (args : List Value)
  | uiEndFrame (window : Int32)
  | uiPollEvent (window : Int32)
  | uiPresent (window : Int32)
  | uiCloseWindow (window : Int32)
  | uiWindowSize (window : Int32)
  /-- The canonical path of a module's file. -/
  | canonicalPath (path : String)
  /-- The text of a module's file. -/
  | moduleText (path : String)

namespace HostCall

/-- The type of a successful answer. -/
def Reply : HostCall → Type
  | write _ | writeLine _ | writeErrLine _ => Unit
  | readLine | readAllStdin | readText _ => String
  | writeText .. => Unit
  | fileExists _ | pathExists _ => Bool
  | makeDir _ => Unit
  | readDir _ => List String
  | stat _ => FileStat
  | argv => List String
  | cwd | envGet _ => String
  | exit _ => Unit
  | nowUnixMs | monotonicMs => Int
  | sleepMs _ => Unit
  | base64Encode _ | base64Decode _ | sha1 _ | sha256 _ | hmacSha256 .. | randomBytes _ => String
  | httpGet _ | platform | arch | osVersion | runtimeName => String
  | netListen _ | netListenTls .. | netAccept _ => Int32
  | netReadHeaders _ => String
  | netWrite .. | netClose _ => Unit
  | tcpListen .. | tcpListenTls .. | tcpAccept _ => Int32
  | tcpRead .. => String
  | tcpWrite .. | udpBind .. => Int32
  | udpRecv .. => UdpPacket
  | udpSend .. => Int32
  | uiCreateWindow .. => Int32
  | uiBeginFrame _ | uiDraw .. | uiEndFrame _ => Unit
  | uiPollEvent _ => UiEvent
  | uiPresent _ | uiCloseWindow _ => Unit
  | uiWindowSize _ => Int32 × Int32
  | canonicalPath _ | moduleText _ => String

/-- The arguments of the call as values, in the order of its contract. -/
def arguments : HostCall → List Value
  | write s | writeLine s | writeErrLine s => [.str s]
  | readLine | readAllStdin => []
  | readText s => [.str s]
  | writeText path text => [.str path, .str text]
  | fileExists s | pathExists s | makeDir s | readDir s | stat s => [.str s]
  | argv | cwd => []
  | envGet s => [.str s]
  | exit n => [.int n]
  | nowUnixMs | monotonicMs => []
  | sleepMs n => [.int n]
  | base64Encode s | base64Decode s | sha1 s | sha256 s => [.str s]
  | hmacSha256 key text => [.str key, .str text]
  | randomBytes n => [.int n]
  | httpGet s => [.str s]
  | platform | arch | osVersion | runtimeName => []
  | netListen n => [.int n]
  | netListenTls n cert key => [.int n, .str cert, .str key]
  | netAccept n | netReadHeaders n => [.int n]
  | netWrite n s => [.int n, .str s]
  | netClose n => [.int n]
  | tcpListen s n => [.str s, .int n]
  | tcpListenTls s n cert key => [.str s, .int n, .str cert, .str key]
  | tcpAccept n => [.int n]
  | tcpRead n m => [.int n, .int m]
  | tcpWrite n s => [.int n, .str s]
  | udpBind s n => [.str s, .int n]
  | udpRecv n m => [.int n, .int m]
  | udpSend n host port data => [.int n, .str host, .int port, .str data]
  | uiCreateWindow s n m => [.str s, .int n, .int m]
  | uiBeginFrame n => [.int n]
  | uiDraw n _ args => .int n :: args
  | uiEndFrame n | uiPollEvent n | uiPresent n | uiCloseWindow n | uiWindowSize n => [.int n]
  | canonicalPath s | moduleText s => [.str s]

/-- The name under which a host refuses a call that it does not support. -/
def label : HostCall → String
  | write _ => "console.write"
  | writeLine _ => "console.writeLine"
  | writeErrLine _ => "console.writeErrLine"
  | readLine => "console.readLine"
  | readAllStdin => "console.readAllStdin"
  | readText _ => "fs.readFile"
  | writeText .. => "fs.writeFile"
  | fileExists _ => "fs.fileExists"
  | pathExists _ => "fs.pathExists"
  | makeDir _ => "fs.makeDir"
  | readDir _ => "fs.readDir"
  | stat _ => "fs.stat"
  | argv => "process.argv"
  | cwd => "process.cwd"
  | envGet _ => "process.envGet"
  | exit _ => "process.exit"
  | nowUnixMs => "time.nowUnixMs"
  | monotonicMs => "time.monotonicMs"
  | sleepMs _ => "time.sleepMs"
  | base64Encode _ => "crypto.base64Encode"
  | base64Decode _ => "crypto.base64Decode"
  | sha1 _ => "crypto.sha1"
  | sha256 _ => "crypto.sha256"
  | hmacSha256 .. => "crypto.hmacSha256"
  | randomBytes _ => "crypto.randomBytes"
  | httpGet _ => "http.get"
  | platform => "platform"
  | arch => "arch"
  | osVersion => "os_version"
  | runtimeName => "runtime"
  | netListen _ => "net.listen"
  | netListenTls .. => "net.listenTls"
  | netAccept _ => "net.accept"
  | netReadHeaders _ => "net.readHeaders"
  | netWrite .. => "net.write"
  | netClose _ => "net.close"
  | tcpListen .. => "net.tcpListen"
  | tcpListenTls .. => "net.tcpListenTls"
  | tcpAccept _ => "net.tcpAccept"
  | tcpRead .. => "net.tcpRead"
  | tcpWrite .. => "net.tcpWrite"
  | udpBind .. => "net.udpBind"
  | udpRecv .. => "net.udpRecv"
  | udpSend .. => "net.udpSend"
  | uiCreateWindow .. => "ui.createWindow"
  | uiBeginFrame _ => "ui.beginFrame"
  | uiDraw .. => "ui.draw"
  | uiEndFrame _ => "ui.endFrame"
  | uiPollEvent _ => "ui.pollEvent"
  | uiPresent _ => "ui.present"
  | uiCloseWindow _ => "ui.closeWindow"
  | uiWindowSize _ => "ui.getWindowSize"
  | canonicalPath _ => "module.canonicalPath"
  | moduleText _ => "module.text"

end HostCall

/-- Why a host refuses a call. -/
inductive HostError where
  | unsupported (label : String)
  | invalid (reason : String)
  /-- The operating system's own words. -/
  | io (text : String)
  deriving DecidableEq

def HostError.message : HostError → String
  | unsupported label => label ++ " is not supported by this host"
  | invalid reason => "invalid argument: " ++ reason
  | io text => text

/-- How a host answers a call. -/
inductive Answer (α : Type) where
  | given (reply : α)
  | refused (error : HostError)
  /-- The host ends the run: nothing of the program runs after this call. -/
  | stopped

/-- A way to perform calls on a state of the world. -/
class Host (σ : Type) where
  perform : (call : HostCall) → σ → Answer call.Reply × σ

end Arbor
