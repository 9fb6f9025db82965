import Arbor.Host.Call

/-!
# Answers of the host as nodes

The nodes that programs see when a capability answers with more than one value.
-/

namespace Arbor

/-- A block of string literals, numbered from zero behind a common stem of their ids. -/
def stringListNode (id stem : String) (values : List String) : Node where
  kind := "Block"
  id := id
  children := values.mapIdx fun i value =>
    { kind := "Lit", id := stem ++ Text.natText i, attrs := attrs [("value", .string value)] }

/-- The arguments of the process. -/
def argvNode (values : List String) : Node := stringListNode "argv" "argv" values

/-- The names in a directory. -/
def dirNode (names : List String) : Node := stringListNode "dir" "entry" names

def FileStat.toNode (s : FileStat) : Node where
  kind := "Stat"
  id := "stat"
  attrs := attrs [("type", .string s.kind), ("size", .int s.size), ("mtime", .int s.mtimeMs)]

def UdpPacket.toNode (p : UdpPacket) : Node where
  kind := "UdpPacket"
  id := "udpPacket"
  attrs := attrs [("host", .string p.host), ("port", .int p.port), ("data", .string p.data)]

/-- The size of a window. -/
def windowSizeNode (width height : Int32) : Node where
  kind := "UiWindowSize"
  id := "uiWindowSize"
  attrs := attrs [("width", .int width), ("height", .int height)]

end Arbor
