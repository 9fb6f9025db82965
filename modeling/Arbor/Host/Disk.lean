import Arbor.Dict
import Arbor.Path

/-!
# A disk

Files and directories under one root, as far as they are known. Paths are resolved one component at a
time: every component but the last must name a directory. A path that a file is written to or a
directory made at may name a place where nothing is yet.

A disk may be known in parts only. A question about a part that was not explored yet is answered with
that part's path, so that it can be explored and the question asked again.
-/

namespace Arbor

/-- What a path on the disk names. -/
inductive DiskEntry where
  /-- A file with its size in bytes, and its text when its bytes are the UTF-8 encoding of one. -/
  | file (text? : Option String) (size : Nat)
  | directory
  /-- Nothing, as exploring has shown. -/
  | absent

/-- Files and directories, by their canonical paths. -/
structure Disk where
  entries : Dict DiskEntry
  /-- Is a path without an entry known to name nothing? -/
  complete : Bool
  /-- The directories whose entries are all known. -/
  listed : List String := []

/-- Why the disk does not do what it is asked for. -/
inductive DiskError where
  | notFound
  | alreadyExists
  | notDirectory
  | isDirectory
  | nameTooLong
  | nulInPath
  | notText
  /-- The disk is not known at this canonical path. -/
  | unexplored (path : String)
  /-- The names in the directory with this canonical path are not known. -/
  | unlisted (path : String)

/-- The operating system's words for the error. -/
def DiskError.message : DiskError → String
  | notFound => "No such file or directory (os error 2)"
  | alreadyExists => "File exists (os error 17)"
  | notDirectory => "Not a directory (os error 20)"
  | isDirectory => "Is a directory (os error 21)"
  | nameTooLong => "File name too long (os error 36)"
  | nulInPath => "file name contained an unexpected NUL byte"
  | notText => "stream did not contain valid UTF-8"
  | unexplored path => "unexplored path " ++ path
  | unlisted path => "unlisted directory " ++ path

/-- What a path comes to: something that exists, or a place in a directory where nothing is. -/
inductive DiskPlace where
  | directory (path : String)
  | file (path : String) (text? : Option String) (size : Nat)
  | vacant (path : String)

namespace Disk

/-- The canonical path of what a name stands for in the directory with the canonical path `here`. -/
def child (here name : String) : String := if here = "/" then "/" ++ name else here ++ "/" ++ name

/-- The canonical path of the directory above the one with the canonical path `here`. The root is
above itself. -/
def above (here : String) : String := (Path.parent? here).getD "/"

/-- The most bytes that a name may have. -/
def maxName : Nat := 255

/-- The number of bytes that a path must stay below. -/
def maxPath : Nat := 4096

/-- What is under a canonical path. -/
def lookup (d : Disk) (path : String) : Except DiskError DiskEntry :=
  match d.entries.find? path with
  | some entry => .ok entry
  | none => if d.complete then .ok .absent else .error (.unexplored path)

/-- What the components of a path come to, from the directory with the canonical path `here` on. -/
def walk (d : Disk) (here : String) : List String → Except DiskError DiskPlace
  | [] => .ok (.directory here)
  | name :: rest =>
    if Path.isIdle name then walk d here rest
    else if name = ".." then walk d (above here) rest
    else if maxName < name.utf8ByteSize then .error .nameTooLong
    else
      let path := child here name
      match d.lookup path with
      | .error e => .error e
      | .ok .directory => walk d path rest
      | .ok (.file text? size) =>
        if rest.isEmpty then .ok (.file path text? size) else .error .notDirectory
      | .ok .absent => if rest.isEmpty then .ok (.vacant path) else .error .notFound

/-- Where the walk along a path begins, seen from the directory with the canonical path `cwd`. -/
def origin (cwd path : String) : String := if Path.isAbsolute path then "/" else cwd

/-- Refuses a text that is no path. -/
def checkText (path : String) : Except DiskError Unit :=
  if path.toList.any (· == '\x00') then .error .nulInPath
  else if path = "" then .error .notFound
  else .ok ()

/-- Refuses a text that is no path, and a path that is too long to be looked up as a whole. -/
def checkPath (path : String) : Except DiskError Unit := do
  checkText path
  if maxPath ≤ path.utf8ByteSize then .error .nameTooLong

/-- What a path comes to, seen from the directory with the canonical path `cwd`. -/
def locate (d : Disk) (cwd path : String) : Except DiskError DiskPlace := do
  checkPath path
  d.walk (origin cwd path) (Path.pieces path)

/-- The text of a file. -/
def readText (d : Disk) (cwd path : String) : Except DiskError String := do
  match ← d.locate cwd path with
  | .directory _ => .error .isDirectory
  | .vacant _ => .error .notFound
  | .file _ none _ => .error .notText
  | .file _ (some text) _ => .ok text

/-- The size of a file in bytes; none for a directory. -/
def size? (d : Disk) (cwd path : String) : Except DiskError (Option Nat) := do
  match ← d.locate cwd path with
  | .directory _ => pure none
  | .vacant _ => .error .notFound
  | .file _ _ size => pure (some size)

/-- The canonical path of something that exists. It is found by following the path one component at a
time, so a path of any length will do as long as it leads to a canonical path within the limit. -/
def canonical (d : Disk) (cwd path : String) : Except DiskError String := do
  checkText path
  match ← d.walk (origin cwd path) (Path.pieces path) with
  | .directory place | .file place _ _ =>
    if maxPath ≤ place.utf8ByteSize then .error .nameTooLong else pure place
  | .vacant _ => .error .notFound

/-- The disk with an entry under a canonical path. -/
def put (d : Disk) (path : String) (entry : DiskEntry) : Disk :=
  { d with entries := d.entries.insert path entry }

/-- The entry of a file that holds a text. -/
def textEntry (text : String) : DiskEntry := .file (some text) text.utf8ByteSize

/-- Does the path end in a slash? -/
def endsInSlash (path : String) : Bool := path.toList.getLast? == some '/'

/-- The path without slashes at its end. -/
def trimSlashes (path : String) : String :=
  String.ofList (path.toList.reverse.dropWhile (· == '/')).reverse

/-- The components of the directory that the last component of a path, slashes behind it aside, is
looked up in. -/
def leadingPieces (path : String) : List String := (Path.pieces (trimSlashes path)).dropLast

/-- Writes a file: its canonical path, and the disk behind it. A path that ends in a slash can only
name a directory, so its last component is not even looked up. -/
def writeText (d : Disk) (cwd path text : String) : Except DiskError (String × Disk) := do
  checkPath path
  if endsInSlash path then
    let _ ← d.walk (origin cwd path) (leadingPieces path ++ ["."])
    .error .isDirectory
  else match ← d.walk (origin cwd path) (Path.pieces path) with
    | .directory _ => .error .isDirectory
    | .file place _ _ | .vacant place => pure (place, d.put place (textEntry text))

/-- Makes one directory: its canonical path, and the disk behind it. Slashes at the end of the path
mean nothing. -/
def makeDir (d : Disk) (cwd path : String) : Except DiskError (String × Disk) := do
  checkPath path
  match ← d.walk (origin cwd path) (Path.pieces (trimSlashes path)) with
  | .directory _ | .file .. => .error .alreadyExists
  | .vacant place => pure (place, d.put place .directory)

/-- Is the path that of a directory? -/
def isDirectory (d : Disk) (cwd path : String) : Except DiskError Bool :=
  match d.locate cwd path with
  | .ok (.directory _) => .ok true
  | .error (.unexplored p) => .error (.unexplored p)
  | _ => .ok false

/-- How the making of directories went. Those made before an error stay. -/
structure Making where
  /-- The canonical paths of the directories made, in order. -/
  made : List String
  /-- The disk behind them. -/
  disk : Disk
  ended : Except DiskError Unit

/-- Makes one directory if it is not there. -/
def ensureDir (d : Disk) (cwd path : String) : Making :=
  match d.makeDir cwd path with
  | .ok (place, disk) => ⟨[place], disk, .ok ()⟩
  | .error e =>
    match d.isDirectory cwd path with
    | .ok isThere => ⟨[], d, if isThere then .ok () else .error e⟩
    | .error e => ⟨[], d, .error e⟩

/-- Makes a directory and the ones above it that are not there, at most as many levels as the fuel
says. The level above comes first only when the directory cannot be made without it. -/
def makeDirs (d : Disk) (cwd : String) : Nat → String → Making
  | 0, _ => ⟨[], d, .error .notFound⟩
  | fuel + 1, path =>
    if path = "" then ⟨[], d, .ok ()⟩
    else
      let alone := d.ensureDir cwd path
      match alone.ended, Path.parent? path with
      | .error .notFound, some parent =>
        let above := makeDirs d cwd fuel parent
        match above.ended with
        | .error _ => above
        | .ok _ =>
          let last := above.disk.ensureDir cwd path
          { last with made := above.made ++ last.made }
      | _, _ => alone

/-- The names in a directory, in order. -/
def names (d : Disk) (cwd path : String) : Except DiskError (List String) := do
  match ← d.locate cwd path with
  | .file .. => .error .notDirectory
  | .vacant _ => .error .notFound
  | .directory path =>
    if !d.complete && !d.listed.contains path then .error (.unlisted path)
    else
      pure (d.entries.entries.filterMap fun (key, entry) =>
        match entry, Path.fileName? key with
        | .absent, _ | _, none => none
        | _, some name => if above key = path then some name else none)

end Disk

end Arbor
