import Backslice.Table
import Backslice.Text.Quoted
import Backslice.Text.Search

/-!
The files that a run reads and writes, by their places from the working folder. A path leads from
folder to folder, so every name in it but the last must be that of a folder. A folder exists if a
file is in it, or if it is known to exist; the working folder, those above it and those of the
system exist.
-/

namespace Backslice

inductive FileFault where
  | absent
  | notFolder
  | isFolder
  | tooLong
  | nullByte
  deriving DecidableEq, Repr

structure FileError where
  fault : FileFault
  path : String
  deriving DecidableEq, Repr

def FileError.message (e : FileError) : String :=
  match e.fault with
  | .absent => "[Errno 2] No such file or directory: " ++ Text.quote e.path
  | .notFolder => "[Errno 20] Not a directory: " ++ Text.quote e.path
  | .isFolder => "[Errno 21] Is a directory: " ++ Text.quote e.path
  | .tooLong => "[Errno 36] File name too long: " ++ Text.quote e.path
  | .nullByte => "embedded null byte"

/-- Where a path ends: the names that lead there from the working folder. `..` stands at the front
for each folder above it, and `/` for the root. -/
abbrev Place := List String

namespace Place

def root : Place := ["/"]

def isAbove (place : Place) : Bool := place.all (· == "..")

def parent (place : Place) : Place :=
  if place = root then root
  else if place.isAbove then ".." :: place
  else place.dropLast

def enter (place : Place) (name : String) : Place :=
  if name = "." then place
  else if name = ".." then place.parent
  else place ++ [name]

def isInside (place : Place) : Bool :=
  match place.head? with
  | some name => name != ".." && name != "/"
  | none => false

def path : Place → String
  | "/" :: below => "/" ++ "/".intercalate below
  | below => "/".intercalate below

def systemFolders : List Place :=
  ["bin", "dev", "etc", "home", "lib", "opt", "proc", "root", "run", "sbin", "sys", "tmp", "usr",
   "var"].map fun name => root ++ [name]

def nullDevice : Place := root ++ ["dev", "null"]

end Place

structure Workspace where
  files : Table Place ByteArray := {}
  folders : List Place := []

namespace Workspace

def maxNameBytes : Nat := 255

def maxPathBytes : Nat := 4095

def contentOf? (w : Workspace) (place : Place) : Option ByteArray :=
  if place = .nullDevice then some .empty else w.files.get? place

def isFile (w : Workspace) (place : Place) : Bool := (w.contentOf? place).isSome

def isFolder (w : Workspace) (place : Place) : Bool :=
  place.isAbove || place == .root || Place.systemFolders.contains place ||
    w.folders.contains place ||
    w.files.keys.any fun k => place.isPrefixOf k && place != k

def follow (w : Workspace) : Place → List String → Except FileFault Place
  | place, [] => .ok place
  | place, name :: names =>
    if !w.isFolder place then .error (if w.isFile place then .notFolder else .absent)
    else if maxNameBytes < name.utf8ByteSize then .error .tooLong
    else w.follow (place.enter name) names

def start (path : String) : Place := if path.toList.head? = some '/' then .root else []

def names (path : String) : List String := (Text.pieces '/' path).filter (· ≠ "")

def endsInSlash (path : String) : Bool := path.toList.getLast? == some '/'

def pathFault? (path : String) : Option FileFault :=
  if path.toList.contains '\x00' then some .nullByte
  else if path = "" then some .absent
  else if maxPathBytes < path.utf8ByteSize then some .tooLong
  else none

def locate (w : Workspace) (path : String) : Except FileFault Place :=
  match pathFault? path with
  | some f => .error f
  | none => w.follow (start path) (names path)

def asksForFolder (path : String) : Bool :=
  endsInSlash path && match (names path).getLast? with
    | some name => name != "." && name != ".."
    | none => false

/-- The place at which a path lets a file be written. A path that asks for a folder lets none,
whatever its last name is. -/
def locateNew (w : Workspace) (path : String) : Except FileFault Place :=
  match pathFault? path with
  | some f => .error f
  | none =>
    if asksForFolder path then do
      let _ ← w.follow (start path) ((names path).dropLast ++ ["."])
      .error .isFolder
    else do
      let place ← w.follow (start path) (names path)
      if w.isFolder place then .error .isFolder else return place

def contentAt (w : Workspace) (path : String) : Except FileFault ByteArray := do
  let place ← w.locate path
  if w.isFolder place then .error .isFolder
  else match w.contentOf? place with
    | some content => if endsInSlash path then .error .notFolder else return content
    | none => .error .absent

def read (w : Workspace) (path : String) : Except FileError ByteArray :=
  (w.contentAt path).mapError fun f => ⟨f, path⟩

def write (w : Workspace) (path : String) (content : String) : Except FileError Workspace :=
  match w.locateNew path with
  | .ok place =>
    if place = .nullDevice then .ok w
    else .ok { w with files := w.files.put place content.toUTF8 }
  | .error f => .error ⟨f, path⟩

def changesSince (w before : Workspace) : List (Place × ByteArray) :=
  w.files.entries.filter fun e =>
    match before.files.get? e.1 with
    | some old => old.data != e.2.data
    | none => true

end Workspace

end Backslice
