import Contrary.Text.Bytes

/-!
# Disks

The files that a command can reach: a tree of folders, with a working folder in it.
A path is walked part by part, with slashes between the parts, from the root if it
starts with a slash and from the working folder otherwise.

**Opening.**  Every part but the last has to lead to a folder, and the first one
that does not decides the fault.  A slash after the last part asks for a folder:
reading then fails on a file, and writing fails before the name is looked up.

**Writing.**  Opening a file for writing makes it, or empties it.  Only then its
contents are written, as far as there is room, so that a write that fails half-way
leaves a part of them behind.
-/

namespace Contrary

section Faults

/-- Why a file cannot be used. -/
inductive FileFault where
  | missing
  | isDirectory
  | notDirectory
  | nameTooLong
  | invalidName
  | noSpace
  /-- Any other fault, in the words of the system. -/
  | system (message : Bytes)
  deriving DecidableEq, Repr

/-- What was done with a file when it failed. -/
inductive FileAction where
  | opening
  | reading
  | writing
  deriving DecidableEq, Repr

/-- A file that cannot be used. -/
structure FileError where
  action : FileAction
  path : Bytes
  fault : FileFault
  deriving DecidableEq, Repr

/-- The wording of a fault. -/
def FileFault.message : FileFault → Bytes
  | .missing => ascii "no such file or directory"
  | .isDirectory => ascii "is a directory"
  | .notDirectory => ascii "not a directory"
  | .nameTooLong => ascii "file name too long"
  | .invalidName => ascii "invalid argument"
  | .noSpace => ascii "no space left on device"
  | .system message => message

/-- The word for what was done. -/
def FileAction.word : FileAction → Bytes
  | .opening => ascii "open "
  | .reading => ascii "read "
  | .writing => ascii "write "

/-- The wording of a failed use of a file. -/
def FileError.message (e : FileError) : Bytes :=
  e.action.word ++ e.path ++ ascii ": " ++ e.fault.message

/-- The wording of a failed reading of a source. -/
def FileError.readMessage (e : FileError) : Bytes :=
  ascii "read " ++ e.path ++ ascii ": " ++ e.message

/-- The wording of a failed writing of a file. -/
def FileError.writeMessage (e : FileError) : Bytes :=
  ascii "write " ++ e.path ++ ascii ": " ++ e.message

end Faults

/-- A place on a disk: the names that lead to it from the root. -/
abbrev Location : Type :=
  List Bytes

/-- What stands at a location. -/
inductive Node where
  | folder
  | file (contents : Bytes)
  deriving DecidableEq, Repr

/-- The files that can be reached. -/
structure Disk where
  /-- The working folder.  It is there, with the folders above it. -/
  home : Location
  /-- The other folders. -/
  folders : List Location
  files : List (Location × Bytes)
  /-- How many bytes a file can hold, where that is limited. -/
  limits : List (Location × Nat)
  deriving DecidableEq, Repr

namespace Disk

/-- What a path leads to. -/
inductive Entry where
  | directory
  /-- A name in a folder, and whether a slash follows it. -/
  | named (site : Location) (name : Bytes) (slashed : Bool)
  deriving DecidableEq, Repr

/-- Whether a folder stands at a location. -/
def isFolder (d : Disk) (l : Location) : Bool :=
  l.isPrefixOf d.home || d.folders.contains l

/-- What stands at a location, if anything does. -/
def node? (d : Disk) (l : Location) : Option Node :=
  if d.isFolder l then some .folder else (d.files.lookup l).map .file

/-- Gives a file its contents. -/
def put (d : Disk) (l : Location) (contents : Bytes) : Disk :=
  { d with files := (l, contents) :: d.files.filter fun file => file.1 != l }

/-- The part of a text that there is room for in a file. -/
def fitting (d : Disk) (l : Location) (contents : Bytes) : Bytes :=
  match d.limits.lookup l with
  | none => contents
  | some room => contents.take room

/-- The part of a path that stays where it is. -/
def here : Bytes :=
  ascii "."

/-- The part of a path that goes up. -/
def up : Bytes :=
  ascii ".."

/-- How many bytes a name can have. -/
def nameLimit : Nat :=
  255

/-- How many bytes a path can have. -/
def pathLimit : Nat :=
  4095

/-- Looks a name up in a folder. -/
def lookup (d : Disk) (site : Location) (name : Bytes) : Except FileFault (Option Node) :=
  if name.length > nameLimit then .error .nameTooLong else .ok (d.node? (site ++ [name]))

/-- Goes from a folder to the folder that a part of a path names. -/
def enter (d : Disk) (site : Location) (part : Bytes) : Except FileFault Location :=
  if part == here then .ok site
  else if part == up then .ok site.dropLast
  else
    match d.lookup site part with
    | .error fault => .error fault
    | .ok none => .error .missing
    | .ok (some (.file _)) => .error .notDirectory
    | .ok (some .folder) => .ok (site ++ [part])

/-- Walks the parts of a path from a folder on. -/
def walk (d : Disk) (slashed : Bool) : Location → List Bytes → Except FileFault Entry
  | _, [] => .ok .directory
  | site, [part] =>
      .ok (if part == here || part == up then .directory else .named site part slashed)
  | site, part :: parts =>
      match d.enter site part with
      | .error fault => .error fault
      | .ok next => d.walk slashed next parts

/-- Finds what a path leads to. -/
def locate (d : Disk) (path : Bytes) : Except FileFault Entry :=
  let parts := Bytes.splitOn '/'.toUInt8 path
  let start := if path.head? == some '/'.toUInt8 then [] else d.home
  if path.isEmpty then .error .missing
  else if path.contains 0 then .error .invalidName
  else if path.length > pathLimit then .error .nameTooLong
  else d.walk (parts.getLastD []).isEmpty start (parts.filter fun p => !p.isEmpty)

/-- Reads the file at a path. -/
def read (d : Disk) (path : Bytes) : Except FileError Bytes :=
  match d.locate path with
  | .error fault => .error ⟨.opening, path, fault⟩
  | .ok .directory => .error ⟨.reading, path, .isDirectory⟩
  | .ok (.named site name slashed) =>
      match d.lookup site name with
      | .error fault => .error ⟨.opening, path, fault⟩
      | .ok none => .error ⟨.opening, path, .missing⟩
      | .ok (some .folder) => .error ⟨.reading, path, .isDirectory⟩
      | .ok (some (.file contents)) =>
          if slashed then .error ⟨.opening, path, .notDirectory⟩ else .ok contents

/-- The location of the file that is opened for writing at a path. -/
def output (d : Disk) (path : Bytes) : Except FileFault Location :=
  match d.locate path with
  | .error fault => .error fault
  | .ok .directory => .error .isDirectory
  | .ok (.named site name slashed) =>
      if slashed then .error .isDirectory
      else
        match d.lookup site name with
        | .error fault => .error fault
        | .ok (some .folder) => .error .isDirectory
        | .ok _ => .ok (site ++ [name])

/-- Writes the file at a path, in place of one that is there. -/
def write (d : Disk) (path contents : Bytes) : Except FileError Unit × Disk :=
  match d.output path with
  | .error fault => (.error ⟨.opening, path, fault⟩, d)
  | .ok l =>
      (if d.fitting l contents = contents then .ok () else .error ⟨.writing, path, .noSpace⟩,
        d.put l (d.fitting l contents))

end Disk

end Contrary
