import Contrary.Text.Bytes

/-!
# The history file

The lines typed in a terminal session are kept in a file of the home folder,
named after the running program.
-/

namespace Contrary
namespace Path

/-- The byte between the parts of a path. -/
def slash : UInt8 :=
  '/'.toUInt8

/-- The last part of a path, slashes at its end aside. -/
def base (path : Bytes) : Bytes :=
  if path.isEmpty then ascii "."
  else
    match (path.reverse.dropWhile (· == slash)).takeWhile (· != slash) with
    | [] => [slash]
    | name => name.reverse

/-- The end of a path from the last dot of its last part on; empty if it has
none. -/
def extension (path : Bytes) : Bytes :=
  let name := path.reverse.takeWhile (· != slash)
  let dot := '.'.toUInt8
  if name.contains dot then dot :: (name.takeWhile (· != dot)).reverse else []

/-- Drops an end of a text. -/
def dropSuffix (s ending : Bytes) : Bytes :=
  if ending.isSuffixOf s then s.take (s.length - ending.length) else s

/-- Adds a part to the parts before it, nearest first.  A part that goes up takes
the part before it away; a rooted path has nothing above its root. -/
def push (rooted : Bool) (before : List Bytes) (part : Bytes) : List Bytes :=
  if part.isEmpty || part == ascii "." then before
  else if part == ascii ".." then
    match before with
    | [] => if rooted then [] else [part]
    | nearest :: rest => if nearest == ascii ".." then part :: before else rest
  else part :: before

/-- The shortest path that leads to the same place. -/
def clean (path : Bytes) : Bytes :=
  let rooted := path.head? == some slash
  let parts := ((Bytes.splitOn slash path).foldl (push rooted) []).reverse
  let joined := List.intercalate [slash] parts
  if rooted then slash :: joined else if joined.isEmpty then ascii "." else joined

end Path

/-- The history file of a program in a home folder; empty if there is none. -/
def historyFile (program home : Bytes) : Bytes :=
  if home.isEmpty then []
  else
    let name := Path.dropSuffix (Path.base program) (Path.extension program)
    let name :=
      if name.isEmpty || name == ascii "." || name == [Path.slash] then ascii "gnalose" else name
    Path.clean (home ++ ascii "/." ++ name ++ ascii "_history")

end Contrary
