import Contrary.Text.Bytes

/-!
# Listings

A source text is a listing of physical lines.  Lines end at line feeds; a final
line feed does not start another line, and a carriage return before a line feed
belongs to the line end.
-/

namespace Contrary
namespace Listing

/-- Drops one carriage return at the end of a line. -/
def dropReturn (s : Bytes) : Bytes :=
  if s.getLast? = some '\r'.toUInt8 then s.dropLast else s

/-- The physical lines of a source text, from the top. -/
def lines (source : Bytes) : List Bytes :=
  let pieces := Bytes.splitOn '\n'.toUInt8 source
  let pieces := if pieces.getLast? = some [] then pieces.dropLast else pieces
  pieces.map dropReturn

/-- The source text with the given lines. -/
def join (lines : List Bytes) : Bytes :=
  List.intercalate ['\n'.toUInt8] lines

end Listing
end Contrary
