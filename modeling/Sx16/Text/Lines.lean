/-
# Lines of a text

A line ends at a line feed, and a carriage return just before it belongs to the end of line too. What
follows the last line feed is a line only if it is not empty; there a carriage return is an ordinary
character.

Key definitions: `Text.lines`, `Text.numberedLines`, `Text.unlines`.
-/

namespace Sx16
namespace Text

/-- A terminated line without the carriage return before its line feed. -/
def dropReturn (cs : List Char) : List Char :=
  if cs.getLast? = some '\r' then cs.dropLast else cs

/-- The lines of a text: every piece before a line feed, then the rest if there is one. -/
def splitLines (cs : List Char) : List (List Char) :=
  let pieces := cs.splitOn '\n'
  pieces.dropLast.map dropReturn ++ (pieces.getLast?.filter fun r => !r.isEmpty).toList

/-- The lines of a text. -/
def lines (s : String) : List String :=
  (splitLines s.toList).map String.ofList

/-- A line of a text with its number. -/
abbrev NumberedLine := Nat × String

/-- The lines of a text, counted from 1. -/
def numberedLines (s : String) : List NumberedLine :=
  ((lines s).zipIdx 1).map fun p => (p.2, p.1)

/-- The text with a line feed after every line. -/
def unlines (ls : List String) : String :=
  String.join (ls.map (· ++ "\n"))

end Text
end Sx16
