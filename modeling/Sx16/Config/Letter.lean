/-
# The letters of a configuration

Configurations are written in YAML, as text in UTF-8. Of the controls only tabs and the ends of lines
may stand in it, and no noncharacter. A line ends at a line feed, a carriage return, both in this
order, a next line, a line separator or a paragraph separator; the first four count as a line feed.
Each letter knows its line and column, because layout decides what belongs together.

Key definitions: `Letter`, `isAdmitted`, `lettersOf`, `lettersOfBytes?`.
-/

namespace Sx16
namespace Config

/-- A character of a text and where it stands. -/
structure Letter where
  char : Char
  line : Nat
  column : Nat
  deriving DecidableEq

/-- The characters that may stand in a configuration. -/
def isAdmitted (c : Char) : Bool :=
  c == '\t' || c == '\n' || c == '\r' || (0x20 ≤ c.toNat && c.toNat ≤ 0x7E) || c.toNat == 0x85 ||
    (0xA0 ≤ c.toNat && c.toNat ≤ 0xFFFD) || 0x10000 ≤ c.toNat

/-- The line and paragraph separators. -/
def isSeparator (c : Char) : Bool := c == '\u2028' || c == '\u2029'

/-- The ends of lines, once the common ones are line feeds. -/
def isBreak (c : Char) : Bool := c == '\n' || isSeparator c

/-- The blanks inside a line. -/
def isGap (c : Char) : Bool := c == ' ' || c == '\t'

/-- The blanks and the ends of lines. -/
def isSpace (c : Char) : Bool := isGap c || isBreak c

/-- The mark at the start of a text that tells its byte order. -/
def byteOrderMark : Char := '\ufeff'

/-- The letters of a text that starts at a place. -/
def lettersFrom (line column : Nat) : List Char → List Letter
  | [] => []
  | '\r' :: '\n' :: r => ⟨'\n', line, column⟩ :: lettersFrom (line + 1) 0 r
  | c :: r =>
    if c = '\n' ∨ c = '\r' ∨ c = '\u0085' then ⟨'\n', line, column⟩ :: lettersFrom (line + 1) 0 r
    else if isSeparator c then ⟨c, line, column⟩ :: lettersFrom (line + 1) 0 r
    else ⟨c, line, column⟩ :: lettersFrom line (column + 1) r

/-- The letters of a text. -/
def lettersOf (cs : List Char) : List Letter := lettersFrom 0 0 cs

/-- The letters of a file, if it is a text of admitted characters. -/
def lettersOfBytes? (bytes : ByteArray) : Option (List Letter) := do
  let s ← String.fromUTF8? bytes
  if s.toList.all isAdmitted then some (lettersOf s.toList) else none

/-- Whether a word ends before these letters. -/
def endsWord : List Letter → Bool
  | [] => true
  | l :: _ => isSpace l.char

/-- Whether a line ends before these letters. -/
def endsLine : List Letter → Bool
  | [] => true
  | l :: _ => isBreak l.char

/-- The letters after the blanks on the line. -/
def skipGap (ls : List Letter) : List Letter := ls.dropWhile fun l => isGap l.char

/-- The letters from the end of the line on. -/
def skipLine (ls : List Letter) : List Letter := ls.dropWhile fun l => !isBreak l.char

/-- The letters after the end of a line that holds nothing more than a comment. -/
def finishLine (ls : List Letter) : Option (List Letter) :=
  match skipGap ls with
  | [] => some []
  | l :: r =>
    if l.char = '#' then some ((skipLine r).drop 1)
    else if isBreak l.char then some r
    else none

/-- Whether a line starts with three times the same character, and no word goes on after it. -/
def startsWithRule (c : Char) : List Letter → Bool
  | a :: b :: d :: r =>
    a.column == 0 && a.char == c && b.char == c && d.char == c && endsWord r
  | _ => false

/-- Whether a line starts with the mark of a document's start or end. -/
def startsDocument (ls : List Letter) : Bool := startsWithRule '-' ls || startsWithRule '.' ls

end Config
end Sx16
