/-
# Marks of a configuration

The marks of a text are its scalars, names, tags, brackets and indicators, and what the layout alone
says: where a block map or list starts and ends, and that something is a key. Outside brackets a
deeper column starts a block and a shallower one ends it. What a key is shows only at the colon after
it, so the place of a possible key is remembered: it may be a key up to the end of its line, for 1024
columns at most.

Key definitions: `Mark`, `PossibleKey`, `Layout`, `Layout.read`, `marksOf`.
-/
import Sx16.Config.Block
import Sx16.Config.Property

namespace Sx16
namespace Config

/-- A piece of a configuration. -/
inductive Mark where
  | scalar (s : Scalar)
  | name (n : String)
  | repeated (n : String)
  | tag (t : Tag)
  | directive (d : Directive)
  | mapOpen | mapClose | listOpen | listClose
  | comma | key | value | dash
  | blockMap | blockList | blockEnd
  | documentStart | documentEnd
  deriving DecidableEq

/-- Something that may turn out to be a key. -/
structure PossibleKey where
  /-- The number of marks before it. -/
  index : Nat
  line : Nat
  column : Nat
  /-- Whether nothing but a key can stand there. -/
  required : Bool

/-- The largest distance of a key's colon from the start of the key. -/
def maxKeyLength : Nat := 1024

/-- Whether a colon before `l` comes too late for the key. -/
def PossibleKey.isLate (k : PossibleKey) (l : Letter) : Bool :=
  k.line < l.line || k.column + maxKeyLength < l.column

/-- The marks read so far and the layout around the next one. -/
structure Layout where
  /-- The latest mark comes first. -/
  marks : List Mark := []
  /-- The columns of the open blocks, the innermost first. -/
  blocks : List Nat := []
  key : Option PossibleKey := none
  /-- The possible keys around each open bracket, the innermost first. -/
  outerKeys : List (Option PossibleKey) := []
  keyAllowed : Bool := true

namespace Layout

/-- Whether a bracket is open. -/
def inBrackets (s : Layout) : Bool := !s.outerKeys.isEmpty

/-- The first column that belongs to the innermost block. -/
def least (s : Layout) : Nat :=
  match s.blocks with
  | [] => 0
  | column :: _ => column + 1

/-- Adds a mark; whether a key may stand after it is given. -/
def putBefore (keyAllowed : Bool) (m : Mark) (s : Layout) : Layout :=
  { s with marks := m :: s.marks, keyAllowed }

/-- Ends the blocks whose columns do not belong to them any more. -/
def closeBlocks (isClosed : Nat → Bool) (s : Layout) : Layout :=
  if s.inBrackets then s
  else
    { s with
      marks := (s.blocks.takeWhile isClosed).map (fun _ => Mark.blockEnd) ++ s.marks
      blocks := s.blocks.dropWhile isClosed }

/-- Gives up the possible key, if it is not required. -/
def dropKey (s : Layout) : Option Layout :=
  if s.key.any (·.required) then none else some { s with key := none }

/-- Gives up the possible keys for which a colon at `l` comes too late. -/
def dropLateKeys (l : Letter) (s : Layout) : Option Layout :=
  if (s.key :: s.outerKeys).any fun k => k.any fun k => k.required && k.isLate l then none
  else
    let keep (k : Option PossibleKey) := k.filter fun k => !k.isLate l
    some { s with key := keep s.key, outerKeys := s.outerKeys.map keep }

/-- Remembers that what starts at `l` may be a key. -/
def noteKey (l : Letter) (s : Layout) : Option Layout :=
  if !s.keyAllowed then some s
  else do
    let s ← s.dropKey
    let required := !s.inBrackets && s.blocks.head? == some l.column
    some { s with key := some ⟨s.marks.length, l.line, l.column, required⟩ }

/-- Starts a block in a column, unless one is open there. -/
def openBlock (m : Mark) (column : Nat) (s : Layout) : Layout :=
  if s.inBrackets || s.blocks.head?.any (column ≤ ·) then s
  else { s with marks := m :: s.marks, blocks := column :: s.blocks }

/-- Adds an indicator that starts a block where the layout allows it. -/
def putIndicator (m block : Mark) (column : Nat) (s : Layout) : Option Layout :=
  if !s.inBrackets && !s.keyAllowed then none
  else (s.openBlock block column).dropKey.map (putBefore (m == .dash || !s.inBrackets) m)

/-- Makes a key of what stands at a possible key. -/
def putKey (k : PossibleKey) (s : Layout) : Layout :=
  let count := s.marks.length - k.index
  let before := ({ s with marks := s.marks.drop count }).openBlock .blockMap k.column
  { before with marks := s.marks.take count ++ .key :: before.marks, key := none }

/-- Adds a colon. -/
def putColon (l : Letter) (s : Layout) : Option Layout :=
  match s.key with
  | some k => some ((s.putKey k).putBefore false .value)
  | none => s.putIndicator .value .blockMap l.column

/-- Opens a bracket. -/
def putOpen (m : Mark) (l : Letter) (s : Layout) : Option Layout := do
  let s ← s.noteKey l
  some {
    s with marks := m :: s.marks, key := none, outerKeys := s.key :: s.outerKeys, keyAllowed := true }

/-- Closes a bracket. -/
def putClose (m : Mark) (s : Layout) : Option Layout := do
  let s ← s.dropKey
  match s.outerKeys with
  | [] => some (s.putBefore false m)
  | key :: outerKeys => some { s with marks := m :: s.marks, key, outerKeys, keyAllowed := false }

/-- Adds a bracket or a comma. -/
def putBracket (c : Char) (l : Letter) (s : Layout) : Option Layout :=
  match c with
  | '{' => s.putOpen .mapOpen l
  | '[' => s.putOpen .listOpen l
  | '}' => s.putClose .mapClose
  | ']' => s.putClose .listClose
  | _ => s.dropKey.map (putBefore true .comma)

/-- A character that starts no mark. -/
def isReserved (c : Char) : Bool := isSpace c || "#%@`|>".contains c

/-- Reads a mark that may start a key: a scalar on the line, a name or a tag. -/
def readKeyPart (s : Layout) (l : Letter) (r : List Letter) : Option (Layout × List Letter) := do
  let s ← s.noteKey l
  match l.char with
  | '*' =>
    let (n, rest) ← readName r
    some (s.putBefore false (.repeated n), rest)
  | '&' =>
    let (n, rest) ← readName r
    some (s.putBefore false (.name n), rest)
  | '!' =>
    let (t, rest) ← readTag s.inBrackets r
    some (s.putBefore false (.tag t), rest)
  | '\'' =>
    let (cs, rest) ← readSingle [] r
    some (s.putBefore false (.scalar ⟨String.ofList cs, .quoted⟩), rest)
  | '"' =>
    let (cs, rest) ← readDouble false [] r
    some (s.putBefore false (.scalar ⟨String.ofList cs, .quoted⟩), rest)
  | c =>
    if isReserved c then none
    else
      let (cs, broken, rest) ← readPlain s.inBrackets s.least [] (l :: r)
      some (s.putBefore broken (.scalar ⟨String.ofList cs, .plain⟩), rest)

/-- Reads a mark at the start of a line that does not belong to a document. -/
def readDocumentMark (s : Layout) (m : Mark) (rest : List Letter) :
    Option (Layout × List Letter) := do
  let s ← (s.closeBlocks fun _ => true).dropKey
  some (s.putBefore false m, rest)

/-- Reads the mark that starts with `l`, which is neither a blank nor the start of a comment. -/
def readMark (s : Layout) (l : Letter) (r : List Letter) : Option (Layout × List Letter) := do
  if l.column = 0 ∧ l.char = '%' then
    let (d, rest) ← readDirective r
    s.readDocumentMark (.directive d) rest
  else if startsWithRule '-' (l :: r) then s.readDocumentMark .documentStart (r.drop 2)
  else if startsWithRule '.' (l :: r) then s.readDocumentMark .documentEnd (r.drop 2)
  else if isBracket l.char then (s.putBracket l.char l).map fun s => (s, r)
  else if l.char = '-' ∧ endsWord r then
    (s.putIndicator .dash .blockList l.column).map fun s => (s, r)
  else if l.char = '?' ∧ (s.inBrackets ∨ endsWord r) then
    (s.putIndicator .key .blockMap l.column).map fun s => (s, r)
  else if l.char = ':' ∧ (s.inBrackets ∨ endsWord r) then (s.putColon l).map fun s => (s, r)
  else if (l.char = '|' ∨ l.char = '>') ∧ !s.inBrackets then
    let s ← s.dropKey
    let (scalar, rest) ← readBlock (l.char = '|') s.least r
    some (s.putBefore true (.scalar scalar), rest)
  else s.readKeyPart l r

/-- Skips blanks, comments and ends of lines; outside brackets a key may stand on a new line. A tab
is a blank only where no key may stand. -/
def skipSpace (inBrackets : Bool) : (keyAllowed : Bool) → (inComment : Bool) → List Letter →
    Bool × List Letter
  | keyAllowed, _, [] => (keyAllowed, [])
  | keyAllowed, inComment, l :: r =>
    if isBreak l.char then skipSpace inBrackets (keyAllowed || !inBrackets) false r
    else if inComment || l.char = '#' then skipSpace inBrackets keyAllowed true r
    else if l.char = ' ' || (l.char = '\t' && (inBrackets || !keyAllowed)) ||
        (l.char = byteOrderMark && l.column = 0) then
      skipSpace inBrackets keyAllowed false r
    else (keyAllowed, l :: r)

/-- Reads the marks of letters. The first argument bounds their number. -/
def read : Nat → Layout → List Letter → Option Layout
  | 0, _, _ => none
  | n + 1, s, ls =>
    match skipSpace s.inBrackets s.keyAllowed false ls with
    | (_, []) => (s.closeBlocks fun _ => true).dropKey
    | (keyAllowed, l :: r) => do
      let s ← ({ s with keyAllowed }).dropLateKeys l
      let (s, rest) ← (s.closeBlocks (l.column < ·)).readMark l r
      read n s rest

end Layout

/-- The marks of letters. Every mark takes a letter, so there are no more marks to read. -/
def marksOf (ls : List Letter) : Option (List Mark) :=
  (Layout.read (ls.length + 1) {} ls).map fun s => s.marks.reverse

end Config
end Sx16
