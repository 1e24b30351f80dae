/-
# Blocks of lines

A block stands below its indicator, indented further than what it belongs to; its first line decides
by how much, unless the indicator says it. In a literal block all ends of lines are kept; in a folded
one a single end of line between two lines counts as a blank, unless one of them starts with a blank.
The indicator also says what becomes of the ends of lines behind the last line: by itself the first is
kept, with a minus sign none and with a plus sign all.

Key definitions: `BlockHeader`, `readBlock`.
-/
import Sx16.Config.Scalar

namespace Sx16
namespace Config

/-- What is kept of the ends of lines behind the last line of a block. -/
inductive Tail where
  | first | nothing | every
  deriving DecidableEq

/-- What the indicator of a block says. -/
structure BlockHeader where
  tail : Tail := .first
  /-- How much further the block is indented, if that is said. -/
  indent : Option Nat := none

namespace BlockHeader

/-- The header with what one character says; none if that is said already or is not allowed. -/
def add? (h : BlockHeader) (c : Char) : Option BlockHeader :=
  if c = '+' ∨ c = '-' then
    if h.tail = .first then some { h with tail := if c = '+' then .every else .nothing } else none
  else if c ≠ '0' ∧ c.isDigit ∧ h.indent.isNone then some { h with indent := some (c.toNat - 48) }
  else none

/-- A header, and the letters after its line. -/
def read (h : BlockHeader) (ls : List Letter) : Option (BlockHeader × List Letter) := do
  let (h, ls) :=
    match ls with
    | [] => (h, ls)
    | l :: r =>
      match h.add? l.char with
      | none => (h, ls)
      | some h' =>
        match r with
        | [] => (h', r)
        | n :: r' =>
          match h'.add? n.char with
          | none => (h', r)
          | some h'' => (h'', r')
  return (h, ← finishLine ls)

end BlockHeader

/-- The widest indentation of the first lines of a block, up to the first that is not empty. -/
def widestIndent : (widest : Nat) → List Letter → Option Nat
  | widest, [] => some widest
  | widest, l :: r =>
    if l.char = ' ' then widestIndent widest r
    else if l.char = '\t' then none
    else if isBreak l.char then widestIndent (max widest l.column) r
    else some (max widest l.column)

/-- A block while its lines are read. -/
structure BlockLines where
  /-- The end of the last line. -/
  ended : List Char := []
  /-- The ends of the empty lines after it. -/
  empty : List Char := []
  /-- Whether the last line starts with a blank. -/
  blank : Bool := false
  inLine : Bool := false

namespace BlockLines

/-- What stands between the last line and one that starts with `c`. -/
def joint (b : BlockLines) (literal : Bool) (c : Char) : List Char :=
  if !literal && b.ended == ['\n'] && !b.blank && !isGap c then
    if b.empty.isEmpty then [' '] else b.empty
  else b.ended ++ b.empty

/-- What is kept behind the last line. -/
def kept (b : BlockLines) : Tail → List Char
  | .first => b.ended
  | .nothing => []
  | .every => b.ended ++ b.empty

end BlockLines

/-- The rest of a block in a column, and what follows. A tab does not indent. -/
def readLines (literal : Bool) (tail : Tail) (column : Nat) :
    BlockLines → List Letter → Option (List Char × List Letter)
  | b, [] => some (b.kept tail, [])
  | b, l :: r =>
    if b.inLine then
      if isBreak l.char then
        readLines literal tail column { b with ended := [l.char], inLine := false } r
      else
        match readLines literal tail column b r with
        | some (cs, r') => some (l.char :: cs, r')
        | none => none
    else if isBreak l.char then
      readLines literal tail column { b with empty := b.empty ++ [l.char] } r
    else if l.column < column then
      if l.char = ' ' then readLines literal tail column b r
      else if l.char = '\t' then none
      else some (b.kept tail, l :: r)
    else
      match readLines literal tail column { blank := isGap l.char, inLine := true } r with
      | some (cs, r') => some (b.joint literal l.char ++ l.char :: cs, r')
      | none => none

/-- A block after its indicator, and what follows. What it belongs to stands before a column. -/
def readBlock (literal : Bool) (least : Nat) (ls : List Letter) :
    Option (Scalar × List Letter) := do
  let (h, r) ← BlockHeader.read {} ls
  let column ←
    match h.indent with
    | some n => some (least - 1 + n)
    | none => (widestIndent 0 r).map fun widest => max widest (max least 1)
  let (cs, rest) ← readLines literal h.tail column {} r
  return (⟨String.ofList cs, if literal then .literal else .folded⟩, rest)

end Config
end Sx16
