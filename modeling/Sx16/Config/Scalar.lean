/-
# Scalars

A scalar is plain, or stands between quotes, or is a block of lines. The words of a plain or quoted
scalar may stand on several lines: a single end of line between two words counts as a blank, and of
several the first is left out. In single quotes a quote is written twice; in double quotes a backslash
starts an escape, also before the end of a line, which then counts for nothing.

Key definitions: `Scalar`, `readPlain`, `readSingle`, `readDouble`.
-/
import Sx16.Config.Letter
import Sx16.Text.Numeral

namespace Sx16
namespace Config

/-- How a scalar is written. Only a plain one is a number or a truth value by itself, and a literal
block where a tag says so. -/
inductive Form where
  | plain | quoted | literal | folded
  deriving DecidableEq

/-- A piece of text that stands for a value. -/
structure Scalar where
  text : String
  form : Form
  deriving DecidableEq

/-- The value that is left out. -/
def Scalar.absent : Scalar := ⟨"", .plain⟩

/-- What a run of blanks and ends of lines between two words counts as. -/
def foldSpace (space : List Char) : List Char :=
  match space.filter isBreak with
  | [] => space
  | c :: breaks => if c ≠ '\n' then c :: breaks else if breaks.isEmpty then [' '] else breaks

/-- The characters of the brackets and of the comma between entries. -/
def isBracket (c : Char) : Bool := ",[]\x7b\x7d".contains c

/-- Whether a plain scalar ends before these letters, in or out of brackets. -/
def endsPlain (inBrackets : Bool) : List Letter → Bool
  | [] => true
  | l :: r => (l.char == ':' && endsWord r) || (inBrackets && isBracket l.char)

/-- Whether in brackets a colon touches what cannot follow it. -/
def isBadColon : List Letter → Bool
  | l :: n :: _ => l.char == ':' && (isBracket n.char || n.char == '?')
  | _ => false

/-- A plain scalar after `space`, which is read backwards, whether an end of line stands behind it,
and what follows. Outside brackets its lines are indented by `column`; a tab does not indent. -/
def readPlain (inBrackets : Bool) (column : Nat) :
    (space : List Char) → List Letter → Option (List Char × Bool × List Letter)
  | space, [] => some ([], space.any isBreak, [])
  | space, l :: r =>
    if isSpace l.char then
      if l.char = '\t' ∧ l.column < column ∧ space.any isBreak then none
      else readPlain inBrackets column (l.char :: space) r
    else if (!space.isEmpty && (l.char == '#' || (!inBrackets && decide (l.column < column)))) ||
        startsDocument (l :: r) || endsPlain inBrackets (l :: r) then
      some ([], space.any isBreak, l :: r)
    else if inBrackets && isBadColon (l :: r) then none
    else
      match readPlain inBrackets column [] r with
      | some (cs, broken, r') => some (foldSpace space.reverse ++ l.char :: cs, broken, r')
      | none => none

/-- A scalar in single quotes after the opening one and `space`, which is read backwards, and what
follows. -/
def readSingle : (space : List Char) → List Letter → Option (List Char × List Letter)
  | _, [] => none
  | space, l :: r =>
    if startsDocument (l :: r) then none
    else if isSpace l.char then readSingle (l.char :: space) r
    else if l.char = '\'' then
      match r with
      | [] => some (foldSpace space.reverse, [])
      | n :: r' =>
        if n.char = '\'' then
          match readSingle [] r' with
          | some (cs, r'') => some (foldSpace space.reverse ++ '\'' :: cs, r'')
          | none => none
        else some (foldSpace space.reverse, n :: r')
    else
      match readSingle [] r with
      | some (cs, r') => some (foldSpace space.reverse ++ l.char :: cs, r')
      | none => none

/-- The character of a one-letter escape. -/
def unescape? (c : Char) : Option Char :=
  match c with
  | '0' => some '\x00'
  | 'a' => some '\x07'
  | 'b' => some '\x08'
  | 't' => some '\t'
  | '\t' => some '\t'
  | 'n' => some '\n'
  | 'v' => some '\x0b'
  | 'f' => some '\x0c'
  | 'r' => some '\r'
  | 'e' => some '\x1b'
  | ' ' => some ' '
  | '"' => some '"'
  | '/' => some '/'
  | '\\' => some '\\'
  | 'N' => some '\u0085'
  | '_' => some '\u00a0'
  | 'L' => some '\u2028'
  | 'P' => some '\u2029'
  | _ => none

/-- The number of digits after the letter of an escape by code point. -/
def escapeDigits? (c : Char) : Option Nat :=
  match c with
  | 'x' => some 2
  | 'u' => some 4
  | 'U' => some 8
  | _ => none

/-- The character of a code point. -/
def charOf? (n : Nat) : Option Char :=
  if n.isValidChar then some (Char.ofNat n) else none

/-- The character of an escape after its backslash, and what follows. -/
def readEscape : List Letter → Option (Char × List Letter)
  | [] => none
  | l :: r =>
    match unescape? l.char, escapeDigits? l.char with
    | some d, _ => some (d, r)
    | none, none => none
    | none, some n =>
      if r.length < n then none
      else ((Text.readNat 16 ((r.take n).map (·.char))).bind charOf?).map fun d => (d, r.drop n)

theorem length_readEscape {ls r : List Letter} {d : Char} (h : readEscape ls = some (d, r)) :
    r.length < ls.length := by
  unfold readEscape at h
  split at h
  · cases h
  · split at h
    · cases h
      simp
    · cases h
    · split at h
      · cases h
      · simp only [Option.map_eq_some_iff, Prod.mk.injEq] at h
        obtain ⟨d', -, -, rfl⟩ := h
        simp only [List.length_drop, List.length_cons]
        omega

/-- What a run of blanks and ends of lines counts as, after an escaped end of line if `escaped`. -/
def foldEscaped (escaped : Bool) (space : List Char) : List Char :=
  if escaped then space.filter isBreak else foldSpace space

/-- A scalar in double quotes after the opening one and `space`, which is read backwards, and what
follows. -/
def readDouble (escaped : Bool) (space : List Char) :
    List Letter → Option (List Char × List Letter)
  | [] => none
  | l :: r =>
    if startsDocument (l :: r) then none
    else if isSpace l.char then readDouble escaped (l.char :: space) r
    else if l.char = '"' then some (foldEscaped escaped space.reverse, r)
    else if l.char = '\\' && !r.isEmpty && endsLine r then
      match readDouble true [] (r.drop 1) with
      | some (cs, r') => some (foldEscaped escaped space.reverse ++ cs, r')
      | none => none
    else if l.char = '\\' then
      match _h : readEscape r with
      | none => none
      | some (d, r') =>
        match readDouble false [] r' with
        | some (cs, r'') => some (foldEscaped escaped space.reverse ++ d :: cs, r'')
        | none => none
    else
      match readDouble false [] r with
      | some (cs, r') => some (foldEscaped escaped space.reverse ++ l.char :: cs, r')
      | none => none
termination_by ls => ls.length
decreasing_by
  · simp
  · simp only [List.length_drop, List.length_cons]
    omega
  · have := length_readEscape _h
    simp
    omega
  · simp

end Config
end Sx16
