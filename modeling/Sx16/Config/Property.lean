/-
# Names, tags and directives

A name gives a node a handle by which it is repeated later. A tag tells the kind of a node; it is
written in full, or as a handle and what follows it, and directives at the start of a document say
what the handles stand for. A tag is a sequence of bytes: some characters stand for themselves, and
any byte is written as a percent sign and two digits, the bytes of one character together.

Key definitions: `readName`, `Tag`, `readTag`, `Directive`, `readDirective`.
-/
import Sx16.Config.Letter
import Sx16.Text.Numeral

namespace Sx16
namespace Config

/-- The characters of names and handles. -/
def isNameChar (c : Char) : Bool := c.isAlphanum || c == '_' || c == '-'

/-- The letters of a name at the front, as text. -/
def nameText (ls : List Letter) : List Char :=
  (ls.takeWhile fun l => isNameChar l.char).map (·.char)

/-- The letters after a name at the front. -/
def skipName (ls : List Letter) : List Letter := ls.dropWhile fun l => isNameChar l.char

/-- Whether a name may end before these letters. -/
def endsName : List Letter → Bool
  | [] => true
  | l :: _ => isSpace l.char || "?:,]\x7d%@`".contains l.char

/-- A name after its indicator, and what follows. -/
def readName (ls : List Letter) : Option (String × List Letter) :=
  if !(nameText ls).isEmpty && endsName (skipName ls) then
    some (String.ofList (nameText ls), skipName ls)
  else none

/-- A tag as it is written. Without a handle it is written in full. -/
structure Tag where
  handle : String
  text : String
  deriving DecidableEq

/-- A character that stands for itself in a tag; the commas and square brackets only where a tag is
written in full or a handle is explained. -/
def isTagChar (inFull : Bool) (c : Char) : Bool :=
  isNameChar c || ";/?:@&=+$.!~*'()".contains c || (inFull && ",[]".contains c)

/-- The number of bytes of the character that starts with a byte. -/
def characterLength? (b : Nat) : Option Nat :=
  if b < 0x80 then some 1
  else if b < 0xC0 then none
  else if b < 0xE0 then some 2
  else if b < 0xF0 then some 3
  else if b < 0xF8 then some 4
  else none

/-- The number of bytes that are due after a byte, where `due` were due before it. -/
def dueAfter? (due b : Nat) : Option Nat :=
  if due = 0 then (characterLength? b).map (· - 1)
  else if 0x80 ≤ b ∧ b < 0xC0 then some (due - 1)
  else none

/-- The bytes of a tag, each as a character, and what follows. The next `due` bytes are written by
number. -/
def readTagText (inFull : Bool) : (due : Nat) → List Letter → Option (List Char × List Letter)
  | due, [] => if due = 0 then some ([], []) else none
  | due, l :: r =>
    if l.char = '%' then
      match r with
      | a :: b :: r' =>
        match Text.readNat 16 [a.char, b.char] with
        | none => none
        | some n =>
          match dueAfter? due n with
          | none => none
          | some due' =>
            match readTagText inFull due' r' with
            | some (cs, rest) => some (Char.ofNat n :: cs, rest)
            | none => none
      | _ => none
    else if due ≠ 0 then none
    else if isTagChar inFull l.char then
      match readTagText inFull 0 r with
      | some (cs, rest) => some (l.char :: cs, rest)
      | none => none
    else some ([], l :: r)

/-- A handle after its exclamation mark, and what follows: a second mark ends the name. -/
def readHandle (ls : List Letter) : Option (String × List Letter) :=
  match skipName ls with
  | l :: r => if l.char = '!' then some (String.ofList ('!' :: nameText ls ++ ['!']), r) else none
  | [] => none

/-- A tag after its exclamation mark, and what follows. -/
def readTagBody (ls : List Letter) : Option (Tag × List Letter) := do
  match ls, readHandle ls with
  | l :: r, none =>
    if l.char = '<' then
      let (text, rest) ← readTagText true 0 r
      match rest with
      | e :: rest =>
        if e.char = '>' ∧ text ≠ [] then some (⟨"", String.ofList text⟩, rest) else none
      | [] => none
    else
      let (text, rest) ← readTagText false 0 ls
      some (if text.isEmpty then ⟨"", "!"⟩ else ⟨"!", String.ofList text⟩, rest)
  | _, some (handle, r) =>
    let (text, rest) ← readTagText false 0 r
    if text.isEmpty then none else some (⟨handle, String.ofList text⟩, rest)
  | [], none => some (⟨"", "!"⟩, [])

/-- A tag after its exclamation mark, and what follows. A blank or an end of line ends it, and in
brackets a comma. -/
def readTag (inBrackets : Bool) (ls : List Letter) : Option (Tag × List Letter) := do
  let (tag, rest) ← readTagBody ls
  if endsWord rest || (inBrackets && (rest.head?.map (·.char)) == some ',') then some (tag, rest)
  else none

/-- What a directive says. -/
inductive Directive where
  | version (major minor : Nat)
  /-- What a handle stands for. -/
  | handle (name text : String)
  deriving DecidableEq

/-- Whether documents of a version can be read. -/
def isKnownVersion (major minor : Nat) : Bool := major == 1 && (minor == 1 || minor == 2)

/-- A number of up to nine digits, and what follows. -/
def readVersionNumber (ls : List Letter) : Option (Nat × List Letter) := do
  let digits := (ls.takeWhile fun l => l.char.isDigit).map (·.char)
  if digits.length ≤ 9 then some (← Text.readNat 10 digits, ls.drop digits.length) else none

/-- A version, and what follows. -/
def readVersion (ls : List Letter) : Option (Directive × List Letter) := do
  let (major, r) ← readVersionNumber ls
  match r with
  | l :: r =>
    if l.char = '.' then
      let (minor, rest) ← readVersionNumber r
      some (.version major minor, rest)
    else none
  | [] => none

/-- The handle that a directive explains, after its exclamation mark, and what follows. -/
def readExplained (ls : List Letter) : Option (String × List Letter) :=
  match readHandle ls with
  | some p => some p
  | none => if (nameText ls).isEmpty then some ("!", ls) else none

/-- A handle and what it stands for, and what follows. -/
def readExplanation : List Letter → Option (Directive × List Letter)
  | [] => none
  | l :: r => do
    if l.char ≠ '!' then none
    else
      let (handle, r) ← readExplained r
      match r with
      | g :: r =>
        if isGap g.char then
          let (text, rest) ← readTagText true 0 (skipGap r)
          if text ≠ [] ∧ endsWord rest then some (.handle handle (String.ofList text), rest)
          else none
        else none
      | [] => none

/-- A directive after its percent sign, and the letters after its line. -/
def readDirective (ls : List Letter) : Option (Directive × List Letter) := do
  if !endsWord (skipName ls) then none
  else
    let r := skipGap (skipName ls)
    let (directive, rest) ←
      match String.ofList (nameText ls) with
      | "YAML" => readVersion r
      | "TAG" => readExplanation r
      | _ => none
    return (directive, ← finishLine rest)

end Config
end Sx16
