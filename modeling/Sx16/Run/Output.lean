/-
# The output of a run

A run prints text and, through the terminal, single bytes. Both are kept in the order in which they
were printed.

Key definitions: `Output`, `Output.texts`, `Output.terminalBytes`, `Output.bytes`.
-/
import Sx16.Text.Lines

namespace Sx16

/-- A piece of output. -/
inductive Output where
  | text (s : String)
  | terminal (b : UInt8)
  deriving DecidableEq

namespace Output

/-- A printed line. -/
def line (s : String) : Output := .text (s ++ "\n")

/-- The text of a piece. -/
def text? : Output → Option String
  | text s => some s
  | terminal _ => none

/-- The terminal byte of a piece. -/
def terminal? : Output → Option UInt8
  | text _ => none
  | terminal b => some b

/-- All printed text without the terminal's bytes. -/
def texts (out : List Output) : String := String.join (out.filterMap text?)

/-- The terminal's bytes alone. -/
def terminalBytes (out : List Output) : List UInt8 := out.filterMap terminal?

/-- Everything that was printed, as bytes. -/
def bytes (out : List Output) : List UInt8 :=
  out.flatMap fun o =>
    match o with
    | text s => s.toList.flatMap String.utf8EncodeChar
    | terminal b => [b]

end Output
end Sx16
