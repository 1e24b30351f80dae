/-
# Errors of the text formats

What can be wrong with the text of an object module or a memory image. Line numbers count from 1.

Key definitions: `FormatError`, `FormatError.message`.
-/
import Sx16.Text.Numeral

namespace Sx16

/-- A piece of text that has a form of its own. -/
inductive Part where
  | symbol | sectionBytes | relocation | imageLine
  deriving DecidableEq

/-- The name of a piece in an error text. -/
def Part.name : Part → String
  | symbol => "symbol"
  | sectionBytes => "section bytes"
  | relocation => "relocation entry"
  | imageLine => "image line"

/-- A line that the text of an object module must have at some point. -/
inductive Awaited where
  | endSymbols | newSection | sectionName | sectionBytes | endSection | relocations | endRelocations
  | endFile
  deriving DecidableEq

/-- The marker line itself, or for a free line what it holds. -/
def Awaited.text : Awaited → String
  | endSymbols => "end symbol table"
  | newSection => "new section"
  | sectionName => "section name"
  | sectionBytes => "section bytes"
  | endSection => "end section"
  | relocations => "rel entries"
  | endRelocations => "end rel entries"
  | endFile => "end file"

/-- Why a text is no object module or no memory image. -/
inductive FormatError where
  | malformed (part : Part) (line : Nat) (text : String)
  | expected (marker : Awaited) (line : Nat) (found : String)
  | unexpectedEof (awaited : Awaited)
  | addressOverflow (address : Nat)
  deriving DecidableEq

/-- The text of the complaint. -/
def FormatError.message : FormatError → String
  | malformed part line text =>
    "Malformed " ++ part.name ++ " at line " ++ Text.decimal line ++ ": `" ++ text ++ "`"
  | expected marker line found =>
    "Expected `" ++ marker.text ++ "` at line " ++ Text.decimal line ++ ", found `" ++ found ++ "`"
  | unexpectedEof awaited => "Unexpected end of input, expected " ++ awaited.text
  | addressOverflow address =>
    "Address 0x" ++ Text.hex 1 address ++ " is outside the 16-bit address space"

end Sx16
