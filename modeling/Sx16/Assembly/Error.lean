/-
# Errors of the assembler

An error is of a line or of a symbol. Errors of a line carry its number.

Key definitions: `AssemblyError`, `AssemblyError.line?`, `AssemblyError.message`,
`AssemblyError.report`.
-/
import Sx16.Source.Grammar
import Sx16.Text.Report

namespace Sx16

/-- Why a source text has no object module. -/
inductive AssemblyError where
  | faultyLine (line : Nat) (fault : LineFault)
  | noSection (line : Nat)
  | sectionDefined (line : Nat)
  | sectionTooLarge (line : Nat)
  /-- An imported symbol is to be exported. -/
  | exportsImported (name : String)
  /-- An exported symbol is to be imported. -/
  | importsExported (name : String)
  /-- A symbol defined here is to be imported. -/
  | importsDefined (name : String)
  /-- An imported symbol is to be defined. -/
  | definesImported (name : String)
  | redefinedLabel (name : String)
  | undefinedLabel (name : String)
  /-- A placeholder is to be filled that is not inside its section. -/
  | outOfBounds (size index : Nat)
  deriving DecidableEq

/-- The text of the complaint about a line. -/
def LineFault.message (line : Nat) : LineFault → String
  | unknownOperation name =>
    "Unknown operation at line " ++ Text.decimal line ++ ": `" ++ name ++ "`"
  | syntaxError => "Syntax error at line number: " ++ Text.decimal line ++ "."
  | literalTooBig => "Literal value at line " ++ Text.decimal line ++ " is too big."

namespace AssemblyError

/-- The text of the complaint. -/
def message : AssemblyError → String
  | faultyLine line fault => fault.message line
  | noSection line =>
    "Symbol defined at line " ++ Text.decimal line ++
      " belongs to no section. Add a .section directive beforehand."
  | sectionDefined line =>
    "Section defined at line " ++ Text.decimal line ++ " has already been defined."
  | sectionTooLarge line =>
    "Section at line " ++ Text.decimal line ++ " grows past the 16-bit address space."
  | exportsImported name => "Symbol \"" ++ name ++ "\" already declared as extern."
  | importsExported name => "Symbol \"" ++ name ++ "\" already declared as global."
  | importsDefined name =>
    "Symbol \"" ++ name ++ "\" is defined and cannot be imported using .extern."
  | definesImported name =>
    "Cannot define symbol \"" ++ name ++ "\" as it is declared as extern."
  | redefinedLabel name => "Re-defined label: `" ++ name ++ "`"
  | undefinedLabel name => "Undefined label: `" ++ name ++ "`"
  | outOfBounds size index =>
    "index out of bounds: the len is " ++ Text.decimal size ++ " but the index is " ++ Text.decimal index

/-- The number of the line that an error is of. -/
def line? : AssemblyError → Option Nat
  | faultyLine line _ | noSection line | sectionDefined line | sectionTooLarge line => some line
  | _ => none

end AssemblyError

/-- The place of an error in a source text: the file and the line's number, and the line itself. -/
def sourceLines (file : String) (line : Nat) (source : List String) : String :=
  let bar := "      " ++ Style.paint [.blue] "|" ++ "\n"
  let number := Text.decimal line
  "     " ++ Style.paint [.blue] "-->" ++ " " ++ Style.paint [.underline] (file ++ ":" ++ number) ++
    "\n" ++ bar ++ " " ++ Style.paint [.blue] (Text.alignRight 4 number ++ " |") ++ " " ++
    (source[line - 1]?).getD "" ++ "\n" ++ bar

/-- The report of an error with its place, if it has one; there is no line 0. -/
def AssemblyError.report (e : AssemblyError) (file : String) (line : Option Nat)
    (source : List String) : String :=
  Text.errorLine e.message ++
    match line with
    | none | some 0 => ""
    | some n => sourceLines file n source

end Sx16
