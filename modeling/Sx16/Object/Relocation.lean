/-
# Relocations

A relocation names a 16-bit placeholder inside a section and the symbol whose address goes there. Its
line has three fields, each ended by a colon: the code of the kind, the offset and the symbol. A
reader stops at the end of the third field or at an empty fourth one; what follows does not matter.

Key definitions: `Relocation`, `Relocation.line`, `Relocation.ofLine?`.
-/
import Sx16.Text.Numeral

namespace Sx16

/-- What a placeholder is filled with. -/
inductive RelocationKind where
  /-- The symbol's address less the placeholder's own. -/
  | pcRelative
  /-- The symbol's address. -/
  | symbolWord
  deriving DecidableEq

namespace RelocationKind

/-- The code of a kind. Codes 1 and 3 have no meaning. -/
def code : RelocationKind → Nat
  | pcRelative => 0
  | symbolWord => 2

/-- The kind of a code. -/
def ofCode? : Nat → Option RelocationKind
  | 0 => some pcRelative
  | 2 => some symbolWord
  | _ => none

/-- The name of a kind. -/
def name : RelocationKind → String
  | pcRelative => "PC_REL"
  | symbolWord => "SYMBOL_WORD"

end RelocationKind

/-- A placeholder to be filled once addresses are known. -/
structure Relocation where
  kind : RelocationKind
  /-- The placeholder's position in its section. -/
  offset : UInt16
  /-- The symbol referred to; for a reference inside the module, the section that holds it. -/
  symbol : String
  deriving DecidableEq

/-- Fields on one line, each ended by a colon. -/
def fieldLine (fields : List String) : String :=
  String.join (fields.map (· ++ ":"))

namespace Relocation

/-- The line of a relocation. -/
def line (r : Relocation) : String :=
  fieldLine [Text.decimal r.kind.code, Text.decimal r.offset.toNat, r.symbol]

/-- The relocation of a line. -/
def ofLine? (s : String) : Option Relocation :=
  match s.toList.splitOn ':' with
  | kind :: offset :: symbol :: [] :: _ => do
    let code ← Text.readBelow 10 0x100 kind
    let kind ← RelocationKind.ofCode? code
    let offset ← Text.readWord 10 offset
    if symbol.isEmpty then none
    else some ⟨kind, offset, String.ofList symbol⟩
  | _ => none

end Relocation
end Sx16
