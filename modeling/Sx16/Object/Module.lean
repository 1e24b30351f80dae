/-
# Object modules

What the assembler produces and the linker joins: a symbol table and the contents of the sections.

Key definitions: `ObjectModule`, `SectionData`.
-/
import Sx16.Object.Symbol

namespace Sx16

/-- The contents of one section. -/
structure SectionData where
  name : String
  bytes : Array UInt8 := #[]
  relocations : List Relocation := []
  deriving DecidableEq

/-- A unit of assembly or of partial linking. -/
structure ObjectModule where
  symbols : SymbolTable := SymbolTable.new
  sections : List SectionData := []
  deriving DecidableEq

namespace ObjectModule

/-- The first section with a name. -/
def find? (m : ObjectModule) (name : String) : Option SectionData :=
  m.sections.find? (·.name == name)

end ObjectModule
end Sx16
