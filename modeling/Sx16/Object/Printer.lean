/-
# The text of an object module

The symbols in sorted order, one a line, and the end marker; then every section between its markers:
its name, its bytes on one line, and its relocations between markers of their own if it has any; then
the marker for the end of the file.

Key definitions: `ObjectModule.lines`, `ObjectModule.text`.
-/
import Sx16.FormatError
import Sx16.Object.Module
import Sx16.Text.Lines

namespace Sx16

namespace SectionData

/-- The bytes of a section on one line. -/
def bytesLine (s : SectionData) : String :=
  fieldLine (s.bytes.toList.map fun b => Text.hex 2 b.toNat)

/-- The lines of the relocations, with their markers. -/
def relocationLines (s : SectionData) : List String :=
  if s.relocations.isEmpty then []
  else Awaited.relocations.text ::
    s.relocations.map Relocation.line ++ [Awaited.endRelocations.text]

/-- The lines of a section, with its markers. -/
def lines (s : SectionData) : List String :=
  Awaited.newSection.text :: s.name :: s.bytesLine ::
    s.relocationLines ++ [Awaited.endSection.text]

end SectionData

namespace ObjectModule

/-- The lines of a module. -/
def lines (m : ObjectModule) : List String :=
  m.symbols.sorted.map Symbol.line ++ Awaited.endSymbols.text ::
    m.sections.flatMap SectionData.lines ++ [Awaited.endFile.text]

/-- The text of a module. -/
def text (m : ObjectModule) : String :=
  Text.unlines m.lines

end ObjectModule
end Sx16
