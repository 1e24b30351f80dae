/-
# Errors of the linker

Key definitions: `LinkError`, `LinkError.message`.
-/
import Sx16.Text.Numeral

namespace Sx16

/-- Why modules cannot be linked, or placed as asked. -/
inductive LinkError where
  | multipleDefinition (name : String)
  | labelSectionCollision (name : String)
  | unresolvedSymbol (name : String)
  | overlappingSections (first second : String)
  | addressOutOfRange (name : String) (start size : Nat)
  | invalidPlace (argument : String)
  deriving DecidableEq

namespace LinkError

/-- The text of the complaint. -/
def message : LinkError → String
  | multipleDefinition name => "Symbol \"" ++ name ++ "\" is defined multiple times."
  | labelSectionCollision name =>
    "Symbol \"" ++ name ++ "\" is defined both as a section and a label."
  | unresolvedSymbol name => "Symbol \"" ++ name ++ "\" cannot be resolved."
  | overlappingSections first second =>
    "Sections \"" ++ first ++ "\" and \"" ++ second ++
      "\" are overlapping due to improper use of -place option."
  | addressOutOfRange name start size =>
    "Section \"" ++ name ++ "\" does not fit below 0x10000 (start 0x" ++ Text.hex 4 start ++
      ", size " ++ Text.decimal size ++ ")."
  | invalidPlace argument =>
    "Invalid -place option: `" ++ argument ++ "`, expected <section>@<address>"

end LinkError
end Sx16
