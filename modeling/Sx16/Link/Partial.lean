/-
# Partial linking

Modules can be joined into one module that is linked again later. Its sections are the segments, its
symbols the sections in order and then the shared labels, each relative to its section.

Key definitions: `Linkage.toModule`, `linkPartially`.
-/
import Sx16.Link.Relocate

namespace Sx16
namespace Linkage

/-- The number of a section in the joined module; 0 for none. -/
def sectionNumber (l : Linkage) (name : String) : Nat :=
  ((l.segments.findIdx? (·.name == name)).map (· + 1)).getD 0

/-- The symbol of the segment with a number. -/
def sectionSymbol (s : Segment) (number : Nat) : Symbol where
  name := s.name
  owner := number
  exported := true
  imported := true
  number := number
  size := some (UInt16.ofNat s.bytes.size)

/-- The symbol of a shared label with a number. -/
def labelSymbol (l : Linkage) (s : LinkSymbol) (number : Nat) : Symbol where
  name := s.name
  owner := (s.home.map l.sectionNumber).getD 0
  value := s.value
  exported := s.exported
  imported := s.imported
  number := number

/-- The modules joined so far as one module. -/
def toModule (l : Linkage) : ObjectModule :=
  let sections := (l.segments.zipIdx 1).map fun p => sectionSymbol p.1 p.2
  let labels := ((l.symbols.filter fun s => !s.isSection).zipIdx (l.segments.length + 1)).map
    fun p => l.labelSymbol p.1 p.2
  { symbols := ⟨(Symbol.undefined :: sections ++ labels).toArray⟩
    sections := l.segments.map fun s => ⟨s.name, s.bytes, s.relocations⟩ }

end Linkage

/-- Modules joined into one module. -/
def linkPartially (ms : List ObjectModule) : Except LinkError ObjectModule :=
  LinkM.result do
    Linkage.addAll ms
    return (← get).toModule

end Sx16
