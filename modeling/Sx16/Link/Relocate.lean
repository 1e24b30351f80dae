/-
# Relocation

Once segments have their starts, labels get their addresses, every placeholder whose symbol is known
is filled, and the segments become a memory image. A symbol relative to the program counter counts
from the placeholder's own address.

Key definitions: `Linkage.target`, `Linkage.filled`, `Linkage.relocate`, `link`.
-/
import Sx16.Image.Basic
import Sx16.Link.Layout

namespace Sx16
namespace Linkage

/-- The start of the segment of a name; 0 if there is none. -/
def startOf (l : Linkage) (name : String) : UInt16 :=
  ((l.segment? name).map Segment.start).getD 0

/-- The address of a symbol whose label has its address already. -/
def target (l : Linkage) (s : LinkSymbol) : UInt16 :=
  if s.isSection then l.startOf s.name else s.value

/-- What is added to the placeholder of a relocation in a segment that starts at `start`; nothing for
a symbol that no module shares. -/
def addend? (l : Linkage) (start : UInt16) (r : Relocation) : Option UInt16 :=
  (l.symbol? r.symbol).map fun s =>
    match r.kind with
    | .symbolWord => l.target s
    | .pcRelative => l.target s - (r.offset + start)

/-- The bytes of a segment with its placeholders filled. -/
def filled (l : Linkage) (s : Segment) : Array UInt8 :=
  s.relocations.foldl (fun bs r =>
    match l.addend? s.start r with
    | some v => addWord bs r.offset.toNat v
    | none => bs) s.bytes

/-- The linkage with its labels moved by the starts of their segments. -/
def moveLabels (l : Linkage) : Linkage :=
  { l with
    symbols := l.symbols.map fun s =>
      if s.isSection then s
      else { s with value := s.value + (s.home.map l.startOf).getD 0 } }

/-- The image with more segments. -/
def placeSegments (l : Linkage) : Image → List Segment → Except LinkError Image
  | image, [] => .ok image
  | image, s :: r =>
    match image.place s.start (l.filled s).toList with
    | .error _ => .error (.addressOutOfRange s.name s.start.toNat s.bytes.size)
    | .ok image' => placeSegments l image' r

/-- Moves labels to their addresses and gives the memory image. -/
def relocate : LinkM Image := do
  modify moveLabels
  let l ← get
  match l.placeSegments Image.empty l.segments with
  | .error e => throw e
  | .ok image => return image

/-- Links modules into a memory image with some sections at fixed addresses. -/
def linkAll (ms : List ObjectModule) (places : Named UInt16) : LinkM Image := do
  addAll ms
  match (← get).checkResolved with
  | .error e => throw e
  | .ok () => pure ()
  let _ ← place places
  relocate

end Linkage

/-- The value of a change of a fresh linkage, or its fault. -/
def LinkM.result {α : Type} (x : LinkM α) : Except LinkError α :=
  match x {} with
  | .ok a _ => .ok a
  | .error e _ => .error e

/-- The memory image of modules with some sections at fixed addresses; a place for a section that
does not exist counts for nothing. -/
def link (ms : List ObjectModule) (places : Named UInt16) : Except LinkError Image :=
  (Linkage.linkAll ms places).result

end Sx16
