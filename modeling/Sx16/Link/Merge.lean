/-
# Merging modules

A linkage holds the shared symbols of all modules added so far and one segment for every section
name: the sections of that name, one after the other. Adding a module merges its shared symbols one
by one and then appends its sections. A section starts where its segment ends, its base; labels,
relocation offsets and references inside the module move up by the base. A module that cannot be
added leaves the symbols merged before the fault.

Key definitions: `Linkage`, `Segment`, `LinkSymbol`, `Linkage.merge`, `Linkage.append`,
`Linkage.add`, `Linkage.checkResolved`.
-/
import Sx16.Link.Error
import Sx16.Object.Module
import Sx16.Word

namespace Sx16

/-- A symbol that modules share. -/
structure LinkSymbol where
  name : String
  /-- The offset in the segment; the address once the linkage is relocated. -/
  value : UInt16
  /-- The segment that the symbol belongs to; the symbol of a section belongs to its own. -/
  home : Option String
  exported : Bool
  imported : Bool
  isSection : Bool
  /-- The position of the module that defined the symbol. -/
  origin : Nat
  deriving DecidableEq

namespace LinkSymbol

/-- A symbol that is wanted from some other module. -/
def isOnlyImported (s : LinkSymbol) : Bool := s.imported && !s.exported

/-- A symbol that some module gives to others. -/
def isOnlyExported (s : LinkSymbol) : Bool := s.exported && !s.imported

/-- The shared form of a module's symbol. -/
def ofSymbol (m : ObjectModule) (origin : Nat) (s : Symbol) : LinkSymbol where
  name := s.name
  value := s.value
  home :=
    if s.isSection then some s.name
    else if s.isDefined then (m.symbols.byNumber? s.owner).map Symbol.name
    else none
  exported := s.exported
  imported := s.imported
  isSection := s.isSection
  origin := origin

end LinkSymbol

/-- The sections of one name, joined. -/
structure Segment where
  name : String
  bytes : Array UInt8 := #[]
  relocations : List Relocation := []
  start : UInt16 := 0
  /-- Whether the start was asked for. -/
  placed : Bool := false
  deriving DecidableEq

/-- The modules joined so far. -/
structure Linkage where
  /-- One symbol per name, in the order of the first mention. -/
  symbols : List LinkSymbol := []
  /-- One segment per name, in the order of the first mention. -/
  segments : List Segment := []
  /-- The number of modules added, or begun to be added. -/
  modules : Nat := 0
  deriving DecidableEq

/-- A change of a linkage that may fail half-way. -/
abbrev LinkM := EStateM LinkError Linkage

namespace Linkage

/-- The shared symbol of a name. -/
def symbol? (l : Linkage) (name : String) : Option LinkSymbol :=
  l.symbols.find? (·.name == name)

/-- The segment of a name. -/
def segment? (l : Linkage) (name : String) : Option Segment :=
  l.segments.find? (·.name == name)

/-- Takes in a symbol of a module. A wanted symbol gets its definition here; a second definition and
a name that is a section here and a label there are faults. -/
def merge (s : LinkSymbol) : LinkM Unit := do
  let l ← get
  match l.symbol? s.name with
  | none => set { l with symbols := l.symbols ++ [s] }
  | some known =>
    if known.isSection != s.isSection then throw (.labelSectionCollision s.name)
    else if known.isOnlyImported && s.isOnlyExported then
      set { l with symbols := l.symbols.map fun (k : LinkSymbol) => if k.name = s.name then s else k }
    else if known.isOnlyExported && s.isOnlyExported then throw (.multipleDefinition s.name)

/-- Takes in symbols one after the other. -/
def mergeAll : List LinkSymbol → LinkM Unit
  | [] => pure ()
  | s :: ss => do
    merge s
    mergeAll ss

/-- Where the section of a name starts in its segment when `m` is added to `l`; 0 for a name that is
no section of `m`. -/
def base (l : Linkage) (m : ObjectModule) (name : String) : UInt16 :=
  if (m.find? name).isSome then
    UInt16.ofNat (((l.segment? name).map fun s => s.bytes.size).getD 0)
  else 0

/-- The bytes of a section with its references to sections of its own module moved to where those
sections now are. -/
def rebased (m : ObjectModule) (base : String → UInt16) (f : SectionData) : Array UInt8 :=
  f.relocations.foldl (fun bs r =>
    if (m.symbols.get? r.symbol).any Symbol.isSection then addWord bs r.offset.toNat (base r.symbol)
    else bs) f.bytes

/-- The segments with a section joined on. -/
def extend (name : String) (bytes : Array UInt8) (relocations : List Relocation) :
    List Segment → List Segment
  | [] => [{ name, bytes, relocations }]
  | s :: r =>
    if s.name = name then
      { s with bytes := s.bytes ++ bytes, relocations := s.relocations ++ relocations } :: r
    else s :: extend name bytes relocations r

/-- The linkage with a section of a module joined on, by the bases of the module's sections. -/
def append (m : ObjectModule) (origin : Nat) (base : String → UInt16) (l : Linkage)
    (f : SectionData) : Linkage :=
  { l with
    symbols := l.symbols.map fun s =>
      if !s.isSection && s.origin == origin && s.home == some f.name then
        { s with value := s.value + base f.name }
      else s
    segments := extend f.name (rebased m base f)
      (f.relocations.map fun r => { r with offset := r.offset + base f.name }) l.segments }

/-- Adds a module. -/
def add (m : ObjectModule) : LinkM Unit := do
  let origin := (← get).modules
  modify fun l => { l with modules := origin + 1 }
  mergeAll ((m.symbols.toList.filter fun s => !s.isLocal).map (LinkSymbol.ofSymbol m origin))
  modify fun l => m.sections.foldl (append m origin (l.base m)) l

/-- Adds modules one after the other. -/
def addAll : List ObjectModule → LinkM Unit
  | [] => pure ()
  | m :: ms => do
    add m
    addAll ms

/-- Every shared symbol has to belong to a segment and be given by some module. -/
def checkResolved (l : Linkage) : Except LinkError Unit :=
  match l.symbols.find? fun s => s.isOnlyImported || s.home.isNone with
  | some s => .error (.unresolvedSymbol s.name)
  | none => .ok ()

end Linkage
end Sx16
