/-
# Resolving pending uses

When a run is finished, every pending use becomes a relocation. A use of a local label gets the
label's value added to its placeholder and refers to the label's section from then on; a use of an
exported or imported symbol keeps the symbol's name. A local label that is used has to be defined,
and a placeholder that is filled has to be inside its section.

Key definitions: `Resolution`, `Symbol.resolve`, `Assembly.overrun?`, `Assembly.finish`, `assemble`.
-/
import Sx16.Assembly.State
import Sx16.Text.Lines

namespace Sx16

/-- What becomes of a pending use. -/
structure Resolution where
  /-- The position of the section that holds the placeholder. -/
  home : Nat
  relocation : Relocation
  /-- What is added to the placeholder. -/
  addend : UInt16

namespace Symbol

/-- What becomes of the pending uses of a symbol, in order. -/
def resolve (t : SymbolTable) (s : Symbol) : Except AssemblyError (List Resolution) :=
  if s.uses.isEmpty then .ok []
  else if !s.isLocal then
    .ok (s.uses.map fun u => ⟨u.home, ⟨u.kind, u.offset, s.name⟩, 0⟩)
  else if s.isDefined then
    let owner := ((t.byNumber? s.owner).map Symbol.name).getD ""
    .ok (s.uses.map fun u => ⟨u.home, ⟨u.kind, u.offset, owner⟩, s.value⟩)
  else .error (.undefinedLabel s.name)

end Symbol

/-- What becomes of the pending uses of symbols, symbol by symbol. -/
def resolveAll (t : SymbolTable) : List Symbol → Except AssemblyError (List Resolution)
  | [] => .ok []
  | s :: ss => do
    let rs ← s.resolve t
    let rest ← resolveAll t ss
    return rs ++ rest

/-- The section at a position with its placeholders filled and its relocations in the order of
their offsets. -/
def SectionData.resolved (s : SectionData) (rs : List Resolution) : SectionData :=
  { s with
    bytes := rs.foldl (fun bs r => addWord bs r.relocation.offset.toNat r.addend) s.bytes
    relocations := (s.relocations ++ rs.map Resolution.relocation).mergeSort fun a b =>
      decide (a.offset ≤ b.offset) }

namespace Assembly

/-- The pending uses of local symbols: the placeholders that are filled. -/
def fills (a : Assembly) : List PendingUse :=
  (a.symbols.toList.filter Symbol.isLocal).flatMap Symbol.uses

/-- Where filling first leaves a section: the section's size and a position behind its bytes. -/
def overrun? (a : Assembly) : Option (Nat × Nat) :=
  a.fills.findSome? fun u =>
    if u.offset.toNat + 2 ≤ a.sizeAt u.home then none
    else some (a.sizeAt u.home, max (a.sizeAt u.home) u.offset.toNat)

/-- The object module of a run. -/
def finish (a : Assembly) : Except AssemblyError ObjectModule := do
  let a := a.closeSection
  let rs ← resolveAll a.symbols a.symbols.toList
  match a.overrun? with
  | some (size, index) => throw (.outOfBounds size index)
  | none =>
    return {
      symbols := ⟨a.symbols.arena.map fun s => { s with uses := [] }⟩
      sections := a.sections.toList.zipIdx.map fun p => p.1.resolved (rs.filter (·.home == p.2)) }

/-- Feeds lines up to the first that ends the source text. -/
def feedAll : List String → AssemblyM Unit
  | [] => pure ()
  | l :: ls => do
    match ← feed l with
    | .finished => pure ()
    | .more => feedAll ls

end Assembly

/-- The object module of a source text. -/
def assemble (src : String) : Except AssemblyError ObjectModule :=
  match Assembly.feedAll (Text.lines src) {} with
  | .error e _ => .error e
  | .ok _ a => a.finish

end Sx16
