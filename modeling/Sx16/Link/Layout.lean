/-
# Laying out sections

Sections with a fixed address go there; they may not overlap and have to end by the last address. All
others follow the highest end of a fixed one, one after the other in their order. An empty section
overlaps nothing, but it needs an address, so it does not fit where all addresses are used up.

Key definitions: `Demand`, `allocate`, `Linkage.place`.
-/
import Sx16.Link.Merge
import Sx16.Keyed

namespace Sx16

/-- The number of addresses. -/
def addressSpace : Nat := 0x10000

/-- A section to be placed. -/
structure Demand where
  size : Nat
  fixed : Option UInt16
  deriving DecidableEq

/-- The addresses from `start` up to `stop`, which is not one of them. -/
structure Range where
  start : Nat
  stop : Nat
  deriving DecidableEq

/-- Whether two ranges share an address. -/
def Range.overlaps (a b : Range) : Bool :=
  a.start < a.stop && b.start < b.stop && a.start < b.stop && b.start < a.stop

/-- The ranges of the fixed demands, each checked against those before it. -/
def fixedRanges (taken : Named Range) : Named Demand → Except LinkError (Named Range)
  | [] => .ok taken
  | (name, d) :: r =>
    match d.fixed with
    | none => fixedRanges taken r
    | some a =>
      let range : Range := ⟨a.toNat, a.toNat + d.size⟩
      if range.stop > addressSpace then .error (.addressOutOfRange name range.start d.size)
      else
        match taken.find? fun t => range.overlaps t.2 with
        | some t => .error (.overlappingSections t.1 name)
        | none => fixedRanges (taken ++ [(name, range)]) r

/-- The ranges of the other demands, one after the other from an address on. -/
def packedRanges (next : Nat) : Named Demand → Except LinkError (Named Range)
  | [] => .ok []
  | (name, d) :: r =>
    if d.fixed.isSome then packedRanges next r
    else if next + d.size > addressSpace || (next == addressSpace && d.size == 0) then
      .error (.addressOutOfRange name next d.size)
    else
      match packedRanges (next + d.size) r with
      | .error e => .error e
      | .ok ranges => .ok ((name, ⟨next, next + d.size⟩) :: ranges)

/-- The highest end of a range; 0 if there is none. -/
def highestStop (ranges : Named Range) : Nat :=
  ranges.foldl (fun n r => max n r.2.stop) 0

/-- The start of every demand: first those that are fixed, then the others, each in order. -/
def allocate (demands : Named Demand) : Except LinkError (Named UInt16) := do
  let fixed ← fixedRanges [] demands
  let packed ← packedRanges (highestStop fixed) demands
  return (fixed ++ packed).map fun r => (r.1, UInt16.ofNat r.2.start)

namespace Linkage

/-- What each segment asks for. -/
def demands (l : Linkage) (places : Named UInt16) : Named Demand :=
  l.segments.map fun s => (s.name, ⟨s.bytes.size, places.lookup s.name⟩)

/-- Gives every segment its start, and the asked places that are of no segment. -/
def place (places : Named UInt16) : LinkM (List String) := do
  let l ← get
  match allocate (l.demands places) with
  | .error e => throw e
  | .ok starts =>
    set { l with
      segments := l.segments.map fun (s : Segment) =>
        { s with start := (starts.lookup s.name).getD 0, placed := (places.lookup s.name).isSome } }
    return (places.filter fun p => (l.segment? p.1).isNone).map Prod.fst

end Linkage
end Sx16
