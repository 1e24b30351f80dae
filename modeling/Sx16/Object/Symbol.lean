/-
# Symbols and the symbol table

A symbol is a label or a section. The table keeps every symbol that was ever inserted, in order, and
a symbol's id is its position; ids stay valid while the table grows. A name stands for its latest
symbol. The table starts with one reserved section symbol, `UND`, which has number 0. Since names never
change, an index of them that insertions write can be kept beside the symbols; `IndexedTable` is a table
with such an index.

Key definitions: `Symbol`, `Symbol.line`, `Symbol.ofLine?`, `SymbolTable`, `SymbolTable.id?`,
`SymbolTable.intern`, `SymbolTable.sorted`, `IndexedTable`.
-/
import Sx16.Keyed
import Sx16.Object.Relocation

namespace Sx16

/-- A placeholder that was written before its symbol's final value was known. -/
structure PendingUse where
  offset : UInt16
  /-- The position of the section that holds the placeholder, among the sections in the making. -/
  home : Nat
  kind : RelocationKind
  deriving DecidableEq

/-- A label or a section. The two numbers are below `2 ^ 32`: those of a line are read so, and a new
symbol's number is the number of symbols before it. -/
structure Symbol where
  name : String
  /-- The number of the section symbol that the symbol belongs to; 0 while it is undefined. -/
  owner : Nat := 0
  value : UInt16 := 0
  /-- Whether other modules may refer to the symbol. -/
  exported : Bool := false
  /-- Whether the symbol is to be found in another module. -/
  imported : Bool := false
  number : Nat
  /-- The size in bytes of a section; a label has none. -/
  size : Option UInt16 := none
  uses : List PendingUse := []
  deriving DecidableEq

namespace Symbol

/-- A symbol of a section. -/
def isSection (s : Symbol) : Bool := s.size.isSome

/-- A symbol that belongs to a section. -/
def isDefined (s : Symbol) : Bool := s.owner != 0

/-- A symbol that no other module shares. -/
def isLocal (s : Symbol) : Bool := !s.exported && !s.imported

/-- A symbol that this module gives to others. -/
def isOnlyExported (s : Symbol) : Bool := s.exported && !s.imported

/-- A truth value in a line. -/
def flagText (b : Bool) : String := if b then "true" else "false"

/-- The truth value of a field. -/
def flagOf? (cs : List Char) : Option Bool :=
  if cs = "true".toList then some true
  else if cs = "false".toList then some false
  else none

/-- The size field: -1 for a label. -/
def sizeText : Option UInt16 → String
  | some n => Text.decimal n.toNat
  | none => "-1"

/-- The size of a field; anything but -1 and a 16-bit number is refused. -/
def sizeOf? (cs : List Char) : Option (Option UInt16) :=
  match Text.readSigned cs with
  | none => none
  | some n =>
    if n = -1 then some none
    else if 0 ≤ n ∧ n < 0x10000 then some (some (UInt16.ofNat n.toNat))
    else none

/-- The line of a symbol: seven fields, each ended by a colon. -/
def line (s : Symbol) : String :=
  fieldLine [s.name, Text.decimal s.owner, Text.decimal s.value.toNat, flagText s.exported,
    flagText s.imported, Text.decimal s.number, sizeText s.size]

/-- The symbol of a line. -/
def ofLine? (s : String) : Option Symbol :=
  match s.toList.splitOn ':' with
  | [name, owner, value, exported, imported, number, size, []] => do
    let owner ← Text.readBelow 10 0x100000000 owner
    let value ← Text.readWord 10 value
    let exported ← flagOf? exported
    let imported ← flagOf? imported
    let number ← Text.readBelow 10 0x100000000 number
    let size ← sizeOf? size
    if name.isEmpty then none
    else some { name := String.ofList name, owner, value, exported, imported, number, size }
  | _ => none

/-- The name of the reserved first symbol. -/
def undefinedName : String := "UND"

/-- The reserved first symbol: an empty section that belongs to no section. -/
def undefined : Symbol := { name := undefinedName, number := 0, size := some 0 }

end Symbol

/-- The symbols of a module in the order of their creation. -/
structure SymbolTable where
  arena : Array Symbol
  deriving DecidableEq

namespace SymbolTable

/-- The table with the reserved symbol alone. -/
def new : SymbolTable := ⟨#[Symbol.undefined]⟩

/-- The number of symbols ever inserted; the next symbol gets this id, and this number. -/
def size (t : SymbolTable) : Nat := t.arena.size

/-- The symbols in the order of their creation. -/
def toList (t : SymbolTable) : List Symbol := t.arena.toList

/-- The table with one more symbol. -/
def insert (t : SymbolTable) (s : Symbol) : SymbolTable := ⟨t.arena.push s⟩

/-- The largest position below `n` that holds a name. -/
def lastBelow (arena : Array Symbol) (name : String) : Nat → Option Nat
  | 0 => none
  | n + 1 => if arena[n]?.any (·.name == name) then some n else lastBelow arena name n

/-- The id that a name stands for: the position of its latest symbol. -/
def id? (t : SymbolTable) (name : String) : Option Nat := lastBelow t.arena name t.size

/-- The symbol with an id. -/
def byId? (t : SymbolTable) (id : Nat) : Option Symbol := t.arena[id]?

/-- The symbol that a name stands for. -/
def get? (t : SymbolTable) (name : String) : Option Symbol := (t.id? name).bind t.byId?

/-- Whether a name stands for a symbol. -/
def contains (t : SymbolTable) (name : String) : Bool := (t.id? name).isSome

/-- The first symbol with a number. -/
def byNumber? (t : SymbolTable) (number : Nat) : Option Symbol :=
  t.arena.find? (·.number == number)

/-- The table with the symbol of an id changed. -/
def modify (t : SymbolTable) (id : Nat) (f : Symbol → Symbol) : SymbolTable :=
  ⟨t.arena.modify id f⟩

/-- The table with the symbol of a name changed, if the name stands for one. -/
def modifyName (t : SymbolTable) (name : String) (f : Symbol → Symbol) : SymbolTable :=
  match t.id? name with
  | some id => t.modify id f
  | none => t

/-- The table and the id for a name; an unknown name gets a new, undefined local label. -/
def intern (t : SymbolTable) (name : String) : SymbolTable × Nat :=
  match t.id? name with
  | some id => (t, id)
  | none => (t.insert { name, number := t.size }, t.size)

/-- The reserved symbol, then all others by name; equal names stay in the order of creation. -/
def sorted (t : SymbolTable) : List Symbol :=
  (t.get? Symbol.undefinedName).toList ++
    (t.toList.filter (·.name != Symbol.undefinedName)).mergeSort fun a b => decide (a.name ≤ b.name)

end SymbolTable

/-- A table with an index of its names, which only insertions write. -/
structure IndexedTable where
  table : SymbolTable := ⟨#[]⟩
  index : Named Nat := []

namespace IndexedTable

/-- An inserted symbol takes its name over in the index. -/
def insert (x : IndexedTable) (s : Symbol) : IndexedTable where
  table := x.table.insert s
  index := Keyed.put s.name x.table.size x.index

/-- The table with the reserved symbol alone. -/
def new : IndexedTable := insert {} Symbol.undefined

/-- The id that a name stands for, looked up in the index. -/
def id? (x : IndexedTable) (name : String) : Option Nat := x.index.lookup name

def modify (x : IndexedTable) (id : Nat) (f : Symbol → Symbol) : IndexedTable :=
  { x with table := x.table.modify id f }

def modifyName (x : IndexedTable) (name : String) (f : Symbol → Symbol) : IndexedTable :=
  match x.id? name with
  | some id => x.modify id f
  | none => x

def intern (x : IndexedTable) (name : String) : IndexedTable × Nat :=
  match x.id? name with
  | some id => (x, id)
  | none => (x.insert { name, number := x.table.size }, x.table.size)

end IndexedTable
end Sx16
