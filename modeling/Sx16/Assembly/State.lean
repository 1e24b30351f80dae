/-
# An assembly run

The run takes one line at a time. It collects symbols and the contents of sections; a symbol in an
operand leaves a pending use at the symbol, to be resolved when the run is finished. A line that
fails keeps the changes it made before it failed, and further lines may follow.

Key definitions: `Assembly`, `Assembly.feed`, `Assembly.emit`, `Assembly.recordUse`,
`Assembly.defineLabel`.
-/
import Sx16.Assembly.Error
import Sx16.Object.Module
import Sx16.Source.Encoding

namespace Sx16

/-- The bytes that one line put into a section. -/
structure Emission where
  line : Nat
  /-- The position of the section among the sections of the run. -/
  home : Nat
  offset : UInt16
  bytes : List UInt8
  deriving DecidableEq

/-- The state of an assembly run. -/
structure Assembly where
  symbols : SymbolTable := SymbolTable.new
  sections : Array SectionData := #[]
  /-- The position of the open section. -/
  current : Option Nat := none
  /-- The offset of the next byte in the open section. -/
  location : UInt16 := 0
  /-- The number of lines fed so far. -/
  line : Nat := 0
  listing : Array Emission := #[]

/-- Whether more lines are wanted. -/
inductive Flow where
  | more | finished
  deriving DecidableEq

/-- A change of an assembly run that may fail half-way. -/
abbrev AssemblyM := EStateM AssemblyError Assembly

namespace Assembly

/-- The largest number of bytes in a section. -/
def sectionLimit : Nat := 0xFFFF

/-- The name of the section at a position. -/
def sectionName (a : Assembly) (home : Nat) : String :=
  (a.sections[home]?.map SectionData.name).getD ""

/-- The number of bytes in the section at a position. -/
def sizeAt (a : Assembly) (home : Nat) : Nat := (a.sections[home]?.map fun s => s.bytes.size).getD 0

/-- The position of the open section. -/
def openSection : AssemblyM Nat := do
  let a ← get
  match a.current with
  | some home => return home
  | none => throw (.noSection a.line)

/-- The run with the size of the open section written down at its symbol. -/
def closeSection (a : Assembly) : Assembly :=
  match a.current with
  | none => a
  | some home =>
    { a with
      symbols := a.symbols.modifyName (a.sectionName home) fun s =>
        { s with size := some a.location } }

/-- Adds bytes to the open section. -/
def emit (bytes : List UInt8) : AssemblyM Unit := do
  let home ← openSection
  let a ← get
  let size := a.sizeAt home + bytes.length
  if size > sectionLimit then throw (.sectionTooLarge a.line)
  set { a with
    sections := a.sections.modify home fun s => { s with bytes := s.bytes ++ bytes }
    listing := a.listing.push ⟨a.line, home, a.location, bytes⟩
    location := UInt16.ofNat size }

/-- Notes that a placeholder of a section stands for a symbol, which need not be known yet. -/
def recordUse (name : String) (use : PendingUse) : AssemblyM Unit :=
  modify fun a =>
    let (symbols, id) := a.symbols.intern name
    { a with symbols := symbols.modify id fun s => { s with uses := s.uses ++ [use] } }

/-- Defines a label at the next byte of the open section. -/
def defineLabel (name : String) : AssemblyM Unit := do
  let home ← openSection
  let a ← get
  let owner := ((a.symbols.get? (a.sectionName home)).map Symbol.number).getD 0
  let (symbols, id) := a.symbols.intern name
  set { a with symbols }
  match symbols.byId? id with
  | none => pure ()
  | some s =>
    if s.isSection || s.isDefined then throw (.redefinedLabel name)
    if s.imported then throw (.definesImported name)
    set { a with symbols := symbols.modify id fun s => { s with owner, value := a.location } }

/-- Marks symbols as exported, one after the other. -/
def markExported : List String → AssemblyM Unit
  | [] => pure ()
  | name :: names => do
    let a ← get
    let (symbols, id) := a.symbols.intern name
    set { a with symbols }
    if (symbols.byId? id).any Symbol.imported then throw (.exportsImported name)
    set { a with symbols := symbols.modify id fun s => { s with exported := true } }
    markExported names

/-- Marks symbols as imported, one after the other. -/
def markImported : List String → AssemblyM Unit
  | [] => pure ()
  | name :: names => do
    let a ← get
    let (symbols, id) := a.symbols.intern name
    set { a with symbols }
    if (symbols.byId? id).any Symbol.exported then throw (.importsExported name)
    if (symbols.byId? id).any Symbol.isDefined then throw (.importsDefined name)
    set { a with symbols := symbols.modify id fun s => { s with imported := true } }
    markImported names

/-- Closes the open section and opens a new one. -/
def startSection (name : String) : AssemblyM Unit := do
  modify closeSection
  let a ← get
  if a.symbols.contains name then throw (.sectionDefined a.line)
  let number := a.symbols.size
  set { a with
    symbols := a.symbols.insert
      { name, number, owner := number, exported := true, imported := true, size := some 0 }
    sections := a.sections.push { name }
    current := some a.sections.size
    location := 0 }

/-- Notes the symbols among values that stand from an offset of a section on. -/
def recordWords (home : Nat) : UInt16 → List Value → AssemblyM Unit
  | _, [] => pure ()
  | offset, .literal _ :: vs => recordWords home (offset + 2) vs
  | offset, .symbol name :: vs => do
    recordUse name ⟨offset, home, .symbolWord⟩
    recordWords home (offset + 2) vs

/-- Carries out a directive. -/
def direct : Directive → AssemblyM Flow
  | .exports names => do
    markExported names
    return .more
  | .imports names => do
    markImported names
    return .more
  | .newSection name => do
    startSection name
    return .more
  | .words values => do
    let home ← openSection
    recordWords home (← get).location values
    emit (values.flatMap fun v => Word.bytes v.placeholder)
    return .more
  | .ascii bytes => do
    emit bytes
    return .more
  | .skip count => do
    emit (List.replicate count.toNat 0)
    return .more
  | .finish => do
    modify closeSection
    return .finished

/-- Puts an instruction into the open section. -/
def instruct (i : Instruction) : AssemblyM Flow := do
  let home ← openSection
  let e := i.encode
  match e.fixup with
  | some f => recordUse f.symbol ⟨(← get).location + f.pos, home, f.kind⟩
  | none => pure ()
  emit e.bytes
  return .more

/-- Takes the next line of the source text. -/
def feed (code : String) : AssemblyM Flow := do
  modify fun a => { a with line := a.line + 1 }
  match SourceLine.ofText code with
  | .error fault => throw (.faultyLine (← get).line fault)
  | .ok l =>
    match l.label with
    | some name => defineLabel name
    | none => pure ()
    match l.statement with
    | none => return .more
    | some (.directive d) => direct d
    | some (.instruction i) => instruct i

end Assembly
end Sx16
