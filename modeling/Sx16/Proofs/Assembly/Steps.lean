/-
# What each operation of an assembly run does

One equation for each operation: the state it ends in, and where it fails, the error and what it had
changed before. Everything about runs is derived from these.

Key definitions: `Assembly.ownerOf`, `Assembly.change`, `Assembly.mention`.
Key theorems: `Assembly.run_emit`, `Assembly.run_recordUse`, `Assembly.run_defineLabel`,
`Assembly.run_markExported_cons`, `Assembly.run_markImported_cons`, `Assembly.run_startSection`,
`Assembly.run_feed`.
-/
import Sx16.Assembly.State
import Sx16.Proofs.SymbolTable

namespace Sx16
namespace Assembly

variable (a : Assembly)

/-- The number of the symbol of the section at a position. -/
def ownerOf (home : Nat) : Nat :=
  ((a.symbols.get? (a.sectionName home)).map Symbol.number).getD 0

/-- The run with the symbol of a name changed. -/
def change (name : String) (f : Symbol → Symbol) : Assembly :=
  { a with symbols := a.symbols.change name f }

/-- The run with a name made known. -/
def mention (name : String) : Assembly := { a with symbols := (a.symbols.intern name).1 }

/-- Defines the label of a line, if it has one. -/
def enter : Option String → AssemblyM Unit
  | some name => defineLabel name
  | none => pure ()

/-- Carries out the statement of a line, if it has one. -/
def carryOut : Option Statement → AssemblyM Flow
  | none => return .more
  | some (.directive d) => direct d
  | some (.instruction i) => instruct i

theorem run_openSection : openSection.run a =
    match a.current with
    | some home => .ok home a
    | none => .error (.noSection a.line) a := by
  unfold openSection
  rw [EStateM.run_bind, EStateM.run_get]
  cases h : a.current <;> simp only [h] <;> rfl

/-- Bytes go to the end of the open section, if they fit. -/
theorem run_emit (bytes : List UInt8) : (emit bytes).run a =
    match a.current with
    | none => .error (.noSection a.line) a
    | some home =>
      if a.sizeAt home + bytes.length > sectionLimit then .error (.sectionTooLarge a.line) a
      else .ok () { a with
        sections := a.sections.modify home fun s => { s with bytes := s.bytes ++ bytes }
        listing := a.listing.push ⟨a.line, home, a.location, bytes⟩
        location := UInt16.ofNat (a.sizeAt home + bytes.length) } := by
  unfold emit
  rw [EStateM.run_bind, run_openSection]
  cases h : a.current with
  | none => rfl
  | some home =>
    simp only [EStateM.run_bind, EStateM.run_get]
    change EStateM.run (if a.sizeAt home + bytes.length > sectionLimit then _ else _) a = _
    split
    · rfl
    · simp only [h]
      rfl

theorem run_recordUse (name : String) (use : PendingUse) : (recordUse name use).run a =
    .ok () (a.change name fun s => { s with uses := s.uses ++ [use] }) := rfl

/-- A label gets the place of the next byte, unless its name is taken or imported. -/
theorem run_defineLabel (name : String) : (defineLabel name).run a =
    match a.current with
    | none => .error (.noSection a.line) a
    | some home =>
      if (a.symbols.meaning name).isSection || (a.symbols.meaning name).isDefined then
        .error (.redefinedLabel name) (a.mention name)
      else if (a.symbols.meaning name).imported then .error (.definesImported name) (a.mention name)
      else .ok () (a.change name fun s => { s with owner := a.ownerOf home, value := a.location }) := by
  unfold defineLabel
  rw [EStateM.run_bind, run_openSection]
  cases a.current with
  | none => rfl
  | some home =>
    simp only [EStateM.run_bind, EStateM.run_get, EStateM.run_set]
    rw [SymbolTable.byId?_intern]
    change EStateM.run
      (if (a.symbols.meaning name).isSection || (a.symbols.meaning name).isDefined then _ else _)
      (a.mention name) = _
    split
    · rfl
    · change EStateM.run (if (a.symbols.meaning name).imported then _ else _) (a.mention name) = _
      split <;> rfl

theorem run_markExported_cons (name : String) (names : List String) :
    (markExported (name :: names)).run a =
      if (a.symbols.meaning name).imported then .error (.exportsImported name) (a.mention name)
      else (markExported names).run (a.change name fun s => { s with exported := true }) := by
  rw [markExported]
  simp only [EStateM.run_bind, EStateM.run_get, EStateM.run_set]
  rw [SymbolTable.byId?_intern]
  change EStateM.run (if (a.symbols.meaning name).imported then _ else _) (a.mention name) = _
  split <;> rfl

/-- A name that is neither exported nor defined becomes imported. -/
theorem run_markImported_cons (name : String) (names : List String) :
    (markImported (name :: names)).run a =
      if (a.symbols.meaning name).exported then .error (.importsExported name) (a.mention name)
      else if (a.symbols.meaning name).isDefined then .error (.importsDefined name) (a.mention name)
      else (markImported names).run (a.change name fun s => { s with imported := true }) := by
  rw [markImported]
  simp only [EStateM.run_bind, EStateM.run_get, EStateM.run_set]
  rw [SymbolTable.byId?_intern]
  change EStateM.run (if (a.symbols.meaning name).exported then _ else _) (a.mention name) = _
  split
  · rfl
  · change EStateM.run (if (a.symbols.meaning name).isDefined then _ else _) (a.mention name) = _
    split <;> rfl

/-- The open section is closed, and a section with a new name opened. -/
theorem run_startSection (name : String) : (startSection name).run a =
    if a.closeSection.symbols.contains name then .error (.sectionDefined a.closeSection.line) a.closeSection
    else .ok () { a.closeSection with
      symbols := a.closeSection.symbols.insert (a.closeSection.symbols.freshSection name)
      sections := a.closeSection.sections.push { name }
      current := some a.closeSection.sections.size
      location := 0 } := by
  unfold startSection
  simp only [EStateM.run_bind, EStateM.run_modify, EStateM.run_get]
  change EStateM.run (if a.closeSection.symbols.contains name then _ else _) a.closeSection = _
  split <;> rfl

theorem run_recordWords_symbol (home : Nat) (offset : UInt16) (name : String) (vs : List Value) :
    (recordWords home offset (.symbol name :: vs)).run a =
      (recordWords home (offset + 2) vs).run
        (a.change name fun s => { s with uses := s.uses ++ [⟨offset, home, .symbolWord⟩] }) := rfl

theorem run_recordWords_literal (home : Nat) (offset v : UInt16) (vs : List Value) :
    (recordWords home offset (.literal v :: vs)).run a = (recordWords home (offset + 2) vs).run a := rfl

/-- A line is read, then its label is defined, then its statement is carried out. -/
theorem run_feed (code : String) : (feed code).run a =
    match SourceLine.ofText code with
    | .error fault => .error (.faultyLine (a.line + 1) fault) { a with line := a.line + 1 }
    | .ok l => (enter l.label >>= fun _ => carryOut l.statement).run { a with line := a.line + 1 } := by
  unfold feed
  simp only [EStateM.run_bind, EStateM.run_modify]
  cases SourceLine.ofText code with
  | error fault => rfl
  | ok l =>
    obtain ⟨label, statement⟩ := l
    cases label <;> rfl

end Assembly
end Sx16
