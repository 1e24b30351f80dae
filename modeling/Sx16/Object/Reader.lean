/-
# Reading an object module

The reader takes the lines of a text, each without the blanks at its end and with its number, and
follows the form that the printer writes. Symbol lines of the reserved name are passed over, since
every table has that symbol already. What stands after the last marker does not matter.

Key definitions: `readSymbols`, `readRelocations`, `readSections`, `ObjectModule.ofText`.
-/
import Sx16.FormatError
import Sx16.Object.Module
import Sx16.Text.Blank
import Sx16.Text.Lines

namespace Sx16

/-- The bytes of a line: numbers between colons; empty pieces count for nothing. -/
def readBytes (s : String) : Option (List UInt8) :=
  ((s.toList.splitOn ':').filter fun p => !p.isEmpty).mapM (Text.readByte 16)

/-- The symbols up to their end marker, and the lines after it. -/
def readSymbols : SymbolTable → List Text.NumberedLine →
    Except FormatError (SymbolTable × List Text.NumberedLine)
  | _, [] => .error (.unexpectedEof .endSymbols)
  | t, (n, l) :: r =>
    if l = Awaited.endSymbols.text then .ok (t, r)
    else
      match Symbol.ofLine? l with
      | none => .error (.malformed .symbol n l)
      | some s => readSymbols (if s.name = Symbol.undefinedName then t else t.insert s) r

/-- The relocations up to their end marker, and the lines after it. -/
def readRelocations : List Text.NumberedLine → Except FormatError (List Relocation × List Text.NumberedLine)
  | [] => .error (.unexpectedEof .endRelocations)
  | (n, l) :: r =>
    if l = Awaited.endRelocations.text then .ok ([], r)
    else
      match Relocation.ofLine? l with
      | none => .error (.malformed .relocation n l)
      | some x =>
        match readRelocations r with
        | .error e => .error e
        | .ok (xs, r') => .ok (x :: xs, r')

theorem length_readRelocations {ls : List Text.NumberedLine} {xs : List Relocation}
    {r : List Text.NumberedLine} (h : readRelocations ls = .ok (xs, r)) : r.length ≤ ls.length := by
  induction ls generalizing xs with
  | nil => simp [readRelocations] at h
  | cons p ls ih =>
    rw [readRelocations] at h
    split at h
    · cases h
      simp
    · split at h
      · cases h
      · split at h
        · cases h
        · cases h
          rename_i h'
          have := ih h'
          simp
          omega

/-- The end of a section after its bytes: an end marker, or the relocations and an end marker. -/
def readSectionEnd : List Text.NumberedLine → Except FormatError (List Relocation × List Text.NumberedLine)
  | [] => .error (.unexpectedEof .endSection)
  | (n, l) :: r =>
    if l = Awaited.endSection.text then .ok ([], r)
    else if l = Awaited.relocations.text then
      match readRelocations r with
      | .error e => .error e
      | .ok (_, []) => .error (.unexpectedEof .endSection)
      | .ok (xs, (n', l') :: r') =>
        if l' = Awaited.endSection.text then .ok (xs, r')
        else .error (.expected .endSection n' l')
    else .error (.expected .endSection n l)

theorem length_readSectionEnd {ls : List Text.NumberedLine} {xs : List Relocation}
    {r : List Text.NumberedLine} (h : readSectionEnd ls = .ok (xs, r)) : r.length ≤ ls.length := by
  unfold readSectionEnd at h
  split at h
  · cases h
  · split at h
    · cases h
      simp
    · split at h
      · split at h
        · cases h
        · cases h
        · rename_i hr
          have := length_readRelocations hr
          split at h
          · cases h
            simp at this ⊢
            omega
          · cases h
      · cases h

/-- The sections up to the marker for the end of the file. -/
def readSections : List Text.NumberedLine → Except FormatError (List SectionData)
  | [] => .error (.unexpectedEof .endFile)
  | (n, l) :: r =>
    if l = Awaited.endFile.text then .ok []
    else if l = Awaited.newSection.text then
      match r with
      | [] => .error (.unexpectedEof .sectionName)
      | [_] => .error (.unexpectedEof .sectionBytes)
      | (_, name) :: (n', code) :: r' =>
        match readBytes code with
        | none => .error (.malformed .sectionBytes n' code)
        | some bytes =>
          match _h : readSectionEnd r' with
          | .error e => .error e
          | .ok (relocations, r'') =>
            match readSections r'' with
            | .error e => .error e
            | .ok sections => .ok (⟨name, bytes.toArray, relocations⟩ :: sections)
    else .error (.expected .newSection n l)
termination_by ls => ls.length
decreasing_by
  have := length_readSectionEnd _h
  simp
  omega

/-- The module of a text. -/
def ObjectModule.ofText (s : String) : Except FormatError ObjectModule :=
  let ls := (Text.numberedLines s).map fun p => (p.1, String.ofList (Text.trimEnd p.2.toList))
  match readSymbols SymbolTable.new ls with
  | .error e => .error e
  | .ok (symbols, r) =>
    match readSections r with
    | .error e => .error e
    | .ok sections => .ok ⟨symbols, sections⟩

end Sx16
