/-
# Tools at work

A tool reads files, prints, and in the end writes one file or stops with a report. What it reads is
given as a function, what it prints and writes is its outcome. A file is opened as text, which has to
be UTF-8, or as a configuration, which a reader of tables understands.

What comes of a file to be written is up to the place where it is written: it cannot be created there, or
it is created and takes all of its contents or only a part of them.

Key definitions: `Obstacle`, `Files`, `ConfigReader`, `FileError`, `Console`, `Outcome`, `Storage`,
`Outcome.settled`.
-/
import Sx16.FormatError
import Sx16.Run.Dump
import Sx16.Text.Report
import Sx16.Tool.Options

namespace Sx16
namespace Tool

/-- Why there are no bytes of a file. -/
inductive Obstacle where
  | notOpened (cause : String)
  /-- What was opened is no file. -/
  | notRead (cause : String)
  deriving DecidableEq

/-- The cause of an obstacle. -/
def Obstacle.cause : Obstacle → String
  | notOpened cause | notRead cause => cause

/-- The bytes of the files by path. -/
abbrev Files := String → Except Obstacle ByteArray

/-- A reader of tables: the entries in some bytes, one for each key, or what is wrong with them. -/
structure ConfigReader where
  /-- The places of sections, by name. -/
  places : ByteArray → Except String (Named UInt16)
  /-- The interrupt requests, by the number of an instruction. -/
  requests : ByteArray → Except String (Keyed Nat UInt8)
  /-- The dump points, by address. -/
  dumpPoints : ByteArray → Except String (Keyed UInt16 DumpPoint)

/-- Why a tool cannot use a file. -/
inductive FileError where
  | cannotOpen (path cause : String)
  | cannotCreate (path cause : String)
  | cannotWrite (path cause : String)
  | notModule (path : String) (e : FormatError)
  | notImage (path : String) (e : FormatError)
  | notConfiguration (path cause : String)
  deriving DecidableEq

namespace FileError

/-- The text of the complaint. -/
def message : FileError → String
  | cannotOpen path _ => "Failed to open file: " ++ path
  | cannotCreate path _ => "Failed to create file: " ++ path
  | cannotWrite path _ => "Failed to write file: " ++ path
  | notModule path _ => "Failed to parse object module: " ++ path
  | notImage path _ => "Failed to parse memory image: " ++ path
  | notConfiguration path _ => "Failed to parse config: " ++ path

/-- What caused the error. -/
def cause : FileError → String
  | cannotOpen _ cause | cannotCreate _ cause | cannotWrite _ cause | notConfiguration _ cause => cause
  | notModule _ e | notImage _ e => e.message

/-- The report of an error with its cause. -/
def report (e : FileError) : String :=
  Text.errorLine e.message ++ Text.causeLine e.cause

end FileError

/-- The text of a file. -/
def readText (files : Files) (path : String) : Except FileError String :=
  match files path with
  | .error o => .error (.cannotOpen path o.cause)
  | .ok bytes =>
    match String.fromUTF8? bytes with
    | some s => .ok s
    | none => .error (.cannotOpen path "stream did not contain valid UTF-8")

/-- The configuration in a file. -/
def readConfiguration {α : Type} (files : Files) (read : ByteArray → Except String α) (path : String) :
    Except FileError α :=
  match files path with
  | .error (.notOpened cause) => .error (.cannotOpen path cause)
  | .error (.notRead cause) => .error (.notConfiguration path cause)
  | .ok bytes =>
    match read bytes with
    | .ok a => .ok a
    | .error cause => .error (.notConfiguration path cause)

/-- A tool at work: what it has printed, and the report that it stops with. -/
abbrev Console := EStateM String (Array Output)

namespace Console

/-- Prints a line. -/
def printLine (s : String) : Console Unit := modify (·.push (.line s))

/-- Prints a text. -/
def print (s : String) : Console Unit := modify (·.push (.text s))

/-- A value, or the report of why there is none. -/
def require {ε α : Type} (report : ε → String) : Except ε α → Console α
  | .ok a => pure a
  | .error e => throw (report e)

end Console

/-- A file to be written, and what is printed if it cannot be created or written. -/
structure NewFile where
  path : String
  contents : String
  refusal : FileError → String

/-- The bytes of a file to be written. -/
def NewFile.bytes (f : NewFile) : ByteArray := f.contents.toUTF8

/-- What comes of a tool. -/
structure Outcome where
  output : List Output := []
  file : Option NewFile := none
  /-- The exit status: 0 for success, 1 after a report, 2 if the command line is wrong. -/
  status : UInt8 := 0

namespace Outcome

/-- A command line that is wrong. -/
def misused : Outcome := { status := 2 }

/-- A text about the tool. -/
def informed (text : String) : Outcome := { output := [.text text] }

/-- The outcome of a tool at work that may write a file. -/
def ofConsole (x : Console (Option NewFile)) : Outcome :=
  match x #[] with
  | .ok file printed => { output := printed.toList, file }
  | .error report printed => { output := (printed.push (.text report)).toList, status := 1 }

/-- The outcome of a request, which `work` carries out. -/
def ofRequest {α : Type} (work : α → Console (Option NewFile)) : Request α → Outcome
  | .misuse => misused
  | .information text => informed text
  | .run options => ofConsole (work options)

end Outcome

/-- What comes of a file at a path, if a tool creates and writes one there. -/
inductive Storage where
  /-- The file cannot be created. -/
  | closed (cause : String)
  /-- The file takes so many bytes and refuses the next one. -/
  | limited (room : Nat) (cause : String)
  | free
  deriving DecidableEq

/-- Whether a file of so many bytes can be created and written. -/
def Storage.takes (size : Nat) : Storage → Bool
  | closed _ => false
  | limited room _ => size ≤ room
  | free => true

/-- What a tool leaves behind: what it has printed, its exit status, and the file that it has created or
changed, with its bytes. -/
structure Aftermath where
  output : List Output
  status : UInt8
  written : Option (String × ByteArray)

namespace Outcome

/-- What is left where a file is refused and reported. -/
def refused (o : Outcome) (report : String) (written : Option (String × ByteArray)) : Aftermath :=
  { output := o.output ++ [.text report], status := 1, written }

/-- What is left of an outcome in the end. A file that refuses a part of its contents keeps the part
before that. -/
def settled (o : Outcome) (storage : String → Storage) : Aftermath :=
  match o.file with
  | none => { output := o.output, status := o.status, written := none }
  | some f =>
    match storage f.path with
    | .closed cause => o.refused (f.refusal (.cannotCreate f.path cause)) none
    | .limited room cause =>
      if f.bytes.size ≤ room then
        { output := o.output, status := o.status, written := some (f.path, f.bytes) }
      else
        o.refused (f.refusal (.cannotWrite f.path cause)) (some (f.path, f.bytes.extract 0 room))
    | .free => { output := o.output, status := o.status, written := some (f.path, f.bytes) }

end Outcome
end Tool
end Sx16
