/-
# The tools as a program

The first argument names the tool: `sxasm`, `sxlink` or `sxemu`. This layer reads the files that a
tool asks for, prints what it prints and writes the file it makes. The emulator runs by the wall
clock, and what is typed reaches it while it runs.
-/
import Sx16.Config.Table
import Sx16.Tool.Assembler
import Sx16.Tool.Emulator
import Sx16.Tool.Linker

namespace Sx16
namespace Main

/-- What the operating system says of an error, with its number. -/
def causeText : IO.Error → String
  | .noFileOrDirectory _ _ _ => "No such file or directory (os error 2)"
  | .permissionDenied _ _ _ => "Permission denied (os error 13)"
  | .inappropriateType _ _ _ => "Is a directory (os error 21)"
  | e => toString e

/-- The obstacle of an error. -/
def obstacle (e : IO.Error) : Tool.Obstacle :=
  match e with
  | .inappropriateType _ _ _ => .notRead (causeText e)
  | _ => .notOpened (causeText e)

/-- The contents of files. -/
def readFiles (paths : List String) : IO Tool.Files := do
  let found ← paths.mapM fun (path : String) => do
    try
      let bytes ← IO.FS.readBinFile path
      return (path, (Except.ok bytes : Except Tool.Obstacle ByteArray))
    catch e => return (path, Except.error (obstacle e))
  return fun path => (found.lookup path).getD (.error (.notOpened "not read"))

/-- Prints the output of a tool. -/
def put (out : List Output) : IO Unit := do
  let stdout ← IO.getStdout
  stdout.write ⟨(Output.bytes out).toArray⟩
  stdout.flush

/-- Creates and writes a file; gives the error if that is refused. -/
def create (f : Tool.NewFile) : IO (Option Tool.FileError) := do
  let handle ←
    try IO.FS.Handle.mk f.path .write
    catch e => return some (.cannotCreate f.path (causeText e))
  try
    handle.write f.bytes
    handle.flush
    return none
  catch e => return some (.cannotWrite f.path (causeText e))

/-- Prints and writes what comes of a tool, and gives its exit status. -/
def settle (o : Tool.Outcome) : IO UInt32 := do
  put o.output
  match o.file with
  | none => return o.status.toUInt32
  | some f =>
    match ← create f with
    | none => return o.status.toUInt32
    | some e =>
      let after := o.refused (f.refusal e) none
      put (after.output.drop o.output.length)
      return after.status.toUInt32

/-- Collects what is typed until its end. -/
partial def collect (stdin : IO.FS.Stream) (typed : IO.Ref (List UInt8)) : IO Unit := do
  let bytes ← stdin.read 1
  if bytes.isEmpty then return
  typed.modify (· ++ bytes.toList)
  collect stdin typed

/-- Runs a session, printing as it goes. -/
partial def live (typed : IO.Ref (List UInt8)) (began : Nat) (left time : Nat) (s : Session) :
    IO Ended := do
  put s.output.toList
  let s := { s with output := #[] }
  if left = 0 then return s.finish
  let s := s.type (← typed.modifyGet fun bytes => (bytes, []))
  match s.cycle ((← IO.monoMsNow) - began) time with
  | .running s => live typed began (left - 1) (time + 1) s
  | .halted s => return s.finish
  | .faulty e s => return ⟨s, some e⟩

/-- The emulator with a live terminal. -/
def emulate (o : Tool.EmulatorOptions) : IO UInt32 := do
  let files ← readFiles o.reads
  match Tool.openSession Config.reader o files {} #[] with
  | .error report printed => do
    put (printed.toList ++ [.text report])
    return 1
  | .ok s printed => do
    put printed.toList
    let typed ← IO.mkRef []
    let _ ← IO.asTask (collect (← IO.getStdin) typed)
    let ended ← live typed (← IO.monoMsNow) (o.limit.getD defaultLimit) 0 s
    put ended.session.output.toList
    settle (.ofConsole do
      Tool.closeSession o ended
      return none)

/-- Carries out a request. -/
def fulfil {α : Type} (form : Tool.ToolForm) (work : α → IO UInt32) : Tool.Request α → IO UInt32
  | .misuse => do
    IO.eprint form.helpText
    return 2
  | .information text => do
    put [.text text]
    return 0
  | .run options => work options

/-- Assembles a file. -/
def assemble (o : Tool.AssemblerOptions) : IO UInt32 := do
  let files ← readFiles o.reads
  settle (.ofConsole (Tool.assembleFile o files))

/-- Links files. -/
def link (o : Tool.LinkerOptions) : IO UInt32 := do
  let files ← readFiles o.reads
  settle (.ofConsole (Tool.linkFiles Config.reader o files))

end Main
end Sx16

open Sx16

/-- Runs the tool that the first argument names. -/
def main (arguments : List String) : IO UInt32 := do
  match arguments with
  | "sxasm" :: r =>
    Main.fulfil Tool.AssemblerOptions.form Main.assemble (Tool.AssemblerOptions.ofArguments r)
  | "sxlink" :: r =>
    Main.fulfil Tool.LinkerOptions.form Main.link
      (Tool.LinkerOptions.ofArguments (r.map Tool.withHyphens))
  | "sxemu" :: r =>
    Main.fulfil Tool.EmulatorOptions.form Main.emulate (Tool.EmulatorOptions.ofArguments r)
  | _ => do
    IO.eprintln "usage: sxasm|sxlink|sxemu ARGUMENTS"
    return 2
