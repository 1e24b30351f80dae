/-
# The emulator tool

Loads a memory image and runs it with the terminal, the timer, scripted interrupt requests and dumps,
up to a limit on the number of instructions. The terminal is given, with what is typed at it from the
start; so are the functions that read a command line and the files of requests and dump points.

Key definitions: `EmulatorOptions`, `emulator`.
-/
import Sx16.Image.Text
import Sx16.Processor.Report
import Sx16.Run.Session
import Sx16.Tool.Console
import Sx16.Tool.Options

namespace Sx16
namespace Tool

/-- What the emulator is asked for. -/
structure EmulatorOptions where
  input : String
  limit : Option Nat
  trace : Bool
  dumpFile : Option String
  dumpAll : Bool
  scriptFile : Option String
  timer : Bool
  deriving DecidableEq

namespace EmulatorOptions

/-- The limit that a text gives. -/
def readLimit (s : String) : Option Nat := Text.readBelow 10 0x10000000000000000 s.toList

/-- The command line of the emulator. -/
def form : ToolForm where
  name := "sxemu"
  about := "Emulator for the sx16 architecture"
  operand := "INPUT_FILE"
  operandAbout := "Memory image produced by `sxlink --hex`"
  options :=
    [{ long := "tmax", short := some 't', takesValue := true
       accepts := fun s => (readLimit s).isSome, about := "Stop after this many instructions" },
      { long := "trace", about := "Print every retired instruction" },
      { long := "dump-cfg", short := some 'd', takesValue := true
        about := "YAML file of `address: \x7b stack, mem \x7d` dump points" },
      { long := "dump-all", short := some 'a', about := "Dump registers after every instruction" },
      { long := "intr-cfg", short := some 'i', takesValue := true
        about := "YAML file of `step: line` interrupt requests" },
      { long := "no-timer", about := "Disable the interval timer" }]

/-- The request of a command line. -/
def ofArguments (arguments : List String) : Request EmulatorOptions :=
  (form.read arguments).filterMap fun gs =>
    match Given.positionals gs with
    | [input] =>
      some {
        input
        limit := (Given.value? "tmax" gs).bind readLimit
        trace := Given.isSet "trace" gs
        dumpFile := Given.value? "dump-cfg" gs
        dumpAll := Given.isSet "dump-all" gs
        scriptFile := Given.value? "intr-cfg" gs
        timer := !Given.isSet "no-timer" gs }
    | _ => none

/-- The files that are read. -/
def reads (o : EmulatorOptions) : List String :=
  o.input :: o.scriptFile.toList ++ o.dumpFile.toList

end EmulatorOptions

/-- The configuration in a file; without a file it is empty. -/
def readOptional {α : Type} (files : Files) (read : ByteArray → Except String (List α)) :
    Option String → Except FileError (List α)
  | none => .ok []
  | some path => readConfiguration files read path

/-- The script in a file. -/
def readScript (config : ConfigReader) (files : Files) (file : Option String) :
    Except FileError Script := do
  return { file, requests := ← readOptional files config.requests file }

/-- The dumps that a file asks for. -/
def readDump (config : ConfigReader) (files : Files) (file : Option String) (all : Bool) :
    Except FileError Dump := do
  return { file, all, points := ← readOptional files config.dumpPoints file }

open Console

/-- A report after an empty line. -/
def spacedReport (e : FileError) : String := "\n" ++ e.report

/-- The run of an image with a terminal. -/
def openSession (config : ConfigReader) (o : EmulatorOptions) (files : Files) (terminal : Terminal) :
    Console Session := do
  let rule := "+-----------------------------------------------+"
  printLine "sx16 Emulator"
  printLine rule
  printLine ("| " ++ Text.alignLeft 45 o.input ++ " |")
  printLine rule
  let text ← require spacedReport (readText files o.input)
  let image ← require (fun e => spacedReport (.notImage o.input e)) (Image.ofText text)
  printLine "[INIT]"
  let script ← require spacedReport (readScript config files o.scriptFile)
  let dump ← require spacedReport (readDump config files o.dumpFile o.dumpAll)
  printLine "[RUN]"
  return Session.start (Cpu.load image)
    ([Hook.terminal terminal] ++ (if o.timer then [Hook.timer {}] else []) ++
      [Hook.script script, Hook.dump dump] ++ (if o.trace then [Hook.trace] else []))

/-- The report of an error in a run, with its cause where that is known. -/
def runReport (e : RunError) : String :=
  Text.errorLine e.message ++ e.cause?.elim "" Text.causeLine

/-- The last lines after a run without an error. -/
def closing (o : EmulatorOptions) (c : Cpu) : String :=
  if c.halted then c.report
  else
    "------------------------------------------------\nEmulation stopped after " ++
      Text.decimal (o.limit.getD defaultLimit) ++ " steps\n"

/-- Prints the end of a run, or stops with the report of its error. -/
def closeSession (o : EmulatorOptions) (e : Ended) : Console Unit :=
  match e.fault with
  | some f => throw ("\n" ++ runReport f)
  | none => print (closing o e.session.cpu)

/-- Runs a file. -/
def runFile (config : ConfigReader) (o : EmulatorOptions) (files : Files) (terminal : Terminal)
    (clock : Nat → Nat) : Console (Option NewFile) := do
  let s ← openSession config o files terminal
  let e := s.steps clock (o.limit.getD defaultLimit) 0
  modify (· ++ e.session.output)
  closeSession o e
  return none

/-- The emulator tool. -/
def emulator (parse : List String → Request EmulatorOptions) (config : ConfigReader)
    (arguments : List String) (files : Files) (terminal : Terminal) (clock : Nat → Nat) : Outcome :=
  .ofRequest (fun o => runFile config o files terminal clock) (parse arguments)

end Tool
end Sx16
