/-
# The assembler tool

Reads a source text and writes its object module. With `--dump` it prints the listing of the lines
read before symbols are resolved. How a command line is read is given as a function.

Key definitions: `AssemblerOptions`, `assembler`.
-/
import Sx16.Assembly.Listing
import Sx16.Assembly.Resolve
import Sx16.Object.Printer
import Sx16.Tool.Console
import Sx16.Tool.Options

namespace Sx16
namespace Tool

/-- What the assembler is asked for. -/
structure AssemblerOptions where
  input : String
  output : Option String
  listing : Bool
  deriving DecidableEq

namespace AssemblerOptions

/-- The command line of the assembler. -/
def form : ToolForm where
  name := "sxasm"
  about := "Two-pass assembler for the sx16 architecture"
  operand := "INPUT"
  operandAbout := "Input file"
  options :=
    [{ long := "output", short := some 'o', takesValue := true
       about := "Output file, defaults to the input with a `.o` extension" },
      { long := "dump", short := some 'd'
        about := "Dump assembled bytes next to each source line" }]

/-- The request of a command line. -/
def ofArguments (arguments : List String) : Request AssemblerOptions :=
  (form.read arguments).filterMap fun gs =>
    match Given.positionals gs with
    | [input] => some { input, output := Given.value? "output" gs, listing := Given.isSet "dump" gs }
    | _ => none

/-- A path with the extension of object modules. A name's extension starts at its last period, but
not at its first character. What is left up to this period may be a directory above, which gets no
extension. -/
def modulePath (path : String) : String :=
  let name := (path.toList.reverse.takeWhile (· != '/')).reverse
  let folder := path.toList.take (path.length - name.length)
  let stem := ((name.reverse.dropWhile (· != '.')).drop 1).reverse
  if stem = ['.'] then String.ofList (folder ++ "..".toList)
  else String.ofList (folder ++ (if stem.isEmpty then name else stem)) ++ ".o"

/-- The path of the module. -/
def path (o : AssemblerOptions) : String := o.output.getD (modulePath o.input)

/-- The files that are read. -/
def reads (o : AssemblerOptions) : List String := [o.input]

end AssemblerOptions

open Console

/-- Assembles a file. Reports show the line of an error that stops the reading, but no cause. -/
def assembleFile (o : AssemblerOptions) (files : Files) : Console (Option NewFile) := do
  printLine "sx16 Assembler"
  printLine "1. Read File and Parse Lines"
  printLine ("  < " ++ o.input)
  let source := Text.lines (← require (fun e => Text.errorLine e.message) (readText files o.input))
  match Assembly.feedAll source {} with
  | .error e a => throw (e.report o.input (e.line?.or (some a.line)) source)
  | .ok _ a => do
    if o.listing then print (a.listingText source)
    printLine "2. Resolve Symbols & Write Object Module"
    let m ← require (fun e => e.report o.input none source) a.finish
    printLine ("  > " ++ o.path)
    return some { path := o.path, contents := m.text, refusal := fun e => Text.errorLine e.message }

/-- The assembler tool. -/
def assembler (parse : List String → Request AssemblerOptions) (arguments : List String)
    (files : Files) : Outcome :=
  .ofRequest (fun o => assembleFile o files) (parse arguments)

end Tool
end Sx16
