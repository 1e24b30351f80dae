/-
# The linker tool

Reads object modules and writes a memory image, or with `--relocatable` one object module. Places for
sections come from a file and from options; an option counts more than the file and a later option
more than an earlier one. How a command line and a file of places are read is given as functions.

Key definitions: `LinkerOptions`, `loadPlaces`, `linker`.
-/
import Sx16.Image.Text
import Sx16.Link.Partial
import Sx16.Link.PlaceOption
import Sx16.Object.Printer
import Sx16.Object.Reader
import Sx16.Tool.Console
import Sx16.Tool.Options

namespace Sx16
namespace Tool

/-- What the linker is asked for. -/
structure LinkerOptions where
  inputs : List String
  relocatable : Bool
  output : String
  places : List String
  placeFile : Option String
  deriving DecidableEq

namespace LinkerOptions

/-- The command line of the linker. -/
def form : ToolForm where
  name := "sxlink"
  about := "Linker for sx16 object modules"
  operand := "INPUT"
  many := true
  operandAbout := "Object modules, linked in the given order"
  choice := some "<--hex|--relocatable>"
  options :=
    [{ long := "hex", about := "Emit an absolute memory image" },
      { long := "relocatable", about := "Emit one merged relocatable object module" },
      { long := "output", short := some 'o', takesValue := true
        about := "Output file [default: a.hex]" },
      { long := "place", takesValue := true, repeatable := true
        about := "Fix a section start address, `<section>@<address>`" },
      { long := "place-cfg", takesValue := true
        about := "YAML file of `section: address` placements" }]

/-- The request of a command line: modules, and exactly one of the two kinds of result. -/
def ofArguments (arguments : List String) : Request LinkerOptions :=
  (form.read arguments).filterMap fun gs =>
    let inputs := Given.positionals gs
    let relocatable := Given.isSet "relocatable" gs
    if inputs.isEmpty || Given.isSet "hex" gs == relocatable then none
    else
      some {
        inputs, relocatable
        output := (Given.value? "output" gs).getD "a.hex"
        places := Given.values "place" gs
        placeFile := Given.value? "place-cfg" gs }

/-- The files that are read. -/
def reads (o : LinkerOptions) : List String := o.inputs ++ o.placeFile.toList

end LinkerOptions

/-- Some long options may have a single hyphen. -/
def withHyphens (argument : String) : String :=
  if argument = "-hex" || argument = "-relocatable" || argument.startsWith "-place=" then
    "-" ++ argument
  else argument

/-- The report of an error in linking. -/
def linkReport (e : LinkError) : String := Text.errorLine e.message

open Console

/-- The modules of files. -/
def readModules (files : Files) : List String → Console (List ObjectModule)
  | [] => return []
  | path :: paths => do
    printLine ("  < " ++ path)
    let text ← require FileError.report (readText files path)
    let m ← require (fun e => (FileError.notModule path e).report) (ObjectModule.ofText text)
    let ms ← readModules files paths
    return m :: ms

/-- Places in the order of their names. -/
def byName (places : Named UInt16) : Named UInt16 :=
  places.mergeSort fun a b => decide (a.1 < b.1 ∨ a.1 = b.1 ∧ a.2 ≤ b.2)

/-- The places in a file, in the order of their names. -/
def loadPlaces (config : ConfigReader) (files : Files) (path : String) :
    Except FileError (Named UInt16) := do
  return Keyed.ofList (byName (← readConfiguration files config.places path))

/-- The places that are asked for. -/
def readPlaces (config : ConfigReader) (o : LinkerOptions) (files : Files) :
    Console (Named UInt16) := do
  let fromFile ←
    match o.placeFile with
    | none => pure []
    | some path => do
      printLine ("  < " ++ path)
      require FileError.report (loadPlaces config files path)
  let given ← require linkReport (o.places.mapM readPlace)
  return Keyed.ofList (fromFile ++ given)

/-- Carries out a change of a linkage. -/
def change {α : Type} (x : LinkM α) (l : Linkage) : Console (α × Linkage) :=
  match x l with
  | .ok a l => return (a, l)
  | .error e _ => throw (linkReport e)

/-- The line that shows where a segment is. -/
def segmentLine (s : Segment) : String :=
  "  " ++ Text.alignLeft 16 s.name ++ " " ++ Text.hex 4 s.start.toNat ++ ".." ++
    Text.hex 4 (s.start.toNat + s.bytes.size) ++ " " ++ (if s.placed then "placed" else "packed")

/-- The text of the memory image of a linkage. -/
def imageText (config : ConfigReader) (o : LinkerOptions) (files : Files) (l : Linkage) :
    Console String := do
  require linkReport l.checkResolved
  printLine "3. Place Sections"
  let places ← readPlaces config o files
  let (unused, l) ← change (Linkage.place places) l
  for name in unused do
    print (Text.warningLine ("no section named `" ++ name ++ "` to place"))
  for s in l.segments do
    printLine (segmentLine s)
  printLine "4. Relocate"
  let (image, _) ← change Linkage.relocate l
  return image.text

/-- The text of the module of a linkage, which has no use for places. -/
def moduleText (o : LinkerOptions) (l : Linkage) : Console String := do
  if !o.places.isEmpty || o.placeFile.isSome then
    print (Text.warningLine "placement is ignored for relocatable output")
  return l.toModule.text

/-- Links files. -/
def linkFiles (config : ConfigReader) (o : LinkerOptions) (files : Files) :
    Console (Option NewFile) := do
  printLine "sx16 Linker"
  printLine "1. Read Object Modules"
  let modules ← readModules files o.inputs
  printLine "2. Merge Symbols & Sections"
  let (_, l) ← change (Linkage.addAll modules) {}
  let contents ← if o.relocatable then moduleText o l else imageText config o files l
  printLine ("  > " ++ o.output)
  return some { path := o.output, contents, refusal := FileError.report }

/-- The linker tool. -/
def linker (parse : List String → Request LinkerOptions) (config : ConfigReader)
    (arguments : List String) (files : Files) : Outcome :=
  .ofRequest (fun o => linkFiles config o files) (parse (arguments.map withHyphens))

end Tool
end Sx16
