/-
# Command lines

An argument that starts with a hyphen and is more than that hyphen gives options: `--name` and
`--name=value` by a long name, `-n` by a short one. Short options without a value may share a hyphen,
and the value of a short option may follow at once, with or without an equals sign. Otherwise the
value is the next argument, which may not start an option. Two hyphens alone end the options. An
option is given once unless its form says otherwise. Every tool tells its version and how it is used,
if it is asked to before anything wrong.

Key definitions: `OptionForm`, `ToolForm`, `Given`, `Request`, `ToolForm.read`.
-/
import Sx16.Text.Numeral

namespace Sx16
namespace Tool

/-- An option that a tool knows. -/
structure OptionForm where
  long : String
  short : Option Char := none
  takesValue : Bool := false
  repeatable : Bool := false
  /-- Which values it may have. -/
  accepts : String → Bool := fun _ => true
  about : String

/-- What a tool knows of its command line. -/
structure ToolForm where
  name : String
  about : String
  /-- What the arguments that are no options are called. -/
  operand : String
  /-- Whether there may be several of them. -/
  many : Bool := false
  operandAbout : String
  /-- The options of which one is needed, as they are shown. -/
  choice : Option String := none
  options : List OptionForm

/-- What an argument gives. -/
inductive Given where
  | positional (value : String)
  | flag (name : String)
  | setting (name value : String)
  deriving DecidableEq

namespace Given

/-- The name of the option that is given. -/
def name? : Given → Option String
  | positional _ => none
  | flag name | setting name _ => some name

/-- The arguments that are no options. -/
def positionals (gs : List Given) : List String :=
  gs.filterMap fun g =>
    match g with
    | positional value => some value
    | flag _ | setting _ _ => none

/-- The values that an option is given. -/
def values (name : String) (gs : List Given) : List String :=
  gs.filterMap fun g =>
    match g with
    | setting n value => if n = name then some value else none
    | positional _ | flag _ => none

/-- The value of an option that is given at most once. -/
def value? (name : String) (gs : List Given) : Option String := (values name gs).head?

/-- Whether an option without a value is given. -/
def isSet (name : String) (gs : List Given) : Bool := gs.contains (flag name)

end Given

/-- Whether an argument gives options. -/
def startsOption (argument : String) : Bool :=
  match argument.toList with
  | '-' :: _ :: _ => true
  | _ => false

/-- What one argument gives, up to the first thing that is wrong. -/
structure ArgumentReading where
  given : List Given := []
  /-- The option that the next argument is the value of. -/
  awaiting : Option String := none
  isWrong : Bool := false

/-- What short options give. -/
def readShort (forms : List OptionForm) : List Char → ArgumentReading
  | [] => {}
  | c :: r =>
    match forms.find? (·.short == some c), r with
    | none, _ => { isWrong := true }
    | some f, r =>
      if f.takesValue then
        match r with
        | [] => { awaiting := some f.long }
        | '=' :: value | value => { given := [.setting f.long (String.ofList value)] }
      else { readShort forms r with given := .flag f.long :: (readShort forms r).given }

/-- What a long option gives. -/
def readLong (forms : List OptionForm) (cs : List Char) : ArgumentReading :=
  match forms.find? (·.long.toList == cs.takeWhile (· != '=')), cs.dropWhile (· != '=') with
  | none, _ => { isWrong := true }
  | some f, [] =>
    if f.takesValue then { awaiting := some f.long } else { given := [.flag f.long] }
  | some f, _ :: value =>
    if f.takesValue then { given := [.setting f.long (String.ofList value)] }
    else { isWrong := true }

/-- What an argument gives. -/
def readArgument (forms : List OptionForm) (argument : String) : ArgumentReading :=
  match argument.toList with
  | '-' :: '-' :: cs => readLong forms cs
  | '-' :: c :: cs => readShort forms (c :: cs)
  | _ => { given := [.positional argument] }

/-- What arguments give, up to the first thing that is wrong, which is none; the first of them is the
value of `awaiting`, if that is an option. -/
def readAll (forms : List OptionForm) : (awaiting : Option String) → List String →
    List (Option Given)
  | none, [] => []
  | some _, [] => [none]
  | some name, value :: r =>
    if startsOption value then [none] else some (.setting name value) :: readAll forms none r
  | none, a :: r =>
    if a = "--" then r.map fun p => some (.positional p)
    else
      let reading := readArgument forms a
      reading.given.map some ++
        if reading.isWrong then [none] else readAll forms reading.awaiting r

/-- What a command line asks for. -/
inductive Request (α : Type) where
  /-- Nothing, because it is wrong. -/
  | misuse
  /-- A text about the tool. -/
  | information (text : String)
  | run (options : α)
  deriving DecidableEq

/-- The request with its options read; without them it is wrong. -/
def Request.filterMap {α β : Type} (read : α → Option β) : Request α → Request β
  | misuse => misuse
  | information text => information text
  | run a =>
    match read a with
    | some b => run b
    | none => misuse

/-- The version of the tools. -/
def version : String := "0.1.0"

/-- The option that asks how a tool is used. -/
def helpOption : OptionForm := { long := "help", short := some 'h', about := "Print help" }

/-- The option that asks for the version. -/
def versionOption : OptionForm := { long := "version", short := some 'V', about := "Print version" }

/-- How an option is written. -/
def OptionForm.usage (f : OptionForm) : String :=
  (match f.short with
    | some c => "-" ++ String.singleton c ++ ", "
    | none => "    ") ++
    "--" ++ f.long ++
    if f.takesValue then
      " <" ++ String.ofList (f.long.toList.map fun c => if c = '-' then '_' else c.toUpper) ++ ">"
    else ""

/-- Lines of two columns. -/
def columns (rows : List (String × String)) : String :=
  let width := (rows.map (·.1.length)).foldl max 0
  String.join (rows.map fun r => "  " ++ Text.alignLeft width r.1 ++ "  " ++ r.2 ++ "\n")

namespace ToolForm

variable (f : ToolForm)

/-- The options of a tool with those that all tools have. -/
def allOptions : List OptionForm := f.options ++ [helpOption, versionOption]

/-- The line that tells the version of a tool. -/
def versionText : String := f.name ++ " " ++ version ++ "\n"

/-- The arguments that are no options, as they are shown. -/
def operandUsage : String := "<" ++ f.operand ++ ">" ++ if f.many then "..." else ""

/-- The text that tells how a tool is used. -/
def helpText : String :=
  f.versionText ++ "  " ++ f.about ++ "\n\nUsage:\n    " ++ f.name ++ " [OPTIONS] " ++
    (match f.choice with
      | some choice => choice ++ " "
      | none => "") ++
    f.operandUsage ++ "\n\nArguments:\n" ++ columns [(f.operandUsage, f.operandAbout)] ++
    "\nOptions:\n" ++ columns (f.allOptions.map fun o => (o.usage, o.about))

/-- Whether something may be given after `seen`. -/
def admits (seen : List Given) : Given → Bool
  | .positional _ => f.many || (Given.positionals seen).isEmpty
  | .flag name => !seen.contains (.flag name)
  | .setting name value =>
    f.options.any fun o =>
      o.long == name && o.accepts value && (o.repeatable || (Given.values name seen).isEmpty)

/-- What is asked for by what is given after `seen`. -/
def decideAfter : (seen : List Given) → List (Option Given) → Request (List Given)
  | seen, [] => .run seen
  | _, none :: _ => .misuse
  | seen, some g :: r =>
    if g = .flag helpOption.long then .information f.helpText
    else if g = .flag versionOption.long then .information f.versionText
    else if f.admits seen g then decideAfter (seen ++ [g]) r
    else .misuse

/-- What a command line asks for. -/
def read (arguments : List String) : Request (List Given) :=
  f.decideAfter [] (readAll f.allOptions none arguments)

end ToolForm
end Tool
end Sx16
