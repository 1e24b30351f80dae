/-
# Tables of numbers

Three kinds of configuration are maps: the places of sections by name, the interrupt requests by the
number of an instruction, and the dump points by address. Of several entries for a key the last one
counts, and a map or list that is left out is empty. A number is a plain scalar in decimal without
zeros in front, or in base sixteen, eight or two after `0x`, `0o` or `0b`, and may have one plus sign
in front. A literal block is a number or a truth value if it is tagged as one.

Key definitions: `places?`, `requests?`, `dumpPoints?`, `reader`.
-/
import Sx16.Config.Node
import Sx16.Tool.Console

namespace Sx16
namespace Config

/-- A number without its sign. -/
def readUnsigned : List Char → Option Nat
  | '0' :: 'x' :: r => Text.readNat 16 r
  | '0' :: 'o' :: r => Text.readNat 8 r
  | '0' :: 'b' :: r => Text.readNat 2 r
  | '0' :: _ :: _ => none
  | cs => Text.readNat 10 cs

/-- A number. -/
def readNumber : List Char → Option Nat
  | '+' :: r => readUnsigned r
  | cs => readUnsigned cs

/-- The tag of whole numbers. -/
def numberTag : String := "tag:yaml.org,2002:int"

/-- The tag of truth values. -/
def truthTag : String := "tag:yaml.org,2002:bool"

namespace Document

variable (d : Document)

/-- The text of a scalar. -/
def text? (n : Node) : Option String :=
  match d.follow n with
  | .scalar s _ => some s.text
  | _ => none

/-- The text of a scalar that may be a value of the kind of a tag. -/
def textOfKind? (kind : String) (n : Node) : Option String :=
  match d.follow n with
  | .scalar s tag =>
    if s.form = .plain ∨ (s.form = .literal ∧ tag = some kind) then some s.text else none
  | _ => none

/-- The entries of a map. -/
def entries? (n : Node) : Option (List (Node × Node)) :=
  match d.follow n with
  | .map entries => some entries
  | .scalar s _ => if s = Scalar.absent then some [] else none
  | _ => none

/-- The items of a list. -/
def items? (n : Node) : Option (List Node) :=
  match d.follow n with
  | .list items => some items
  | .scalar s _ => if s = Scalar.absent then some [] else none
  | _ => none

/-- A number below a limit. -/
def below? (limit : Nat) (n : Node) : Option Nat :=
  (d.textOfKind? numberTag n).bind fun s => (readNumber s.toList).filter (· < limit)

/-- A number of sixteen bits. -/
def word? (n : Node) : Option UInt16 := (d.below? 0x10000 n).map UInt16.ofNat

/-- A truth value. -/
def truth? (n : Node) : Option Bool :=
  (d.textOfKind? truthTag n).bind fun s =>
    if ["true", "True", "TRUE"].contains s then some true
    else if ["false", "False", "FALSE"].contains s then some false
    else none

/-- A map with its keys and values read; the last of several values for a key. -/
def table? {κ α : Type} [DecidableEq κ] (key : Node → Option κ) (value : Node → Option α)
    (n : Node) : Option (Keyed κ α) := do
  let entries ← d.entries? n
  return Keyed.ofList (← entries.mapM fun e => do return (← key e.1, ← value e.2))

/-- The value of a field that may be left out but not given twice. -/
def field? {α : Type} (entries : List (String × Node)) (name : String) (absent : α)
    (read : Node → Option α) : Option α :=
  match entries.filter (·.1 = name) with
  | [] => some absent
  | [e] => read e.2
  | _ => none

/-- A dump point; other fields do not matter. -/
def dumpPoint? (n : Node) : Option DumpPoint := do
  let entries ← (← d.entries? n).mapM fun e => do return (← d.text? e.1, e.2)
  let stack ← field? entries "stack" false d.truth?
  let memory ← field? entries "mem" [] fun n => do (← d.items? n).mapM d.word?
  return { stack, memory }

end Document

/-- The places of sections in a file, by name. -/
def places? (bytes : ByteArray) : Option (Named UInt16) := do
  let d ← Document.read? bytes
  d.table? d.text? d.word? d.root

/-- The interrupt requests in a file, by the number of an instruction. -/
def requests? (bytes : ByteArray) : Option (Keyed Nat UInt8) := do
  let d ← Document.read? bytes
  d.table? (d.below? 0x10000000000000000) (fun n => (d.below? 0x100 n).map UInt8.ofNat) d.root

/-- The dump points in a file, by address. -/
def dumpPoints? (bytes : ByteArray) : Option (Keyed UInt16 DumpPoint) := do
  let d ← Document.read? bytes
  d.table? d.word? d.dumpPoint? d.root

/-- What is wrong with a file that holds no such table. -/
def complaint : String := "not a table of numbers in range"

/-- The reader of these tables. -/
def reader : Tool.ConfigReader where
  places bytes := (places? bytes).elim (.error complaint) .ok
  requests bytes := (requests? bytes).elim (.error complaint) .ok
  dumpPoints bytes := (dumpPoints? bytes).elim (.error complaint) .ok

end Config
end Sx16
