/-
# Dumps

A dump shows the registers after an instruction. At the addresses of its list it also shows the
instruction, the given words of memory and, where asked for, the words on the stack; elsewhere it
shows the registers alone, if all instructions are to be shown.

Key definitions: `Dump`, `DumpPoint`, `Dump.after`.
-/
import Sx16.Keyed
import Sx16.Processor.Execute
import Sx16.Run.Output
import Sx16.Text.Quoted

namespace Sx16

/-- What to show after the instruction at an address. -/
structure DumpPoint where
  stack : Bool := false
  memory : List UInt16 := []
  deriving DecidableEq

/-- The dumps of a run. -/
structure Dump where
  /-- The file that the points were read from. -/
  file : Option String := none
  all : Bool := false
  points : Keyed UInt16 DumpPoint := []
  deriving DecidableEq

/-- The number of an instruction and the address, as they start a line. -/
def stepHeading (time : Nat) (address : UInt16) : String :=
  "[" ++ Text.decimalPadded 4 time ++ "] " ++ Text.hex 4 address.toNat ++ ": "

/-- The line for a file with a number of entries. -/
def fileBanner (device : String) (count : Nat) (file : String) : String :=
  " * " ++ device ++ "[" ++ Text.decimal count ++ "] " ++ Text.quoted file

namespace Dump

/-- What is printed when a run starts. -/
def banner (d : Dump) : List String :=
  (if d.all then [" * Dump all"] else []) ++
    (d.file.map (fileBanner "Dump" d.points.length)).toList

/-- The rule above and below the registers. -/
def registerRule : String := " +----------+----------+----------+----------+"

/-- The rule below words of memory. -/
def wordRule : String := " +-------------------------------------------+"

/-- A row of four registers. -/
def registerRow (c : Cpu) (rs : List Register) : String :=
  " |" ++ String.join (rs.map fun r => " " ++ r.name ++ ": " ++ Text.hex 4 (c.reg r).toNat ++ " |")

/-- The lines of the registers. -/
def registerLines (c : Cpu) : List String :=
  [registerRule,
    registerRow c [.r0, .r1, .r2, .r3],
    registerRow c [.r4, .r5, .sp, .pc],
    " | psw: " ++ Text.alignLeft 37 (statusBits c.psw) ++ " |",
    registerRule]

/-- The line of a word of memory. -/
def wordLine (c : Cpu) (a : UInt16) : String :=
  " | " ++ Text.hex 4 a.toNat ++ " : " ++ Text.hex 4 (c.memory.word a).toNat ++
    "                                |"

/-- The largest number of stack words that are shown. -/
def stackDepth : Nat := 8

/-- The addresses of the stack words from the stack pointer up, none past the end of memory. The
stack is empty while the stack pointer is 0. -/
def stackAddresses (c : Cpu) : List UInt16 :=
  if c.sp = 0 then []
  else
    ((List.range stackDepth).map fun i => c.sp.toNat + 2 * i).filter (· < 0x10000) |>.map UInt16.ofNat

/-- The lines of the stack. -/
def stackLines (c : Cpu) : List String :=
  (stackAddresses c).map (wordLine c) ++ [wordRule]

/-- The lines of some words of memory. -/
def memoryLines (c : Cpu) (addresses : List UInt16) : List String :=
  addresses.map (wordLine c) ++ [wordRule]

/-- The lines after an instruction. -/
def after (d : Dump) (time : Nat) (r : Retired) (c : Cpu) : List String :=
  match d.points.lookup r.address with
  | some p =>
    (stepHeading time r.address ++ r.opcode.name) :: registerLines c ++
      (if p.stack then stackLines c else []) ++ memoryLines c p.memory
  | none => if d.all then registerLines c else []

end Dump
end Sx16
